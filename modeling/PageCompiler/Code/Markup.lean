import PageCompiler.Code.Reference
import PageCompiler.Text.Quoted
import PageCompiler.Text.Search

/-!
# Markup in code as calls

Elements that stay inside an expression become calls that make them: an element is
`__zenith.h(tag, attributes, children)` and a fragment is `__zenith.fragment(children)`. Only the markup is
replaced, the code around and inside it stays as it is written.
-/

namespace PageCompiler.Code

/-- Whether the text holds the start of an element or fragment, as far as two characters tell. -/
def hasMarkup : List Char → Bool
  | '<' :: c :: cs => c.isAlpha || c == '>' || hasMarkup (c :: cs)
  | _ :: cs => hasMarkup cs
  | [] => false

namespace Tree

mutual

def markupSpans : Tree → List Span
  | node (.element _) span _ => [span]
  | node .fragment span _ => [span]
  | node _ _ parts => markupSpansOf parts

/-- The spans of the outermost elements and fragments of all the trees. -/
def markupSpansOf : List Tree → List Span
  | [] => []
  | t :: ts => markupSpans t ++ markupSpansOf ts

end

def listCode (codes : List String) : String :=
  if codes.isEmpty then "null" else "[" ++ joinStrings ", " codes ++ "]"

def recordCode (codes : List String) : String :=
  if codes.isEmpty then "null" else "\x7b " ++ joinStrings ", " codes ++ " \x7d"

mutual

/-- The call that makes an element or a fragment; `embed` gives the code for an expression in it. -/
def callCode (embed : Span → Except SyntaxError String) : Tree → Except SyntaxError String
  | node (.element tag) _ parts => do
    let (attributes, children) ← partCodes embed parts
    return "__zenith.h(" ++ quote tag ++ ", " ++ recordCode attributes ++ ", " ++ listCode children ++ ")"
  | node .fragment _ parts => do
    let (_, children) ← partCodes embed parts
    return "__zenith.fragment(" ++ listCode children ++ ")"
  | node _ span _ => embed span

def partCodes (embed : Span → Except SyntaxError String) :
    List Tree → Except SyntaxError (List String × List String)
  | [] => return ([], [])
  | node .attributes _ items :: ts => do
    let here ← attributeCodes embed items
    let (attributes, children) ← partCodes embed ts
    return (here ++ attributes, children)
  | node .children _ items :: ts => do
    let here ← childCodes embed items
    let (attributes, children) ← partCodes embed ts
    return (attributes, here ++ children)
  | _ :: ts => partCodes embed ts

def attributeCodes (embed : Span → Except SyntaxError String) :
    List Tree → Except SyntaxError (List String)
  | [] => return []
  | node .spreadAttribute _ [code] :: ts => do
    let here ← embed code.span
    return ("...(" ++ here ++ ")") :: (← attributeCodes embed ts)
  | node (.attr name) _ [node (.string value) _ _] :: ts => do
    return (quote name ++ ": " ++ quote value) :: (← attributeCodes embed ts)
  | node (.attr name) _ [node .container _ [code]] :: ts => do
    let here ← embed code.span
    return (quote name ++ ": " ++ here) :: (← attributeCodes embed ts)
  | node (.attr name) _ [markup] :: ts => do
    let here ← callCode embed markup
    return (quote name ++ ": " ++ here) :: (← attributeCodes embed ts)
  | node (.attr name) _ _ :: ts => do
    return (quote name ++ ": true") :: (← attributeCodes embed ts)
  | _ :: ts => attributeCodes embed ts

def childCodes (embed : Span → Except SyntaxError String) :
    List Tree → Except SyntaxError (List String)
  | [] => return []
  | node (.rawText value) _ _ :: ts => do
    let text := trimString value
    let rest ← childCodes embed ts
    return if text.isEmpty then rest else quote text :: rest
  | node .container _ [code] :: ts => do
    let here ← embed code.span
    return here :: (← childCodes embed ts)
  | node .container _ _ :: ts => childCodes embed ts
  | node .spreadChild _ [code] :: ts => do
    let here ← embed code.span
    return ("...(" ++ here ++ ")") :: (← childCodes embed ts)
  | markup :: ts => do
    let here ← callCode embed markup
    return here :: (← childCodes embed ts)

end

end Tree

/-- The code with its markup as calls. Markup inside the code of markup is one level deeper; there are at
most `depth` levels. -/
def lowerMarkup (depth : Nat) (code : List Char) : Except SyntaxError String :=
  match depth with
  | 0 => throw ⟨0⟩
  | depth + 1 => do
    if !hasMarkup code then return String.ofList code
    let tree ← parseExpression code
    let edits ← tree.markupSpans.mapM fun span => do
      let markup := Text.slice span.start span.stop code
      let inner ← parseExpression markup
      let embed (s : Span) := lowerMarkup depth (Text.slice s.start s.stop markup)
      match inner.unwrap with
      | .node (.element tag) s parts =>
        return Edit.mk span (← (Tree.node (.element tag) s parts).callCode embed)
      | .node .fragment s parts => return Edit.mk span (← (Tree.node .fragment s parts).callCode embed)
      | _ => return Edit.mk span (String.ofList markup)
    return String.ofList (applyEdits edits code)

def withCalls (code : String) : Except SyntaxError String :=
  lowerMarkup (code.length + 1) code.toList

end PageCompiler.Code
