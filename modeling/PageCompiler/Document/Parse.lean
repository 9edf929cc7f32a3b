import PageCompiler.Document.Rules

/-!
# Reading a document

A text is read as a document: whatever it holds, it gives a tree. Tags that are missing are supplied, what
stands in the wrong place is moved or left out.
-/

namespace PageCompiler.Document

/-- The stretches of a text that are blank and those that are not, in turn. -/
def blankRuns : List Char → List (List Char)
  | [] => []
  | c :: cs =>
    match blankRuns cs with
    | (d :: run) :: runs =>
      if isBlankText [c] == isBlankText [d] then (c :: d :: run) :: runs else [c] :: (d :: run) :: runs
    | runs => [c] :: runs

/-- How often a token may be processed again; each time an element is closed or the mode moves on. -/
def stepLimit : Build Nat :=
  return 4 * (← get).stack.length + 32

def feed (token : Token) : Build Unit := do
  let skips := (← get).skipNewline
  match token with
  | .doctype type =>
    modify ({ · with skipNewline := false })
    if (← get).mode == .initial then
      let n ← createNode (.doctype type.name)
      putAt (.lastChild 0) n
      modify ({ · with mode := .beforeHtml, isOld := type.isOld })
  | .chars text =>
    modify ({ · with skipNewline := false })
    let text := match text with
      | '\n' :: rest => if skips then rest else text
      | _ => text
    for run in blankRuns text do
      process (← stepLimit) (.chars run)
  | _ =>
    modify ({ · with skipNewline := false })
    process (← stepLimit) token

/-- Whether the innermost open element is one of a foreign vocabulary. -/
def inForeign : Build Bool := do
  match (← get).stack with
  | [] => return false
  | n :: _ => return (← nameOf n).1 != .html

/-- Reads the tokens of a text, of which there are at most `fuel`, up to its end. -/
def feedAll (fuel : Nat) (cs : List Char) : Build Unit :=
  match fuel with
  | 0 => return
  | fuel + 1 => do
    let (token, rest) := nextToken (← get).textMode (← inForeign) cs
    feed token
    if token == .eof then return
    feedAll fuel rest

def parse (text : String) : List Item :=
  let cs := match text.toList with
    | c :: cs => if c.toNat = 0xFEFF then cs else c :: cs
    | [] => []
  let cs := normalized cs
  let (_, b) := (feedAll (cs.length + 2) cs).run {}
  (b.nodes.childrenOf 0).flatMap (b.nodes.item (b.nodes.size + 1))

end PageCompiler.Document
