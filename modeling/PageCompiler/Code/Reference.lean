import PageCompiler.Code.Grammar.Program
import PageCompiler.Code.Edit

/-!
# References

Where an expression or a program names a variable that it does not declare itself. A function is a frame:
what is declared in it or in its parameters hides the same name in the whole frame, and what is declared in
no frame belongs to the program as a whole. Renaming replaces the text of references and nothing else.
-/

namespace PageCompiler.Code

/-- A place where a name is used or declared. -/
structure Reference where
  name : String
  span : Span
  /-- A member of an object that is written by its name alone, so that a new name must keep the key. -/
  shorthand : Bool := false
  declares : Bool := false
  /-- For the object of an access, the member's name and the span of the access. -/
  member : Option (String × Span) := none
  /-- Whether the name, or the member of it, is assigned. -/
  written : Bool := false
deriving DecidableEq, Repr

/-- What is found in a tree. -/
structure Survey where
  frames : List Span := []
  declared : List (String × Span) := []
  used : List Reference := []

namespace Survey

def append (a b : Survey) : Survey where
  frames := a.frames ++ b.frames
  declared := a.declared ++ b.declared
  used := a.used ++ b.used

instance : Append Survey := ⟨append⟩

end Survey

namespace Tree

def frame? : Tree → Option Span
  | node (.function _) span parts =>
    (parts.find? (·.kind == .params)).map fun params => ⟨params.span.start, span.stop⟩
  | node (.arrow _) span _ => some span
  | _ => none

mutual

/-- What is found in the tree; `written` says whether the tree is assigned. -/
def surveyAs (written : Bool) : Tree → Survey
  | node (.name name) span _ => { used := [{ name, span, written }] }
  | node (.member property) span [node (.name name) object _] =>
    { used := [{ name, span := object, member := some (property, span), written }] }
  | node (.property true) _ [node (.name name) span _] => { used := [{ name, span, shorthand := true }] }
  | node (.binder name) span _ => { declared := [(name, span)] }
  | node (.assign _) _ (target :: value) => target.surveyAs true ++ surveyAll value
  | node .update _ (target :: others) => target.surveyAs true ++ surveyAll others
  | node kind span parts =>
    { frames := (node kind span parts).frame?.toList : Survey } ++ surveyAll parts

def surveyAll : List Tree → Survey
  | [] => {}
  | t :: ts => t.surveyAs false ++ surveyAll ts

end

def survey (t : Tree) : Survey :=
  t.surveyAs false

end Tree

namespace Survey

def innermost? (s : Survey) (n : Nat) : Option Span :=
  (s.frames.filter (·.contains n)).foldl
    (fun best frame => match best with
      | none => some frame
      | some b => if frame.stop - frame.start < b.stop - b.start then some frame else some b)
    none

/-- Whether a use of the name at byte `n` means something declared in a frame around it. -/
def isHidden (s : Survey) (name : String) (n : Nat) : Bool :=
  s.declared.any fun (declared, span) =>
    declared == name && ((s.innermost? span.start).map (·.contains n)).getD false

/-- The uses that mean nothing declared in a frame, in order. -/
def free (s : Survey) : List Reference :=
  s.used.filter fun r => !s.isHidden r.name r.span.start

def outermost (s : Survey) : List Reference :=
  (s.declared.filter fun (_, span) => (s.innermost? span.start).isNone).map fun (name, span) =>
    { name, span, declares := true }

end Survey

def inOrder (references : List Reference) : List Reference :=
  sortBy (fun a b => a.span.start ≤ b.span.start) references

def Tree.references (t : Tree) : List Reference :=
  inOrder t.survey.free

def expressionReferences (code : String) : Except SyntaxError (List Reference) := do
  return (← parseExpression code.toList).references

def programReferences (code : List Char) : Except SyntaxError (List Reference) := do
  let survey := (← parseProgram code).survey
  return inOrder (survey.free ++ survey.outermost)

/-! ## Renaming -/

/-- What a reference becomes. -/
inductive Renaming where
  /-- Another name, or code in place of it. -/
  | name (text : String)
  | member (text : String)
deriving DecidableEq, Repr

/-- The edit that changes a reference. A shorthand keeps its key. -/
def Reference.edit? (r : Reference) : Renaming → Option Edit
  | .name text => some ⟨r.span, if r.shorthand then r.name ++ ": " ++ text else text⟩
  | .member text => r.member.map fun (_, span) => ⟨span, text⟩

def editsFor (references : List Reference) (decide : Reference → Option Renaming) : List Edit :=
  references.filterMap fun r => decide r >>= r.edit?

def renamedExpression (code : String) (decide : Reference → Option Renaming) : Except SyntaxError String := do
  let references ← expressionReferences code
  return String.ofList (applyEdits (editsFor references decide) code.toList)

/-! ## Questions about one expression -/

/-- Words that are no plain names, for the purposes of markup. -/
def nonNames : List String :=
  ["true", "false", "null", "undefined", "this", "new", "typeof", "void", "delete", "function", "class", "return",
    "if", "else", "for", "while", "do", "var", "let", "const", "in", "of", "instanceof", "yield", "await", "async",
    "super", "import", "export", "default", "switch", "case", "break", "continue", "throw", "try", "catch",
    "finally", "with", "debugger", "enum"]

/-- Whether the code is a plain name, blanks around it apart. -/
def isPlainName (code : String) : Bool :=
  let name := trimString code
  match name.toList with
  | [] => false
  | c :: cs =>
    (c.isAlpha || c == '_' || c == '$') && cs.all (fun c => c.isAlphanum || c == '_' || c == '$') &&
      !nonNames.contains name

def isExpression (code : String) : Bool :=
  (parseExpression code.toList).isOk

def isFunction (code : String) : Bool :=
  match parseExpression code.toList with
  | .ok tree =>
    match tree.unwrap.kind with
    | .arrow _ => true
    | .function _ => true
    | _ => false
  | .error _ => false

end PageCompiler.Code
