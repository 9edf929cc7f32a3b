import PageCompiler.Code.Lexeme
import PageCompiler.Code.Tree
import PageCompiler.Diagnostic

/-!
# Parsers of code

A `Parser` reads lexemes one by one and may fail. It looks one lexeme ahead: the current lexeme is known,
what follows it is not yet cut. Some faults do not stop the reading, they only spoil it; the first of
these is kept as the `flaw` of the state, so that a reading that is given up takes its flaws with it.
-/

namespace PageCompiler.Code

/-- What the surrounding constructs allow. -/
structure Context where
  /-- Whether `in` is an operator here. -/
  allowsIn : Bool := true
  /-- Whether `yield` is an operator here. -/
  allowsYield : Bool := false
  /-- Whether `await` is an operator here. -/
  allowsAwait : Bool := true
  allowsReturn : Bool := false
  inDecorator : Bool := false
  /-- Whether `extends` after a type is left to the construct around it. -/
  inExtends : Bool := false
  /-- Whether only declarations without code are given here. -/
  ambient : Bool := false

/-- The state of a parser. -/
structure State where
  lexeme : Lexeme := .finish
  start : Nat := 0
  stop : Nat := 0
  /-- Whether a line ends right before the current lexeme. -/
  newline : Bool := false
  here : List Char := []
  rest : List Char
  last : Nat := 0
  /-- Where the first fault that did not stop the reading was met. -/
  flaw : Option Nat := none
  context : Context := {}

/-- A reader of code. -/
abbrev Parser := StateT State (Except SyntaxError)

namespace State

/-- The state with a flaw at the given place, unless there is one already. -/
def spoil (s : State) (offset : Nat) : State :=
  { s with flaw := s.flaw.or (some offset) }

/-- The state whose current lexeme is what `cutter` cuts off the text `here`, which starts at `start`. -/
def retake (s : State) (cutter : List Char → Cut) (start : Nat) (here : List Char) : State :=
  let taken := cutter here
  let s := { s with
    lexeme := taken.lexeme
    start
    stop := start + Text.byteLength (here.take taken.count)
    here
    rest := here.drop taken.count }
  if taken.sound then s else s.spoil start

/-- The state in which the next lexeme is current, as `cutter` cuts it after the gap before it. -/
def nextBy (s : State) (cutter : List Char → Cut) : State :=
  let gap := gap s.rest
  let start := s.stop + Text.byteLength (s.rest.take gap.count)
  let s := { s with last := s.stop, newline := gap.newline }
  let s := if gap.closed then s else s.spoil s.stop
  s.retake cutter start (s.rest.drop gap.count)

def next (s : State) : State :=
  s.nextBy cut

def nextChild (s : State) : State :=
  { s with last := s.stop, newline := false }.retake cutChild s.stop s.rest

end State

/-! ## Words -/

/-- Words that never name a variable. -/
def reservedWords : List String :=
  ["await", "break", "case", "catch", "class", "const", "continue", "debugger", "default", "delete", "do",
    "else", "enum", "export", "extends", "false", "finally", "for", "function", "if", "import", "in",
    "instanceof", "new", "null", "return", "super", "switch", "this", "throw", "true", "try", "typeof", "var",
    "void", "while", "with", "yield"]

/-- Words that have a meaning of their own in some places and name variables in all others. -/
def contextualWords : List String :=
  ["abstract", "accessor", "any", "as", "assert", "asserts", "async", "bigint", "boolean", "constructor",
    "declare", "defer", "from", "get", "global", "implements", "infer", "interface", "intrinsic", "is", "keyof",
    "let", "meta", "module", "namespace", "never", "number", "object", "of", "out", "override", "package",
    "private", "protected", "public", "readonly", "require", "satisfies", "set", "source", "static", "string",
    "symbol", "target", "type", "undefined", "unique", "unknown", "using"]

namespace Lexeme

def isWord : Lexeme → Bool
  | word .. => true
  | _ => false

def text? : Lexeme → Option String
  | word w _ => some w
  | _ => none

/-- Whether the lexeme may name a variable; `await` and `yield` may, where they are no operators. -/
def isIdentifier : Lexeme → Bool
  | word w _ => w == "await" || w == "yield" || !reservedWords.contains w
  | _ => false

def isLiteral : Lexeme → Bool
  | number => true
  | string _ => true
  | regex => true
  | word w _ => w == "null" || w == "true" || w == "false"
  | _ => false

def isEscapedKeyword : Lexeme → Bool
  | word w true => reservedWords.contains w || contextualWords.contains w
  | _ => false

end Lexeme

/-! ## Looking at the current lexeme -/

/-- Stops the reading at the current lexeme. -/
def fail {α : Type} : Parser α := do
  throw ⟨(← get).start⟩

/-- Spoils the reading without stopping it. -/
def spoil : Parser Unit :=
  modify fun s => s.spoil s.start

def current : Parser Lexeme :=
  return (← get).lexeme

def place : Parser Nat :=
  return (← get).start

def onNewLine : Parser Bool :=
  return (← get).newline

def isAt (mark : String) : Parser Bool :=
  return (← current) == .mark mark

def isAtAny (marks : List String) : Parser Bool := do
  match ← current with
  | .mark m => return marks.contains m
  | _ => return false

def isAtWord (word : String) : Parser Bool :=
  return (← current).text? == some word

def isAtAnyWord (words : List String) : Parser Bool := do
  match ← current with
  | .word w _ => return words.contains w
  | _ => return false

def isAtFinish : Parser Bool :=
  return (← current) == .finish

/-! ## Taking lexemes -/

def advanceName : Parser Unit :=
  modify State.next

/-- Goes on to the next lexeme. A keyword that is taken must not be spelled with an escape. -/
def advance : Parser Unit := do
  if (← current).isEscapedKeyword then spoil
  modify State.next

def advanceChild : Parser Unit :=
  modify State.nextChild

def eat (mark : String) : Parser Bool := do
  if ← isAt mark then
    advance
    return true
  return false

def eatWord (word : String) : Parser Bool := do
  if ← isAtWord word then
    advance
    return true
  return false

def expect (mark : String) : Parser Unit := do
  unless ← eat mark do fail

def expectWord (word : String) : Parser Unit := do
  unless ← eatWord word do fail

/-- Reads with `p` and then goes back. -/
def lookahead {α : Type} (p : Parser α) : Parser α := fun s => do
  let (a, _) ← p s
  return (a, s)

/-- Reads with `p`, and goes back if that fails. -/
def attempt {α : Type} (p : Parser α) : Parser (Option α) := fun s =>
  match p s with
  | .ok (a, s') => .ok (some a, s')
  | .error _ => .ok (none, s)

def nextIs (test : Parser Bool) : Parser Bool :=
  lookahead (do advance; test)

def recut (cutter : List Char → Cut) : Parser Unit :=
  modify fun s => s.retake cutter s.start s.here

/-- Joins a closing angle with what follows it to a mark that compares, shifts or assigns. -/
def joinAngles : Parser Unit := do
  if ← isAt ">" then
    recut fun cs => match mark? angleMarks cs with
      | some m => ⟨.mark m, m.length, true⟩
      | none => cut cs

def splitAngles : Parser Unit := do
  if ← isAtAny ["<<", "<<=", "<="] then
    recut fun _ => ⟨.mark "<", 1, true⟩

def within {α : Type} (change : Context → Context) (p : Parser α) : Parser α := do
  let outer := (← get).context
  modify fun s => { s with context := change s.context }
  let a ← p
  modify fun s => { s with context := outer }
  return a

def context : Parser Context :=
  return (← get).context

/-! ## Building nodes -/

/-- A node from `start` to the end of the last lexeme taken. -/
def finish (kind : NodeKind) (start : Nat) (parts : List Tree) : Parser Tree :=
  return .node kind ⟨start, (← get).last⟩ parts

/-- The node for a text without parts at the current lexeme, which is taken. -/
def leaf (kind : NodeKind) : Parser Tree := do
  let start ← place
  advance
  finish kind start []

/-- Reads with `p` until it gives nothing, at most `fuel` times. -/
def manyOf {α : Type} (fuel : Nat) (p : Parser (Option α)) : Parser (List α) :=
  match fuel with
  | 0 => fail
  | fuel + 1 => do
    match ← p with
    | none => return []
    | some a => return a :: (← manyOf fuel p)

/-- Changes a value by `p` until it gives nothing, at most `fuel` times. -/
def growing {α : Type} (fuel : Nat) (a : α) (p : α → Parser (Option α)) : Parser α :=
  match fuel with
  | 0 => fail
  | fuel + 1 => do
    match ← p a with
    | none => return a
    | some a' => growing fuel a' p

/-- Reads items divided by commas up to a closing mark, which is not taken. A comma may stand after the
last item; the second result says whether one does. -/
def listUntil {α : Type} (fuel : Nat) (close : String) (item : Parser α) : Parser (List α × Bool) :=
  match fuel with
  | 0 => fail
  | fuel + 1 => do
    if ← isAt close then return ([], true)
    let a ← item
    if ← isAt close then return ([a], false)
    expect ","
    let (as, trailing) ← listUntil fuel close item
    return (a :: as, trailing)

/-- Reads one or more items divided by commas. -/
def separated {α : Type} (fuel : Nat) (item : Parser α) : Parser (List α) :=
  match fuel with
  | 0 => fail
  | fuel + 1 => do
    let a ← item
    if ← eat "," then return a :: (← separated fuel item) else return [a]

/-- Ends a statement: by a semicolon, or without one before a closing brace, at the end of the text or on a
new line. -/
def endStatement : Parser Unit := do
  if ← eat ";" then return
  if ← isAt "\x7d" then return
  if ← isAtFinish then return
  unless ← onNewLine do fail

/-- Reads the codes inside a template after a stretch of it, up to its end, and says whether the escapes of
the stretches in between are valid. -/
def templateCodes (fuel : Nat) (code : Parser Tree) : Parser (List Tree × Bool) :=
  match fuel with
  | 0 => fail
  | fuel + 1 => do
    let part ← code
    unless ← isAt "\x7d" do fail
    recut fun cs => cutTemplate (cs.drop 1)
    match ← current with
    | .template closed valid =>
      advance
      if closed then return ([part], valid)
      let (parts, valid') ← templateCodes fuel code
      return (part :: parts, valid && valid')
    | _ => fail

/-- Reads the codes inside a template, of which the first stretch is current, and says whether the escapes
of all stretches are valid. -/
def templateParts (fuel : Nat) (code : Parser Tree) : Parser (List Tree × Bool) := do
  match ← current with
  | .template closed valid =>
    advance
    if closed then return ([], valid)
    let (parts, valid') ← templateCodes fuel code
    return (parts, valid && valid')
  | _ => fail

/-! ## Names -/

def anyWord : Parser String := do
  match ← current with
  | .word text _ =>
    advanceName
    return text
  | _ => fail

def identifier : Parser String := do
  match ← current with
  | .word text escaped =>
    unless (Lexeme.word text escaped).isIdentifier do fail
    let c ← context
    if (text == "await" && c.allowsAwait) || (text == "yield" && c.allowsYield) then spoil
    advanceName
    return text
  | _ => fail

def reference : Parser Tree := do
  let start ← place
  finish (.name (← identifier)) start []

def binder : Parser Tree := do
  let start ← place
  finish (.binder (← identifier)) start []

def wordNode : Parser Tree := do
  let start ← place
  finish (.word (← anyWord)) start []

/-! ## Productions -/

/-- What can be asked of the grammar at any depth. -/
inductive Goal where
  | expression
  /-- One expression; `returnType` says whether the parameters of an arrow function may be followed by the
  type of its result. -/
  | assignment (returnType : Bool)
  /-- Operands and operators that bind tighter than the level. -/
  | binary (level : Nat)
  | unary
  /-- What can be called, with its accesses and calls. -/
  | access
  | construction
  | binding
  | type
  | typeOperand
  | plainType
  /-- An element; `inChild` says whether it is a child of another one. -/
  | element (inChild : Bool)
  /-- The code of a function, in braces. -/
  | body
  /-- A statement; `single` says whether it stands where only one may. -/
  | statement (single : Bool)
deriving DecidableEq, Repr

/-- What a production may use: the grammar, for constructs inside its own, and a bound for its loops. -/
structure Grammar where
  read : Goal → Parser Tree
  limit : Nat

end PageCompiler.Code
