import PageCompiler.Code.Parser

/-!
# Targets of declarations

Names that are declared, patterns that take a value apart, the words that modify a declaration, and the
parameters of functions.
-/

namespace PageCompiler.Code

variable (g : Grammar)

def Grammar.typeAnnotation : Parser (List Tree) := do
  if ← eat ":" then return [← g.read .type] else return []

/-- A value after an equals sign, if there is one. -/
def Grammar.initializer : Parser (List Tree) := do
  if ← eat "=" then
    return [← within ({ · with allowsIn := true }) (g.read (.assignment true))]
  else return []

/-- The rest of a list, after its three dots. -/
def Grammar.restBinding : Parser Tree := do
  let start ← place
  expect "..."
  let target ← g.read .binding
  if ← eat "?" then spoil
  let types ← g.typeAnnotation
  if ← isAt "=" then fail
  let rest ← finish .rest start (target :: types)
  if ← isAt "," then
    unless (← context).ambient do spoil
    advance
  return rest

def Grammar.bindingElement : Parser Tree := do
  let start ← place
  let target ← g.read .binding
  let init ← g.initializer
  if init.isEmpty then return target else finish .defaulted start (target :: init)

/-- The name of a member that is not private, and whether it is computed. -/
def Grammar.memberName : Parser (Tree × Bool) := do
  if ← isAt "[" then
    let start ← place
    advance
    let key ← within ({ · with allowsIn := true }) (g.read (.assignment true))
    expect "]"
    return (← finish .group start [key], true)
  match ← current with
  | .word .. => return (← wordNode, false)
  | .string value => return (← leaf (.string value), false)
  | .number => return (← leaf .literal, false)
  | _ => fail

/-- A member of a pattern in braces. The rest of the members goes to a name. -/
def Grammar.bindingProperty : Parser Tree := do
  let start ← place
  if ← isAt "..." then
    let rest ← g.restBinding
    if rest.parts.any (·.kind == .pattern) then spoil
    return rest
  let lexeme ← current
  let shorthand ← if lexeme.isIdentifier then nextIs (return !(← isAt ":")) else pure false
  if shorthand then
    let target ← binder
    let init ← g.initializer
    finish (if init.isEmpty then .pattern else .defaulted) start (target :: init)
  else
    let (key, _) ← g.memberName
    expect ":"
    finish .pattern start [key, ← g.bindingElement]

def Grammar.binding : Parser Tree := do
  let start ← place
  if ← eat "\x7b" then
    let (items, _) ← listUntil g.limit "\x7d" g.bindingProperty
    expect "\x7d"
    finish .pattern start items
  else if ← eat "[" then
    let items ← manyOf g.limit do
      if ← isAt "]" then return none
      if ← isAt "," then return some (← leaf .hole)
      let element ← if ← isAt "..." then g.restBinding else g.bindingElement
      unless ← isAt "]" do expect ","
      return some element
    expect "]"
    finish .pattern start items
  else binder

/-! ## Modifiers -/

def modifierWords : List String :=
  ["abstract", "accessor", "async", "const", "declare", "default", "export", "in", "out", "override", "private",
    "protected", "public", "readonly", "static"]

def visibilityWords : List String :=
  ["private", "protected", "public"]

/-- Whether a modifier must not stand after those before it. -/
def clashes (earlier : List String) (word : String) : Bool :=
  let excluding := if visibilityWords.contains word then
      visibilityWords ++ ["accessor", "async", "override", "readonly", "static"]
    else match word with
      | "abstract" => ["abstract", "accessor", "override"]
      | "export" => ["abstract", "async", "declare", "export"]
      | "override" => ["accessor", "async", "override", "readonly"]
      | "static" => ["accessor", "async", "override", "readonly", "static"]
      | _ => [word]
  earlier.any (excluding.contains ·)

def startsModified : Parser Bool := do
  match ← current with
  | .word .. => return true
  | .string _ => return true
  | .number => return true
  | .privateName _ => return true
  | .mark m => return ["[", "\x7b", "*", "..."].contains m
  | _ => return false

/-- Whether what a module exports by default starts at the current lexeme. -/
def startsDefault : Parser Bool := do
  if ← isAt "@" then return true
  if ← isAtAnyWord ["class", "function", "interface"] then return true
  if ← isAtWord "abstract" then return ← nextIs (return !(← onNewLine) && (← isAtWord "class"))
  if ← isAtWord "async" then return ← nextIs (return !(← onNewLine) && (← isAtWord "function"))
  return false

/-- Whether the current word, which may be a modifier, is one: something to modify follows, for most words on
the same line. -/
def isModifying (word : String) : Parser Bool :=
  nextIs do
    match word with
    | "default" => startsDefault
    | "export" =>
      if ← isAtWord "default" then return ← nextIs startsDefault
      if ← isAt "@" then return true
      if (← isAtAny ["*", "\x7b"]) || (← isAtWord "as") then return false
      startsModified
    | "static" => startsModified
    | _ => if ← onNewLine then return false else startsModified

/-- Takes the modifiers that stand here and returns them. `const` is one only where that is allowed. The word
`static` is taken once, and not at the head of a block. -/
def Grammar.modifiers (allowsConst : Bool) : Parser (List String) :=
  growing g.limit [] fun earlier => do
    match ← current with
    | .word w _ =>
      unless modifierWords.contains w do return none
      if w == "const" && !allowsConst then return none
      if w == "static" && (earlier.contains w || (← nextIs (isAt "\x7b"))) then return none
      unless ← isModifying w do return none
      if clashes earlier w then spoil
      advance
      return some (earlier ++ [w])
    | _ => return none

/-- Spoils the reading unless all modifiers are among those allowed. -/
def allowOnly (allowed modifiers : List String) : Parser Unit := do
  unless modifiers.all (allowed.contains ·) do spoil

/-! ## Parameters -/

/-- What parameters belong to. -/
inductive ParameterRole where
  | plain
  /-- What makes an object; its parameters may declare members. -/
  | construction
  /-- What writes a value as if it were a member; its parameter has no default. -/
  | writer
deriving DecidableEq, Repr

def Grammar.decorators : Parser (List Tree) :=
  manyOf g.limit do
    if ← eat "@" then
      return some (← within ({ · with inDecorator := true }) (g.read .access))
    else return none

/-- One parameter. If it declares a member, it is a name. -/
def Grammar.parameter (role : ParameterRole) : Parser Tree := do
  let start ← place
  let decorators ← g.decorators
  let modifiers ← g.modifiers false
  allowOnly (if role == .construction then "override" :: "readonly" :: visibilityWords else []) modifiers
  let target ← g.read .binding
  if !modifiers.isEmpty && target.kind == .pattern then spoil
  let optional ← eat "?"
  let types ← g.typeAnnotation
  let init ← g.initializer
  if !init.isEmpty && (optional || role == .writer) then spoil
  finish .param start (decorators ++ target :: types ++ init)

/-- Whether parameters start here, the first of which is `this`. -/
def startsReceiver : Parser Bool := do
  if ← isAt "(" then nextIs (isAtWord "this") else return false

/-- Parameters in parentheses. A parameter `this` only has a type, and what makes objects has none. -/
def Grammar.parameters (role : ParameterRole) : Parser Tree := do
  let start ← place
  if role == .construction && (← startsReceiver) then spoil
  expect "("
  let receiver ← if ← isAtWord "this" then
      advance
      let types ← g.typeAnnotation
      unless ← isAt ")" do expect ","
      pure types
    else pure []
  let (items, _) ← listUntil g.limit ")" do
    if ← isAt "..." then g.restBinding else g.parameter role
  expect ")"
  let params ← finish .params start items
  match receiver with
  | [] => return params
  | _ => return .node .params params.span (items ++ receiver)

end PageCompiler.Code
