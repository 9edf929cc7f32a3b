import PageCompiler.Code.Grammar.Statement

/-!
# Imports and exports
-/

namespace PageCompiler.Code

variable (g : Grammar)

def moduleSource : Parser Tree := do
  match ← current with
  | .string value => leaf (.string value)
  | _ => fail

def Grammar.importAttributes : Parser Unit := do
  let follows ← if ← isAtWord "with" then pure true
    else if ← isAtWord "assert" then pure !(← onNewLine) else pure false
  if follows then
    advance
    expect "\x7b"
    let _ ← listUntil g.limit "\x7d" do
      match ← current with
      | .string _ => advance
      | .word .. => advanceName
      | _ => fail
      expect ":"
      discard moduleSource
    expect "\x7d"

def exportedName : Parser Unit := do
  match ← current with
  | .string _ => advance
  | .word .. => advanceName
  | _ => fail

/-- Whether the word `type` at the head of a specifier says that the name is one of a type. -/
def marksType (close : String) : Parser Bool := do
  if ← isAtWord "type" then
    nextIs do
      match ← current with
      | .string _ => return true
      | .word "as" _ =>
        -- `type as` names `type`, `type as as x` and `type as x y` do not
        nextIs do
          match ← current with
          | .word "as" _ => nextIs (return (← current).isWord)
          | .word .. => return false
          | .mark m => return m == close || m == ","
          | _ => return false
      | .word .. => return true
      | _ => return false
  else return false

/-- A name that is imported, possibly under another one. Where all names are of types, none is marked as such. -/
def importSpecifier (allTypes : Bool) : Parser Tree := do
  let start ← place
  if ← marksType "\x7d" then
    if allTypes then spoil
    advance
  let renamed ← nextIs (isAtWord "as")
  if renamed then
    exportedName
    expectWord "as"
    finish .group start [← binder]
  else finish .group start [← binder]

def Grammar.importSpecifiers (allTypes : Bool) : Parser (List Tree) := do
  expect "\x7b"
  let (names, _) ← listUntil g.limit "\x7d" (importSpecifier allTypes)
  expect "\x7d"
  return names

/-- All that a module exports, under one name. -/
def importSpace : Parser Tree := do
  expect "*"
  expectWord "as"
  binder

/-- A word at the head of an import that says what is imported. -/
inductive ImportMark where
  | values
  | types
  /-- A module that is run when it is first used. -/
  | deferred
  | source
deriving DecidableEq, Repr

/-- Takes the word that says what is imported, if the current word is one and not a name that is imported. -/
def importMark : Parser ImportMark := do
  let mark := match ← current with
    | .word "type" _ => ImportMark.types
    | .word "defer" _ => ImportMark.deferred
    | .word "source" _ => ImportMark.source
    | _ => ImportMark.values
  let marked ← nextIs do
    match mark with
    | .values => return false
    | .types =>
      if ← isAtAny ["\x7b", "*"] then return true
      if ← isAtWord "from" then return ← nextIs (isAtWord "from")
      return (← current).isIdentifier
    | .deferred => isAt "*"
    | .source =>
      if ← isAtWord "from" then return ← nextIs (isAtWord "from")
      return (← current).isIdentifier
  if marked then
    advance
    return mark
  return .values

def Grammar.importSource (start : Nat) (names : List Tree) : Parser Tree := do
  expectWord "from"
  let source ← moduleSource
  g.importAttributes
  endStatement
  finish .statement start (names ++ [source])

def Grammar.importDeclaration : Parser Tree := do
  let start ← place
  expectWord "import"
  match ← current with
  | .string _ =>
    let source ← moduleSource
    g.importAttributes
    endStatement
    finish .statement start [source]
  | _ =>
    let mark ← importMark
    if (← current).isIdentifier then
      let name ← binder
      if mark == .source then return ← g.importSource start [name]
      if ← eat "=" then
        let target ← if (← isAtWord "require") && (← nextIs (isAt "(")) then do
            advance
            expect "("
            let source ← moduleSource
            expect ")"
            pure source
          else g.typeName
        endStatement
        return ← finish .statement start [name, target]
      let others ← if ← eat "," then
          if ← isAt "*" then do pure [← importSpace] else g.importSpecifiers (mark == .types)
        else pure []
      g.importSource start (name :: others)
    else
      let names ← if ← isAt "*" then do pure [← importSpace] else g.importSpecifiers (mark == .types)
      g.importSource start names

/-- Words that name no variable in a module, although they may elsewhere. -/
def strictWords : List String :=
  ["await", "implements", "interface", "let", "package", "private", "protected", "public", "static", "yield"]

/-- A name that is exported: its node and whether it could name a variable. -/
def exportSpecifier (allTypes : Bool) : Parser (Tree × Bool) := do
  let start ← place
  if ← marksType "\x7d" then
    if allTypes then spoil
    advance
  let localStart ← place
  let (name, sound) ← match ← current with
    | .string value => do pure (← leaf (.string value), false)
    | .word text escaped => do
      let sound := (Lexeme.word text escaped).isIdentifier && !strictWords.contains text
      advanceName
      pure (← finish (.name text) localStart [], sound)
    | _ => fail
  if ← eatWord "as" then exportedName
  return (← finish .group start [name], sound)

def Grammar.exportNames (start : Nat) (allTypes : Bool) : Parser Tree := do
  expect "\x7b"
  let (names, _) ← listUntil g.limit "\x7d" (exportSpecifier allTypes)
  expect "\x7d"
  if ← eatWord "from" then
    let source ← moduleSource
    g.importAttributes
    endStatement
    finish .statement start [source]
  else
    if names.any fun (_, sound) => !sound then spoil
    endStatement
    finish .statement start (names.map (·.1))

def Grammar.exportAll (start : Nat) : Parser Tree := do
  expect "*"
  if ← eatWord "as" then exportedName
  expectWord "from"
  let source ← moduleSource
  g.importAttributes
  endStatement
  finish .statement start [source]

end PageCompiler.Code
