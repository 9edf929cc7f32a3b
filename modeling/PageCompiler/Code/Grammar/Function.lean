import PageCompiler.Code.Grammar.Element

/-!
# Functions, objects and classes
-/

namespace PageCompiler.Code

variable (g : Grammar)

/-! ## Functions -/

def Context.inFunction (isAsync isGenerator : Bool) (c : Context) : Context :=
  { c with allowsIn := true, allowsAwait := isAsync, allowsYield := isGenerator }

/-- Parameters, type of the result and code of a function. The parameters of its types stand before those
of its values; what makes objects has none. Without code it is only declared. -/
def Grammar.functionParts (role : ParameterRole) (isAsync isGenerator : Bool) :
    Parser (List Tree) :=
  within (·.inFunction isAsync isGenerator) do
    let typeParams ← g.typeParameters?
    if role == .construction && !typeParams.isEmpty then spoil
    let params ← g.parameters role
    let result ← g.resultAnnotation
    if ← isAt "\x7b" then
      if (← context).ambient then spoil
      return typeParams ++ params :: result ++ [← g.read .body]
    else return typeParams ++ params :: result

def Grammar.functionAfter (start : Nat) (isAsync isDeclaration needsName : Bool) :
    Parser Tree := do
  expectWord "function"
  let isGenerator ← eat "*"
  let name ← if (← current).isIdentifier then
      if isDeclaration then do pure [← binder]
      else do pure [← within ({ · with allowsAwait := isAsync, allowsYield := isGenerator }) binder]
    else if needsName then fail
    else pure []
  let parts ← g.functionParts .plain isAsync isGenerator
  let declared := parts.all fun p => p.kind != .body
  if declared then
    if isDeclaration then endStatement else fail
  finish (.function isDeclaration) start (name ++ parts)

def Grammar.method (role : ParameterRole) (isAsync isGenerator : Bool) : Parser Tree := do
  let start ← place
  finish (.function false) start (← g.functionParts role isAsync isGenerator)

def Tree.hasBody (function : Tree) : Bool :=
  function.parts.any (·.kind == .body)

/-- Whether the parameters of a member suit one that stands for a value: none to read it, one to write it. -/
def Tree.suitsAccessor (writes : Bool) (method : Tree) : Bool :=
  match method.part? (· == .params) with
  | none => true
  | some params =>
    let count := (params.parts.filter (·.kind == .param)).length
    if writes then count == 1 && !params.parts.any (·.kind == .rest) else count == 0

/-- A function that reads or writes a value as if it were a member, from its parameters on. -/
def Grammar.accessor (writes : Bool) : Parser Tree := do
  let method ← g.method (if writes then .writer else .plain) false false
  unless method.suitsAccessor writes do spoil
  return method

def startsAsyncFunction : Parser Bool := do
  if ← isAtWord "async" then
    nextIs (return !(← onNewLine) && (← isAtWord "function"))
  else return false

/-! ## Objects -/

/-- A member of an object whose value is a function, after its key. -/
def memberWithBody (start : Nat) (key method : Tree) : Parser Tree := do
  unless method.hasBody do fail
  finish (.property false) start [key, method]

def Grammar.property : Parser Tree := do
  let start ← place
  if ← eat "..." then
    return ← finish .spread start [← g.read (.assignment true)]
  let modifiers ← g.modifiers false
  if ← startsAccessor then
    allowOnly [] modifiers
    let writes ← isAtWord "set"
    advance
    let (key, _) ← g.memberName
    return ← memberWithBody start key (← g.accessor writes)
  let isGenerator ← eat "*"
  let lexeme ← current
  if !isGenerator && lexeme.isIdentifier then
    if ← nextIs (isAtAny [",", "\x7d", "="]) then
      allowOnly [] modifiers
      let name ← reference
      if ← eat "=" then
        let init ← within ({ · with allowsIn := true }) (g.read (.assignment true))
        return ← finish .shorthandDefault start [name, init]
      return ← finish (.property true) start [name]
  let (key, _) ← g.memberName
  if isGenerator || (← isAtAny ["(", "<"]) then
    allowOnly ["async"] modifiers
    memberWithBody start key (← g.method .plain (modifiers.contains "async") isGenerator)
  else
    allowOnly [] modifiers
    expect ":"
    finish (.property false) start [key, ← g.read (.assignment true)]

def Grammar.object : Parser Tree := do
  let start ← place
  expect "\x7b"
  let (members, trailing) ← within ({ · with allowsIn := true }) (listUntil g.limit "\x7d" g.property)
  expect "\x7d"
  let spreadLast := (members.getLast?.map (·.kind == .spread)).getD false
  let tail := if trailing && spreadLast then [Tree.node .hole {} []] else []
  finish .object start (members ++ tail)

def Grammar.array : Parser Tree := do
  let start ← place
  expect "["
  let elements ← within ({ · with allowsIn := true }) do
    manyOf g.limit do
      if ← isAt "]" then return none
      if ← isAt "," then return some [← leaf .hole]
      let itemStart ← place
      if ← eat "..." then
        let spread ← finish .spread itemStart [← g.read (.assignment true)]
        if ← isAt "]" then return some [spread]
        expect ","
        return some (if ← isAt "]" then [spread, .node .hole {} []] else [spread])
      let element ← g.read (.assignment true)
      unless ← isAt "]" do expect ","
      return some [element]
  expect "]"
  finish .array start elements.flatten

/-! ## Classes -/

/-- The name of a member of a class. -/
structure MemberKey where
  /-- The name, unless it is computed, a number or private. -/
  name : Option String := none
  isPrivate : Bool := false
  code : List Tree := []

/-- Reads the name of a member of a class. No private member is called like what makes objects. -/
def Grammar.memberKey : Parser MemberKey := do
  match ← current with
  | .word name _ =>
    advanceName
    return { name := some name }
  | .string name =>
    advance
    return { name := some name }
  | .privateName name =>
    if name == "constructor" then spoil
    advance
    return { isPrivate := true }
  | _ =>
    let (key, computed) ← g.memberName
    return { code := if computed then [key] else [] }

def Grammar.classBlock : Parser Tree :=
  within ({ · with allowsAwait := true, allowsYield := false, allowsReturn := false, allowsIn := true }) do
    let start ← place
    expect "\x7b"
    let statements ← manyOf g.limit do
      if ← isAt "\x7d" then return none else return some (← g.read (.statement false))
    expect "\x7d"
    finish .body start statements

def memberModifiers : List String :=
  "abstract" :: "override" :: "static" :: visibilityWords

/-- Ends a member of a class whose value is a function. One without code is not decorated. -/
def endMethod (decorated : Bool) (method : Tree) : Parser Unit := do
  unless method.hasBody do
    if decorated then spoil
    endStatement

/-- A member of a class that holds a value, after its name and a mark that it may be absent. -/
def Grammar.field (modifiers : List String) (optional : Bool) : Parser (List Tree) := do
  if modifiers.contains "accessor" then
    allowOnly ("accessor" :: memberModifiers) modifiers
    if optional then spoil
  else allowOnly ("declare" :: "readonly" :: memberModifiers) modifiers
  unless optional || (← onNewLine) do discard (eat "!")
  let types ← g.typeAnnotation
  let init ← within ({ · with allowsAwait := false, allowsYield := false }) g.initializer
  endStatement
  return types ++ init

/-- A member of a class. What makes its objects is a plain function that is neither static nor decorated; no
other member is called like it, and no static one like what the objects share. -/
def Grammar.classMember : Parser Tree := do
  let start ← place
  let decorators ← g.decorators
  let modifiers ← g.modifiers true
  let isStatic := modifiers.contains "static"
  if (← isAtWord "static") && (← nextIs (isAt "\x7b")) then
    allowOnly [] modifiers
    unless decorators.isEmpty do spoil
    advance
    return ← finish .group start (decorators ++ [← g.classBlock])
  if ← startsIndexSignature then
    allowOnly ["readonly", "static"] modifiers
    unless decorators.isEmpty do spoil
    return ← finish .group start (decorators ++ [← g.indexSignature])
  let accessor ← startsAccessor
  let writes ← isAtWord "set"
  if accessor then advance
  let isGenerator ← if accessor then pure false else eat "*"
  let key ← g.memberKey
  if key.isPrivate && modifiers.any (visibilityWords.contains ·) then spoil
  if isStatic && key.name == some "prototype" then spoil
  let makes := key.name == some "constructor"
  let parts ← if accessor then
      allowOnly memberModifiers modifiers
      if makes && !isStatic then spoil
      let method ← g.accessor writes
      endMethod (!decorators.isEmpty) method
      pure [method]
    else do
      let optional ← eat "?"
      if isGenerator || (← isAtAny ["(", "<"]) then
        if makes && !isStatic then
          allowOnly visibilityWords modifiers
          if isGenerator || !decorators.isEmpty then spoil
          let method ← g.method .construction false false
          endMethod false method
          pure [method]
        else
          allowOnly ("async" :: memberModifiers) modifiers
          let method ← g.method .plain (modifiers.contains "async") isGenerator
          endMethod (!decorators.isEmpty) method
          pure [method]
      else
        if makes then spoil
        g.field modifiers optional
  finish .group start (decorators ++ key.code ++ parts)

def Grammar.heritage : Parser (List Tree) := do
  let clauses ← manyOf g.limit do
    if ← eatWord "extends" then
      let bases ← separated g.limit do
        let base ← g.read .access
        return base :: (← g.typeArguments?)
      if 1 < bases.length then spoil
      return some ("extends", bases.flatten)
    else if ← eatWord "implements" then
      let names ← separated g.limit do
        let name ← g.typeName
        return name :: (← g.typeArguments?)
      return some ("implements", names.flatten)
    else return none
  unless (clauses.map (·.1)).isSublist ["extends", "implements"] do spoil
  return clauses.flatMap (·.2)

/-- A class, from the word on; what decorates it is given. -/
def Grammar.klass (start : Nat) (decorators : List Tree) (isDeclaration needsName : Bool) :
    Parser Tree := do
  expectWord "class"
  let name ← if (← current).isIdentifier && !(← isAtWord "implements") then do pure [← binder]
    else if (← isAtWord "implements") && (← nextIs (return (← isAtWord "implements") || (← isAtWord "extends") ||
      (← isAt "\x7b"))) then do pure [← binder]
    else if needsName then fail
    else pure []
  let typeParams ← g.typeParameters?
  let heritage ← g.heritage
  expect "\x7b"
  let members ← manyOf g.limit do
    if ← isAt "\x7d" then return none
    if ← isAt ";" then return some (← leaf .group)
    return some (← g.classMember)
  expect "\x7d"
  finish (.klass isDeclaration) start (decorators ++ name ++ typeParams ++ heritage ++ members)

end PageCompiler.Code
