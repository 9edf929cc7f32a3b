import PageCompiler.Code.Grammar.Binding

/-!
# Types

Types matter to the compiler only by the names that they mention and declare. A type name is a name that
is read; the parameters of types, and of functions in types, are names that are declared.
-/

namespace PageCompiler.Code

variable (g : Grammar)

/-! ## Names and lists of types -/

/-- A type name: the first word is a name that is read, whatever word it is. -/
def Grammar.typeName : Parser Tree := do
  let start ← place
  let first ← if ← isAtWord "this" then leaf .literal else do
    let text ← anyWord
    finish (.name text) start []
  growing g.limit first fun name => do
    if ← eat "." then
      let _ ← anyWord
      return some (← finish .group start [name])
    else return none

def Grammar.typeArguments : Parser (List Tree) := do
  expect "<"
  let (types, _) ← listUntil g.limit ">" (g.read .type)
  if types.isEmpty then spoil
  expect ">"
  return types

def Grammar.typeArguments? : Parser (List Tree) := do
  splitAngles
  if ← isAt "<" then g.typeArguments else return []

def Grammar.lineTypeArguments? : Parser (List Tree) := do
  if ← onNewLine then return [] else g.typeArguments?

def Grammar.typeParameter : Parser Tree := do
  let start ← place
  allowOnly ["const", "in", "out"] (← g.modifiers true)
  let name ← binder
  let bound ← if ← eatWord "extends" then do pure [← g.read .type] else pure []
  let default ← if ← eat "=" then do pure [← g.read .type] else pure []
  finish .group start (name :: bound ++ default)

def Grammar.typeParameters? : Parser (List Tree) := do
  if ← eat "<" then
    let (items, _) ← listUntil g.limit ">" g.typeParameter
    if items.isEmpty then spoil
    expect ">"
    return items
  else return []

/-! ## Results of functions -/

def Grammar.resultType : Parser Tree := do
  let start ← place
  let asserts ← if ← isAtWord "asserts" then
      nextIs (return !(← onNewLine) && ((← current).isIdentifier || (← isAtWord "this")))
    else pure false
  if asserts then
    advance
    discard anyWord
    if ← eatWord "is" then finish .type start [← g.read .type] else finish .type start []
  else
    let predicate ← if (← current).isIdentifier then
        nextIs (return !(← onNewLine) && (← isAtWord "is"))
      else pure false
    if predicate then
      discard anyWord
      advance
      finish .type start [← g.read .type]
    else g.read .type

def Grammar.resultAnnotation : Parser (List Tree) := do
  if ← eat ":" then return [← g.resultType] else return []

/-- Skips the start of a parameter: words before it and a name or a pattern. -/
def Grammar.skipParameterStart : Parser Bool := do
  let _ ← g.modifiers false
  if (← current).isIdentifier || (← isAtWord "this") then
    advance
    return true
  if ← isAtAny ["[", "\x7b"] then
    let before := (← get).flaw
    match ← attempt (g.read .binding) with
    | some _ => return (← get).flaw == before
    | none => return false
  return false

def Grammar.startsFunctionType : Parser Bool := do
  if ← isAt "<" then return true
  if ← isAtWord "new" then return true
  if ← isAtWord "abstract" then return ← nextIs (isAtWord "new")
  if ← isAt "(" then
    lookahead do
      advance
      if ← isAtAny [")", "..."] then return true
      if ← g.skipParameterStart then
        if ← isAtAny [":", ",", "?", "="] then return true
        if ← eat ")" then return ← isAt "=>"
      return false
  else return false

def Grammar.functionType : Parser Tree := do
  let start ← place
  let _ ← eatWord "abstract"
  let makes ← eatWord "new"
  let typeParams ← g.typeParameters?
  if makes && (← startsReceiver) then spoil
  let params ← g.parameters .plain
  expect "=>"
  finish .type start (typeParams ++ [.node .group params.span params.parts, ← g.resultType])

/-! ## Members -/

def endTypeMember : Parser Unit := do
  if ← eat "," then return
  endStatement

/-- Whether a signature of an index starts here: a bracket, a name and a colon. -/
def startsIndexSignature : Parser Bool := do
  if ← isAt "[" then
    lookahead do
      advance
      match ← current with
      | .word w escaped =>
        unless (Lexeme.word w escaped).isIdentifier || modifierWords.contains w do return false
        advance
        isAt ":"
      | _ => return false
  else return false

def Grammar.indexSignature : Parser Tree := do
  let start ← place
  expect "["
  let _ ← anyWord
  expect ":"
  let key ← g.read .type
  expect "]"
  expect ":"
  let value ← g.read .type
  endTypeMember
  finish .type start [key, value]

def startsMemberName : Parser Bool := do
  match ← current with
  | .word .. => return true
  | .string _ => return true
  | .number => return true
  | .privateName _ => return true
  | .mark "[" => return true
  | _ => return false

/-- Whether the current word says that a member is read or written by a function. -/
def startsAccessor : Parser Bool := do
  if ← isAtAnyWord ["get", "set"] then nextIs startsMemberName else return false

/-- A signature of a method after its name; `makes` says whether it makes objects. -/
def Grammar.signature (makes : Bool) : Parser (List Tree) := do
  let typeParams ← g.typeParameters?
  if makes && (← startsReceiver) then spoil
  let params ← g.parameters .plain
  return typeParams ++ .node .group params.span params.parts :: (← g.resultAnnotation)

def Grammar.typeMember : Parser Tree := do
  let start ← place
  if ← isAtAny ["(", "<"] then
    let parts ← g.signature false
    endTypeMember
    finish .type start parts
  else if (← isAtWord "new") && (← nextIs (isAtAny ["(", "<"])) then
    advance
    let parts ← g.signature true
    endTypeMember
    finish .type start parts
  else
    allowOnly ["readonly"] (← g.modifiers false)
    if ← startsIndexSignature then g.indexSignature
    else if ← startsAccessor then
      let writes ← isAtWord "set"
      advance
      let (key, computed) ← g.memberName
      let params ← g.parameters .plain
      let result ← g.resultAnnotation
      if writes && !result.isEmpty then spoil
      endTypeMember
      let parts := .node .group params.span params.parts :: result
      finish .type start (if computed then key :: parts else parts)
    else
      let (key, computed) ← g.memberName
      let _ ← eat "?"
      let parts ← if ← isAtAny ["(", "<"] then g.signature false else g.typeAnnotation
      endTypeMember
      finish .type start (if computed then key :: parts else parts)

def Grammar.typeMembers : Parser Tree := do
  let start ← place
  expect "\x7b"
  let members ← manyOf g.limit do
    if ← isAt "\x7d" then return none else return some (← g.typeMember)
  expect "\x7d"
  finish .type start members

/-- Whether a type with one member for every key of another starts here. -/
def startsMappedType : Parser Bool :=
  lookahead do
    advance
    if ← isAtAny ["+", "-"] then
      advance
      return ← isAtWord "readonly"
    let _ ← eatWord "readonly"
    if ← eat "[" then
      if (← current).isWord then
        advance
        return ← isAtWord "in"
    return false

def Grammar.mappedType : Parser Tree := do
  let start ← place
  expect "\x7b"
  if ← isAtAny ["+", "-"] then advance
  let _ ← eatWord "readonly"
  expect "["
  let name ← binder
  expectWord "in"
  let keys ← g.read .type
  let renamed ← if ← eatWord "as" then do pure [← g.read .type] else pure []
  expect "]"
  if ← isAtAny ["+", "-"] then
    advance
    expect "?"
  else
    let _ ← eat "?"
  let types ← g.typeAnnotation
  endStatement
  expect "\x7d"
  finish .type start (name :: keys :: renamed ++ types)

/-- An element of a tuple. If it has a name, it cannot both be spread and be absent. -/
def Grammar.tupleElement : Parser Tree := do
  let start ← place
  let spread ← eat "..."
  let named ← if (← current).isWord then
      nextIs do
        if ← isAt ":" then return true
        if ← isAt "?" then return ← nextIs (isAt ":")
        return false
    else pure false
  if named then
    discard anyWord
    if (← eat "?") && spread then spoil
    expect ":"
    finish .type start [← g.read .type]
  else finish .type start [← g.read .type]

/-! ## Operands -/

def builtinTypes : List String :=
  ["any", "bigint", "boolean", "intrinsic", "never", "null", "number", "object", "string", "symbol",
    "undefined", "unknown", "void"]

def Grammar.importType (start : Nat) : Parser Tree := do
  expectWord "import"
  expect "("
  let source ← match ← current with
    | .string _ => leaf .type
    | _ => fail
  let options ← if ← eat "," then
      if ← isAt ")" then pure [] else do
        let options ← g.read (.assignment true)
        let _ ← eat ","
        pure [options]
    else pure []
  expect ")"
  let _ ← manyOf g.limit do
    if ← eat "." then
      let _ ← anyWord
      return some ()
    else return none
  let types ← g.lineTypeArguments?
  finish .type start (source :: options ++ types)

def Grammar.templateType : Parser Tree := do
  let start ← place
  let (types, valid) ← templateParts g.limit (g.read .type)
  unless valid do spoil
  finish .type start types

/-- A type without operators, but for the marks that stand before a type that may or must not be absent. -/
def Grammar.plainType : Parser Tree := do
  let start ← place
  match ← current with
  | .mark "?" =>
    advance
    if ← isAtAny [",", "\x7d", ")", ">", "=", "|"] then finish .type start []
    else finish .type start [← g.read .type]
  | .mark "!" =>
    advance
    finish .type start [← g.read .plainType]
  | .string _ => leaf .type
  | .number => leaf .type
  | .template .. => g.templateType
  | .mark "-" =>
    advance
    match ← current with
    | .number => leaf .type
    | _ => fail
  | .mark "\x7b" => if ← startsMappedType then g.mappedType else g.typeMembers
  | .mark "[" =>
    advance
    let (items, _) ← listUntil g.limit "]" g.tupleElement
    expect "]"
    finish .listType start items
  | .mark "(" =>
    advance
    let type ← within ({ · with inExtends := false }) (g.read .type)
    expect ")"
    finish .type start [type]
  | .word "typeof" _ =>
    if ← nextIs (isAtWord "import") then
      advance
      g.importType start
    else
      advance
      let name ← g.typeName
      finish .type start (name :: (← g.lineTypeArguments?))
  | .word "import" _ => g.importType start
  | .word "this" _ =>
    advance
    if (← isAtWord "is") && !(← onNewLine) then
      advance
      finish .type start [← g.read .type]
    else finish .type start []
  | .word "true" _ => leaf .type
  | .word "false" _ => leaf .type
  | .word text _ =>
    if builtinTypes.contains text && !(← nextIs (isAt ".")) then leaf .type
    else
      let asserts ← if text == "asserts" then
          nextIs (return !(← onNewLine) && ((← current).isIdentifier || (← isAtWord "this")))
        else pure false
      if asserts then g.resultType
      else
        let name ← g.typeName
        finish .type start (name :: (← g.lineTypeArguments?))
  | _ => fail

/-- Whether a type starts at the current lexeme, leaving out those that start with a parenthesis. -/
def startsOpenType : Parser Bool := do
  match ← current with
  | .word w escaped =>
    return (Lexeme.word w escaped).isIdentifier ||
      ["false", "function", "import", "new", "null", "this", "true", "typeof", "void"].contains w
  | .string _ => return true
  | .number => return true
  | .template .. => return true
  | .mark "-" => nextIs (return (← current) == .number)
  | .mark m => return ["\x7b", "[", "<", "|", "&", "...", "*", "?", "!"].contains m
  | _ => return false

def startsType (fuel : Nat) : Parser Bool :=
  match fuel with
  | 0 => return false
  | fuel + 1 => do
    if ← isAt "(" then
      nextIs do
        if ← isAtAny [")", "@"] then return true
        match ← current with
        | .privateName _ => return true
        | .word w _ => if modifierWords.contains w then return true else startsType fuel
        | _ => startsType fuel
    else startsOpenType

/-- A type with what stands after it: brackets, or a mark that says that it may or must not be absent. A
question mark before another type is left to the construct around it. -/
def Grammar.postfixType : Parser Tree := do
  let start ← place
  let first ← g.plainType
  growing g.limit first fun type => do
    if ← onNewLine then return none
    if ← eat "!" then return some (← finish .type start [type])
    if ← isAt "?" then
      if ← nextIs (startsType g.limit) then return none
      advance
      return some (← finish .type start [type])
    if ← eat "[" then
      if ← isAt "]" then
        advance
        return some (← finish .listType start [type])
      let key ← g.read .type
      expect "]"
      return some (← finish .type start [type, key])
    return none

/-- A type with the operators before it. Only arrays and tuples can be read only. -/
def Grammar.typeOperand : Parser Tree := do
  let start ← place
  if ← isAtAnyWord ["keyof", "unique"] then
    advance
    finish .type start [← g.read .typeOperand]
  else if ← eatWord "readonly" then
    let type ← g.read .typeOperand
    unless type.kind == .listType do spoil
    finish .type start [type]
  else if ← isAtWord "infer" then
    advance
    let name ← binder
    let bound ← if ← isAtWord "extends" then
        let bound ← attempt do
          advance
          let bound ← within ({ · with inExtends := true }) (g.read .type)
          let c ← context
          if !c.inExtends && (← isAt "?") then fail
          return bound
        pure bound.toList
      else pure []
    finish .type start (name :: bound)
  else within ({ · with inExtends := false }) g.postfixType

def Grammar.joinedTypes (mark : String) (item : Parser Tree) : Parser Tree := do
  let start ← place
  let led ← eat mark
  let first ← item
  let others ← manyOf g.limit do
    if ← eat mark then return some (← item) else return none
  if others.isEmpty && !led then return first else finish .type start (first :: others)

def Grammar.type : Parser Tree := do
  if ← g.startsFunctionType then g.functionType
  else
    let start ← place
    let checked ← g.joinedTypes "|" (g.joinedTypes "&" g.typeOperand)
    if !(← context).inExtends && !(← onNewLine) && (← isAtWord "extends") then
      advance
      let bound ← within ({ · with inExtends := true }) (g.read .type)
      expect "?"
      let yes ← within ({ · with inExtends := false }) (g.read .type)
      expect ":"
      let no ← within ({ · with inExtends := false }) (g.read .type)
      finish .type start [checked, bound, yes, no]
    else return checked

/-! ## Types after an expression -/

/-- Whether an operator with two operands, or a type assertion, is current; where `in` is an operator, it is
not counted. -/
def isAtBinaryOperator : Parser Bool := do
  match ← current with
  | .mark m =>
    return ["??", "||", "&&", "|", "^", "&", "==", "!=", "===", "!==", "<", ">", "<=", ">=", "<<", ">>", ">>>",
      "+", "-", "*", "/", "%", "**"].contains m
  | .word w _ =>
    return w == "instanceof" || w == "as" || w == "satisfies" || (w == "in" && !(← context).allowsIn)
  | _ => return false

/-- Whether an expression starts at the current lexeme, or goes on with `in`; names that have a meaning of their
own elsewhere are not counted. -/
def startsExpression : Parser Bool := do
  match ← current with
  | .mark m =>
    return ["(", "[", "\x7b", "+", "-", "~", "!", "++", "--", "<", "/", "/=", "@"].contains m
  | .number => return true
  | .string _ => return true
  | .template .. => return true
  | .privateName _ => return true
  | .word w escaped =>
    return ((Lexeme.word w escaped).isIdentifier && !contextualWords.contains w) ||
      ["private", "this", "super", "null", "true", "false", "function", "class", "new", "delete", "typeof", "void",
        "import", "in"].contains w
  | _ => return false

/-- Types in angles after an expression, as far as what follows shows that they are meant as such. -/
def Grammar.expressionTypes : Parser (List Tree) := do
  splitAngles
  expect "<"
  let (types, _) ← listUntil g.limit ">" (g.read .type)
  if types.isEmpty then spoil
  if (← get).rest.head? == some '=' then fail
  expect ">"
  match ← current with
  | .mark "(" => return types
  | .template .. => return types
  | .mark "<" => fail
  | .mark ">" => fail
  | .mark "+" => fail
  | .mark "-" => fail
  | _ =>
    if (← onNewLine) || (← isAtBinaryOperator) || !(← startsExpression) then return types else fail

end PageCompiler.Code
