import PageCompiler.Code.Grammar.Function
import PageCompiler.Code.Target

/-!
# Expressions
-/

namespace PageCompiler.Code

variable (g : Grammar)

/-! ## Operators -/

/-- How tight each operator with two operands binds. -/
def levelOf? : Lexeme → Option Nat
  | .mark "??" => some 1
  | .mark "||" => some 2
  | .mark "&&" => some 3
  | .mark "|" => some 4
  | .mark "^" => some 5
  | .mark "&" => some 6
  | .mark "==" => some 7
  | .mark "!=" => some 7
  | .mark "===" => some 7
  | .mark "!==" => some 7
  | .mark "<" => some 8
  | .mark ">" => some 8
  | .mark "<=" => some 8
  | .mark ">=" => some 8
  | .word "instanceof" _ => some 8
  | .word "in" _ => some 8
  | .word "as" _ => some 8
  | .word "satisfies" _ => some 8
  | .mark "<<" => some 9
  | .mark ">>" => some 9
  | .mark ">>>" => some 9
  | .mark "+" => some 10
  | .mark "-" => some 10
  | .mark "*" => some 11
  | .mark "/" => some 11
  | .mark "%" => some 11
  | .mark "**" => some 12
  | _ => none

def assignmentMarks : List String :=
  ["=", "+=", "-=", "*=", "/=", "%=", "**=", "<<=", ">>=", ">>>=", "&=", "|=", "^=", "&&=", "||=", "??="]

def operatorText : Lexeme → String
  | .mark m => m
  | .word w _ => w
  | _ => ""

/-! ## Primary expressions -/

def Grammar.template (tagged : Bool) : Parser Tree := do
  let start ← place
  let (codes, valid) ← templateParts g.limit (within ({ · with allowsIn := true }) (g.read .expression))
  unless valid || tagged do spoil
  finish .template start codes

def Grammar.parenthesized : Parser Tree := do
  let start ← place
  expect "("
  let innerStart ← place
  let (items, trailing) ← within ({ · with allowsIn := true, inDecorator := false })
    (listUntil g.limit ")" (g.read (.assignment true)))
  if trailing then fail
  let inner ← match items with
    | [one] => pure one
    | many => finish .sequence innerStart many
  expect ")"
  finish .paren start [inner]

def Grammar.arguments : Parser Tree := do
  let start ← place
  expect "("
  let (items, _) ← within ({ · with allowsIn := true, inDecorator := false }) do
    listUntil g.limit ")" do
      let itemStart ← place
      if ← eat "..." then finish .spread itemStart [← g.read (.assignment true)]
      else g.read (.assignment true)
  expect ")"
  finish .arguments start items

/-- An import in the middle of an expression: a source and possibly options, none of them spread. -/
def Grammar.importExpression : Parser Tree := do
  let start ← place
  expectWord "import"
  if ← eat "." then
    if ← eatWord "meta" then return ← finish .literal start []
    if ← isAtAnyWord ["source", "defer"] then advance else fail
  let arguments ← g.arguments
  if arguments.parts.isEmpty || 2 < arguments.parts.length then spoil
  if arguments.parts.any (·.kind == .spread) then spoil
  finish .group start [arguments]

/-- An expression without accesses and operators; `new` is left to `Grammar.construction`, and elements, which
have no accesses, to `Grammar.updated`. -/
def Grammar.atom : Parser Tree := do
  let start ← place
  if ← startsAsyncFunction then
    advance
    return ← g.functionAfter start true false false
  match ← current with
  | .mark "@" =>
    let decorators ← g.decorators
    allowOnly ["abstract", "declare"] (← g.modifiers false)
    g.klass start decorators false false
  | .mark "(" => g.parenthesized
  | .mark "[" => g.array
  | .mark "\x7b" => g.object
  | .mark "/" =>
    recut fun cs => cutPattern (cs.drop 1)
    leaf .literal
  | .mark "/=" =>
    recut fun cs => cutPattern (cs.drop 1)
    leaf .literal
  | .number => leaf .literal
  | .string value => leaf (.string value)
  | .template .. => g.template false
  | .word "function" _ => g.functionAfter start false false false
  | .word "class" _ => g.klass start [] false false
  | .word "this" _ => leaf .literal
  | .word "null" _ => leaf .null
  | .word "true" _ => leaf (.bool true)
  | .word "false" _ => leaf (.bool false)
  | .word "super" _ =>
    advance
    unless ← isAtAny [".", "[", "("] do spoil
    finish .literal start []
  | .word "import" _ => g.importExpression
  | _ => reference

/-! ## Accesses and calls -/

def Tree.isImportCall : Tree → Bool
  | .node .group _ [.node .arguments _ _] => true
  | _ => false

def Tree.applied : Tree → Tree × List Tree
  | .node .instantiation _ (inner :: types) => (inner, types)
  | t => (t, [])

def memberAfter (start : Nat) (object : Tree) : Parser Tree := do
  match ← current with
  | .privateName _ =>
    advance
    finish .index start [object]
  | _ => finish (.member (← anyWord)) start [object]

def Grammar.indexed (start : Nat) (object : Tree) : Parser Tree := do
  expect "["
  let key ← within ({ · with allowsIn := true }) (g.read .expression)
  expect "]"
  finish .index start [object, key]

/-- The accesses after an expression, as far as they are no calls. The flag says whether one of them was
optional; in what `new` applies to, none may be. -/
def Grammar.accesses (start : Nat) (optionals : Bool) (first : Tree × Bool) :
    Parser (Tree × Bool) :=
  growing g.limit first fun (object, chained) => do
    match ← current with
    | .mark "." =>
      advance
      return some (← memberAfter start object, chained)
    | .mark "?." =>
      unless optionals do return none
      let property ← nextIs do
        match ← current with
        | .word .. => return true
        | .privateName _ => return true
        | .mark "[" => return true
        | .template .. => return true
        | _ => return false
      unless property do return none
      advance
      match ← current with
      | .mark "[" => return some (← g.indexed start object, true)
      | .template .. => fail
      | _ => return some (← memberAfter start object, true)
    | .mark "[" =>
      if (← context).inDecorator then return none
      return some (← g.indexed start object, chained)
    | .mark "!" =>
      if ← onNewLine then return none
      advance
      return some (← finish .typed start [object], chained)
    | .template .. =>
      if chained then spoil
      let (object, types) := object.applied
      let template ← g.template true
      return some (← finish .group start (object :: types ++ [template]), chained)
    | .mark m =>
      if m == "<" || m == "<<" then
        match ← attempt g.expressionTypes with
        | some types => return some (← finish .instantiation start (object :: types), chained)
        | none => return none
      return none
    | _ => return none

def Grammar.construction : Parser Tree := do
  let start ← place
  expectWord "new"
  if ← eat "." then
    unless ← eatWord "target" do fail
    return ← finish .literal start []
  let calleeStart ← place
  let first ← if ← isAtWord "new" then g.read .construction else g.atom
  let (callee, _) ← g.accesses calleeStart false (first, false)
  if ← isAt "?." then spoil
  let (callee, types) := callee.applied
  if callee.isImportCall then spoil
  let arguments ← if ← isAt "(" then do pure [← g.arguments] else pure []
  finish .new start (callee :: arguments ++ types)

/-- What can be called, with its accesses and calls. A chain with an optional access is a node of its own, and
does not decorate. -/
def Grammar.access : Parser Tree := do
  let start ← place
  let first ← if ← isAtWord "new" then g.construction else g.atom
  let (result, chained) ← growing g.limit (first, false) fun (callee, chained) => do
    let before ← place
    let (callee', chained') ← g.accesses start true (callee, chained)
    let optional ← eat "?."
    let types ← if optional then do
        if ← isAtAny ["<", "<<"] then
          match ← attempt g.expressionTypes with
          | some types => pure types
          | none => pure []
        else pure []
      else pure []
    if ← isAt "(" then
      let (callee', types) := if optional then (callee', types) else callee'.applied
      let arguments ← g.arguments
      return some (← finish .call start (callee' :: arguments :: types), chained' || optional)
    if optional then fail
    if before == (← place) then return none else return some (callee', chained')
  if !chained then return result
  if (← context).inDecorator then spoil
  match result with
  | .node .instantiation span (inner :: types) =>
    return .node .instantiation span (.node .chain inner.span [inner] :: types)
  | .node .typed span [inner] => return .node .typed span [.node .chain inner.span [inner]]
  | _ => finish .chain start [result]

/-! ## Operands -/

def asTarget (convert : Tree → Option Tree) (t : Tree) : Parser Tree :=
  match convert t with
  | some target => return target
  | none => throw ⟨t.span.start⟩

def Grammar.updated : Parser Tree := do
  let start ← place
  if ← isAtAny ["++", "--"] then
    advance
    let target ← g.read .unary
    finish .update start [← asTarget Tree.simpleTarget? target]
  else if ← isAt "<" then g.read (.element false)
  else
    let operand ← g.access
    if (← isAtAny ["++", "--"]) && !(← onNewLine) then
      let target ← asTarget Tree.simpleTarget? operand
      advance
      finish .update start [target]
    else return operand

def operandFollows : Parser Bool :=
  nextIs do
    if ← onNewLine then return false
    let lexeme ← current
    return (lexeme.isWord || lexeme.isLiteral) && lexeme.text? != some "in" && lexeme.text? != some "instanceof"

def Grammar.unary : Parser Tree := do
  let start ← place
  match ← current with
  | .mark m =>
    if ["+", "-", "~", "!"].contains m then
      advance
      finish (.operation m) start [← g.read .unary]
    else g.updated
  | .word "await" _ =>
    let allowed := (← context).allowsAwait
    if allowed || (← operandFollows) then
      unless allowed do spoil
      advance
      finish .await start [← g.read .unary]
    else g.updated
  | .word w _ =>
    if ["delete", "typeof", "void"].contains w then
      advance
      finish (.operation w) start [← g.read .unary]
    else g.updated
  | _ => g.updated

/-! ## Operators with two operands -/

/-- Whether an operand must not stand before a power: a minus before it could belong to either. -/
def NodeKind.isUnary : NodeKind → Bool
  | operation op => ["+", "-", "~", "!", "delete", "typeof", "void"].contains op
  | await => true
  | _ => false

/-- Whether the tree has one part and is a sign or a word applied to it. -/
def Tree.isUnary : Tree → Bool
  | .node kind _ [_] => kind.isUnary
  | _ => false

/-- Whether the tree is a choice by truth, which must not be mixed with a choice by absence. -/
def Tree.isTruthChoice : Tree → Bool
  | .node (.logical op) _ _ => op == "&&" || op == "||"
  | _ => false

/-- Two operands joined by an operator. What starts with a parenthesis, as the flags say of the operands, may
be mixed with a choice by absence. -/
def joined (operator : Lexeme) (start : Nat) (leftParen rightParen : Bool) (left right : Tree) :
    Parser Tree := do
  match operatorText operator with
  | "??" =>
    if (left.isTruthChoice && !leftParen) || (right.isTruthChoice && !rightParen) then spoil
    finish (.logical "??") start [left, right]
  | "||" => finish (.logical "||") start [left, right]
  | "&&" => finish (.logical "&&") start [left, right]
  | "**" =>
    if left.isUnary then spoil
    finish (.operation "**") start [left, right]
  | op => finish (.operation op) start [left, right]

def isAtPrivateName : Parser Bool := do
  match ← current with
  | .privateName _ => return true
  | _ => return false

/-- Operands and operators that bind tighter than the level. The first operand may be a private name before
`in`, if that binds tighter. -/
def Grammar.binary (level : Nat) : Parser Tree := do
  let start ← place
  let leftParen ← isAt "("
  let first ← if (← isAtPrivateName) && (← context).allowsIn then do
      if 8 ≤ level then fail
      advance
      unless ← isAtWord "in" do fail
      finish .literal start []
    else g.unary
  growing g.limit first fun left => do
    joinAngles
    let operator ← current
    match levelOf? operator with
    | none => return none
    | some tightness =>
      let stops := if tightness == 12 then tightness < level else tightness ≤ level
      if stops then return none
      if operator.text? == some "in" && !(← context).allowsIn then return none
      if operator.text? == some "as" || operator.text? == some "satisfies" then
        if ← onNewLine then return none
        advance
        let type ← g.read .type
        return some (← finish .typed start [left, type])
      advance
      let rightParen ← isAt "("
      let right ← g.read (.binary tightness)
      return some (← joined operator start leftParen rightParen left right)

/-! ## Arrow functions -/

/-- Whether an arrow function starts here. -/
inductive Likely where
  | yes
  | no
  | maybe
deriving DecidableEq, Repr

def likelyAfterParen : Parser Likely := do
  advance
  let second ← current
  match second with
  | .mark ")" =>
    advance
    if ← isAt ":" then return .maybe
    if ← isAtAny ["=>", "\x7b"] then return .yes
    return .no
  | .mark "[" => return .maybe
  | .mark "\x7b" => return .maybe
  | .mark "..." =>
    advance
    let third ← current
    if third.isLiteral then return .no
    return .maybe
  | _ =>
    advance
    let third ← current
    let modifier := match second with
      | .word w _ => modifierWords.contains w && w != "async"
      | _ => false
    if modifier && third.isIdentifier then
      return if third.text? == some "as" then .no else .yes
    unless second.isIdentifier || second.text? == some "this" do return .no
    match third with
    | .mark ":" => return .yes
    | .mark "?" =>
      advance
      return if ← isAtAny [":", ",", "=", ")"] then .yes else .no
    | .mark "," => return .maybe
    | .mark "=" => return .maybe
    | .mark ")" => return .maybe
    | _ => return .no

/-- Whether what starts with an angle is an arrow function and not an element. -/
def likelyAfterAngle : Parser Likely := do
  advance
  let _ ← eatWord "const"
  unless (← current).isIdentifier do return .no
  advance
  if ← eatWord "extends" then
    return if ← isAtAny ["=", ">", "/"] then .no else .maybe
  return if ← isAtAny [",", "="] then .yes else .no

/-- Whether an arrow function with parameters in parentheses starts here. -/
def likelyArrow : Parser Likely :=
  lookahead do
    if ← isAtWord "async" then
      advance
      if ← onNewLine then return .no
      unless ← isAtAny ["(", "<"] do return .no
    if ← isAt "(" then likelyAfterParen
    else if ← isAt "<" then likelyAfterAngle
    else return .no

def Grammar.arrowBody (start : Nat) (isAsync returnType : Bool) (head : List Tree) :
    Parser Tree := do
  let change (c : Context) : Context := { c with allowsAwait := isAsync, allowsYield := false }
  if ← isAt "\x7b" then
    let body ← within change (g.read .body)
    finish (.arrow false) start (head ++ [body])
  else
    let body ← within change (g.read (.assignment returnType))
    finish (.arrow true) start (head ++ [body])

/-- What stands before the code of an arrow function, its arrow included: whether it is asynchronous,
whether the type of its result is given, and the parts. -/
def Grammar.arrowHead : Parser (Bool × Bool × List Tree) := do
  let isAsync ← eatWord "async"
  let (typeParams, params, result) ← within (fun c => { c with allowsAwait := c.allowsAwait || isAsync }) do
    let typeParams ← g.typeParameters?
    if ← startsReceiver then spoil
    let params ← g.parameters .plain
    let result ← g.resultAnnotation
    pure (typeParams, params, result)
  if ← onNewLine then spoil
  expect "=>"
  return (isAsync, !result.isEmpty, typeParams ++ params :: result)

/-- An arrow function with parameters in parentheses, if one starts here. -/
def Grammar.arrow? (returnType : Bool) : Parser (Option Tree) := do
  let start ← place
  match ← likelyArrow with
  | .no => return none
  | .yes =>
    let (isAsync, _, head) ← g.arrowHead
    return some (← g.arrowBody start isAsync true head)
  | .maybe =>
    let before ← get
    match ← attempt g.arrowHead with
    | none => return none
    | some (isAsync, typed, head) =>
      let function ← g.arrowBody start isAsync returnType head
      if !returnType && typed && !(← isAt ":") then
        set before
        return none
      return some function

def nameAsParams (name : Tree) : Tree :=
  match name with
  | .node (.name text) span _ => .node .params span [.node .param span [.node (.binder text) span []]]
  | t => .node .params t.span []

def Grammar.simpleArrow (start : Nat) (isAsync returnType : Bool) (name : Tree) :
    Parser Tree := do
  if ← onNewLine then spoil
  expect "=>"
  g.arrowBody start isAsync returnType [nameAsParams name]

def startsAsyncArrow : Parser Bool := do
  if ← isAtWord "async" then
    lookahead do
      advance
      if ← onNewLine then return false
      unless (← current).isIdentifier do return false
      advance
      return !(← onNewLine) && (← isAt "=>")
  else return false

/-! ## Whole expressions -/

def Grammar.yielded : Parser Tree := do
  let start ← place
  unless (← context).allowsYield do spoil
  advance
  if ← onNewLine then return ← finish .group start []
  let delegates ← eat "*"
  let ends ← if ← isAtAny [";", "\x7d", ")", "]", ":", ","] then pure true
    else if ← isAtWord "in" then pure true else isAtFinish
  if ends && !delegates then return ← finish .group start []
  let value ← within ({ · with allowsYield := true }) (g.read (.assignment true))
  finish .group start [value]

def Grammar.assignment (returnType : Bool) : Parser Tree := do
  let start ← place
  if ← isAtWord "yield" then
    if (← context).allowsYield || (← operandFollows) then return ← g.yielded
  if let some function ← g.arrow? returnType then return function
  if ← startsAsyncArrow then
    advance
    let name ← within ({ · with allowsAwait := true }) reference
    return ← g.simpleArrow start true returnType name
  let left ← g.binary 0
  match left, ← current with
  | .node (.name _) _ _, .mark "=>" => g.simpleArrow start false returnType left
  | _, .mark "?" =>
    advance
    let yes ← within ({ · with allowsIn := true }) (g.read (.assignment false))
    expect ":"
    let no ← g.read (.assignment returnType)
    finish .conditional start [left, yes, no]
  | _, .mark m =>
    if assignmentMarks.contains m then
      let target ← asTarget (if m == "=" then Tree.target? else Tree.simpleTarget?) left
      advance
      let value ← g.read (.assignment returnType)
      finish (.assign m) start [target, value]
    else return left
  | _, _ => return left

def Grammar.expression : Parser Tree := do
  let start ← place
  within ({ · with inDecorator := false }) do
    match ← separated g.limit (g.assignment true) with
    | [one] => return one
    | many => finish .sequence start many

end PageCompiler.Code
