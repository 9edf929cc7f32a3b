import PageCompiler.Code.Grammar.Module

/-!
# Programs

The statements of a program, and the whole grammar: `parseExpression` and `parseProgram` read a text.
-/

namespace PageCompiler.Code

variable (g : Grammar)

def Grammar.declaration (start : Nat) (decorators : List Tree) : Parser Tree := do
  match ← current with
  | .word "class" _ => g.klass start decorators true true
  | .word "function" _ => g.functionAfter start false true true
  | .word "async" _ =>
    advance
    g.functionAfter start true true true
  | .word "var" _ =>
    advance
    g.declarationStatement start true false
  | .word "let" _ =>
    advance
    g.declarationStatement start false false
  | .word "const" _ =>
    advance
    if ← isAtWord "enum" then g.enumeration start else g.declarationStatement start false true
  | .word "enum" _ => g.enumeration start
  | .word "interface" _ => g.interface start
  | .word "type" _ => g.typeAlias start
  | .word "namespace" _ => g.space start
  | .word "module" _ => g.space start
  | .word "global" _ => g.space start
  | .word "import" _ => g.importDeclaration
  | _ => fail

/-- A declaration with words such as `declare` and `abstract` before it. Only classes are abstract or
decorated. -/
def Grammar.modifiedDeclaration (start : Nat) (decorators : List Tree) : Parser Tree := do
  let words ← growing g.limit [] fun earlier => do
    match ← current with
    | .word w _ =>
      if ["abstract", "accessor", "declare", "private", "protected", "public", "readonly", "static"].contains w then
        if clashes earlier w then spoil
        advance
        return some (earlier ++ [w])
      else return none
    | _ => return none
  if ← isAtWord "class" then allowOnly ["abstract", "declare"] words
  else
    allowOnly ["declare"] words
    unless decorators.isEmpty do spoil
  let ambient := words.contains "declare"
  within (fun c => { c with ambient := c.ambient || ambient }) (g.declaration start decorators)

/-- The words that may start a declaration by `Grammar.modifiedDeclaration`. -/
def declarationWords : List String :=
  ["interface", "type", "module", "namespace", "declare", "enum", "private", "protected", "public", "abstract",
    "accessor", "static", "readonly", "global"]

/-- What a module exports unless asked for a name. Only a class is decorated, before or after the words that
export it. -/
def Grammar.exportDefault (start : Nat) (outer : List Tree) : Parser Tree := do
  expectWord "default"
  let innerStart ← place
  let inner ← g.decorators
  unless outer.isEmpty || inner.isEmpty do spoil
  let decorators := outer ++ inner
  let isClass ← if ← isAtWord "class" then pure true
    else if ← isAtWord "abstract" then nextIs (return !(← onNewLine) && (← isAtWord "class"))
    else pure false
  if isClass then
    let _ ← eatWord "abstract"
    let klass ← g.klass innerStart decorators true false
    return ← finish .statement start [klass]
  unless decorators.isEmpty do spoil
  if ← startsAsyncFunction then
    advance
    let function ← g.functionAfter innerStart true true false
    finish .statement start [function]
  else if ← isAtWord "function" then
    let function ← g.functionAfter innerStart false true false
    finish .statement start [function]
  else if (← isAtWord "interface") && (← nextIs (return !(← onNewLine) && (← current).isIdentifier)) then
    let declared ← g.interface innerStart
    finish .statement start [declared]
  else
    let code ← g.read (.assignment true)
    endStatement
    finish .statement start [code]

def Grammar.exportDeclaration (decorators : List Tree) : Parser Tree := do
  let start ← place
  expectWord "export"
  if !decorators.isEmpty && ((← isAtAny ["\x7b", "*", "=", "@"]) || (← isAtAnyWord ["as", "type"])) then spoil
  match ← current with
  | .mark "\x7b" => g.exportNames start false
  | .mark "*" => g.exportAll start
  | .mark "=" =>
    advance
    let code ← g.read .expression
    endStatement
    finish .statement start [code]
  | .mark "@" =>
    let decorators ← g.decorators
    if ← isAtWord "default" then fail
    let innerStart ← place
    let declared ← g.modifiedDeclaration innerStart decorators
    finish .statement start [declared]
  | .word "default" _ => g.exportDefault start decorators
  | .word "as" _ =>
    advance
    expectWord "namespace"
    let _ ← anyWord
    endStatement
    finish .statement start []
  | .word "type" _ =>
    if ← nextIs (isAt "\x7b") then
      advance
      g.exportNames start true
    else if ← nextIs (isAt "*") then
      advance
      g.exportAll start
    else
      let declared ← g.typeAlias (← place)
      finish .statement start [declared]
  | _ =>
    let innerStart ← place
    let declared ← g.modifiedDeclaration innerStart decorators
    finish .statement start [declared]

def Grammar.expressionStatement : Parser Tree := do
  let start ← place
  let code ← within ({ · with allowsIn := true }) (g.read .expression)
  match code with
  | .node (.name _) _ _ =>
    if ← eat ":" then
      finish .statement start [← g.read (.statement true)]
    else
      endStatement
      finish .expressionStatement start [code]
  | _ =>
    endStatement
    finish .expressionStatement start [code]

def Grammar.doStatement : Parser Tree := do
  let start ← place
  expectWord "do"
  let body ← g.read (.statement true)
  expectWord "while"
  let condition ← g.condition
  let _ ← eat ";"
  finish .statement start [body, condition]

def Grammar.keywordStatement (word : String) (single : Bool) : Parser Tree := do
  let start ← place
  match word with
  | "if" => g.ifStatement
  | "do" => g.doStatement
  | "while" =>
    advance
    let condition ← g.condition
    finish .statement start [condition, ← g.read (.statement true)]
  | "for" => g.forStatement
  | "continue" => jumpStatement
  | "break" => jumpStatement
  | "with" =>
    advance
    let subject ← g.condition
    finish .statement start [subject, ← g.read (.statement true)]
  | "switch" => g.switchStatement
  | "throw" =>
    advance
    if ← onNewLine then spoil
    let code ← g.read .expression
    endStatement
    finish .statement start [code]
  | "try" => g.tryStatement
  | "debugger" =>
    advance
    endStatement
    finish .statement start []
  | "return" => g.returnStatement
  | "class" =>
    if single then spoil
    g.declaration start []
  | "function" =>
    if single && (← nextIs (isAt "*")) then spoil
    g.declaration start []
  | "var" => g.declaration start []
  | "const" =>
    if single && !(← nextIs (isAtWord "enum")) then spoil
    g.declaration start []
  | "let" =>
    if ← declaresLet single then
      if single then spoil
      g.declaration start []
    else g.expressionStatement
  | "using" =>
    if ← declaresUsing then
      if single then spoil
      advance
      g.declarationStatement start false true
    else g.expressionStatement
  | "await" =>
    if ← nextIs (return (← isAtWord "using") && !(← onNewLine) && (← declaresUsing)) then
      if single || !(← context).allowsAwait then spoil
      advance
      advance
      g.declarationStatement start false true
    else g.expressionStatement
  | "export" => g.exportDeclaration []
  | "import" =>
    if ← nextIs (isAtAny [".", "("]) then g.expressionStatement else g.importDeclaration
  | "async" =>
    if ← startsAsyncFunction then
      if single then spoil
      g.declaration start []
    else g.expressionStatement
  | _ =>
    if declarationWords.contains word && (← lookahead (startsDeclaration g.limit)) then
      g.modifiedDeclaration start []
    else g.expressionStatement

def Grammar.statement (single : Bool) : Parser Tree := do
  match ← current with
  | .mark "\x7b" => g.block
  | .mark ";" => leaf .statement
  | .mark "@" =>
    let start ← place
    let decorators ← g.decorators
    if ← isAtWord "export" then g.exportDeclaration decorators
    else
      if single then spoil
      g.modifiedDeclaration start decorators
  | .word "let" true => g.expressionStatement
  | .word w _ => g.keywordStatement w single
  | _ => g.expressionStatement

/-! ## The grammar -/

def Goal.production : Goal → Parser Tree
  | expression => g.expression
  | assignment returnType => g.assignment returnType
  | binary level => g.binary level
  | unary => g.unary
  | access => g.access
  | construction => g.construction
  | binding => g.binding
  | type => g.type
  | typeOperand => g.typeOperand
  | plainType => g.plainType
  | element inChild => g.element inChild
  | body => g.body
  | statement single => g.statement single

/-- Reads a goal, with at most `depth` goals inside each other. -/
def Goal.read (depth : Nat) (goal : Goal) : Parser Tree :=
  match depth with
  | 0 => fail
  | depth + 1 => goal.production ⟨Goal.read depth, depth⟩

/-- A depth that suffices for a text: every goal takes a lexeme or hands on to a smaller one. -/
def depthFor (cs : List Char) : Nat :=
  4 * cs.length + 64

/-- The result of a parser that starts after `skipped` characters of a text, if nothing spoiled it. -/
def runParser (p : Parser Tree) (skipped : Nat) (cs : List Char) : Except SyntaxError Tree := do
  let before : State := { stop := Text.byteLength (cs.take skipped), rest := cs.drop skipped }
  let (tree, state) ← p before.next
  match state.flaw with
  | some offset => throw ⟨offset⟩
  | none =>
    if tree.any (· == .shorthandDefault) then throw ⟨tree.span.start⟩
    return tree

/-- Reads one expression at the front of a text; what follows it is not looked at. -/
def parseExpression (cs : List Char) : Except SyntaxError Tree :=
  runParser (Goal.read (depthFor cs) .expression) 0 cs

def statementsToFinish (depth : Nat) : Parser Tree := do
  let start ← place
  let statements ← manyOf depth do
    if ← isAtFinish then return none else return some (← Goal.read depth (.statement false))
  finish .body start statements

/-- How many characters a first line that names an interpreter takes. -/
def interpreterLine (cs : List Char) : Nat :=
  match cs with
  | '#' :: '!' :: _ => (cs.takeWhile fun c => !isLineEnd c).length
  | _ => 0

def parseProgram (cs : List Char) : Except SyntaxError Tree :=
  runParser (statementsToFinish (depthFor cs)) (interpreterLine cs) cs

end PageCompiler.Code
