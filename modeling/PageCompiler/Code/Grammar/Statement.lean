import PageCompiler.Code.Grammar.Expression

/-!
# Statements and declarations
-/

namespace PageCompiler.Code

variable (g : Grammar)

/-! ## Variables -/

/-- One declared variable, and whether it lacks a value that it needs: a constant and a pattern do, unless it is
only declared. -/
def Grammar.declarator (constant : Bool) : Parser (Tree × Bool) := do
  let start ← place
  let target ← g.read .binding
  if target.kind != .pattern && (← isAt "!") && !(← onNewLine) then advance
  let types ← g.typeAnnotation
  let init ← if ← eat "=" then do pure [← g.read (.assignment true)] else pure []
  let needsValue := (constant || target.kind == .pattern) && !(← context).ambient
  return (← finish .declarator start (target :: types ++ init), needsValue && init.isEmpty)

/-- The variables after the word that declares them, and whether one of them lacks a value that it needs. -/
def Grammar.declarations (start : Nat) (hoisted constant : Bool) : Parser (Tree × Bool) := do
  let declarators ← separated g.limit (g.declarator constant)
  return (← finish (.declarations hoisted) start (declarators.map (·.1)), declarators.any (·.2))

def Grammar.declarationStatement (start : Nat) (hoisted constant : Bool) : Parser Tree := do
  let (declared, lacking) ← g.declarations start hoisted constant
  if lacking then spoil
  endStatement
  return declared

/-- Whether the word `let` declares variables at the head of a statement. It does unless the next lexeme assigns
to it, calculates with it, or is an access to it or a call. Where only one statement may stand, only a
bracket makes it a declaration. -/
def declaresLet (single : Bool) : Parser Bool :=
  nextIs do
    let lexeme ← current
    if lexeme == .mark "[" then return true
    if single then return false
    match lexeme with
    | .mark m =>
      let calculates := match levelOf? lexeme with
        | some level => 3 < level
        | none => false
      return !(calculates || assignmentMarks.contains m || [".", "(", ";"].contains m)
    | .word w _ => return w != "in" && w != "instanceof"
    | _ => return true

def declaresLoopLet : Parser Bool :=
  nextIs do
    match ← current with
    | .mark m => return m == "[" || m == "\x7b"
    | .word w _ => return w != "in"
    | _ => return false

def declaresUsing : Parser Bool :=
  nextIs do
    if ← onNewLine then return false
    let lexeme ← current
    return lexeme.isIdentifier && lexeme.text? != some "of" && lexeme.text? != some "in"

/-! ## Blocks and choices -/

def Grammar.block : Parser Tree := do
  let start ← place
  expect "\x7b"
  let statements ← manyOf g.limit do
    if ← isAt "\x7d" then return none else return some (← g.read (.statement false))
  expect "\x7d"
  finish .block start statements

/-- The statements of a body, of which the texts at the head are directives. -/
def markDirectives : List Tree → List Tree
  | .node .expressionStatement span [.node (.string value) inner parts] :: ts =>
    .node .directive span [.node (.string value) inner parts] :: markDirectives ts
  | ts => ts

def Grammar.body : Parser Tree := do
  let start ← place
  expect "\x7b"
  let statements ← within ({ · with allowsReturn := true, allowsIn := true, inDecorator := false }) do
    manyOf g.limit do
      if ← isAt "\x7d" then return none else return some (← g.read (.statement false))
  expect "\x7d"
  finish .body start (markDirectives statements)

def Grammar.condition : Parser Tree := do
  expect "("
  let code ← within ({ · with allowsIn := true }) (g.read .expression)
  expect ")"
  return code

def Grammar.ifStatement : Parser Tree := do
  let start ← place
  expectWord "if"
  let condition ← g.condition
  let yes ← g.read (.statement true)
  let no ← if ← eatWord "else" then do pure [← g.read (.statement true)] else pure []
  finish .statement start (condition :: yes :: no)

/-- The head of a loop up to its closing parenthesis, with the kind of the loop. A loop that waits goes over the
elements of a value, and so does one over resources that are released. -/
def Grammar.loopHead (isAwait : Bool) : Parser (NodeKind × List Tree) := do
  expect "("
  let start ← place
  let finishThree (init : List Tree) : Parser (NodeKind × List Tree) := do
    if isAwait then spoil
    expect ";"
    let test ← if ← isAt ";" then pure [] else do pure [← g.read .expression]
    expect ";"
    let step ← if ← isAt ")" then pure [] else do pure [← g.read .expression]
    expect ")"
    return (.loop, init ++ test ++ step)
  let eachOf (init : Tree) (lacking : Bool) : Parser (NodeKind × List Tree) := do
    if ← eatWord "of" then
      let source ← g.read (.assignment true)
      expect ")"
      return (.each, [init, source])
    else if ← eatWord "in" then
      if isAwait then spoil
      let source ← g.read .expression
      expect ")"
      return (.each, [init, source])
    else
      if lacking then spoil
      finishThree [init]
  if ← isAt ";" then return ← finishThree []
  let releases ← if ← isAtWord "await" then
      nextIs (return (← isAtWord "using") && !(← onNewLine) && (← declaresUsing))
    else if ← isAtWord "using" then declaresUsing
    else pure false
  let declares ← if ← isAtAnyWord ["var", "const"] then pure true
    else if ← isAtWord "let" then declaresLoopLet
    else pure releases
  if declares then
    if ← eatWord "await" then
      unless (← context).allowsAwait do spoil
    let hoisted ← isAtWord "var"
    let constant ← isAtAnyWord ["const", "using"]
    advance
    let (init, lacking) ← within ({ · with allowsIn := false }) (g.declarations start hoisted constant)
    if releases && (← isAtWord "in") then spoil
    eachOf init lacking
  else
    let startsAsyncOf ← if !isAwait && (← current) == .word "async" false then nextIs (isAtWord "of") else pure false
    let startsLet ← isAtWord "let"
    let init ← within ({ · with allowsIn := false }) (g.read .expression)
    if ← isAtAnyWord ["of", "in"] then
      if (startsAsyncOf || startsLet) && (← isAtWord "of") then spoil
      eachOf (← asTarget Tree.target? init) false
    else finishThree [init]

def Grammar.forStatement : Parser Tree := do
  let start ← place
  expectWord "for"
  let isAwait ← isAtWord "await"
  if isAwait then
    unless (← context).allowsAwait do spoil
    advance
  let (kind, head) ← within ({ · with allowsIn := true }) (g.loopHead isAwait)
  finish kind start (head ++ [← g.read (.statement true)])

def Grammar.switchStatement : Parser Tree := do
  let start ← place
  expectWord "switch"
  let subject ← g.condition
  let casesStart ← place
  expect "\x7b"
  let cases ← manyOf g.limit do
    let caseStart ← place
    let test ← if ← eatWord "default" then pure []
      else if ← eatWord "case" then do pure [← g.read .expression]
      else return none
    expect ":"
    let statements ← manyOf g.limit do
      if ← isAtAnyWord ["case", "default"] then return none
      if ← isAt "\x7d" then return none
      return some (← g.read (.statement false))
    return some (← finish .clause caseStart (test ++ statements))
  expect "\x7d"
  finish .statement start [subject, ← finish .cases casesStart cases]

def Grammar.tryStatement : Parser Tree := do
  let start ← place
  expectWord "try"
  let block ← g.block
  let handlerStart ← place
  let handler ← if ← eatWord "catch" then do
      let param ← if ← eat "(" then do
          let target ← g.read .binding
          let types ← g.typeAnnotation
          expect ")"
          pure (target :: types)
        else pure []
      pure [← finish .catching handlerStart (param ++ [← g.block])]
    else pure []
  let final ← if ← eatWord "finally" then do pure [← g.block] else pure []
  if handler.isEmpty && final.isEmpty then spoil
  finish .statement start (block :: handler ++ final)

/-- Leaving a loop, possibly a labelled one. -/
def jumpStatement : Parser Tree := do
  let start ← place
  advance
  unless ← onNewLine do
    if (← current).isIdentifier then discard identifier
  endStatement
  finish .statement start []

def Grammar.returnStatement : Parser Tree := do
  let start ← place
  unless (← context).allowsReturn do spoil
  advance
  let ends ← if ← isAtAny [";", "\x7d"] then pure true
    else if ← onNewLine then pure true else isAtFinish
  let value ← if ends then pure []
    else do pure [← within ({ · with allowsIn := true }) (g.read .expression)]
  endStatement
  finish .returnStatement start value

/-! ## Type declarations -/

def Grammar.typeAlias (start : Nat) : Parser Tree := do
  expectWord "type"
  let name ← binder
  let params ← g.typeParameters?
  expect "="
  let type ← g.read .type
  endStatement
  finish .typeDeclaration start (name :: params ++ [type])

/-- Whether an interface can extend what the expression names: a name or a member, possibly applied to types. -/
def Tree.isExtensible : Tree → Bool
  | .node .instantiation _ (inner :: _) => inner.isExtensible
  | .node (.name _) _ _ => true
  | .node (.member _) _ _ => true
  | _ => false

def Grammar.interface (start : Nat) : Parser Tree := do
  expectWord "interface"
  let name ← binder
  let params ← g.typeParameters?
  let heritage ← if ← eatWord "extends" then
      separated g.limit do
        let base ← g.read .access
        unless base.isExtensible do spoil
        return base :: (← g.typeArguments?)
    else pure []
  let members ← g.typeMembers
  finish .typeDeclaration start (name :: params ++ heritage.flatten ++ [members])

/-- Whether the key, which starts with the lexeme, names a case of an enumeration: a word, a text, or a text or
a template without codes in brackets. -/
def Tree.namesCase (key : Tree) : Lexeme → Bool
  | .word .. => true
  | .string _ => true
  | .mark "[" =>
    match key.parts with
    | [.node (.string _) _ _] => true
    | [.node .template _ []] => true
    | _ => false
  | _ => false

def Grammar.enumeration (start : Nat) : Parser Tree := do
  expectWord "enum"
  let name ← binder
  expect "\x7b"
  let (members, _) ← listUntil g.limit "\x7d" do
    let memberStart ← place
    let lexeme ← current
    let (key, computed) ← g.memberName
    unless key.namesCase lexeme do spoil
    let init ← g.initializer
    finish .group memberStart (if computed then key :: init else init)
  expect "\x7d"
  finish .statement start (name :: members)

def Grammar.space (start : Nat) : Parser Tree := do
  if ← eatWord "global" then
    return ← finish .statement start [← g.block]
  unless ← isAtAnyWord ["namespace", "module"] do fail
  advance
  match ← current with
  | .string _ =>
    advance
    if ← isAt "\x7b" then finish .statement start [← g.block]
    else
      endStatement
      finish .statement start []
  | _ =>
    let first ← binder
    let others ← manyOf g.limit do
      if ← eat "." then return some (← binder) else return none
    finish .statement start (first :: others ++ [← g.block])

def startsDeclaration : Nat → Parser Bool
  | 0 => return false
  | fuel + 1 => do
    match ← current with
    | .word w _ =>
      if ["var", "let", "const", "function", "class", "enum"].contains w then return true
      else if w == "interface" || w == "type" then
        advance
        return (← current).isIdentifier && !(← onNewLine)
      else if w == "module" || w == "namespace" then
        advance
        let named := match ← current with
          | .string _ => true
          | lexeme => lexeme.isIdentifier
        return named && !(← onNewLine)
      else if ["abstract", "accessor", "async", "declare", "private", "protected", "public", "readonly"].contains w then
        advance
        if ← onNewLine then return false else startsDeclaration fuel
      else if w == "global" then
        advance
        return (← isAt "\x7b") || (← current).isIdentifier || (← isAtWord "export")
      else if w == "import" then
        advance
        return (← current).isWord || (← isAtAny ["*", "\x7b"])
      else if w == "static" then
        advance
        startsDeclaration fuel
      else return false
    | _ => return false

end PageCompiler.Code
