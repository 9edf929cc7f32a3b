import PageCompiler.Code.Grammar.Types

/-!
# Elements in code

Markup may stand where an expression may. Its text and its quoted values are kept as they are written.
-/

namespace PageCompiler.Code

variable (g : Grammar)

/-- Takes a name of an element or attribute, in which hyphens may stand, as it is written. -/
def elementWord : Parser String := do
  match ← current with
  | .word .. =>
    let more := hyphenRun (← get).rest
    modify fun s => { s with
      stop := s.stop + Text.byteLength (s.rest.take more)
      rest := s.rest.drop more }
    let state ← get
    advance
    return String.ofList (state.here.take (state.here.length - state.rest.length))
  | _ => fail

/-- The name of an element: a word, a word in a name space, or a path, whose later parts have no hyphens. -/
def elementName (fuel : Nat) : Parser String := do
  let first ← elementWord
  if ← eat ":" then return first ++ ":" ++ (← elementWord)
  growing fuel first fun name => do
    if ← eat "." then
      let part ← elementWord
      if part.toList.contains '-' then fail
      return some (name ++ "." ++ part)
    else return none

def attributeName : Parser String := do
  let first ← elementWord
  if ← eat ":" then return first ++ ":" ++ (← elementWord) else return first

/-- The unit at the front of the value of an attribute: a quoted value is taken as it is written. -/
def cutAttributeValue (cs : List Char) : Cut :=
  match cs with
  | '"' :: rest => cutRawQuoted '"' rest
  | '\'' :: rest => cutRawQuoted '\'' rest
  | cs => cut cs

/-- Takes the equals sign of an attribute and reads its value as the current lexeme. -/
def advanceAttributeValue : Parser Unit :=
  modify (·.nextBy cutAttributeValue)

def Grammar.attr : Parser Tree := do
  let start ← place
  if ← eat "\x7b" then
    expect "..."
    let code ← g.read .expression
    expect "\x7d"
    finish .spreadAttribute start [code]
  else
    let name ← attributeName
    if ← isAt "=" then
      advanceAttributeValue
      let valueStart ← place
      match ← current with
      | .string value =>
        let value ← leaf (.string value)
        finish (.attr name) start [value]
      | .mark "\x7b" =>
        advance
        if ← isAt "\x7d" then fail
        let code ← g.read .expression
        expect "\x7d"
        let value ← finish .container valueStart [code]
        finish (.attr name) start [value]
      | .mark "<" =>
        let value ← g.read (.element false)
        finish (.attr name) start [value]
      | _ => fail
    else finish (.attr name) start []

/-- Takes a mark and reads what follows as a child if we are among children. -/
def expectAmong (inChild : Bool) (mark : String) : Parser Unit := do
  unless ← isAt mark do fail
  if inChild then advanceChild else advance

/-- A child of an element, or nothing at the closing tag. The opening angle of a tag is not taken. -/
def Grammar.child : Parser (Option Tree) := do
  let start ← place
  match ← current with
  | .text =>
    let state ← get
    let value := String.ofList (state.here.take (state.here.length - state.rest.length))
    advanceChild
    return some (← finish (.rawText value) start [])
  | .mark "\x7b" =>
    advance
    if ← isAt "\x7d" then
      expectAmong true "\x7d"
      return some (← finish .container start [])
    if ← eat "..." then
      let code ← g.read .expression
      expectAmong true "\x7d"
      return some (← finish .spreadChild start [code])
    let code ← g.read .expression
    expectAmong true "\x7d"
    return some (← finish .container start [code])
  | .mark "<" =>
    if ← nextIs (isAt "/") then return none
    return some (← g.read (.element true))
  | _ => fail

/-- The children of an element up to the angle of its closing tag. -/
def Grammar.children : Parser Tree := do
  let start ← place
  let children ← manyOf g.limit g.child
  finish .children start children

def Grammar.element (inChild : Bool) : Parser Tree := do
  let start ← place
  expect "<"
  if ← isAt ">" then
    advanceChild
    let children ← g.children
    expect "<"
    expect "/"
    expectAmong inChild ">"
    finish .fragment start [children]
  else
    let name ← elementName g.limit
    let types ← g.typeArguments?
    let attributesStart ← place
    let attributes ← manyOf g.limit do
      if ← isAtAny [">", "/"] then return none else return some (← g.attr)
    let attributes ← finish .attributes attributesStart attributes
    if ← eat "/" then
      expectAmong inChild ">"
      finish (.element name) start (attributes :: types)
    else
      unless ← isAt ">" do fail
      advanceChild
      let children ← g.children
      expect "<"
      expect "/"
      let closing ← elementName g.limit
      unless closing == name do spoil
      expectAmong inChild ">"
      finish (.element name) start (attributes :: types ++ [children])

end PageCompiler.Code
