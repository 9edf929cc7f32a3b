import PageCompiler.Script.Handler
import PageCompiler.Template.Names
import PageCompiler.Template.Node

/-!
# Collecting expressions and handlers

While markup is read, its expressions are put into a registry, which gives each of them an id, and the
code of its event attributes is lifted into functions with names.
-/

namespace PageCompiler.Template

/-- A handler that was written in an attribute, as a function with a name. -/
structure LiftedHandler where
  name : String
  code : String
  position : Position
deriving DecidableEq, Repr

/-- The expressions and handlers of a file, as far as it is read. -/
structure Registry where
  file : String
  expressions : List Expression := []
  handlers : List LiftedHandler := []
  next : Nat := 0
deriving Repr

/-- Reads a part of a file. What was collected before a fault stays collected. -/
abbrev Reading := ExceptT Diagnostic (StateM Registry)

def expressionId (n : Nat) : String :=
  s!"expr_{n}"

def Registry.expression? (r : Registry) (id : String) : Option Expression :=
  r.expressions.find? (·.id == id)

def Registry.discard (r : Registry) (id : String) : Registry :=
  { r with expressions := r.expressions.filter (·.id != id) }

def withoutComments (cs : List Char) : List Char :=
  match _h : Text.breakOn? "<!--".toList cs with
  | none => cs
  | some (before, after) =>
    match _h2 : Text.breakOn? "-->".toList after with
    | none => cs
    | some (_, rest) => before ++ withoutComments rest
termination_by cs.length
decreasing_by
  have h1 := congrArg List.length (Text.append_of_breakOn? _h)
  have h2 := Text.length_le_of_breakOn? _h2
  simp at h1
  omega

def failAt {α : Type} (fault : Fault) (position : Position) : Reading α := do
  throw { fault, file := (← get).file, position }

def register (code : String) (place : Place) : Reading String := do
  let code := String.ofList (Text.trim (withoutComments code.toList))
  match Code.parseExpression code.toList with
  | .error cause => failAt (.badExpression code cause) place.position
  | .ok _ =>
    let id := expressionId (← get).next
    modify fun r => { r with expressions := r.expressions ++ [{ id, code, place }], next := r.next + 1 }
    return id

/-- The name of the `k`-th handler that is written in the markup of a file. -/
def liftedName (k : Nat) : String :=
  s!"__zen_h{k}"

def liftHandler (code : String) (place : Place) : Reading String := do
  let name := liftedName (← get).handlers.length
  let source := Script.handlerCode name code (LoopScope.variablesOf place.scope)
  modify fun r => { r with handlers := r.handlers ++ [⟨name, source, place.position⟩] }
  return name

/-- The handler that the value of an event attribute stands for: a name is itself the handler. -/
def handlerValue (code : String) (place : Place) : Reading Value := do
  let code := trimString code
  if Code.isPlainName code then return .handler code
  return .handler (← liftHandler code place)

/-! ## Attributes -/

/-- A part of the value of an attribute. -/
inductive ValuePart where
  | text (value : String)
  | code (value : String)
deriving DecidableEq, Repr

/-- The value of an attribute as it is written. -/
inductive Written where
  | fixed (text : String)
  | code (code : String)
  | mixed (parts : List ValuePart)
deriving DecidableEq, Repr

def literalText : List Char → List Char
  | '\\' :: cs => '\\' :: '\\' :: literalText cs
  | '\x60' :: cs => '\\' :: '\x60' :: literalText cs
  | '$' :: '{' :: cs => '\\' :: '$' :: '{' :: literalText cs
  | c :: cs => c :: literalText cs
  | [] => []

def ValuePart.literal : ValuePart → List Char
  | text value => literalText value.toList
  | code value => '$' :: '{' :: Text.trim value.toList ++ ['}']

def templateLiteral (parts : List ValuePart) : String :=
  String.ofList ('\x60' :: parts.flatMap ValuePart.literal ++ ['\x60'])

/-- The code of an event attribute; there is none if it is blank. -/
def eventCode? (name : String) (written : Written) (place : Place) : Reading (Option String) := do
  let code ← match written with
    | .fixed text => pure text
    | .code code => pure code
    | .mixed _ => failAt (.interpolatedEvent name) place.position
  return if blankString code then none else some code

/-- The value of an attribute that listens to no event. -/
def plainValue (written : Written) (reactive isComponent : Bool) (place : Place) : Reading Value := do
  match written with
  | .fixed text => if reactive then return .expression (← register text place) else return .fixed text
  | .code code =>
    if isComponent && Code.isFunction code then return .handler (← liftHandler code place)
    else return .expression (← register code place)
  | .mixed parts => return .expression (← register (templateLiteral parts) place)

/-- Reads an attribute. A colon before its name makes its text an expression. On an element, an attribute
named for an event holds a handler. -/
def attributeOf (name : String) (written : Written) (isComponent : Bool) (place : Place) :
    Reading Attribute := do
  let (name, reactive) := match name.toList with
    | ':' :: rest => (String.ofList rest, true)
    | _ => (name, false)
  let plain : Reading Attribute :=
    return { name, value := ← plainValue written reactive isComponent place, place }
  match if isComponent then none else eventName? name with
  | none => plain
  | some event =>
    match ← eventCode? name written place with
    | none => plain
    | some code => return { name := "data-zen-" ++ event, value := ← handlerValue code place, place }

end PageCompiler.Template
