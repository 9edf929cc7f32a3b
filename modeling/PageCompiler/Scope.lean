import PageCompiler.Options
import PageCompiler.Page

/-!
# What names in expressions mean

A name in an expression of a template is, in this order: a variable of a loop around it, one of the four
data objects, a declared state or prop, a name of a script, an import, or a global name. Any other name is
unknown, which strict options refuse.
-/

namespace PageCompiler

/-- What a name refers to. -/
inductive Meaning where
  | loop
  | stateObject
  | propsObject
  | loaderData
  | stores
  | state
  | prop
  | script
  | imported
  | global
  | unknown
deriving DecidableEq, Repr

def globalNames : List String :=
  ["Math", "console", "JSON", "Date", "String", "Number", "Boolean", "Array", "Object", "Promise", "Map", "Set",
    "Error", "RegExp", "Symbol", "BigInt", "Intl", "undefined", "NaN", "Infinity", "isNaN", "isFinite", "parseInt",
    "parseFloat", "encodeURIComponent", "decodeURIComponent", "encodeURI", "decodeURI", "window", "document",
    "navigator", "location", "localStorage", "sessionStorage", "fetch", "setTimeout", "clearTimeout", "setInterval",
    "clearInterval", "requestAnimationFrame", "globalThis", "__zenith"]

/-- The names that the expressions of a page can use. -/
structure Scope where
  states : List String := []
  props : List String := []
  script : List String := []
  imports : List String := []
deriving Repr

namespace Scope

def ofScript (script : Option Script) : Scope :=
  match script with
  | none => {}
  | some s =>
    { states := s.states.keys
      props := s.props.keys
      script := s.functions ++ s.vars
      imports := s.importedNames }

def meaning (s : Scope) (name : String) (loops : Option Template.LoopScope) : Meaning :=
  if (Template.LoopScope.variablesOf loops).contains name then .loop
  else if name == "state" then .stateObject
  else if name == "props" then .propsObject
  else if name == "loaderData" then .loaderData
  else if name == "stores" then .stores
  else if s.states.contains name then .state
  else if s.props.contains name then .prop
  else if s.script.contains name then .script
  else if s.imports.contains name then .imported
  else if globalNames.contains name then .global
  else .unknown

def declares (s : Scope) (name : String) : Bool :=
  s.states.contains name || s.script.contains name || s.imports.contains name || s.props.contains name

end Scope

def Template.Expression.diagnostic (e : Template.Expression) (fault : Fault) (file : String) : Diagnostic :=
  { fault, file := e.file.getD file, position := e.place.position, context := some e.code }

namespace Scope

def faultOf (s : Scope) (options : Options) (loops : Option Template.LoopScope) (r : Code.Reference) :
    Option Fault :=
  match s.meaning r.name loops with
  | .unknown => if options.strictReferences then some (.unknownName r.name) else none
  | .stores =>
    match r.member with
    | some (store, _) =>
      if options.stores.isEmpty || options.stores.contains store then none
      else some (.unknownStore ("stores." ++ store))
    | none => none
  | _ => none

def check (s : Scope) (options : Options) (file : String) (e : Template.Expression) : Compiled Unit := do
  if Code.isFunction e.code then throw (e.diagnostic .functionInTemplate file)
  match Code.expressionReferences e.code with
  | .error cause => throw (e.diagnostic (.unreadableExpression cause) file)
  | .ok references =>
    match references.findSome? (s.faultOf options e.place.scope) with
    | some fault => throw (e.diagnostic fault file)
    | none => return

def checkAll (s : Scope) (options : Options) (file : String) (expressions : List Template.Expression) :
    Compiled Unit :=
  expressions.forM (s.check options file)

end Scope

end PageCompiler
