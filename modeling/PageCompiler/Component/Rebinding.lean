import PageCompiler.Script.Declared
import PageCompiler.Template.Node

/-!
# Names in an instance of a component

When a component is put into a page, the names of its script become names of the instance, its props become the
code that is passed for them, and its expressions get ids of the page.
-/

namespace PageCompiler.Component

open Template (Node Attribute LoopScope Place Value)

/-- What names in the copy of a component become. -/
structure Rebinding where
  /-- New names for the names of the script. -/
  renames : Ordered String := []
  props : Ordered String := []
  /-- States that the copy leaves to the page, which declares them too. -/
  shared : List String := []
  ids : Ordered String := []
deriving Repr

namespace Rebinding

/-- What a reference becomes, unless it is to a variable of a loop. -/
def reference? (b : Rebinding) (loops : Option LoopScope) (r : Code.Reference) : Option Code.Renaming :=
  if (LoopScope.variablesOf loops).contains r.name then none
  else match b.renames.get? r.name with
    | some name => some (.name name)
    | none =>
      match b.props.get? r.name with
      | some code => some (.name code)
      | none =>
        if r.name == "props" then do
          let (property, _) ← r.member
          (b.props.get? property).map .member
        else none

def handler (b : Rebinding) (name : String) : String :=
  match b.renames.get? name with
  | some renamed => renamed
  | none => ((b.props.get? name).filter Code.isPlainName).getD name

def id (b : Rebinding) (id : String) : String :=
  (b.ids.get? id).getD id

/-- What the loops around a place become when the copy stands in a loop. -/
def scope (b : Rebinding) (outer inner : Option LoopScope) : Option LoopScope :=
  LoopScope.nest outer (inner.map fun s => { s with source := s.source.map b.id })

def place (b : Rebinding) (outer : Option LoopScope) (p : Place) : Place :=
  { p with scope := b.scope outer p.scope }

def value (b : Rebinding) : Value → Value
  | .fixed text => .fixed text
  | .expression id => .expression (b.id id)
  | .handler name => .handler (b.handler name)

def attributes (b : Rebinding) (outer : Option LoopScope) (attributes : List Attribute) : List Attribute :=
  attributes.map fun a => { a with value := b.value a.value, place := b.place outer a.place }

mutual

def node (b : Rebinding) (outer : Option LoopScope) : Node → Node
  | .element tag attributes children place =>
    .element tag (b.attributes outer attributes) (b.nodes outer children) (b.place outer place)
  | .component name attributes children place =>
    .component name (b.attributes outer attributes) (b.nodes outer children) (b.place outer place)
  | .slot name fallback place => .slot name (b.nodes outer fallback) (b.place outer place)
  | .text value place => .text value (b.place outer place)
  | .expression id place => .expression (b.id id) (b.place outer place)
  | .choice condition yes no place =>
    .choice (b.id condition) (b.nodes outer yes) (b.nodes outer no) (b.place outer place)
  | .optional condition content place =>
    .optional (b.id condition) (b.nodes outer content) (b.place outer place)
  | .loop source item index key body place =>
    .loop (b.id source) item index (key.map b.id) (b.nodes outer body) (b.place outer place)
  | .doctype name position => .doctype name position

def nodes (b : Rebinding) (outer : Option LoopScope) : List Node → List Node
  | [] => []
  | n :: ns => b.node outer n :: b.nodes outer ns

end

end Rebinding

def instanceRenames (n : Nat) (s : Script) : Ordered String :=
  s.names.map fun name => (name, s!"__zen_comp_{n}_" ++ name)

def isLiftedName (name : String) : Bool :=
  match Text.strip? "__zen_h".toList name.toList with
  | some digits => !digits.isEmpty && digits.all Char.isDigit
  | none => false

/-- New names for the handlers written in the markup of the `n`-th layout; every file numbers them from zero. All
other names of a layout are those of the page. -/
def layoutRenames (n : Nat) (s : Script) : Ordered String :=
  (s.functions.filter isLiftedName).map fun name =>
    (name, s!"__zen_layout_{n}_" ++ String.ofList (name.toList.drop "__zen_".length))

def sharedStates (layout : Script) (page : Option Script) : List String :=
  match page with
  | some p => layout.states.keys.filter p.states.hasKey
  | none => []

end PageCompiler.Component
