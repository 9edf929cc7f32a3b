import PageCompiler.Component.Definition
import PageCompiler.Component.Rebinding
import PageCompiler.Component.Slot
import PageCompiler.Component.Usage
import PageCompiler.Scope

/-!
# Putting components into pages

The use of a component is replaced by a copy of its markup. The copy's expressions, scripts and styles join those
of the page. An instance of a component has names of its own; a layout shares the names of the page.
-/

namespace PageCompiler.Component

open Template (Node Attribute Expression Value Place)

/-- Whether a layout or a component is used. -/
inductive Role where
  | layout
  | component
deriving DecidableEq, Repr

/-- The parts of a page that the uses of components add to, and the numbers by which instances, expressions and
handlers are named apart. -/
structure Assembly where
  expressions : List Expression
  script : Option Script
  styles : List Style
  nextId : Nat
  instances : Nat := 0
  layouts : Nat := 0
  handlers : Nat := 0
  /-- The layouts and components whose styles are in the page already. -/
  styled : List (Role × String) := []
deriving Repr

/-- Changes the parts of a page, up to a fault. -/
abbrev Assembling := StateT Assembly (Except Diagnostic)

def idNumber? (id : String) : Option Nat :=
  (Text.strip? "expr_".toList id.toList).bind Text.decimal?

def firstFree (expressions : List Expression) : Nat :=
  (expressions.filterMap fun e => idNumber? e.id).foldl (fun n m => max n (m + 1)) 0

def takeExpression (file id : String) : Assembling String := do
  match (← get).expressions.find? (·.id == id) with
  | none => throw { fault := .danglingAttribute id, file }
  | some e =>
    modify fun a => { a with expressions := a.expressions.filter (·.id != id) }
    return trimString e.code

/-! ## Names -/

/-- The new names in the copy of a script, and the states that the copy leaves to the page. The copy is counted. -/
def copyNames (role : Role) (script : Option Script) : Assembling (Ordered String × List String) := do
  let a ← get
  match role, script with
  | .component, script =>
    modify fun a => { a with instances := a.instances + 1 }
    return ((script.map (instanceRenames a.instances)).getD [], [])
  | .layout, none => return ([], [])
  | .layout, some s =>
    modify fun a => { a with layouts := a.layouts + 1 }
    return (layoutRenames a.layouts s, sharedStates s a.script)

/-- The code for a prop: what is passed for it, or else its default. -/
def propCode (file : String) (scope : Scope) (usage : Usage) (name : String) (fallback : Option String) :
    Assembling String := do
  match usage.attributes.find? (·.name == name) with
  | some { value := .fixed text, .. } => return quote text
  | some { value := .handler handler, .. } => return handler
  | some { value := .expression id, .. } =>
    let code ← takeExpression file id
    return if Code.isPlainName code && scope.declares code then code else "(" ++ code ++ ")"
  | none => return (fallback.map fun d => "(" ++ d ++ ")").getD "undefined"

def propCodes (file : String) (usage : Usage) (props : Ordered (Option String)) : Assembling (Ordered String) := do
  let scope := Scope.ofScript (← get).script
  props.mapM fun (name, fallback) => do return (name, ← propCode file scope usage name fallback)

def newIds (expressions : List Expression) : Assembling (Ordered String) := do
  let first := (← get).nextId
  modify fun a => { a with nextId := a.nextId + expressions.length }
  return expressions.zipIdx.map fun (e, i) => (e.id, Template.expressionId (first + i))

def addExpression (component : Component) (b : Rebinding) (usage : Usage) (e : Expression) : Assembling Unit := do
  match Code.renamedExpression e.code (b.reference? e.place.scope) with
  | .error cause => throw (e.diagnostic (.unreadableExpression cause) component.file)
  | .ok code =>
    let copy : Expression := {
      id := b.id e.id
      code
      place := b.place usage.place.scope e.place
      file := some (e.file.getD component.file) }
    modify fun a => { a with expressions := a.expressions ++ [copy] }

/-! ## Roots -/

def markRoot (name : String) (number : Nat) : Node → Node
  | .element tag attributes children place =>
    let marks := [("data-zen-component", name), ("data-zen-instance", s!"comp-{number}"), ("data-zen-replaced", "true")]
    let others := attributes.filter fun a => !marks.any (·.1 == a.name)
    .element tag (others ++ marks.map fun (mark, text) => ⟨mark, .fixed text, place⟩) children place
  | node => node

def onElement (f : List Attribute → List Attribute) : Node → Node
  | .element tag attributes children place => .element tag (f attributes) children place
  | node => node

def onSingleRoot (nodes : List Node) (f : List Attribute → List Attribute) : List Node :=
  match nodes.filter (!·.isBlank) with
  | [.element ..] => nodes.map (onElement f)
  | _ => nodes

def hasSingleRoot (nodes : List Node) : Bool :=
  match nodes.filter (!·.isBlank) with
  | [.element ..] => true
  | _ => false

/-- The attributes of a root with one more. It takes the place of one with the same name; fixed classes are
joined. -/
def mergeAttribute (attributes : List Attribute) (a : Attribute) : List Attribute :=
  match attributes with
  | [] => [a]
  | own :: rest =>
    if own.name == a.name then
      match a.name == "class", own.value, a.value with
      | true, .fixed current, .fixed extra => { own with value := .fixed (current ++ " " ++ extra) } :: rest
      | _, _, _ => a :: rest
    else own :: mergeAttribute rest a

/-- The name of the `k`-th handler that uses of components pass on. -/
def forwardedName (k : Nat) : String :=
  s!"__zen_fwd_h{k}"

/-- The name under which the code of an event attribute of a use can be called: a name is itself the handler, other
code becomes a function of the page. -/
def liftForwarded (file : String) (usage : Usage) (position : Position) (code : String) : Assembling String := do
  if Code.isPlainName code then return code
  let s ← get
  let name := forwardedName s.handlers
  let source := Script.handlerCode name code (Template.LoopScope.variablesOf usage.place.scope)
  let script ← (s.script.getD {}).addHandler source position file
  modify fun s => { s with handlers := s.handlers + 1, script := some script }
  return name

def forwardedHandler (file : String) (usage : Usage) (a : Attribute) : Assembling String := do
  match a.value with
  | .handler name => return name
  | .fixed code => liftForwarded file usage a.place.position (trimString code)
  | .expression id => liftForwarded file usage a.place.position (← takeExpression file id)

def forwarded (file : String) (usage : Usage) (a : Attribute) : Assembling Attribute := do
  match Template.eventName? a.name with
  | some event => return { a with name := "data-zen-" ++ event, value := .handler (← forwardedHandler file usage a) }
  | none => return a

def passedOn (usage : Usage) (props : List String) : List Attribute :=
  usage.attributes.filter fun a => a.name != "slot" && !props.contains a.name

/-- Puts the attributes of a use that are not props on the single root of the copy. -/
def forwardAttributes (file : String) (usage : Usage) (props : List String) (nodes : List Node) :
    Assembling (List Node) := do
  if !hasSingleRoot nodes then return nodes
  let found ← (passedOn usage props).mapM (forwarded file usage)
  return onSingleRoot nodes fun own => found.foldl mergeAttribute own

/-! ## Scripts and styles -/

/-- The part of a statement that the copy of a script leaves out. -/
def removed? (b : Rebinding) : Script.Statement → Option Span
  | .prop _ _ span => some span
  | .importing source _ span => if ".zen".toList.isSuffixOf source.toList then some span else none
  | .state name _ _ span => if b.shared.contains name then some span else none
  | _ => none

/-- The references of a block that stand in no part that the copy leaves out. -/
def keptReferences (b : Rebinding) (block : Script.Block) (references : List Code.Reference) :
    List Code.Reference :=
  references.filter fun r => !(block.statements.filterMap (removed? b)).any (·.contains r.span.start)

/-- The edits that make the copy of a block: names change, and what the copy leaves out is removed. -/
def blockEdits (b : Rebinding) (block : Script.Block) (references : List Code.Reference) : List Code.Edit :=
  Code.editsFor (keptReferences b block references) (b.reference? none) ++
    (block.statements.filterMap (removed? b)).map fun span => ⟨span, ""⟩

def addBlock (component : Component) (b : Rebinding) (block : Script.Block) : Assembling Unit := do
  match block.references with
  | .error cause => throw { fault := .badScript cause, file := component.file, position := block.position }
  | .ok references =>
    let raw := String.ofList (Code.applyEdits (blockEdits b block references) block.raw.toList)
    let script := (← get).script.getD {}
    let copy ← Script.Block.read script.blocks.length raw (block.attributes.erase "props") block.position component.file
    let copy := { copy with lifted := block.lifted, file := some (block.file.getD component.file) }
    let script ← script.add copy component.file
    modify fun a => { a with script := some script }

/-- Adds the styles of a component to the page when it is used for the first time. -/
def addStyles (role : Role) (component : Component) : Assembling Unit := do
  let key := (role, lowerString component.name)
  unless (← get).styled.contains key do
    let styles := component.page.styles.map fun s =>
      { s with scope := if role == .component && !s.global then some component.name else none }
    modify fun a => { a with styled := key :: a.styled, styles := a.styles ++ styles }

/-! ## The whole -/

/-- The copy of the template of a component for one use, its slots filled and its roots marked, and what names in
it became. -/
def copyTemplate (file : String) (role : Role) (component : Component) (usage : Usage) :
    Assembling (Rebinding × List Node) := do
  let number := (← get).instances
  let (renames, shared) ← copyNames role component.page.script
  let props ← propCodes file usage component.props
  let ids ← newIds component.page.expressions
  let b : Rebinding := { renames, props, shared, ids }
  component.page.expressions.forM (addExpression component b usage)
  let template := b.nodes usage.place.scope component.page.nodes
  let content := slotContent usage.name usage.children
  match content.unmatched? template with
  | some slot =>
    throw { fault := .unmatchedSlot component.name slot, file, position := usage.place.position }
  | none =>
    let filled := content.fillAll template
    return (b, match role with
      | .component => filled.map (markRoot component.name number)
      | .layout => filled)

def inline (file : String) (role : Role) (component : Component) (usage : Usage) : Assembling (List Node) := do
  let (b, nodes) ← copyTemplate file role component usage
  let nodes ← match role with
    | .component => forwardAttributes file usage component.props.keys nodes
    | .layout => pure nodes
  ((component.page.script.map (·.blocks)).getD []).forM (addBlock component b)
  addStyles role component
  return nodes

end PageCompiler.Component
