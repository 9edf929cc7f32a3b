import PageCompiler.Component.Inline

/-!
# Resolution

The uses in a page are replaced one at a time until none is left: the first use of a layout in document order,
or, if no layout is used, the first use of a component.
-/

namespace PageCompiler.Component

open Template (Node)

/-- The catalogs that a page is resolved with. -/
structure Catalogs where
  layouts : Catalog := {}
  components : Catalog := {}

def firstKnown (catalog : Catalog) : List Usage → Compiled (Option Component)
  | [] => return none
  | u :: us => do
    match ← catalog.lookup u.name with
    | some component => return some component
    | none => firstKnown catalog us

def nextTarget (catalogs : Catalogs) (file : String) (nodes : List Node) : Compiled (Option (Role × Component)) := do
  let usages := Template.usagesIn nodes
  match ← firstKnown catalogs.layouts usages with
  | some layout => return some (.layout, layout)
  | none =>
    match usages with
    | [] => return none
    | u :: _ =>
      match ← catalogs.components.lookup u.name with
      | some component => return some (.component, component)
      | none => throw { fault := .unknownComponent u.name, file, position := u.place.position }

def isUseOf (component : Component) (name : String) : Bool :=
  lowerString name == lowerString component.name

def replaceUse (file : String) (role : Role) (component : Component) (nodes : List Node) : Assembling (List Node) := do
  match (Template.usagesIn nodes).find? (isUseOf component ·.name) with
  | none => throw { fault := .stalledResolution component.name, file }
  | some usage =>
    let copy ← inline file role component usage
    match Template.replaceFirstIn? (isUseOf component) copy nodes with
    | some replaced => return replaced
    | none => throw { fault := .stalledResolution component.name, file }

/-- Replaces all uses, `left` of them at most, and counts them. -/
def resolveNodes (catalogs : Catalogs) (file : String) (limit left : Nat) (nodes : List Node) :
    Assembling (Nat × List Node) := do
  match ← nextTarget catalogs file nodes with
  | none => return (0, nodes)
  | some (role, component) =>
    match left with
    | 0 => throw { fault := .resolutionLimit limit component.name, file }
    | left + 1 =>
      let nodes ← replaceUse file role component nodes
      let (count, nodes) ← resolveNodes catalogs file limit left nodes
      return (count + 1, nodes)

def Assembly.ofPage (p : Page) : Assembly where
  expressions := p.expressions
  script := p.script
  styles := p.styles
  nextId := firstFree p.expressions

/-- The page with all its uses of layouts and components replaced, and how many there were. -/
def resolve (catalogs : Catalogs) (options : Options) (p : Page) : Compiled (Nat × Page) := do
  let limit := options.maxReplacements
  let ((count, nodes), a) ← (resolveNodes catalogs p.file limit limit p.nodes).run (.ofPage p)
  return (count, { p with nodes, expressions := a.expressions, script := a.script, styles := a.styles })

end PageCompiler.Component
