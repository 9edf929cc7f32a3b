import PageCompiler.Page
import PageCompiler.Path

/-!
# Components

A component or layout is a file that is read like a page and named by its file. A catalog holds the components
of a directory; names are looked up without regard to case. A file that could not be read as a component is
kept with its fault, which is reported when a page uses the component.
-/

namespace PageCompiler

/-- A component or layout. -/
structure Component where
  name : String
  file : String
  props : Ordered (Option String)
  /-- The declared states and their first values. -/
  states : Ordered String
  /-- The markup of the file, without scripts and styles. -/
  html : String
  scripts : List String
  styles : List String
  hasSlots : Bool
  page : Page
deriving Repr

namespace Template

mutual

def Node.hasSlot : Node → Bool
  | .element _ _ children _ => hasSlotIn children
  | .text .. => false
  | .expression .. => false
  | .component _ _ children _ => hasSlotIn children
  | .slot .. => true
  | .choice _ yes no _ => hasSlotIn yes || hasSlotIn no
  | .optional _ content _ => hasSlotIn content
  | .loop _ _ _ _ body _ => hasSlotIn body
  | .doctype .. => false

def hasSlotIn : List Node → Bool
  | [] => false
  | n :: ns => n.hasSlot || hasSlotIn ns

end

end Template

namespace Component

def read (source file : String) : Compiled Component := do
  let some name := Path.stem? file | throw { fault := .badFileName, file }
  let page ← Page.read source file
  let blocks ← Markup.blocks (Source.File.ofString file source)
  let script := page.script.getD {}
  return {
    name
    file
    props := script.props.map fun (_, p) => (p.name, p.fallback)
    states := script.states.map fun (_, s) => (s.name, s.value)
    html := String.ofList (Text.trim blocks.markup)
    scripts := blocks.scripts.map (·.content)
    styles := blocks.styles.map fun b => trimString b.content
    hasSlots := Template.hasSlotIn page.nodes
    page }

end Component

/-- The components of a directory, by their names in lower case. -/
structure Catalog where
  components : Ordered Component := []
  /-- The diagnostics of files that could not be read as components. -/
  failures : Ordered Diagnostic := []
deriving Repr

namespace Catalog

/-- The catalog with one more component; of two with the same name the first stays. -/
def insert (c : Catalog) (component : Component) : Catalog :=
  { c with components := c.components.insertNew (lowerString component.name) component }

def insertFailure (c : Catalog) (name : String) (diagnostic : Diagnostic) : Catalog :=
  { c with failures := c.failures.insertNew (lowerString name) diagnostic }

def lookup (c : Catalog) (name : String) : Compiled (Option Component) :=
  let key := lowerString name
  match c.components.get? key with
  | some component => return some component
  | none =>
    match c.failures.get? key with
    | some diagnostic => throw diagnostic
    | none => return none

def names (c : Catalog) : List String :=
  c.components.map fun (_, component) => component.name

def merge (c other : Catalog) : Catalog :=
  let merged := other.components.values.foldl insert c
  { merged with failures := other.failures.foldl (fun d (k, v) => d.insertNew k v) merged.failures }

def ofSources (sources : List (String × String)) : Compiled Catalog :=
  sources.foldlM (fun (c : Catalog) (path, source) => do return c.insert (← Component.read source path)) {}

end Catalog

end PageCompiler
