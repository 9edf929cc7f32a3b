import PageCompiler.Template.Converted
import PageCompiler.Template.Fragment

/-!
# Pages

A file of markup, scripts and styles, read into its parts. Components and layouts are read like pages.
-/

namespace PageCompiler

/-- A block of style. -/
structure Style where
  raw : String
  /-- Whether its rules hold for the whole page in any case. -/
  global : Bool := false
  /-- The component to whose markup its rules are confined. -/
  scope : Option String := none
  position : Position := {}
deriving DecidableEq, Repr

/-- A page that has been read. -/
structure Page where
  file : String
  source : String
  nodes : List Template.Node
  expressions : List Template.Expression
  script : Option Script
  styles : List Style
deriving Repr

namespace Page

def expression? (p : Page) (id : String) : Option Template.Expression :=
  p.expressions.find? (·.id == id)

def stateNames (p : Page) : List String :=
  (p.script.map (·.states.keys)).getD []

def propNames (p : Page) : List String :=
  (p.script.map (·.props.keys)).getD []

def withHandlers (script : Option Script) (handlers : List Template.LiftedHandler) (file : String) :
    Compiled (Option Script) := do
  if handlers.isEmpty then return script
  let added ← handlers.foldlM (fun (s : Script) h => s.addHandler h.code h.position file) (script.getD {})
  return some added

def read (source path : String) : Compiled Page := do
  let file := Source.File.ofString path source
  let blocks ← Markup.blocks file
  let script ← Script.ofBlocks file blocks.scripts
  let marked ← Markup.marked file blocks.markup
  let prepared ← Markup.prepared file marked
  let conversion : Template.Conversion := { file, holes := marked.holes, isWhole := prepared.isWhole }
  let reading : Template.Reading (List Template.Node) := do
    Template.fragmentsOf (← Template.ofDocument conversion (Document.parse prepared.html))
  let (result, registry) := reading.run.run { file := path }
  let nodes ← result
  return {
    file := path
    source
    nodes
    expressions := registry.expressions
    script := ← withHandlers script registry.handlers path
    styles := blocks.styles.map fun b => {
      raw := b.content
      global := b.attributes.hasKey "global"
      position := file.position b.offset } }

end Page

end PageCompiler
