import PageCompiler.Analysis
import PageCompiler.Emit.Html
import PageCompiler.Emit.Hydration
import PageCompiler.Emit.Script
import PageCompiler.Emit.Style
import PageCompiler.Path
import PageCompiler.Template.Survey

/-!
# Bundles

What a page is compiled to: its markup, its styles, and one program that holds its scripts, the evaluators of
its expressions, and the registration of its states and handlers.
-/

namespace PageCompiler.Emit

open Template (Node)

/-! ## Handlers -/

/-- The handler of an event in the markup. -/
structure HandlerUse where
  name : String
  /-- The event, if the attribute is named for one. -/
  event : Option String
  position : Position
deriving DecidableEq, Repr

def attributeUses (attributes : List Template.Attribute) : List HandlerUse :=
  attributes.filterMap fun a => do
    let name ← a.value.handler?
    return { name, event := stripString? "data-zen-" a.name, position := a.place.position }

mutual

def uses : Node → List HandlerUse
  | .element _ attributes children _ => attributeUses attributes ++ usesIn children
  | .choice _ yes no _ => usesIn yes ++ usesIn no
  | .optional _ content _ => usesIn content
  | .loop _ _ _ _ body _ => usesIn body
  | _ => []

def usesIn : List Node → List HandlerUse
  | [] => []
  | n :: ns => uses n ++ usesIn ns

end

def firstUses (found : List HandlerUse) : List HandlerUse :=
  found.foldl (fun firsts u => if firsts.any (·.name == u.name) then firsts else firsts ++ [u]) []

def sortedNames (names : List String) : List String :=
  sortBy (· ≤ ·) (names.foldl pushNew [])

/-- The handlers that a page registers. Each must be declared; `undefined` stands for none. -/
def registered (file : String) (declared : List String) (found : List HandlerUse) : Compiled (List String) := do
  let named := (firstUses found).filter (·.name != "undefined")
  match named.find? fun u => !declared.contains u.name with
  | some u => throw { fault := .unknownHandler u.name, file, position := u.position }
  | none => return named.map (·.name)

/-! ## Registration -/

/-- The states and handlers of the page or of one instance of a component. -/
structure Record where
  states : List String := []
  handlers : List String := []
deriving DecidableEq, Repr

def ownedBy (owner : Option Nat) (names : List String) : List String :=
  names.filter (owner? · == owner)

def recordOf (states handlers : List String) (owner : Option Nat) : Record :=
  { states := ownedBy owner states, handlers := ownedBy owner handlers }

def owners (names : List String) : List Nat :=
  sortBy (· ≤ ·) ((names.filterMap owner?).foldl pushNew [])

def ownerId : Option Nat → String
  | none => "page"
  | some n => s!"comp-{n}"

/-- The records that a page registers: its own, and those of the instances that own any of the names, in order. -/
def records (states handlers : List String) : List (String × Record) :=
  (none :: (owners (states ++ handlers)).map some).map fun owner => (ownerId owner, recordOf states handlers owner)

def registration (id : String) (r : Record) : String :=
  "__zenith.register(" ++ quote id ++ ", \x7b state: [" ++ joinStrings ", " (r.states.map quote) ++
    "], handlers: \x7b " ++ joinStrings ", " r.handlers ++ " \x7d \x7d);"

/-! ## The bundle -/

/-- The parts that a page is compiled to. -/
structure Bundle where
  html : String := ""
  styles : List String := []
  js : String := ""
  /-- The scripts of the page without imports. -/
  script : String := ""
  expressions : String := ""
  imports : List Import := []
  bindings : List Binding := []
deriving DecidableEq, Repr

def tableRow (e : Evaluator) : String :=
  let objects := e.reads.objects.map fun o => "\"" ++ o ++ "\""
  "  [\"" ++ e.id ++ "\", " ++ e.name ++ ", [" ++ joinStrings ", " objects ++ "], " ++
    toString (!e.loopVariables.isEmpty) ++ "],"

/-- A part of a program with an empty line before it, if it says anything. -/
def paragraph (text : String) : String :=
  if text.isEmpty then "" else "\n" ++ text ++ "\n"

def bundle (p : Page) (evaluators : List Evaluator) (options : Options) : Compiled Bundle := do
  let markup ← html p.file p.nodes p.expressions
  let script := p.script.getD {}
  let blocks ← script.blocks.mapM (blockCode script.states.keys script.props.keys p.file)
  let scriptCode := joinStrings "\n\n" (blocks.filter (· != ""))
  let found := usesIn p.nodes
  let handlers ← registered p.file (script.names ++ script.importedNames) found
  let states := script.states.keys
  let imported := imports script
  let evaluatorCode := joinStrings "\n" (evaluators.map (·.text))
  let table := "\n__zenith.expressions([\n" ++ joinStrings "\n" (evaluators.map tableRow) ++ "\n]);\n"
  let events := (sortedNames (found.filterMap (·.event))).map fun e => "\"" ++ e ++ "\""
  let js :=
    String.join ((imported.filter (!·.typeOnly)).map (·.code ++ "\n")) ++
    (if imported.isEmpty then "" else "\n") ++
    hydration ++
    "\nconst __zenith = __zenithRuntime(\x7b runtimeData: " ++ quote options.runtimeData ++ " \x7d);\n" ++
    "const \x7b state, props, loaderData, stores \x7d = __zenith.scope;\n" ++
    paragraph scriptCode ++
    (if evaluatorCode.isEmpty then "" else paragraph evaluatorCode ++ table) ++
    "\n" ++
    String.join ((records states handlers).map fun (id, r) => registration id r ++ "\n") ++
    "__zenith.start([" ++ joinStrings ", " events ++ "]);\n"
  return {
    html := markup.text
    styles := styleTexts options p.styles
    js
    script := scriptCode
    expressions := evaluatorCode
    imports := imported
    bindings := markup.bindings }

/-! ## Output -/

/-- What a bundler needs to know of a page that imports packages. -/
structure BundlePlan where
  entry : String
  platform : String
  format : String
  resolveRoots : List String
  virtualModules : List (String × String)
deriving DecidableEq, Repr

/-- The result of a compilation. -/
structure Output where
  html : String
  js : String
  styles : List String
  packageImports : List String
  plan : Option BundlePlan
deriving DecidableEq, Repr

def markersIn (text : String) : List String :=
  (Markup.stretches text).filterMap fun s => match s with
    | .marker chars => some (String.ofList chars)
    | .text _ => none

def resolveRoot (file : String) : String :=
  match Path.parent? file with
  | none => "."
  | some dir => if dir.isEmpty then "." else dir

def planFor (file : String) (b : Bundle) : Option BundlePlan :=
  if b.imports.all (·.typeOnly) then none
  else some {
    entry := b.js
    platform := "browser"
    format := "esm"
    resolveRoots := [resolveRoot file]
    virtualModules := [("\x00zenith:runtime-data", "export const runtimeData = (typeof globalThis !== 'undefined' ? " ++
      "globalThis : window).__ZENITH_PAGE__;")] }

/-- The output of a bundle. No marker may be left in its markup. -/
def output (file : String) (b : Bundle) : Compiled Output := do
  let left := markersIn b.html
  unless left.isEmpty do throw { fault := .residualMarkers left, file }
  if blankString b.html && blankString b.js then throw { fault := .emptyOutput, file }
  return {
    html := b.html
    js := b.js
    styles := b.styles
    packageImports := (b.imports.filter (!·.typeOnly)).map (·.code)
    plan := planFor file b }

end PageCompiler.Emit
