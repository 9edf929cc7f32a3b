import PageCompiler.Data.Value
import PageCompiler.Text.Quoted
import PageCompiler.Text.Search

/-!
# Options

What a compilation can be told, how it is read from a data text, and its one-line form, which tells two
settings apart.
-/

namespace PageCompiler

/-- The options of a compilation. -/
structure Options where
  componentsDir : Option String := none
  layoutsDir : Option String := none
  pagesDir : Option String := none
  /-- How many uses of components are replaced in one page. -/
  maxReplacements : Nat := 1024
  /-- Whether the styles of a component hold for its own markup only. -/
  scopeStyles : Bool := true
  /-- Whether names that nothing declares are refused. -/
  strictReferences : Bool := true
  /-- The stores that there are; if none is given, any store is allowed. -/
  stores : List String := []
  runtimeData : String := "__ZENITH_PAGE__"
deriving DecidableEq, Repr, Inhabited

namespace Options

open Data (Value)

/-- The names of the options, in their fixed order. -/
def fieldNames : List String :=
  ["componentsDir", "layoutsDir", "pagesDir", "maxResolutionIterations", "scopeStyles", "strictReferences",
    "stores", "runtimeData"]

def optionalText? : Value → Option (Option String)
  | .null => some none
  | .string s => some (some s)
  | _ => none

def text? : Value → Option String
  | .string s => some s
  | _ => none

def truth? : Value → Option Bool
  | .bool b => some b
  | _ => none

def count? : Value → Option Nat
  | .nat n => if n < UInt64.size then some n else none
  | _ => none

/-- The options with one of them set; no option has another name or another type of value. -/
def set? (o : Options) (name : String) (value : Value) : Option Options :=
  match name with
  | "componentsDir" => (optionalText? value).map fun v => { o with componentsDir := v }
  | "layoutsDir" => (optionalText? value).map fun v => { o with layoutsDir := v }
  | "pagesDir" => (optionalText? value).map fun v => { o with pagesDir := v }
  | "maxResolutionIterations" => (count? value).map fun v => { o with maxReplacements := v }
  | "scopeStyles" => (truth? value).map fun v => { o with scopeStyles := v }
  | "strictReferences" => (truth? value).map fun v => { o with strictReferences := v }
  | "stores" =>
    match value with
    | .list items => (items.mapM text?).map fun v => { o with stores := v }
    | _ => none
  | "runtimeData" => (text? value).map fun v => { o with runtimeData := v }
  | _ => none

/-- The options that a value gives: a record of some of them, each once, or a list of the first of them in
their order. -/
def ofValue? : Value → Option Options
  | .record fields => do
    guard (fields.map (·.1)).Nodup
    fields.foldlM (fun o (name, value) => o.set? name value) {}
  | .list items => do
    guard (items.length ≤ fieldNames.length)
    (fieldNames.zip items).foldlM (fun o (name, value) => o.set? name value) {}
  | _ => none

def read (text : String) : Compiled Options :=
  let refused (cause : SyntaxError) : Diagnostic := { fault := .badOptions cause, file := "<options>" }
  match Data.read text.toList with
  | .error cause => throw (refused cause)
  | .ok value =>
    match ofValue? value with
    | some o => return o
    | none => throw (refused ⟨0⟩)

def fingerprint (o : Options) : String :=
  let optional (t : Option String) : String := (t.map quote).getD "null"
  let values := [optional o.componentsDir, optional o.layoutsDir, optional o.pagesDir, toString o.maxReplacements,
    toString o.scopeStyles, toString o.strictReferences, "[" ++ joinStrings "," (o.stores.map quote) ++ "]",
    quote o.runtimeData]
  let fields := (fieldNames.zip values).map fun (name, value) => quote name ++ ":" ++ value
  "\x7b" ++ joinStrings "," fields ++ "\x7d"

end Options

end PageCompiler
