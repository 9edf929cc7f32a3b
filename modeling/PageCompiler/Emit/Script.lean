import PageCompiler.Page

/-!
# Output of scripts

In the bundle of a page its blocks stand one after the other. States and props are read and written through the
objects `state` and `props`, and imports move to the head of the bundle, each of them once.
-/

namespace PageCompiler.Emit

/-- An import at the head of a bundle. -/
structure Import where
  source : String
  code : String
  /-- Whether it imports types only, so that nothing of it is left when the page runs. -/
  typeOnly : Bool
  sideEffect : Bool
deriving DecidableEq, Repr

/-- The part of a statement that is written anew, and its new text. -/
def statementEdit? : Script.Statement → Option Code.Edit
  | .importing _ _ span => some ⟨span, ""⟩
  | .state name _ head _ => some ⟨head, "state." ++ name⟩
  | .prop name fallback span =>
    let text := match fallback with
      | some value => "if (props." ++ name ++ " === undefined) props." ++ name ++ " = (" ++ value ++ ");"
      | none => ""
    some ⟨span, text⟩
  | _ => none

def blockCode (states props : List String) (file : String) (b : Script.Block) : Compiled String := do
  match b.references with
  | .error cause =>
    throw { fault := .badScript cause, file := b.file.getD file, position := b.position }
  | .ok references =>
    let edits := b.statements.filterMap statementEdit?
    let isKept (r : Code.Reference) : Bool :=
      !r.declares && !edits.any fun e => e.span.contains r.span.start
    let dataName (r : Code.Reference) : Option Code.Renaming :=
      if states.contains r.name then some (.name ("state." ++ r.name))
      else if props.contains r.name then some (.name ("props." ++ r.name))
      else none
    let all := edits ++ Code.editsFor (references.filter isKept) dataName
    return String.ofList (Text.trim (Code.applyEdits all b.raw.toList))

def importText (code : String) : String :=
  String.ofList (((Text.trim code.toList).reverse.dropWhile (· == ';')).reverse)

def importOf (i : Script.DeclaredImport) : Import :=
  let text := importText i.code
  { source := i.source
    code := text ++ ";"
    typeOnly := "import type ".toList.isPrefixOf text.toList
    sideEffect := i.locals.isEmpty }

/-- The imports of a script that are not of pages or components, each text once. -/
def imports (s : Script) : List Import :=
  let kept := s.imports.filter fun i => !(".zen".toList.isSuffixOf i.source.toList)
  (kept.map importOf).foldl (fun found i => if found.any (·.code == i.code) then found else found ++ [i]) []

def owner? (name : String) : Option Nat := do
  let rest ← Text.strip? "__zen_comp_".toList name.toList
  let digits := rest.takeWhile Text.isDecimal
  guard ((rest.drop digits.length).head? == some '_')
  let n ← Text.decimal? digits
  guard (n < UInt64.size)
  return n

end PageCompiler.Emit
