import Mathlib.Data.List.Nodup
import Mathlib.Data.List.Pairwise
import PageCompiler.Proofs.AssemblyChanges
import PageCompiler.Proofs.ExpressionTable
import PageCompiler.Proofs.Records

/-!
# Merged imports

The imports of a page, of its layouts and of all instances of components move to the head of the bundle. The script of
a resolved page lists exactly the imports of its blocks (`Script.importsListed_of_resolve`), and the head holds the text
of each of them once, in the order in which they first appear (`Emit.packageImports_of_output`). Only texts that are
equal to the letter are one import, so a name is bound twice as soon as two imports of it are written differently.
-/

namespace PageCompiler

/-! ## Imports of blocks -/

namespace Script

def Block.import? (b : Block) : Statement → Option DeclaredImport
  | .importing source locals span =>
    some ⟨source, String.ofList (Text.trim (Text.slice span.start span.stop b.raw.toList)), locals, b.index⟩
  | _ => none

def Block.imports (b : Block) : List DeclaredImport :=
  b.statements.filterMap b.import?

def ImportsListed (s : Script) : Prop :=
  s.imports = s.blocks.flatMap (·.imports)

section

variable {block : Block} {file : String} {s s' : Script}

theorem imports_of_addStatement {t : Statement} (h : s.addStatement block file t = .ok s') :
    s'.imports = s.imports ++ (block.import? t).toList := by
  cases t with
  | state name value head span =>
    simp only [addStatement] at h
    split at h
    · cases h
    · cases h
      exact (List.append_nil _).symm
  | importing source locals span =>
    cases h
    rfl
  | _ =>
    cases h
    exact (List.append_nil _).symm

theorem imports_of_addStatements {ts : List Statement} (h : s.addStatements block file ts = (s', none)) :
    s'.imports = s.imports ++ ts.filterMap block.import? := by
  induction ts generalizing s with
  | nil =>
    cases h
    exact (List.append_nil _).symm
  | cons t ts ih =>
    rw [addStatements] at h
    split at h
    · rename_i hfirst
      rw [ih h, imports_of_addStatement hfirst, List.append_assoc]
      cases himport : block.import? t <;> simp [himport]
    · cases h

theorem imports_addListed (s : Script) (block : Block) : (s.addListed block).imports = s.imports := by
  unfold addListed
  split <;> rfl

theorem imports_of_add (h : s.add block file = .ok s') : s'.imports = s.imports ++ block.imports := by
  unfold add at h
  split at h
  · cases h
  · rename_i s₁ htake
    cases h
    unfold take at htake
    split at htake
    · cases htake
    · rename_i s₂ hstatements
      cases htake
      simp only [imports_addListed, imports_of_addStatements hstatements, Block.imports]

theorem ImportsListed.add (hs : s.ImportsListed) (h : s.add block file = .ok s') : s'.ImportsListed := by
  rw [ImportsListed, imports_of_add h, blocks_of_add h, List.flatMap_append, List.flatMap_singleton]
  exact congrArg (· ++ _) hs

end

/-- The script of a resolved page lists the imports of all blocks that were merged into it. -/
theorem importsListed_of_resolve {source path : String} {options : Options} {catalogs : Component.Catalogs}
    {p page : Page} {count : Nat} (hp : Page.read source path = .ok p)
    (h : Component.resolve catalogs options p = .ok (count, page)) : (page.script.getD {}).ImportsListed :=
  @Component.holds_of_resolve _ ImportsListed (fun hs _ hadd => hs.add hadd) rfl _ _ _ _ _ _ hp h

end Script

/-! ## The head of a bundle -/

namespace Emit

/-- Whether an import is of a page or a component. -/
def isOfPage (i : Script.DeclaredImport) : Bool :=
  ".zen".toList.isSuffixOf i.source.toList

def isTypeText (code : String) : Bool :=
  "import type ".toList.isPrefixOf code.toList

/-- The texts of the imports of blocks, imports of pages and of types apart. -/
def headTexts (blocks : List Script.Block) : List String :=
  (((blocks.flatMap (·.imports)).filter (!isOfPage ·)).map fun i => (importOf i).code).filter (!isTypeText ·)

theorem mem_headTexts {blocks : List Script.Block} {text : String} :
    text ∈ headTexts blocks ↔ ∃ block ∈ blocks, ∃ i ∈ block.imports,
      isOfPage i = false ∧ (importOf i).code = text ∧ isTypeText text = false := by
  simp only [headTexts, List.mem_filter, List.mem_map, List.mem_flatMap, Bool.not_eq_true']
  constructor
  · rintro ⟨⟨i, ⟨⟨block, hblock, hi⟩, hpage⟩, rfl⟩, htype⟩
    exact ⟨block, hblock, i, hi, hpage, rfl, htype⟩
  · rintro ⟨block, hblock, i, hi, hpage, rfl, htype⟩
    exact ⟨⟨i, ⟨⟨block, hblock, hi⟩, hpage⟩, rfl⟩, htype⟩

theorem isTypeText_importOf (i : Script.DeclaredImport) : isTypeText (importOf i).code = (importOf i).typeOnly := by
  have hlast (text : List Char) : "import type ".toList ≠ text ++ [';'] := by
    intro h
    have hlast := congrArg List.getLast? h
    rw [List.getLast?_append, List.getLast?_singleton] at hlast
    cases hlast
  rw [Bool.eq_iff_iff, isTypeText, importOf, List.isPrefixOf_iff_prefix, List.isPrefixOf_iff_prefix,
    String.toList_append]
  exact List.prefix_concat_iff.trans (or_iff_right (hlast _))

theorem exists_importOf {s : Script} {i : Import} (h : i ∈ imports s) : ∃ d, i = importOf d := by
  have hkept := (mem_of_mem_firsts (·.code) (_ : List Import) [] h).resolve_left List.not_mem_nil
  obtain ⟨d, -, hd⟩ := List.mem_map.mp hkept
  exact ⟨d, hd.symm⟩

theorem filter_foldl_pushNew (keep : String → Bool) (items start : List String) :
    (items.foldl pushNew start).filter keep = (items.filter keep).foldl pushNew (start.filter keep) := by
  induction items generalizing start with
  | nil => rfl
  | cons item items ih =>
    rw [List.foldl_cons, ih, List.filter_cons]
    by_cases hkeep : keep item = true
    · rw [if_pos hkeep, List.foldl_cons]
      congr 1
      have hmem : (start.filter keep).contains item = start.contains item := by
        rw [Bool.eq_iff_iff, List.contains_iff_mem, List.contains_iff_mem, List.mem_filter]
        exact and_iff_left hkeep
      rw [pushNew, pushNew, hmem]
      split
      · rfl
      · rw [List.filter_append, List.filter_cons_of_pos hkeep, List.filter_nil]
    · rw [if_neg hkeep]
      congr 1
      rw [pushNew]
      split
      · rfl
      · rw [List.filter_append, List.filter_cons_of_neg hkeep, List.filter_nil, List.append_nil]

/-- The imports that a bundler resolves are the texts of the imports of the blocks, each of them once. -/
theorem map_code_imports {s : Script} (hs : s.ImportsListed) :
    ((imports s).filter (!·.typeOnly)).map (·.code) = (headTexts s.blocks).foldl pushNew [] := by
  have htypes : (imports s).filter (!·.typeOnly) = (imports s).filter fun i => !isTypeText i.code := by
    refine List.filter_congr fun i hi => ?_
    obtain ⟨d, rfl⟩ := exists_importOf hi
    rw [isTypeText_importOf]
  have hcodes : (imports s).map (·.code) =
      ((s.imports.filter (!isOfPage ·)).map fun i => (importOf i).code).foldl pushNew [] := by
    rw [imports, map_firsts, List.map_map]
    rfl
  calc ((imports s).filter (!·.typeOnly)).map (·.code)
      = ((imports s).map (·.code)).filter (!isTypeText ·) := by rw [htypes, List.filter_map]; rfl
    _ = (headTexts s.blocks).foldl pushNew [] := by
        rw [hcodes, filter_foldl_pushNew, headTexts, ← show s.imports = _ from hs]
        rfl

def declaredNames (code : String) : List String :=
  (((Code.programReferences code.toList).toOption.getD []).filter (·.declares)).map (·.name)

/-- No name is declared by two of the statements. -/
def ClashFree (statements : List String) : Prop :=
  statements.Pairwise fun a b => (declaredNames a).Disjoint (declaredNames b)

/-- Among texts that are kept once, names clash exactly if two different texts declare one of them. -/
theorem clashFree_foldl_pushNew (texts : List String) :
    ClashFree (texts.foldl pushNew []) ↔
      ∀ a ∈ texts, ∀ b ∈ texts, a ≠ b → (declaredNames a).Disjoint (declaredNames b) := by
  have hnodup : (texts.foldl pushNew []).Nodup := nodup_foldl_pushNew .nil
  have hmem (a : String) : a ∈ texts.foldl pushNew [] ↔ a ∈ texts :=
    mem_foldl_pushNew.trans (or_iff_right List.not_mem_nil)
  constructor
  · intro h a ha b hb hne
    have hsymm : Std.Symm fun a b => (declaredNames a).Disjoint (declaredNames b) := ⟨fun _ _ => List.disjoint_symm⟩
    exact h.forall ((hmem a).mpr ha) ((hmem b).mpr hb) hne
  · intro h
    refine hnodup.imp_of_mem fun ha hb hne => ?_
    exact h _ ((hmem _).mp ha) _ ((hmem _).mp hb) hne

theorem packageImports_of_output {file : String} {b : Bundle} {out : Output} (h : output file b = .ok out) :
    out.packageImports = (b.imports.filter (!·.typeOnly)).map (·.code) := by
  simp only [output] at h
  split at h
  · split at h
    · cases h
    · cases h
      rfl
  · cases h

theorem head_of_bundle {p : Page} {evaluators : List Evaluator} {options : Options} {b : Bundle}
    (h : bundle p evaluators options = .ok b) :
    b.imports = imports (p.script.getD {}) ∧
      ∃ rest, b.js = String.join ((b.imports.filter (!·.typeOnly)).map (·.code ++ "\n")) ++ rest := by
  simp only [bundle, Compiled.bind_eq_ok] at h
  obtain ⟨markup, -, blocks, -, handlers, -, h⟩ := h
  cases h
  refine ⟨rfl, ?_⟩
  simp only [String.append_assoc]
  exact ⟨_, rfl⟩

end Emit

/-- The head of the bundle of a page that compiles holds the text of each import of the merged scripts once, in order,
if it is not one of a page or of types. Its names are free of clashes exactly if no two of these imports that are
written differently declare the same name. -/
theorem merged_of_compile {source file : String} {options : Options} {catalogs : Component.Catalogs}
    {out : Emit.Output} (h : compile source file options catalogs = .ok out) :
    ∃ start count page, Page.read source file = .ok start ∧
      Component.resolve catalogs options start = .ok (count, page) ∧
      let texts := Emit.headTexts (page.script.getD {}).blocks
      out.packageImports = texts.foldl pushNew [] ∧
      out.packageImports.Nodup ∧
      (∀ block ∈ (page.script.getD {}).blocks, ∀ i ∈ block.imports, Emit.isOfPage i = false →
        ((Emit.importOf i).code ∈ out.packageImports ↔ Emit.isTypeText (Emit.importOf i).code = false)) ∧
      (∃ rest, out.js = String.join (out.packageImports.map (· ++ "\n")) ++ rest) ∧
      (Emit.ClashFree out.packageImports ↔
        ∀ a ∈ texts, ∀ b ∈ texts, a ≠ b → (Emit.declaredNames a).Disjoint (Emit.declaredNames b)) := by
  obtain ⟨start, hstart, h⟩ := Compiled.bind_eq_ok.mp h
  obtain ⟨⟨count, page⟩, hresolve, h⟩ := Compiled.bind_eq_ok.mp h
  obtain ⟨_, -, h⟩ := Compiled.bind_eq_ok.mp h
  obtain ⟨_, -, h⟩ := Compiled.bind_eq_ok.mp h
  obtain ⟨⟨bundle, evaluators⟩, hbundle, hout⟩ := Compiled.bind_eq_ok.mp h
  obtain ⟨_, -, hbundle⟩ := Compiled.bind_eq_ok.mp hbundle
  obtain ⟨made, hmade, hbundle⟩ := Compiled.bind_eq_ok.mp hbundle
  cases hbundle
  obtain ⟨himports, rest, hjs⟩ := Emit.head_of_bundle hmade
  have hpackages : out.packageImports = (Emit.headTexts (page.script.getD {}).blocks).foldl pushNew [] := by
    rw [Emit.packageImports_of_output hout, himports]
    exact Emit.map_code_imports (Script.importsListed_of_resolve hstart hresolve)
  refine ⟨start, count, page, hstart, hresolve, hpackages, ?_, fun block hblock i hi hpage => ?_, ⟨rest, ?_⟩, ?_⟩
  · rw [hpackages]
    exact nodup_foldl_pushNew .nil
  · rw [hpackages, mem_foldl_pushNew, or_iff_right List.not_mem_nil, Emit.mem_headTexts]
    constructor
    · rintro ⟨_, -, _, -, -, -, htype⟩
      exact htype
    · intro htype
      exact ⟨block, hblock, i, hi, hpage, rfl, htype⟩
  · rw [js_of_output hout, hjs, Emit.packageImports_of_output hout, List.map_map]
    rfl
  · rw [hpackages]
    exact Emit.clashFree_foldl_pushNew _

def chartSources : List (String × String) :=
  [("C.zen", "<script>import a from 'x'</script><p></p>")]

def chartCatalogs : Component.Catalogs where
  components := (Catalog.ofSources chartSources).toOption.getD {}

/-- A page and a component that write an import alike have one import together. -/
theorem merged_of_compile_charts :
    ∃ out start count page, compile "<script>import a from 'x'</script><C/>" "p.zen" {} chartCatalogs = .ok out ∧
      Page.read "<script>import a from 'x'</script><C/>" "p.zen" = .ok start ∧
      Component.resolve chartCatalogs {} start = .ok (count, page) ∧
      out.packageImports = (Emit.headTexts (page.script.getD {}).blocks).foldl pushNew [] ∧
      out.packageImports = ["import a from 'x';"] ∧ Emit.ClashFree out.packageImports := by
  have hcompiles : ((compile "<script>import a from 'x'</script><C/>" "p.zen" {} chartCatalogs).toOption.any
      fun out => out.packageImports == ["import a from 'x';"]) = true := by
    decide +kernel
  obtain ⟨out, hout, himports⟩ := exists_eq_ok_of_any hcompiles
  have himports := beq_iff_eq.mp himports
  obtain ⟨start, count, page, hstart, hresolve, htexts, -⟩ := merged_of_compile hout
  refine ⟨out, start, count, page, hout, hstart, hresolve, htexts, himports, ?_⟩
  rw [himports]
  exact List.pairwise_singleton _ _

/-- A component whose import is written with other marks around the name of the package. -/
def quotedSources : List (String × String) :=
  [("C.zen", "<script>import a from \"x\"</script><p></p>")]

def quotedCatalogs : Component.Catalogs where
  components := (Catalog.ofSources quotedSources).toOption.getD {}

/-- The same import in two spellings stands twice at the head of a bundle, and its name is declared twice. -/
theorem not_clashFree_of_quotes :
    ∃ out, compile "<script>import a from 'x'</script><C/>" "p.zen" {} quotedCatalogs = .ok out ∧
      out.packageImports = ["import a from 'x';", "import a from \"x\";"] ∧
      ¬ Emit.ClashFree out.packageImports := by
  have hcompiles : ((compile "<script>import a from 'x'</script><C/>" "p.zen" {}
      quotedCatalogs).toOption.any fun out =>
        out.packageImports == ["import a from 'x';", "import a from \"x\";"]) = true := by
    decide +kernel
  obtain ⟨out, hout, himports⟩ := exists_eq_ok_of_any hcompiles
  have himports := beq_iff_eq.mp himports
  refine ⟨out, hout, himports, ?_⟩
  have ha : Emit.declaredNames "import a from 'x';" = ["a"] := by decide +kernel
  have hb : Emit.declaredNames "import a from \"x\";" = ["a"] := by decide +kernel
  simp [himports, Emit.ClashFree, ha, hb]

end PageCompiler
