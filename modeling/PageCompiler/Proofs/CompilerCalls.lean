import Mathlib.Data.List.Basic
import PageCompiler.Proofs.Dictionaries
import PageCompiler.Proofs.Runs
import PageCompiler.Project.Compiler

/-!
# Calls of a compiler

What a call to a compiler answers and what the compiler keeps after it. A compilation uses the output that was made
from the same source, or else the catalogs that were kept or are found now. If what is kept of every directory is what
would be found, the catalogs are those of a new compiler (`Compiler.catalogs_eq`). An invalidation drops the catalogs
of the directories that its path is taken to lead below (`Compiler.lookup_invalidate`).
-/

namespace PageCompiler.Project

open Component (Catalogs)

variable {dir file : String} {o : Options} {cache : Cache}

/-! ## What a compiler does in one call -/

namespace Working

variable {α β : Type} {c : Compiler}

theorem run_bind (p : Working α) (f : α → Working β) (c : Compiler) :
    (p >>= f).run.run c =
      match p.run.run c with
      | (.ok a, c') => (f a).run.run c'
      | (.error d, c') => (.error d, c') := by
  have hcont : (p >>= f).run.run c = (ExceptT.bindCont f (p.run.run c).1).run (p.run.run c).2 := rfl
  rw [hcont]
  rcases p.run.run c with ⟨a | d, c'⟩ <;> rfl

theorem run_pure {a : α} : (pure a : Working α).run.run c = (.ok a, c) := rfl

theorem run_get : (get : Working Compiler).run.run c = (.ok c, c) := rfl

theorem run_modify {f : Compiler → Compiler} : (modify f : Working PUnit).run.run c = (.ok ⟨⟩, f c) := rfl

theorem run_lift {x : Compiled α} : (liftM x : Working α).run.run c = (x, c) := by
  cases x <;> rfl

end Working

def discovered (files : Entry) (dir : String) : Catalog :=
  (discover files dir).toOption.getD {}

theorem discover_eq (files : Entry) (dir : String) : discover files dir = .ok (discovered files dir) := by
  apply Compiled.eq_ok_getD
  rw [discover]
  cases h : files.locate dir with
  | error cause => rfl
  | ok entry =>
    simp only [findFiles, h]
    rfl

theorem discovered_congr {files files' : Entry} (h : (files.locate dir).toOption = (files'.locate dir).toOption) :
    discovered files dir = discovered files' dir := by
  rw [discovered, discovered, discover, discover, findFiles, findFiles]
  cases hfiles : files.locate dir with
  | error cause =>
    cases hfiles' : files'.locate dir with
    | error cause' => rfl
    | ok entry' =>
      rw [hfiles, hfiles'] at h
      cases h
  | ok entry =>
    cases hfiles' : files'.locate dir with
    | error cause' =>
      rw [hfiles, hfiles'] at h
      cases h
    | ok entry' =>
      simp only [hfiles, hfiles', Except.toOption, Option.some.injEq] at h
      rw [h]

namespace Compiler

variable {c : Compiler} {files : Entry} {source file : String}

/-- The catalogs that are kept with one more; a catalog that is kept already stays. -/
def keep (found : List (List String × Catalog)) (key : List String) (catalog : Catalog) :
    List (List String × Catalog) :=
  if (found.lookup key).isSome then found else (key, catalog) :: found

theorem lookup_keep (found : List (List String × Catalog)) (key other : List String) (catalog : Catalog) :
    (keep found key catalog).lookup other =
      if other = key then some ((found.lookup key).getD catalog) else found.lookup other := by
  rw [keep]
  cases hfound : found.lookup key with
  | some kept =>
    by_cases h : other = key
    · simp [h, hfound]
    · simp [h]
  | none =>
    by_cases h : other = key
    · simp [h]
    · have hne : (other == key) = false := by simpa using h
      simp [h, List.lookup_cons, hne]

/-- The catalog of a directory as a compiler sees it: the one that it kept, or else the components that are there. -/
def seen (c : Compiler) (files : Entry) : Option String → Catalog
  | none => {}
  | some dir => (c.found.lookup (Path.components dir)).getD (discovered files dir)

def seeing (c : Compiler) (files : Entry) : Option String → Compiler
  | none => c
  | some dir => { c with found := keep c.found (Path.components dir) (discovered files dir) }

@[simp] theorem options_seeing (c : Compiler) (files : Entry) (dir : Option String) :
    (c.seeing files dir).options = c.options := by
  cases dir <;> rfl

@[simp] theorem cache_seeing (c : Compiler) (files : Entry) (dir : Option String) :
    (c.seeing files dir).cache = c.cache := by
  cases dir <;> rfl

theorem run_catalog (c : Compiler) (files : Entry) (dir : Option String) :
    (catalog files dir).run.run c = (.ok (c.seen files dir), c.seeing files dir) := by
  cases dir with
  | none => rfl
  | some dir =>
    rw [catalog, seen, seeing, keep, Working.run_bind, Working.run_get]
    cases h : c.found.lookup (Path.components dir) with
    | some catalog =>
      simp only [h, Working.run_pure]
      rfl
    | none =>
      simp only [h, Working.run_bind, Working.run_lift, discover_eq, Working.run_modify, Working.run_pure]
      rfl

def seeingRoots (c : Compiler) (files : Entry) : Compiler :=
  (c.seeing files c.options.layoutsDir).seeing files c.options.componentsDir

/-- The catalogs that a compiler makes an output with. -/
def catalogs (c : Compiler) (files : Entry) : Catalogs where
  layouts := c.seen files c.options.layoutsDir
  components := (c.seeing files c.options.layoutsDir).seen files c.options.componentsDir

theorem run_compile_of_some {output : Emit.Output} (h : c.cache.output? file source c.options = some output) :
    (compile files source file).run.run c = (.ok output, c) := by
  rw [compile, Working.run_bind, Working.run_get]
  simp only [h, Working.run_pure]

theorem run_compile_of_none (h : c.cache.output? file source c.options = none) :
    (compile files source file).run.run c =
      match PageCompiler.compile source file c.options (c.catalogs files) with
      | .ok output =>
        (.ok output, { c.seeingRoots files with cache := c.cache.store file source c.options output })
      | .error d => (.error d, c.seeingRoots files) := by
  rw [compile, Working.run_bind, Working.run_get]
  simp only [h, Working.run_bind, run_catalog, Working.run_lift, Working.run_modify, Working.run_pure]
  rw [catalogs, seeingRoots]
  generalize PageCompiler.compile source file c.options _ = made
  cases made with
  | ok output => simp
  | error d => rfl

end Compiler

/-! ## What a new compiler sees -/

/-- The directories that components are looked for in, in the order in which a compilation looks. -/
def rootDirs (o : Options) : List String :=
  o.layoutsDir.toList ++ o.componentsDir.toList

/-- The catalog that a compiler finds under a key: of two spellings of one directory it uses the first. -/
def rootCatalog? (o : Options) (files : Entry) (key : List String) : Option Catalog :=
  ((rootDirs o).find? fun dir => Path.components dir == key).map (discovered files)

def rootCatalog (o : Options) (files : Entry) : Option String → Catalog
  | none => {}
  | some dir => (rootCatalog? o files (Path.components dir)).getD {}

/-- The catalogs that an output is made with if nothing was kept. -/
def rootCatalogs (o : Options) (files : Entry) : Catalogs where
  layouts := rootCatalog o files o.layoutsDir
  components := rootCatalog o files o.componentsDir

theorem rootCatalog?_layouts (h : o.layoutsDir = some dir) (files : Entry) :
    rootCatalog? o files (Path.components dir) = some (discovered files dir) := by
  simp [rootCatalog?, rootDirs, h]

namespace Compiler

variable {c : Compiler} {files : Entry}

variable {dir : String} {key : List String}

def KeptAt (c : Compiler) (files : Entry) (key : List String) : Prop :=
  ∀ catalog, c.found.lookup key = some catalog → rootCatalog? c.options files key = some catalog

theorem rootCatalog?_of_vacant (hdir : c.options.componentsDir = some dir)
    (hvacant : (c.seeing files c.options.layoutsDir).found.lookup (Path.components dir) = none) :
    rootCatalog? c.options files (Path.components dir) = some (discovered files dir) := by
  cases hlayouts : c.options.layoutsDir with
  | none => simp [rootCatalog?, rootDirs, hlayouts, hdir]
  | some l =>
    rw [hlayouts, seeing, lookup_keep] at hvacant
    -- The layouts were seen first; if they had the key of the components, something would be kept under it.
    have hne : Path.components dir ≠ Path.components l := by
      intro heq
      simp [heq] at hvacant
    have hne' : (Path.components l == Path.components dir) = false := by
      simpa using hne.symm
    simp [rootCatalog?, rootDirs, hlayouts, hdir, hne']

/-- Seeing a directory leaves what is kept under a key as it would be found, if the directory is the first with its
key. -/
theorem KeptAt.seeing {dir : Option String} (h : c.KeptAt files key)
    (hfirst : ∀ d, dir = some d → c.found.lookup (Path.components d) = none →
      rootCatalog? c.options files (Path.components d) = some (discovered files d)) :
    (c.seeing files dir).KeptAt files key := by
  cases dir with
  | none => exact h
  | some d =>
    intro catalog hlookup
    rw [Compiler.seeing, lookup_keep] at hlookup
    split at hlookup
    · rename_i hkey
      subst hkey
      cases hfound : c.found.lookup (Path.components d) with
      | none =>
        rw [hfound] at hlookup
        rw [← hlookup]
        exact hfirst d rfl hfound
      | some kept =>
        rw [hfound] at hlookup
        rw [← hlookup]
        exact h kept hfound
    · exact h catalog hlookup

theorem KeptAt.seeingLayouts (h : c.KeptAt files key) : (c.seeing files c.options.layoutsDir).KeptAt files key :=
  h.seeing fun _ hdir _ => rootCatalog?_layouts hdir files

theorem KeptAt.seeingRoots (h : c.KeptAt files key) : (c.seeingRoots files).KeptAt files key := by
  refine h.seeingLayouts.seeing fun dir hdir hvacant => ?_
  rw [options_seeing]
  exact rootCatalog?_of_vacant hdir hvacant

/-- A compiler sees of a directory what a new one would see. -/
theorem seen_eq (h : c.KeptAt files (Path.components dir)) (hfirst : c.found.lookup (Path.components dir) = none →
      rootCatalog? c.options files (Path.components dir) = some (discovered files dir)) :
    c.seen files (some dir) = rootCatalog c.options files (some dir) := by
  rw [seen, rootCatalog]
  cases hfound : c.found.lookup (Path.components dir) with
  | none => rw [hfirst hfound, Option.getD_none, Option.getD_some]
  | some kept => rw [h kept hfound, Option.getD_some, Option.getD_some]

theorem catalogs_eq (h : ∀ dir ∈ rootDirs c.options, c.KeptAt files (Path.components dir)) :
    c.catalogs files = rootCatalogs c.options files := by
  have hlayouts : c.seen files c.options.layoutsDir = rootCatalog c.options files c.options.layoutsDir := by
    cases hdir : c.options.layoutsDir with
    | none => rfl
    | some dir => exact seen_eq (h dir (by simp [rootDirs, hdir])) fun _ => rootCatalog?_layouts hdir files
  have hcomponents : (c.seeing files c.options.layoutsDir).seen files c.options.componentsDir =
      rootCatalog c.options files c.options.componentsDir := by
    cases hdir : c.options.componentsDir with
    | none => rfl
    | some dir =>
      have hkept : (c.seeing files c.options.layoutsDir).KeptAt files (Path.components dir) :=
        (h dir (by simp [rootDirs, hdir])).seeingLayouts
      have hseen := seen_eq hkept fun hvacant => by
        rw [options_seeing]
        exact rootCatalog?_of_vacant hdir hvacant
      rwa [options_seeing] at hseen
  rw [catalogs, rootCatalogs, hlayouts, hcomponents]

end Compiler

/-! ## Kept outputs -/

theorem Cache.exists_mem_of_output? {source : String} {output : Emit.Output}
    (h : cache.output? file source o = some output) :
    ∃ entry, (file, entry) ∈ cache ∧ entry.hash = hashOf source file o ∧ entry.output = output := by
  obtain ⟨entry, hentry, hrest⟩ := Option.bind_eq_some_iff.mp h
  obtain ⟨⟨⟩, hguard, houtput⟩ := Option.bind_eq_some_iff.mp hrest
  have hhash : entry.hash = hashOf source file o := by
    by_contra hne
    rw [guard, if_neg (by simpa using hne)] at hguard
    cases hguard
  exact ⟨entry, Ordered.mem_of_get? hentry, hhash, Option.some.inj houtput⟩

theorem Cache.output?_store (cache : Cache) (file source : String) (o : Options) (output : Emit.Output) :
    (cache.store file source o output).output? file source o = some output := by
  rw [output?, store, Ordered.get?_insert_self, Option.bind_eq_bind, Option.bind_some, guard,
    if_pos (beq_self_eq_true _)]
  rfl

theorem Cache.output?_erase {path : String} (h : file ≠ path) (source : String) (o : Options) :
    Cache.output? (cache.erase path) file source o = cache.output? file source o := by
  rw [output?, output?, Ordered.get?_erase_of_ne h]

def Cache.MadeFrom (asked : String → String → Prop) (o : Options) (P : Catalogs → Prop) (cache : Cache) : Prop :=
  ∀ x ∈ cache, ∃ source catalogs, asked source x.1 ∧ P catalogs ∧ x.2.hash = hashOf source x.1 o ∧
    PageCompiler.compile source x.1 o catalogs = .ok x.2.output

namespace Cache.MadeFrom

variable {asked : String → String → Prop} {o : Options} {P : Catalogs → Prop} {cache : Cache}

variable {source file : String} {output : Emit.Output}

theorem nil : MadeFrom asked o P [] :=
  fun _ hx => absurd hx List.not_mem_nil

theorem erase (h : cache.MadeFrom asked o P) (path : String) : MadeFrom asked o P (cache.erase path) :=
  fun x hx => h x (List.mem_filter.mp hx).1

theorem store {catalogs : Catalogs} (h : cache.MadeFrom asked o P) (hasked : asked source file)
    (hcatalogs : P catalogs) (hmade : PageCompiler.compile source file o catalogs = .ok output) :
    (cache.store file source o output).MadeFrom asked o P := by
  intro x hx
  rcases Ordered.mem_of_mem_insert hx with hold | rfl
  · exact h x hold
  · exact ⟨source, catalogs, hasked, hcatalogs, rfl, hmade⟩

/-- An output that is used again was made from the source asked for, unless another source for the file has its
digest. -/
theorem of_output? (h : cache.MadeFrom asked o P)
    (hdigest : ∀ other, asked other file → hashOf other file o = hashOf source file o → other = source)
    (houtput : cache.output? file source o = some output) :
    ∃ catalogs, P catalogs ∧ PageCompiler.compile source file o catalogs = .ok output := by
  obtain ⟨entry, hentry, hhash, rfl⟩ := exists_mem_of_output? houtput
  obtain ⟨other, catalogs, hasked, hcatalogs, hother, hmade⟩ := h _ hentry
  obtain rfl := hdigest other hasked (hother.symm.trans hhash)
  exact ⟨catalogs, hcatalogs, hmade⟩

end Cache.MadeFrom

/-! ## Invalidation -/

namespace Compiler

variable {c : Compiler}

variable {dir path : String}

theorem mem_sharedDirs : dir ∈ c.sharedDirs ↔ dir ∈ rootDirs c.options := by
  rw [sharedDirs, rootDirs, List.mem_append, List.mem_append, or_comm]

theorem invalidate_of_isWithin (hdir : dir ∈ rootDirs c.options) (h : Path.isWithin path dir = true) :
    c.invalidate path = { c with
      found := c.found.filter fun entry =>
        !((c.sharedDirs.filter fun dir => Path.isWithin path dir).map Path.components).contains entry.1
      cache := [] } := by
  rw [invalidate]
  split
  · rename_i hnil
    exact absurd (List.mem_filter.mpr ⟨mem_sharedDirs.mpr hdir, h⟩) (by simp [hnil])
  · rfl

theorem invalidate_of_not_isWithin (h : ∀ dir ∈ rootDirs c.options, Path.isWithin path dir = false) :
    c.invalidate path = { c with cache := c.cache.erase path } := by
  have hnil : (c.sharedDirs.filter fun dir => Path.isWithin path dir) = [] := by
    refine List.filter_eq_nil_iff.mpr fun dir hdir => ?_
    simp [h dir (mem_sharedDirs.mp hdir)]
  rw [invalidate, hnil]

theorem lookup_filter_key (found : List (List String × Catalog)) (test : List String → Bool) (key : List String) :
    (found.filter fun entry => test entry.1).lookup key = if test key then found.lookup key else none := by
  induction found with
  | nil => simp
  | cons entry found ih =>
    obtain ⟨k, catalog⟩ := entry
    rw [List.filter_cons]
    by_cases heq : key = k
    · subst heq
      by_cases htest : test key = true
      · simp [htest]
      · simp [htest, ih]
    · have hne : (key == k) = false := beq_eq_false_iff_ne.mpr heq
      rw [List.lookup_cons, hne, ← ih]
      split
      · rw [List.lookup_cons, hne]
      · rfl

/-- An invalidation drops the catalogs of the directories that its path leads below, and no other. -/
theorem lookup_invalidate (c : Compiler) (path : String) (key : List String) :
    (c.invalidate path).found.lookup key =
      if ∃ dir ∈ rootDirs c.options, Path.isWithin path dir = true ∧ Path.components dir = key then none
      else c.found.lookup key := by
  by_cases hany : ∃ dir ∈ rootDirs c.options, Path.isWithin path dir = true
  · obtain ⟨dir, hdir, hwithin⟩ := hany
    rw [invalidate_of_isWithin hdir hwithin]
    refine (lookup_filter_key c.found (fun key =>
      !((c.sharedDirs.filter fun dir => Path.isWithin path dir).map Path.components).contains key) key).trans ?_
    simp only [Bool.not_eq_true', List.contains_eq_mem, decide_eq_false_iff_not, List.mem_map, List.mem_filter,
      mem_sharedDirs, and_assoc, ite_not]
  · push Not at hany
    rw [invalidate_of_not_isWithin fun dir hdir => by simpa using hany dir hdir, if_neg]
    rintro ⟨dir, hdir, hwithin, -⟩
    exact hany dir hdir hwithin

@[simp] theorem options_invalidate (c : Compiler) (path : String) : (c.invalidate path).options = c.options := by
  rw [invalidate]
  split <;> rfl

end Compiler

end PageCompiler.Project
