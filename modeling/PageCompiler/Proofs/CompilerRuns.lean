import PageCompiler.Proofs.CompilerCalls
import PageCompiler.Proofs.FileTrees

/-!
# Runs of a compiler

A compiler keeps the catalogs of its directories and the outputs that it made. Between its calls the files of the
project change. What it keeps is settled if the catalogs are those that would be found now and the outputs those that
would be made now; then it answers as a new compiler does (`SettledBy.answer_eq`). A change of the files that shows
below a directory unsettles it until an invalidation that takes its path to lead below this directory. `SettledBy`
says that the actions still to come bring what is kept in order; every action leaves it so (`SettledBy.next`), and so
a run does (`SettledBy.run`).
-/

namespace PageCompiler.Project

/-! ## Actions -/

/-- A change of the files of a project. -/
inductive Edit where
  | write (path text : String)
  | remove (path : String)
deriving DecidableEq

namespace Edit

def path : Edit → String
  | write path _ => path
  | remove path => path

def apply (files : Entry) : Edit → Entry
  | write path text => files.write path text
  | remove path => files.remove path

theorem distinct_apply {files : Entry} (h : files.Distinct) (e : Edit) : (e.apply files).Distinct := by
  cases e with
  | write path text => exact h.writeAt text _
  | remove path => exact h.removeAt _

/-- A change shows below a directory only if the names of its path lead there. -/
theorem discovered_apply {files : Entry} (h : files.Distinct) {dir : String} (hdir : Entry.Plain dir) {e : Edit}
    (hout : ¬ Entry.namesOf dir <+: Entry.namesOf e.path) :
    discovered (e.apply files) dir = discovered files dir := by
  refine discovered_congr ?_
  cases e with
  | write path text => exact Entry.locate_write hdir hout files text
  | remove path => exact Entry.locate_remove hdir hout h

end Edit

/-- A call to a compiler, or a change of the files between calls. -/
inductive Action where
  | edit (e : Edit)
  | compile (source file : String)
  | invalidate (path : String)
  | invalidateAll
deriving DecidableEq

/-- The files of a project and the compiler that works on them. -/
structure Workspace where
  files : Entry
  compiler : Compiler

namespace Workspace

def new (files : Entry) (o : Options) : Workspace where
  files
  compiler := { options := o }

def answer (w : Workspace) (source file : String) : Compiled Emit.Output :=
  ((Compiler.compile w.files source file).run.run w.compiler).1

def next (w : Workspace) : Action → Workspace
  | .edit e => { w with files := e.apply w.files }
  | .compile source file =>
    { w with compiler := ((Compiler.compile w.files source file).run.run w.compiler).2 }
  | .invalidate path => { w with compiler := w.compiler.invalidate path }
  | .invalidateAll => { w with compiler := w.compiler.invalidateAll }

def run (w : Workspace) (actions : List Action) : Workspace :=
  actions.foldl next w

end Workspace

def Action.Drops (dir : String) : Action → Prop
  | .invalidate path => Path.isWithin path dir = true
  | .invalidateAll => True
  | .edit _ | .compile _ _ => False

theorem Action.Drops.congr {a : Action} {dir dir' : String} (h : a.Drops dir)
    (heq : Path.components dir = Path.components dir') : a.Drops dir' := by
  cases a with
  | invalidate path => rwa [Drops, Path.isWithin, ← heq]
  | invalidateAll => trivial
  | edit e => exact h
  | compile source file => exact h

/-! ## Settled workspaces -/

namespace Workspace

variable {asked : String → String → Prop} {w : Workspace}

variable {source file dir path : String} {e : Edit} {a : Action} {actions : List Action} {output : Emit.Output}

theorem options_next (w : Workspace) (a : Action) : (w.next a).compiler.options = w.compiler.options := by
  cases a with
  | edit e => rfl
  | invalidate path => exact w.compiler.options_invalidate path
  | invalidateAll => rfl
  | compile source file =>
    rw [next]
    cases h : w.compiler.cache.output? file source w.compiler.options with
    | some output => rw [Compiler.run_compile_of_some h]
    | none =>
      rw [Compiler.run_compile_of_none h]
      split <;> simp [Compiler.seeingRoots]

theorem options_run (w : Workspace) (actions : List Action) :
    (w.run actions).compiler.options = w.compiler.options := by
  induction actions generalizing w with
  | nil => rfl
  | cons a actions ih => exact (ih (w.next a)).trans (options_next w a)

/-- The catalog that is kept of a directory, if one is, is the one that would be found now. -/
def KeptAt (w : Workspace) (dir : String) : Prop :=
  w.compiler.KeptAt w.files (Path.components dir)

def OutputsKept (asked : String → String → Prop) (w : Workspace) : Prop :=
  w.compiler.cache.MadeFrom asked w.compiler.options (· = rootCatalogs w.compiler.options w.files)

/-- What is kept is what would be found and made now, or some action to come drops it. -/
structure SettledBy (asked : String → String → Prop) (actions : List Action) (w : Workspace) : Prop where
  catalogs : ∀ dir ∈ rootDirs w.compiler.options, w.KeptAt dir ∨ ∃ a ∈ actions, a.Drops dir
  outputs : w.OutputsKept asked ∨ ∃ dir ∈ rootDirs w.compiler.options, ∃ a ∈ actions, a.Drops dir

theorem settledBy_new (asked : String → String → Prop) (actions : List Action) (files : Entry) (o : Options) :
    (new files o).SettledBy asked actions where
  catalogs := fun _ _ => .inl fun _ h => by simp [new] at h
  outputs := .inl .nil

theorem SettledBy.answer_eq (h : w.SettledBy asked []) (hdigest : ∀ other, asked other file →
      hashOf other file w.compiler.options = hashOf source file w.compiler.options → other = source) :
    w.answer source file =
      PageCompiler.compile source file w.compiler.options (rootCatalogs w.compiler.options w.files) := by
  have hcatalogs : ∀ dir ∈ rootDirs w.compiler.options, w.KeptAt dir := fun dir hdir =>
    (h.catalogs dir hdir).resolve_right (by simp)
  have houtputs : w.OutputsKept asked := h.outputs.resolve_right (by simp)
  rw [answer]
  cases houtput : w.compiler.cache.output? file source w.compiler.options with
  | some output =>
    obtain ⟨catalogs, rfl, hmade⟩ := houtputs.of_output? hdigest houtput
    rw [Compiler.run_compile_of_some houtput, hmade]
  | none =>
    rw [Compiler.run_compile_of_none houtput, Compiler.catalogs_eq hcatalogs]
    split <;> simp_all

/-! ## One action -/

/-- A change of the files leaves a catalog settled if it does not show below its directory. -/
theorem KeptAt.edit (h : w.KeptAt dir)
    (hsame : ∀ d ∈ rootDirs w.compiler.options, Path.components d = Path.components dir →
      discovered (e.apply w.files) d = discovered w.files d) : (w.next (.edit e)).KeptAt dir := by
  intro catalog hfound
  have hcurrent := h catalog hfound
  rw [rootCatalog?, Option.map_eq_some_iff] at hcurrent ⊢
  obtain ⟨d, hfind, rfl⟩ := hcurrent
  refine ⟨d, hfind, hsame d (List.mem_of_find?_eq_some hfind) ?_⟩
  simpa using List.find?_some hfind

theorem rootCatalogs_edit {o : Options} {files : Entry}
    (hsame : ∀ d ∈ rootDirs o, discovered (e.apply files) d = discovered files d) :
    rootCatalogs o (e.apply files) = rootCatalogs o files := by
  have hkey (key : List String) : rootCatalog? o (e.apply files) key = rootCatalog? o files key := by
    rw [rootCatalog?, rootCatalog?]
    cases hfind : (rootDirs o).find? fun dir => Path.components dir == key with
    | none => rfl
    | some d => rw [Option.map_some, Option.map_some, hsame d (List.mem_of_find?_eq_some hfind)]
  have hdir (dir : Option String) : rootCatalog o (e.apply files) dir = rootCatalog o files dir := by
    cases dir with
    | none => rfl
    | some d => rw [rootCatalog, rootCatalog, hkey]
  rw [rootCatalogs, rootCatalogs, hdir, hdir]

theorem KeptAt.compile (h : w.KeptAt dir) (source file : String) : (w.next (.compile source file)).KeptAt dir := by
  rw [KeptAt, next]
  cases houtput : w.compiler.cache.output? file source w.compiler.options with
  | some output =>
    rw [Compiler.run_compile_of_some houtput]
    exact h
  | none =>
    rw [Compiler.run_compile_of_none houtput]
    have hseeing : (w.compiler.seeingRoots w.files).KeptAt w.files (Path.components dir) :=
      Compiler.KeptAt.seeingRoots h
    split
    · exact hseeing
    · exact hseeing

theorem OutputsKept.compile (h : w.OutputsKept asked) (hcatalogs : ∀ dir ∈ rootDirs w.compiler.options, w.KeptAt dir)
    (hasked : asked source file) : (w.next (.compile source file)).OutputsKept asked := by
  rw [OutputsKept, options_next, next]
  cases houtput : w.compiler.cache.output? file source w.compiler.options with
  | some output =>
    rw [Compiler.run_compile_of_some houtput]
    exact h
  | none =>
    rw [Compiler.run_compile_of_none houtput, Compiler.catalogs_eq hcatalogs]
    split
    · rename_i output hmade
      exact h.store hasked rfl hmade
    · simpa [OutputsKept, Compiler.seeingRoots] using h

theorem keptAt_invalidate (h : w.KeptAt dir ∨ Action.Drops dir (.invalidate path))
    (hdir : dir ∈ rootDirs w.compiler.options) : (w.next (.invalidate path)).KeptAt dir := by
  intro catalog hfound
  rw [next, Compiler.lookup_invalidate] at hfound
  split at hfound
  · cases hfound
  · rename_i hout
    rw [next, Compiler.options_invalidate]
    rcases h with h | hdrops
    · exact h catalog hfound
    · exact absurd ⟨dir, hdir, hdrops, rfl⟩ hout

theorem outputsKept_invalidate
    (h : w.OutputsKept asked ∨ ∃ dir ∈ rootDirs w.compiler.options, Action.Drops dir (.invalidate path)) :
    (w.next (.invalidate path)).OutputsKept asked := by
  rw [OutputsKept, options_next, next]
  by_cases hany : ∃ dir ∈ rootDirs w.compiler.options, Path.isWithin path dir = true
  · obtain ⟨dir, hdir, hwithin⟩ := hany
    rw [Compiler.invalidate_of_isWithin hdir hwithin]
    exact .nil
  · push Not at hany
    rw [Compiler.invalidate_of_not_isWithin fun dir hdir => by simpa using hany dir hdir]
    rcases h with h | ⟨dir, hdir, hdrops⟩
    · exact h.erase path
    · exact absurd hdrops (hany dir hdir)

theorem SettledBy.keptAt_next (h : w.SettledBy asked (a :: actions))
    (hedit : ∀ e, a = .edit e → ∀ dir ∈ rootDirs w.compiler.options,
      discovered (e.apply w.files) dir = discovered w.files dir ∨ ∃ a ∈ actions, a.Drops dir)
    (hdir : dir ∈ rootDirs w.compiler.options) (hlater : ¬ ∃ a ∈ actions, a.Drops dir) : (w.next a).KeptAt dir := by
  have hnow : w.KeptAt dir ∨ a.Drops dir := by
    rcases h.catalogs dir hdir with hkept | ⟨b, hb, hdrops⟩
    · exact .inl hkept
    · rcases List.mem_cons.mp hb with rfl | hb
      · exact .inr hdrops
      · exact absurd ⟨b, hb, hdrops⟩ hlater
  cases a with
  | edit e =>
    -- The catalog may be that of another spelling of the directory; what drops the one also drops the other.
    refine (hnow.resolve_right id).edit fun d hd heq => ?_
    refine (hedit e rfl d hd).resolve_right ?_
    rintro ⟨b, hb, hdrops⟩
    exact hlater ⟨b, hb, hdrops.congr heq⟩
  | compile source file => exact (hnow.resolve_right id).compile source file
  | invalidate path => exact keptAt_invalidate hnow hdir
  | invalidateAll => exact fun _ hfound => by simp [next, Compiler.invalidateAll] at hfound

theorem SettledBy.outputsKept_next (h : w.SettledBy asked (a :: actions))
    (hasked : ∀ source file, a = .compile source file → asked source file)
    (hedit : ∀ e, a = .edit e → ∀ dir ∈ rootDirs w.compiler.options,
      discovered (e.apply w.files) dir = discovered w.files dir ∨ ∃ a ∈ actions, a.Drops dir)
    (hlater : ¬ ∃ dir ∈ rootDirs w.compiler.options, ∃ a ∈ actions, a.Drops dir) : (w.next a).OutputsKept asked := by
  have hnow : w.OutputsKept asked ∨ ∃ dir ∈ rootDirs w.compiler.options, a.Drops dir := by
    rcases h.outputs with hkept | ⟨dir, hdir, b, hb, hdrops⟩
    · exact .inl hkept
    · rcases List.mem_cons.mp hb with rfl | hb
      · exact .inr ⟨dir, hdir, hdrops⟩
      · exact absurd ⟨dir, hdir, b, hb, hdrops⟩ hlater
  cases a with
  | edit e =>
    have hsame : ∀ d ∈ rootDirs w.compiler.options, discovered (e.apply w.files) d = discovered w.files d :=
      fun d hd => (hedit e rfl d hd).resolve_right fun hdrops => hlater ⟨d, hd, hdrops⟩
    rw [OutputsKept, next, rootCatalogs_edit hsame]
    exact hnow.resolve_right (by simp [Action.Drops])
  | compile source file =>
    -- The new output is made from the catalogs that are kept; none of them is dropped any more, so all are in order.
    refine (hnow.resolve_right (by simp [Action.Drops])).compile (fun dir hdir => ?_) (hasked source file rfl)
    refine (h.catalogs dir hdir).resolve_right ?_
    rintro ⟨b, hb, hdrops⟩
    rcases List.mem_cons.mp hb with rfl | hb
    · exact hdrops
    · exact hlater ⟨dir, hdir, b, hb, hdrops⟩
  | invalidate path => exact outputsKept_invalidate hnow
  | invalidateAll => exact .nil

/-- An action that is done leaves the rest to those after it. -/
theorem SettledBy.next (h : w.SettledBy asked (a :: actions))
    (hasked : ∀ source file, a = .compile source file → asked source file)
    (hedit : ∀ e, a = .edit e → ∀ dir ∈ rootDirs w.compiler.options,
      discovered (e.apply w.files) dir = discovered w.files dir ∨ ∃ a ∈ actions, a.Drops dir) :
    (w.next a).SettledBy asked actions where
  catalogs := by
    intro dir hdir
    rw [options_next] at hdir
    exact or_iff_not_imp_right.mpr (h.keptAt_next hedit hdir)
  outputs := by
    rw [options_next]
    exact or_iff_not_imp_right.mpr (h.outputsKept_next hasked hedit)

/-! ## Runs -/

/-- Every change of the files in a run that shows below a directory is followed by an action that drops the catalog of
this directory. -/
def Announces (w : Workspace) (actions : List Action) : Prop :=
  ∀ before e after, actions = before ++ .edit e :: after → ∀ dir ∈ rootDirs w.compiler.options,
    discovered (e.apply (w.run before).files) dir = discovered (w.run before).files dir ∨ ∃ a ∈ after, a.Drops dir

theorem Announces.tail (h : w.Announces (a :: actions)) : (w.next a).Announces actions := by
  intro before e after hsplit dir hdir
  rw [options_next] at hdir
  exact h (a :: before) e after (by rw [hsplit, List.cons_append]) dir hdir

theorem SettledBy.run (h : w.SettledBy asked actions)
    (hasked : ∀ source file, .compile source file ∈ actions → asked source file) (hedits : w.Announces actions) :
    (w.run actions).SettledBy asked [] := by
  induction actions generalizing w with
  | nil => exact h
  | cons a actions ih =>
    have hnext : (w.next a).SettledBy asked actions := by
      refine h.next ?_ ?_
      · rintro source file rfl
        exact hasked source file List.mem_cons_self
      · rintro e rfl
        exact hedits [] e actions rfl
    exact ih hnext (fun source file hmem => hasked source file (List.mem_cons_of_mem _ hmem)) hedits.tail

theorem distinct_run {w : Workspace} (h : w.files.Distinct) (actions : List Action) :
    (w.run actions).files.Distinct := by
  induction actions generalizing w with
  | nil => exact h
  | cons a actions ih =>
    refine ih ?_
    cases a with
    | edit e => exact e.distinct_apply h
    | compile source file => exact h
    | invalidate path => exact h
    | invalidateAll => exact h

/-- With paths that are written with names only, every path of a change below a directory is taken to lead there, so it
is enough that each such change is followed by the invalidation of its path. -/
theorem announces_of_plain (hfiles : w.files.Distinct) (hdirs : ∀ dir ∈ rootDirs w.compiler.options, Entry.Plain dir)
    (hpaths : ∀ e, .edit e ∈ actions → Entry.Plain e.path) (hedits : ∀ e after, .edit e :: after <:+ actions →
      (∃ dir ∈ rootDirs w.compiler.options, Path.isWithin e.path dir = true) →
        .invalidate e.path ∈ after ∨ .invalidateAll ∈ after) : w.Announces actions := by
  intro before e after hsplit dir hdir
  have hsuffix : .edit e :: after <:+ actions := ⟨before, hsplit.symm⟩
  have hplain : Entry.Plain e.path := hpaths e (hsuffix.mem List.mem_cons_self)
  by_cases hwithin : Path.isWithin e.path dir = true
  · rcases hedits e after hsuffix ⟨dir, hdir, hwithin⟩ with hdrops | hdrops
    · exact .inr ⟨_, hdrops, hwithin⟩
    · exact .inr ⟨_, hdrops, trivial⟩
  · rw [Entry.isWithin_iff_of_plain hplain (hdirs dir hdir)] at hwithin
    exact .inl (Edit.discovered_apply (distinct_run hfiles before) (hdirs dir hdir) hwithin)

/-- A compiler answers at any time as a new one would, if every change of the files that shows below a directory was
followed by an invalidation that drops the catalog of this directory, and if no other source that was compiled for the
file has the digest of the source. -/
theorem answer_eq_new {files : Entry} {o : Options} {actions : List Action} {source file : String}
    (hdigest : ∀ other, .compile other file ∈ actions → hashOf other file o = hashOf source file o → other = source)
    (hedits : (new files o).Announces actions) :
    ((new files o).run actions).answer source file =
      (new ((new files o).run actions).files o).answer source file := by
  have ho : ((new files o).run actions).compiler.options = o := options_run _ _
  have hsettled : ((new files o).run actions).SettledBy (fun s f => .compile s f ∈ actions) [] :=
    (settledBy_new _ _ files o).run (fun _ _ h => h) hedits
  have hnew : (new ((new files o).run actions).files o).SettledBy (fun _ _ => False) [] :=
    settledBy_new _ _ _ o
  rw [hsettled.answer_eq (by rwa [ho]), hnew.answer_eq (fun _ h => h.elim), ho]
  rfl

/-- Two directories, one in the other, and a card in the outer one. -/
def nestedOptions : Options :=
  { componentsDir := some "components", layoutsDir := some "components/layouts" }

def cardFiles : Entry :=
  (Entry.folder []).write "components/Card.zen" "<p>old</p>"

/-- A page is compiled, its card and a layout change and are announced, and a note outside is written. -/
def nestedActions : List Action :=
  [.compile "<Card />" "page.zen", .edit (.write "components/Card.zen" "<p>new</p>"),
    .edit (.write "components/layouts/Main.zen" "<main><Slot /></main>"), .invalidate "components/layouts/Main.zen",
    .compile "<Card />" "page.zen", .invalidate "components/Card.zen", .edit (.write "notes/a.zen" "<p></p>")]

theorem answer_eq_new_nested :
    ((new cardFiles nestedOptions).run nestedActions).answer "<Card />" "page.zen" =
      (new ((new cardFiles nestedOptions).run nestedActions).files nestedOptions).answer "<Card />" "page.zen" := by
  refine answer_eq_new ?_ (announces_of_plain ?_ ?_ ?_ ?_)
  · intro other hmem _
    simpa [nestedActions] using hmem
  · exact Entry.Distinct.empty.writeAt _ _
  · decide +kernel
  · intro e hmem
    simp only [nestedActions, List.mem_cons, Action.edit.injEq, reduceCtorEq, false_or, List.not_mem_nil,
      or_false] at hmem
    rcases hmem with rfl | rfl | rfl
    · decide +kernel
    · decide +kernel
    · decide +kernel
  · intro e after hsuffix
    simp only [nestedActions, List.suffix_cons_iff, List.cons.injEq, Action.edit.injEq, reduceCtorEq, false_and,
      false_or, List.suffix_nil, or_false] at hsuffix
    rcases hsuffix with ⟨rfl, rfl⟩ | ⟨rfl, rfl⟩ | ⟨rfl, rfl⟩
    · decide +kernel
    · decide +kernel
    · decide +kernel

/-! ## Paths that are spelled in another way -/

theorem output?_compile (h : w.answer source file = .ok output) :
    (w.next (.compile source file)).compiler.cache.output? file source w.compiler.options = some output := by
  rw [answer] at h
  rw [next]
  cases houtput : w.compiler.cache.output? file source w.compiler.options with
  | some kept =>
    rw [Compiler.run_compile_of_some houtput] at h ⊢
    rw [houtput, Except.ok.inj h]
  | none =>
    rw [Compiler.run_compile_of_none houtput] at h ⊢
    split at h
    · cases h
      rw [Cache.output?_store]
    · cases h

/-- After an invalidation whose path is taken to lead below no directory, a compiler answers as it did before the
change. -/
theorem answer_of_not_isWithin (h : w.answer source file = .ok output) (hfile : file ≠ path)
    (hout : ∀ dir ∈ rootDirs w.compiler.options, Path.isWithin path dir = false) :
    (w.run [.compile source file, .edit e, .invalidate path]).answer source file = .ok output := by
  let c := (w.next (.compile source file)).compiler
  have hoptions : c.options = w.compiler.options := options_next w (.compile source file)
  have hcompiler : (w.run [.compile source file, .edit e, .invalidate path]).compiler =
      { c with cache := c.cache.erase path } :=
    Compiler.invalidate_of_not_isWithin (c := c) (by rwa [hoptions])
  -- Only the output of `path` itself is dropped.
  have hkept : Cache.output? (c.cache.erase path) file source c.options = some output := by
    rw [Cache.output?_erase hfile, hoptions]
    exact output?_compile h
  rw [answer, hcompiler, Compiler.run_compile_of_some hkept]

/-- Whether the output is that of a page with nothing but the card, with the given text on it. -/
def showsCard (text : String) (output : Emit.Output) : Bool :=
  output.html ==
    "<p data-zen-component=\"Card\" data-zen-instance=\"comp-0\" data-zen-replaced=\"true\">" ++ text ++ "</p>"

theorem not_showsCard_new (h : showsCard "old" output = true) : showsCard "new" output = false := by
  rw [showsCard, beq_iff_eq] at h
  rw [showsCard, h]
  decide

/-- The directory of the components with a dot before it. -/
def dottedOptions : Options :=
  { componentsDir := some "./components" }

/-- The card of a page changes, and the change is announced without the dot. The page still shows the old card. -/
theorem answer_ne_new_dotted :
    let e := Edit.write "components/Card.zen" "<p>new</p>"
    let w := (new cardFiles dottedOptions).run [.compile "<Card />" "page.zen", .edit e, .invalidate e.path]
    Entry.namesOf "./components" <+: Entry.namesOf e.path ∧
      w.answer "<Card />" "page.zen" ≠ (new w.files dottedOptions).answer "<Card />" "page.zen" := by
  intro e w
  refine ⟨by decide +kernel, fun hsame => ?_⟩
  have hold : ((new cardFiles dottedOptions).answer "<Card />" "page.zen").toOption.any (showsCard "old") = true := by
    decide +kernel
  have hnew : ((new w.files dottedOptions).answer "<Card />" "page.zen").toOption.any (showsCard "new") = true := by
    decide +kernel
  obtain ⟨output, hanswer, hshows⟩ := exists_eq_ok_of_any hold
  have hstale : w.answer "<Card />" "page.zen" = .ok output :=
    answer_of_not_isWithin hanswer (by decide) (by decide +kernel)
  rw [← hsame, hstale] at hnew
  exact absurd hnew (by simpa [Except.toOption] using not_showsCard_new hshows)

end Workspace

end PageCompiler.Project
