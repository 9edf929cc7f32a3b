import PageCompiler.Proofs.SharedCompiler

/-!
# Invalidations of a shared compiler

After the change of a file and the invalidation of its path, compilations that start later should use what is found
after the change. `Shared.Since` says this of one directory: all that is kept of it or held by a call was found since.
Every event leaves it so (`Since.next`). An invalidation brings it about for a directory that it drops, provided that
no call holds an older catalog at that moment (`since_drop`); such a call could keep the old catalog again, or an
output that it made from it (`lost_invalidation`). Without such calls no invalidation is lost (`answered_since_edit`).
-/

namespace PageCompiler.Project

open Component (Catalogs)

/-! ## Catalogs of a stretch of time -/

/-- The catalog was found, in one of the given states of the files, in a directory with the given key. -/
def FoundIn (T : Entry → Prop) (o : Options) (key : List String) (catalog : Catalog) : Prop :=
  ∃ dir ∈ rootDirs o, Path.components dir = key ∧ ∃ files, T files ∧ catalog = discovered files dir

theorem FoundIn.mono {T T' : Entry → Prop} (hT : ∀ files, T files → T' files) {o : Options} {key : List String}
    {catalog : Catalog} (h : FoundIn T o key catalog) : FoundIn T' o key catalog := by
  obtain ⟨dir, hdir, hkey, files, hfiles, rfl⟩ := h
  exact ⟨dir, hdir, hkey, files, hT files hfiles, rfl⟩

/-- The catalogs were found in some of the given states of the files. -/
def CatalogsIn (T : Entry → Prop) (o : Options) (held : Catalogs) : Prop :=
  ∀ root : Root, match root.dir o with
    | none => root.catalog held = {}
    | some dir => FoundIn T o (Path.components dir) (root.catalog held)

namespace Shared

variable {T : Entry → Prop} {asked : String → String → Prop} {s : Shared}

/-- Every catalog with the key that a call holds was found in one of the given states of the files. -/
def HeldIn (T : Entry → Prop) (key : List String) (s : Shared) : Prop :=
  ∀ call ∈ s.calls, ∀ root dir catalog, Root.dir s.compiler.options root = some dir → Path.components dir = key →
    call.held? root = some catalog → FoundIn T s.compiler.options key catalog

/-- Every catalog with the key that the compiler keeps or a call holds was found in one of the given states of the
files. -/
structure Since (T : Entry → Prop) (key : List String) (s : Shared) : Prop where
  kept : ∀ catalog, s.compiler.found.lookup key = some catalog → FoundIn T s.compiler.options key catalog
  held : s.HeldIn T key

theorem Since.next {key : List String} (h : s.Since T key) (hfiles : T s.files) (ev : Event) :
    (s.next ev).Since T key where
  kept := by
    intro catalog hfound
    rw [options_next]
    rcases compiler_next s ev with heq | ⟨number, call, -, hcall, heq⟩
    · rw [heq] at hfound
      exact h.kept catalog hfound
    · rw [heq] at hfound
      rcases Call.found_step hfound with hkept | ⟨root, dir, hdir, hkey, hheld⟩
      · exact h.kept catalog hkept
      · exact h.held call (List.mem_of_getElem? hcall) root dir catalog hdir hkey hheld
  held := by
    intro call hcall root dir catalog hdir hkey hheld
    rw [options_next] at hdir ⊢
    obtain ⟨number, hnumber⟩ := List.mem_iff_getElem?.mp hcall
    rcases getElem?_calls_next hnumber with hold | ⟨-, source, file, -, rfl⟩ | ⟨-, path, -, rfl⟩ | ⟨-, old, hold, rfl⟩
    · exact h.held call (List.mem_of_getElem? hold) root dir catalog hdir hkey hheld
    · cases hheld
    · cases hheld
    · rcases Call.held?_step hheld with hheld | ⟨hnone, -⟩ | ⟨dir', hdir', hfound⟩
      · exact h.held old (List.mem_of_getElem? hold) root dir catalog hdir hkey hheld
      · rw [hnone] at hdir
        cases hdir
      · obtain rfl : dir' = dir := Option.some.inj (hdir'.symm.trans hdir)
        rcases hfound with hkept | rfl
        · rw [hkey] at hkept
          exact h.kept catalog hkept
        · exact ⟨dir', Root.mem_rootDirs.mpr ⟨root, hdir⟩, hkey, s.files, hfiles, rfl⟩

end Shared

/-! ## Calls in order -/

/-- The call is for a source that was asked for, holds nothing of a directory that is not given, and is about to keep
what the catalogs that it holds make. -/
def Call.Sound (asked : String → String → Prop) (o : Options) : Call → Prop
  | compile source file stage =>
    asked source file ∧ (∀ root catalog, Root.dir o root = none → stage.held? root = some catalog → catalog = {}) ∧
      ∀ held output, stage = .storing held output → PageCompiler.compile source file o held = .ok output
  | invalidate _ _ => True

theorem Call.Sound.step {asked : String → String → Prop} {c : Compiler} {call : Call}
    (h : call.Sound asked c.options) (files : Entry) : (call.step files c).2.Sound asked c.options := by
  cases call with
  | invalidate path stage => trivial
  | compile source file stage =>
    obtain ⟨hasked, hnone, hmade⟩ := h
    refine ⟨hasked, fun root catalog hdir hheld => ?_, fun held output hstoring => Compiling.made_of_step hstoring⟩
    rcases Compiling.held?_step hheld with hheld | ⟨-, rfl⟩ | ⟨dir, hdir', -⟩
    · exact hnone root catalog hdir hheld
    · rfl
    · rw [hdir] at hdir'
      cases hdir'

namespace Shared

variable {T : Entry → Prop} {asked : String → String → Prop} {s : Shared}

variable {source file path : String} {number : Nat} {events : List Event}

variable {ev : Event} {stage : Invalidating} {T' : Entry → Prop} {key : List String}

def Sound (asked : String → String → Prop) (s : Shared) : Prop :=
  ∀ call ∈ s.calls, call.Sound asked s.compiler.options

theorem Sound.next (h : s.Sound asked) (hasked : ∀ source file, ev = .compile source file → asked source file) :
    (s.next ev).Sound asked := by
  intro call hcall
  rw [options_next]
  obtain ⟨number, hnumber⟩ := List.mem_iff_getElem?.mp hcall
  rcases getElem?_calls_next hnumber with hold | ⟨-, source, file, rfl, rfl⟩ | ⟨-, path, -, rfl⟩ | ⟨-, old, hold, rfl⟩
  · exact h call (List.mem_of_getElem? hold)
  · exact ⟨hasked source file rfl, fun _ _ _ hheld => (by cases hheld), fun _ _ hstage => (by cases hstage)⟩
  · trivial
  · exact (h old (List.mem_of_getElem? hold)).step s.files

/-- What is kept was found and made from what was found in some of the given states of the files. -/
structure Settled (T : Entry → Prop) (asked : String → String → Prop) (s : Shared) : Prop where
  since : ∀ dir ∈ rootDirs s.compiler.options, s.Since T (Path.components dir)
  outputs : s.compiler.cache.MadeFrom asked s.compiler.options (CatalogsIn T s.compiler.options)

theorem catalogsIn_of_held (hsound : s.Sound asked)
    (hsince : ∀ dir ∈ rootDirs s.compiler.options, s.Since T (Path.components dir)) {stage : Compiling}
    (hcall : .compile source file stage ∈ s.calls) {held : Catalogs}
    (hheld : ∀ root : Root, stage.held? root = some (root.catalog held)) : CatalogsIn T s.compiler.options held := by
  intro root
  split
  · rename_i hdir
    exact (hsound _ hcall).2.1 root _ hdir (hheld root)
  · rename_i dir hdir
    exact (hsince dir (Root.mem_rootDirs.mpr ⟨root, hdir⟩)).held _ hcall root dir _ hdir rfl (hheld root)

theorem madeFrom_next {P : Catalogs → Prop} (hsound : s.Sound asked)
    (hheld : ∀ source file held output, .compile source file (.storing held output) ∈ s.calls → P held)
    (h : s.compiler.cache.MadeFrom asked s.compiler.options P) (ev : Event) :
    (s.next ev).compiler.cache.MadeFrom asked s.compiler.options P := by
  rcases compiler_next s ev with heq | ⟨number, call, -, hcall, heq⟩
  · rwa [heq]
  · rw [heq]
    have hmem := List.mem_of_getElem? hcall
    cases call with
    | compile source file stage =>
      rcases stage.cache_step s.files s.compiler source file with hcache | ⟨held, output, rfl, hcache⟩
      · rw [Call.step, hcache]
        exact h
      · rw [Call.step, hcache]
        obtain ⟨hasked, -, hmade⟩ := hsound _ hmem
        exact h.store hasked (hheld source file held output hmem) (hmade held output rfl)
    | invalidate path stage =>
      rcases stage with (_ | ⟨dir, dirs⟩) | _ | _
      · exact .nil
      · exact h
      · exact h.erase path
      · exact h

theorem Settled.next (h : s.Settled T asked) (hsound : s.Sound asked) (hfiles : T s.files) (ev : Event) :
    (s.next ev).Settled T asked where
  since := by
    rw [options_next]
    exact fun dir hdir => (h.since dir hdir).next hfiles ev
  outputs := by
    rw [options_next]
    refine madeFrom_next hsound (fun source file held output hmem => ?_) h.outputs ev
    exact catalogsIn_of_held hsound h.since hmem fun _ => rfl

theorem Settled.answer_next (h : s.Settled T asked) (hsound : s.Sound asked) (hdigest : ∀ other, asked other file →
      hashOf other file s.compiler.options = hashOf source file s.compiler.options → other = source)
    {answer : Compiled Emit.Output}
    (hanswer : (s.next ev).calls[number]? = some (.compile source file (.answered answer)))
    (hnot : s.calls[number]? ≠ some (.compile source file (.answered answer))) :
    ∃ catalogs, CatalogsIn T s.compiler.options catalogs ∧
      answer = PageCompiler.compile source file s.compiler.options catalogs := by
  rcases getElem?_calls_next hanswer with hold | ⟨-, _, _, -, hstart⟩ | ⟨-, _, -, hstart⟩ | ⟨-, old, hold, hstep⟩
  · exact absurd hold hnot
  · cases hstart
  · cases hstart
  · have hmem := List.mem_of_getElem? hold
    cases old with
    | invalidate path stage => cases hstep
    | compile source' file' stage =>
      rw [Call.step, Call.compile.injEq] at hstep
      obtain ⟨rfl, rfl, hstage⟩ := hstep
      rcases Compiling.answered_of_step hstage.symm with
        rfl | ⟨output, houtput, rfl⟩ | ⟨held, rfl, rfl⟩ | ⟨held, output, rfl, rfl⟩
      · exact absurd hold hnot
      · obtain ⟨catalogs, hcatalogs, hmade⟩ := h.outputs.of_output? hdigest houtput
        exact ⟨catalogs, hcatalogs, hmade.symm⟩
      · exact ⟨held, catalogsIn_of_held hsound h.since hmem fun _ => rfl, rfl⟩
      · have hmade := (hsound _ hmem).2.2 held output rfl
        exact ⟨held, catalogsIn_of_held hsound h.since hmem fun _ => rfl, hmade.symm⟩

/-! ## Invalidations -/

theorem compiler_next_step {call : Call} (h : s.calls[number]? = some call) :
    (s.next (.step number)).compiler = (call.step s.files s.compiler).1 := by
  rw [next, h]

/-- A catalog that is dropped while no call holds an older one is not seen again. -/
theorem since_drop {dir : String} {dirs : List String}
    (hcall : s.calls[number]? = some (.invalidate path (.dropping (dir :: dirs))))
    (hheld : s.HeldIn T (Path.components dir)) : (s.next (.step number)).Since T (Path.components dir) where
  kept := by
    intro catalog hfound
    have hfilter := Compiler.lookup_filter_key s.compiler.found (· != Path.components dir) (Path.components dir)
    rw [compiler_next_step hcall, Call.step, Invalidating.step, hfilter] at hfound
    simp at hfound
  held := by
    intro call hmem root d catalog hdir hkey hholds
    rw [options_next] at hdir ⊢
    obtain ⟨other, hother⟩ := List.mem_iff_getElem?.mp hmem
    rcases getElem?_calls_next hother with hold | ⟨-, _, _, -, rfl⟩ | ⟨-, _, -, rfl⟩ | ⟨heq, old, hold, rfl⟩
    · exact hheld call (List.mem_of_getElem? hold) root d catalog hdir hkey hholds
    · cases hholds
    · cases hholds
    · -- The call that made the step is the invalidation, which holds nothing.
      cases heq
      cases hcall.symm.trans hold
      cases hholds

def Progress (T : Entry → Prop) (asked : String → String → Prop) (s : Shared) : Invalidating → Prop
  | .dropping dirs => ∀ dir ∈ rootDirs s.compiler.options, dir ∈ dirs ∨ s.Since T (Path.components dir)
  | .erasing => False
  | .returned => s.Settled T asked

theorem Progress.next (h : s.Progress T asked stage) (hsound : s.Sound asked) (hfiles : T s.files) (ev : Event) :
    (s.next ev).Progress T asked stage := by
  cases stage with
  | dropping dirs =>
    intro dir hdir
    rw [options_next] at hdir
    exact (h dir hdir).imp_right fun hsince => hsince.next hfiles ev
  | erasing => exact h
  | returned => exact Settled.next h hsound hfiles ev

theorem progress_start (hwithin : ∃ dir ∈ rootDirs s.compiler.options, Path.isWithin path dir = true)
    (hothers : ∀ dir ∈ rootDirs s.compiler.options, Path.isWithin path dir = false → s.Since T (Path.components dir)) :
    s.Progress T asked (.start s.compiler path) := by
  rw [Invalidating.start]
  split
  · rename_i hnil
    obtain ⟨dir, hdir, hpath⟩ := hwithin
    exact absurd (List.mem_filter.mpr ⟨Compiler.mem_sharedDirs.mpr hdir, hpath⟩) (by simp [hnil])
  · intro dir hdir
    by_cases hpath : Path.isWithin path dir = true
    · exact .inl (List.mem_filter.mpr ⟨Compiler.mem_sharedDirs.mpr hdir, hpath⟩)
    · exact .inr (hothers dir hdir (by simpa using hpath))

theorem Progress.step (h : s.Progress T asked stage) (hsound : s.Sound asked) (hfiles : T s.files)
    (hcall : s.calls[number]? = some (.invalidate path stage))
    (hdrop : ∀ dir dirs, stage = .dropping (dir :: dirs) → s.HeldIn T (Path.components dir)) :
    (s.next (.step number)).Progress T asked (stage.step s.compiler path).2 := by
  rcases stage with (_ | ⟨dir, dirs⟩) | _ | _
  · -- All directories are dropped; with the outputs gone, nothing older is left.
    refine ⟨fun dir hdir => ?_, ?_⟩
    · rw [options_next] at hdir
      exact ((h dir hdir).resolve_left List.not_mem_nil).next hfiles _
    · rw [compiler_next_step hcall]
      exact .nil
  · intro d hd
    rw [options_next] at hd
    rcases h d hd with hmem | hsince
    · rcases List.mem_cons.mp hmem with rfl | hmem
      · exact .inr (since_drop hcall (hdrop d dirs rfl))
      · exact .inl hmem
    · exact .inr (hsince.next hfiles _)
  · exact h.elim
  · exact Settled.next h hsound hfiles _

/-! ## Invalidations that are not lost -/

/-- The states that the files have in a run. -/
def trees (s : Shared) (events : List Event) (files : Entry) : Prop :=
  ∃ past, past <+: events ∧ (s.run past).files = files

theorem HeldIn.mono (hT : ∀ files, T files → T' files) (h : s.HeldIn T key) : s.HeldIn T' key :=
  fun call hcall root dir catalog hdir hkey hheld => (h call hcall root dir catalog hdir hkey hheld).mono hT

theorem Since.mono (hT : ∀ files, T files → T' files) (h : s.Since T key) : s.Since T' key :=
  ⟨fun catalog hfound => (h.kept catalog hfound).mono hT, h.held.mono hT⟩

theorem trees_mono {events' : List Event} (h : events <+: events') (files : Entry) (hfiles : s.trees events files) :
    s.trees events' files := by
  obtain ⟨past, hpast, rfl⟩ := hfiles
  exact ⟨past, hpast.trans h, rfl⟩

theorem sound_run (h : s.Sound asked) (hasked : ∀ source file, .compile source file ∈ events → asked source file) :
    (s.run events).Sound asked := by
  refine run_induction h fun past ev hbefore hpast => hpast.next ?_
  rintro source file rfl
  exact hasked source file (hbefore.mem (by simp))

/-- When an invalidation has returned, what is kept was found since the moment `s`, if what is kept of the other
directories was found since then and no call held an older catalog of a directory when it was dropped. -/
theorem settled_of_returned (hsound : s.Sound asked)
    (hasked : ∀ source file, .compile source file ∈ events → asked source file)
    (hfiles : ∀ past, past <+: events → T (s.run past).files) (hstarted : s.calls.length ≤ number)
    (hwithin : ∃ dir ∈ rootDirs s.compiler.options, Path.isWithin path dir = true)
    (hothers : ∀ dir ∈ rootDirs s.compiler.options, Path.isWithin path dir = false → s.Since T (Path.components dir))
    (hdrops : ∀ past, past ++ [.step number] <+: events → ∀ dir dirs,
      (s.run past).calls[number]? = some (.invalidate path (.dropping (dir :: dirs))) →
        (s.run past).HeldIn T (Path.components dir))
    (hreturned : (s.run events).calls[number]? = some (.invalidate path .returned)) :
    (s.run events).Settled T asked := by
  -- Until the invalidation starts, only the directories that it will not drop matter; from then on `Progress` adds
  -- those that it has dropped.
  let P (s' : Shared) : Prop := s'.compiler.options = s.compiler.options ∧ s'.Sound asked ∧
    (∀ dir ∈ rootDirs s.compiler.options, Path.isWithin path dir = false → s'.Since T (Path.components dir)) ∧
    ∀ stage, s'.calls[number]? = some (.invalidate path stage) → s'.Progress T asked stage
  have hrun : P (s.run events) := by
    refine run_induction ⟨rfl, hsound, hothers, ?_⟩ ?_
    · intro stage hstage
      rw [List.getElem?_eq_none hstarted] at hstage
      cases hstage
    · rintro past ev hbefore ⟨hoptions, hsound', hothers', hprogress⟩
      have hfiles' : T (s.run past).files := hfiles past ((List.prefix_append past [ev]).trans hbefore)
      refine ⟨(options_next _ ev).trans hoptions, hsound'.next ?_, ?_, ?_⟩
      · rintro source file rfl
        exact hasked source file (hbefore.mem (by simp))
      · exact fun dir hdir hout => (hothers' dir hdir hout).next hfiles' ev
      · intro stage hstage
        rcases getElem?_calls_next hstage with
          hold | ⟨-, _, _, -, hstart⟩ | ⟨-, path', -, hstart⟩ | ⟨rfl, old, hold, hstep⟩
        · exact (hprogress stage hold).next hsound' hfiles' ev
        · cases hstart
        · cases hstart
          refine Progress.next (progress_start ?_ ?_) hsound' hfiles' ev
          · rwa [hoptions]
          · rwa [hoptions]
        · cases old with
          | compile source file stage' => cases hstep
          | invalidate path' stage' =>
            rw [Call.step, Call.invalidate.injEq] at hstep
            obtain ⟨rfl, rfl⟩ := hstep
            refine (hprogress stage' hold).step hsound' hfiles' hold ?_
            rintro dir dirs rfl
            exact hdrops past hbefore dir dirs hold
  exact hrun.2.2.2 .returned hreturned

theorem exists_answer_of_settled (h : s.Settled T asked) (hsound : s.Sound asked)
    (hasked : ∀ source' file', .compile source' file' ∈ events → asked source' file')
    (hfiles : ∀ past, past <+: events → T (s.run past).files) (hdigest : ∀ other, asked other file →
      hashOf other file s.compiler.options = hashOf source file s.compiler.options → other = source)
    (hcall : s.calls[number]? = some (.compile source file .asked)) (hsteps : 9 ≤ events.count (.step number)) :
    ∃ catalogs, CatalogsIn T s.compiler.options catalogs ∧ (s.run events).calls[number]? =
      some (.compile source file (.answered (PageCompiler.compile source file s.compiler.options catalogs))) := by
  let P (s' : Shared) : Prop := s'.compiler.options = s.compiler.options ∧ s'.Sound asked ∧ s'.Settled T asked ∧
    ∀ answer, s'.calls[number]? = some (.compile source file (.answered answer)) →
      ∃ catalogs, CatalogsIn T s.compiler.options catalogs ∧
        answer = PageCompiler.compile source file s.compiler.options catalogs
  have hrun : P (s.run events) := by
    refine run_induction ⟨rfl, hsound, h, ?_⟩ ?_
    · intro answer hanswer
      cases hcall.symm.trans hanswer
    · rintro past ev hbefore ⟨hoptions, hsound', hsettled, hanswers⟩
      have hfiles' : T (s.run past).files := hfiles past ((List.prefix_append past [ev]).trans hbefore)
      refine ⟨(options_next _ ev).trans hoptions, hsound'.next ?_, hsettled.next hsound' hfiles' ev, ?_⟩
      · rintro source' file' rfl
        exact hasked source' file' (hbefore.mem (by simp))
      · intro answer hanswer
        -- The answer was there before, or it is given with this event.
        by_cases hthere : (s.run past).calls[number]? = some (.compile source file (.answered answer))
        · exact hanswers answer hthere
        · rw [← hoptions] at hdigest ⊢
          exact hsettled.answer_next hsound' hdigest hanswer hthere
  obtain ⟨stage, hstage, hrank⟩ := exists_stage_run hcall events
  have hzero : stage.rank = 0 := by
    rw [Compiling.rank] at hrank
    omega
  obtain ⟨answer, rfl⟩ := Compiling.eq_answered_of_rank hzero
  obtain ⟨catalogs, hcatalogs, rfl⟩ := hrun.2.2.2 answer hstage
  exact ⟨catalogs, hcatalogs, hstage⟩

/-- A compilation that starts after the invalidation of a changed file has returned answers, after at most nine steps,
with what is made from catalogs that were found after the change. This needs that the invalidation takes the path to
lead below a directory, that what is kept and held of the other directories is what would be found after the change,
and that no call holds a catalog from before the change of a directory at the moment when it is dropped. -/
theorem answered_since_edit {files : Entry} {o : Options} {before first last : List Event} {e : Edit} {s : Shared}
    (hs : s = ((new files o).run before).next (.edit e)) {number : Nat} {source file : String}
    (hwithin : ∃ dir ∈ rootDirs o, Path.isWithin e.path dir = true)
    (hothers : ∀ dir ∈ rootDirs o, Path.isWithin e.path dir = false → s.Since (· = s.files) (Path.components dir))
    (hstarted : s.calls.length ≤ number)
    (hdrops : ∀ past, past ++ [.step number] <+: first → ∀ dir dirs,
      (s.run past).calls[number]? = some (.invalidate e.path (.dropping (dir :: dirs))) →
        (s.run past).HeldIn (s.trees past) (Path.components dir))
    (hreturned : (s.run first).calls[number]? = some (.invalidate e.path .returned))
    (hdigest : ∀ other, .compile other file ∈ before ++ first ++ last →
      hashOf other file o = hashOf source file o → other = source)
    (hsteps : 9 ≤ last.count (.step (s.run first).calls.length)) :
    ∃ catalogs, CatalogsIn (s.trees (first ++ .compile source file :: last)) o catalogs ∧
      (s.run (first ++ .compile source file :: last)).calls[(s.run first).calls.length]? =
        some (.compile source file (.answered (PageCompiler.compile source file o catalogs))) := by
  -- The outputs that are kept may come from any call of the run, so digests are compared with all of them.
  let asked (source' file' : String) : Prop :=
    .compile source' file' ∈ before ++ first ++ last ∨ source' = source ∧ file' = file
  have hoptions : s.compiler.options = o := by
    rw [hs, options_next, options_run]
    rfl
  have hsound : s.Sound asked := by
    rw [hs]
    refine Sound.next (sound_run (fun _ hcall => absurd hcall List.not_mem_nil) ?_) (by simp)
    exact fun _ _ hmem => .inl (by simp [hmem])
  have hfirst : first <+: first ++ .compile source file :: last := List.prefix_append _ _
  have hsettled : (s.run first).Settled (s.trees (first ++ .compile source file :: last)) asked := by
    refine settled_of_returned hsound (fun _ _ hmem => .inl (by simp [hmem])) ?_ hstarted (by rwa [hoptions]) ?_ ?_
      hreturned
    · exact fun past hpast => ⟨past, hpast.trans hfirst, rfl⟩
    · rw [hoptions]
      intro dir hdir hout
      refine (hothers dir hdir hout).mono ?_
      rintro _ rfl
      exact ⟨[], List.nil_prefix, rfl⟩
    · intro past hpast dir dirs hcall
      refine (hdrops past hpast dir dirs hcall).mono (trees_mono ?_)
      exact ((List.prefix_append past _).trans hpast).trans hfirst
  have hsound' : (s.run first).Sound asked := sound_run hsound fun _ _ hmem => .inl (by simp [hmem])
  have hoptions' : ((s.run first).next (.compile source file)).compiler.options = o := by
    rw [options_next, options_run, hoptions]
  have hrun (past : List Event) :
      s.run (first ++ .compile source file :: past) = ((s.run first).next (.compile source file)).run past :=
    run_append s first (.compile source file :: past)
  have hcall : ((s.run first).next (.compile source file)).calls[(s.run first).calls.length]? =
      some (.compile source file .asked) :=
    List.getElem?_concat_length
  have hanswer := exists_answer_of_settled (hsettled.next hsound' ⟨first, hfirst, rfl⟩ (.compile source file))
    (hsound'.next (by rintro _ _ ⟨⟩; exact .inr ⟨rfl, rfl⟩)) (fun _ _ hmem => .inl (by simp [hmem])) ?_ ?_ hcall hsteps
  · rwa [hoptions', ← hrun] at hanswer
  · intro past hpast
    refine ⟨first ++ .compile source file :: past, ?_, by rw [hrun]⟩
    exact (List.prefix_append_right_inj first).mpr (List.cons_prefix_cons.mpr ⟨rfl, hpast⟩)
  · rw [hoptions']
    rintro other (hmem | ⟨rfl, -⟩) hhash
    · exact hdigest other hmem hhash
    · rfl

def isIdle (call : Call) : Bool :=
  (call.held? .layouts).isNone && (call.held? .components).isNone

theorem heldIn_of_isIdle (h : s.calls.all isIdle = true) (T : Entry → Prop) (key : List String) : s.HeldIn T key := by
  intro call hcall root dir catalog _ _ hheld
  have hidle := List.all_eq_true.mp h call hcall
  rw [isIdle, Bool.and_eq_true] at hidle
  cases root with
  | layouts => simp [hheld] at hidle
  | components => simp [hheld] at hidle

def isReturned (path : String) : Call → Bool
  | .invalidate path' .returned => path' == path
  | _ => false

theorem eq_returned_of_any {call : Option Call} (h : call.any (isReturned path) = true) :
    call = some (.invalidate path .returned) := by
  rcases call with _ | ⟨_, _, _⟩ | ⟨path', _ | _ | _⟩
  · cases h
  · cases h
  · cases h
  · cases h
  · have hpath : path' = path := by simpa [isReturned] using h
    rw [hpath]

/-- A layout below both directories changes. -/
def layoutEdit : Edit :=
  .write "components/layouts/Main.zen" "<main><Slot /></main>"

/-- The change is announced while a page is compiled, which looks for catalogs once they were dropped. -/
def announcing : List Event :=
  [.invalidate layoutEdit.path, .step 1, .step 1, .step 0, .step 1]

theorem answered_since_edit_overlapping :
    let before := [Event.compile "<Card />" "page.zen", .step 0]
    let s := ((new Workspace.cardFiles Workspace.nestedOptions).run before).next (.edit layoutEdit)
    let last := (List.replicate 9 [Event.step 0, .step 2]).flatten
    ∃ catalogs,
      CatalogsIn (s.trees (announcing ++ .compile "<Card />" "page.zen" :: last)) Workspace.nestedOptions catalogs ∧
      (s.run (announcing ++ .compile "<Card />" "page.zen" :: last)).calls[(s.run announcing).calls.length]? =
        some (.compile "<Card />" "page.zen"
          (.answered (PageCompiler.compile "<Card />" "page.zen" Workspace.nestedOptions catalogs))) := by
  intro before s last
  have hwithin : ∀ dir ∈ rootDirs Workspace.nestedOptions, Path.isWithin layoutEdit.path dir = true := by
    decide +kernel
  have hidle : ∀ n < 6, (s.run (announcing.take n)).calls.all isIdle = true := by
    decide +kernel
  have hs : s = ((new Workspace.cardFiles Workspace.nestedOptions).run before).next (.edit layoutEdit) := rfl
  have hreturned : (s.run announcing).calls[1]? = some (.invalidate layoutEdit.path .returned) :=
    eq_returned_of_any (by decide +kernel)
  refine answered_since_edit hs ?_ ?_ ?_ ?_ hreturned ?_ ?_
  · exact ⟨"components", by decide +kernel, by decide +kernel⟩
  · intro dir hdir hout
    rw [hwithin dir hdir] at hout
    cases hout
  · decide +kernel
  · intro past hpast dir dirs _
    have hbefore : past <+: announcing := (List.prefix_append past _).trans hpast
    have hlength : past.length ≤ announcing.length := hbefore.length_le
    rw [List.prefix_iff_eq_take.mp hbefore]
    exact heldIn_of_isIdle (hidle past.length (Nat.lt_succ_of_le hlength)) _ _
  · intro other hmem _
    simpa [before, announcing, last] using hmem
  · decide +kernel

/-! ## An invalidation that is lost -/

theorem files_run (h : ∀ e, .edit e ∉ events) : (s.run events).files = s.files := by
  induction events generalizing s with
  | nil => rfl
  | cons ev events ih =>
    have hnext : (s.next ev).files = s.files := by
      cases ev with
      | edit e => exact absurd List.mem_cons_self (h e)
      | compile source file => rfl
      | invalidate path => rfl
      | step number =>
        rw [next]
        split <;> rfl
    exact (ih fun e hmem => h e (List.mem_cons_of_mem _ hmem)).trans hnext

/-- A directory of components and none of layouts. -/
def componentOptions : Options :=
  { componentsDir := some "components" }

def cardEdit : Edit :=
  .write "components/Card.zen" "<p>new</p>"

/-- After the invalidation has returned, a compilation keeps the catalog that it read before the change. -/
def overtaken : List Event :=
  [.invalidate cardEdit.path, .step 1, .step 1, .step 0]

def answersCard (text : String) : Call → Bool
  | .compile _ _ (.answered (.ok output)) => Workspace.showsCard text output
  | _ => false

/-- A compilation that starts after the invalidation of the card has returned shows the card as it was, which is made
from no catalogs that were found since. -/
theorem lost_invalidation :
    let before := Event.compile "<Card />" "page.zen" :: List.replicate 4 (.step 0)
    let s := ((new Workspace.cardFiles componentOptions).run before).next (.edit cardEdit)
    let events := overtaken ++ .compile "<Card />" "page.zen" :: List.replicate 9 (.step 2)
    (s.run overtaken).calls[1]? = some (.invalidate cardEdit.path .returned) ∧
      ¬ ∃ catalogs, CatalogsIn (s.trees events) componentOptions catalogs ∧ (s.run events).calls[2]? =
        some (.compile "<Card />" "page.zen"
          (.answered (PageCompiler.compile "<Card />" "page.zen" componentOptions catalogs))) := by
  intro before s events
  refine ⟨eq_returned_of_any (by decide +kernel), ?_⟩
  rintro ⟨⟨layouts, components⟩, hcatalogs, hanswer⟩
  obtain rfl : layouts = {} := hcatalogs .layouts
  obtain ⟨dir, hdir, -, files, ⟨past, hpast, hfiles⟩, rfl⟩ := hcatalogs .components
  have hdir' : dir = "components" := by simpa [rootDirs, componentOptions] using hdir
  -- Nothing changes after the edit, so all that was found since is what the changed files hold.
  have hsame : (s.run past).files = s.files := by
    refine files_run fun e hmem => ?_
    have hmem' := hpast.mem hmem
    simp [events, overtaken] at hmem'
  have hold : ((s.run events).calls[2]?).any (answersCard "old") = true := by
    decide +kernel
  have hnew : (PageCompiler.compile "<Card />" "page.zen" componentOptions
      { components := discovered s.files "components" }).toOption.any (Workspace.showsCard "new") = true := by
    decide +kernel
  obtain ⟨output, hmade, hshows⟩ := exists_eq_ok_of_any hnew
  rw [hanswer, hdir', ← hfiles, hsame, hmade] at hold
  exact absurd hshows (by simp [Workspace.not_showsCard_new hold])

end Shared

end PageCompiler.Project
