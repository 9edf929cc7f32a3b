import Mathlib.Data.List.Induction
import Mathlib.Logic.Function.Iterate
import PageCompiler.Proofs.CompilerRuns

/-!
# Calls to a shared compiler

Several calls work on one compiler at a time. A compilation looks for an output, looks for each catalog, reads a
directory, keeps what it read, makes the output and keeps it in steps of their own, and an invalidation drops the
catalogs and the outputs one after the other; between the steps of a call anything else may happen. A call that
nothing interrupts does what the compiler does in one go (`Call.reaches_answered`, `Call.reaches_returned`). What one
step can do is said once: what a call holds and what the compiler keeps comes from what was held or kept before and
from what is found now. However the calls interleave, a compilation answers after at most nine steps of its own
(`Shared.exists_stage_run`).
-/

namespace PageCompiler.Project

open Component (Catalogs)

variable {files : Entry} {c : Compiler} {source file : String}

/-! ## Calls in steps -/

/-- What a compilation looks for in a directory of its own. -/
inductive Root where
  | layouts
  | components
deriving DecidableEq

namespace Root

def dir (o : Options) : Root → Option String
  | layouts => o.layoutsDir
  | components => o.componentsDir

def catalog (held : Catalogs) : Root → Catalog
  | layouts => held.layouts
  | components => held.components

def hold (held : Catalogs) (catalog : Catalog) : Root → Catalogs
  | layouts => { held with layouts := catalog }
  | components => { held with components := catalog }

theorem mem_rootDirs {o : Options} {dir : String} : dir ∈ rootDirs o ↔ ∃ root : Root, root.dir o = some dir := by
  simp only [rootDirs, List.mem_append, Option.mem_toList]
  constructor
  · rintro (h | h)
    · exact ⟨layouts, h⟩
    · exact ⟨components, h⟩
  · rintro ⟨_ | _, h⟩
    · exact .inl h
    · exact .inr h

end Root

/-- How far a compilation has come. -/
inductive Compiling where
  | asked
  | finding (root : Root) (held : Catalogs)
  | discovering (root : Root) (held : Catalogs)
  | keeping (root : Root) (held : Catalogs) (catalog : Catalog)
  | making (held : Catalogs)
  | storing (held : Catalogs) (output : Emit.Output)
  | answered (answer : Compiled Emit.Output)

variable {stage : Compiling}

/-- How far an invalidation has come. -/
inductive Invalidating where
  /-- It will drop the catalogs of the directories, and then all outputs. -/
  | dropping (dirs : List String)
  /-- It will drop the output of its file. -/
  | erasing
  | returned

/-- A call that was started. -/
inductive Call where
  | compile (source file : String) (stage : Compiling)
  | invalidate (path : String) (stage : Invalidating)

/-- A compilation that got the catalog of a directory. -/
def Compiling.after (held : Catalogs) : Root → Compiling
  | .layouts => .finding .components held
  | .components => .making held

def Compiling.step (files : Entry) (c : Compiler) (source file : String) : Compiling → Compiler × Compiling
  | asked =>
    match c.cache.output? file source c.options with
    | some output => (c, answered (.ok output))
    | none => (c, finding .layouts {})
  | finding root held =>
    match root.dir c.options with
    | none => (c, after (root.hold held {}) root)
    | some dir =>
      match c.found.lookup (Path.components dir) with
      | some catalog => (c, after (root.hold held catalog) root)
      | none => (c, discovering root held)
  | discovering root held =>
    match root.dir c.options with
    | none => (c, after (root.hold held {}) root)
    | some dir => (c, keeping root held (discovered files dir))
  | keeping root held catalog =>
    match root.dir c.options with
    | none => (c, after (root.hold held {}) root)
    | some dir =>
      -- What another call has kept meanwhile stays, but this call goes on with what it read itself.
      ({ c with found := Compiler.keep c.found (Path.components dir) catalog }, after (root.hold held catalog) root)
  | making held =>
    match PageCompiler.compile source file c.options held with
    | .ok output => (c, storing held output)
    | .error d => (c, answered (.error d))
  | storing _ output =>
    ({ c with cache := c.cache.store file source c.options output }, answered (.ok output))
  | answered answer => (c, answered answer)

def Invalidating.start (c : Compiler) (path : String) : Invalidating :=
  match c.sharedDirs.filter fun dir => Path.isWithin path dir with
  | [] => erasing
  | dirs => dropping dirs

def Invalidating.step (c : Compiler) (path : String) : Invalidating → Compiler × Invalidating
  | dropping [] => ({ c with cache := [] }, returned)
  | dropping (dir :: dirs) =>
    ({ c with found := c.found.filter fun entry => entry.1 != Path.components dir }, dropping dirs)
  | erasing => ({ c with cache := c.cache.erase path }, returned)
  | returned => (c, returned)

def Call.step (files : Entry) (c : Compiler) : Call → Compiler × Call
  | compile source file stage =>
    let (c', stage') := stage.step files c source file
    (c', compile source file stage')
  | invalidate path stage =>
    let (c', stage') := stage.step c path
    (c', invalidate path stage')

/-- The files of a project, the compiler that works on them, and the calls to it in the order in which they
started. -/
structure Shared where
  files : Entry
  compiler : Compiler
  calls : List Call := []

/-- Something that happens in a project whose compiler is shared. -/
inductive Event where
  | edit (e : Edit)
  | compile (source file : String)
  | invalidate (path : String)
  | step (number : Nat)
deriving DecidableEq

namespace Shared

def new (files : Entry) (o : Options) : Shared where
  files
  compiler := { options := o }

def next (s : Shared) : Event → Shared
  | .edit e => { s with files := e.apply s.files }
  | .compile source file => { s with calls := s.calls ++ [.compile source file .asked] }
  | .invalidate path => { s with calls := s.calls ++ [.invalidate path (.start s.compiler path)] }
  | .step number =>
    match s.calls[number]? with
    | none => s
    | some call =>
      let (c, call') := call.step s.files s.compiler
      { s with compiler := c, calls := s.calls.set number call' }

def run (s : Shared) (events : List Event) : Shared :=
  events.foldl next s

end Shared

/-! ## Calls without interruption -/

def Call.Reaches (files : Entry) (x y : Compiler × Call) : Prop :=
  ∃ n, (fun x : Compiler × Call => x.2.step files x.1)^[n] x = y

namespace Call.Reaches

variable {files : Entry} {x y z : Compiler × Call}

theorem refl : Reaches files x x :=
  ⟨0, rfl⟩

theorem trans (hxy : Reaches files x y) (hyz : Reaches files y z) : Reaches files x z := by
  obtain ⟨m, rfl⟩ := hxy
  obtain ⟨n, rfl⟩ := hyz
  exact ⟨n + m, Function.iterate_add_apply _ n m x⟩

theorem head (h : Reaches files (x.2.step files x.1) y) : Reaches files x y := by
  obtain ⟨n, rfl⟩ := h
  exact ⟨n + 1, rfl⟩

end Call.Reaches

theorem Call.reaches_after (files : Entry) (c : Compiler) (source file : String) (root : Root) (held : Catalogs) :
    Reaches files (c, .compile source file (.finding root held))
      (c.seeing files (root.dir c.options),
        .compile source file (.after (root.hold held (c.seen files (root.dir c.options))) root)) := by
  refine .head ?_
  rw [step, Compiling.step]
  cases hdir : root.dir c.options with
  | none => exact .refl
  | some dir =>
    cases hfound : c.found.lookup (Path.components dir) with
    | some catalog =>
      simp only [hfound, Compiler.seeing, Compiler.seen, Compiler.keep, Option.isSome_some, if_true,
        Option.getD_some]
      exact .refl
    | none =>
      refine .head (.head ?_)
      simp only [hfound, step, Compiling.step, hdir, Compiler.seeing, Compiler.seen, Option.getD_none]
      exact .refl

/-- A compilation that nothing interrupts is a call of the compiler. -/
theorem Call.reaches_answered (files : Entry) (c : Compiler) (source file : String) :
    Reaches files (c, .compile source file .asked)
      (((Compiler.compile files source file).run.run c).2,
        .compile source file (.answered ((Compiler.compile files source file).run.run c).1)) := by
  refine .head ?_
  rw [step, Compiling.step]
  cases houtput : c.cache.output? file source c.options with
  | some output =>
    rw [Compiler.run_compile_of_some houtput]
    exact .refl
  | none =>
    rw [Compiler.run_compile_of_none houtput]
    have hlayouts := reaches_after files c source file .layouts {}
    have hcomponents := reaches_after files (c.seeing files c.options.layoutsDir) source file .components
      { layouts := c.seen files c.options.layoutsDir }
    rw [Compiler.options_seeing] at hcomponents
    -- The components are looked for in the compiler that has seen the layouts: the two may be one directory.
    refine hlayouts.trans (hcomponents.trans (.head ?_))
    have hoptions : (c.seeingRoots files).options = c.options := by simp [Compiler.seeingRoots]
    have hcache : (c.seeingRoots files).cache = c.cache := by simp [Compiler.seeingRoots]
    change Reaches files (step files (c.seeingRoots files) (.compile source file (.making (c.catalogs files)))) _
    rw [step, Compiling.step, hoptions]
    cases hmade : PageCompiler.compile source file c.options (c.catalogs files) with
    | error d => exact .refl
    | ok output =>
      refine .head ?_
      simp only [step, Compiling.step, hoptions, hcache]
      exact .refl

theorem Call.reaches_returned_of_dropping (files : Entry) (c : Compiler) (path : String) (dirs : List String) :
    Reaches files (c, .invalidate path (.dropping dirs))
      ({ c with
          found := c.found.filter fun entry => !(dirs.map Path.components).contains entry.1
          cache := [] }, .invalidate path .returned) := by
  induction dirs generalizing c with
  | nil =>
    refine .head ?_
    simp only [step, Invalidating.step, List.map_nil, List.contains_nil, Bool.not_false, List.filter_true]
    exact .refl
  | cons dir dirs ih =>
    refine .head ((ih _).trans ?_)
    simp only [List.filter_filter, List.map_cons, List.contains_cons, Bool.not_or, bne, Bool.and_comm]
    exact .refl

/-- An invalidation that nothing interrupts is a call of the compiler. -/
theorem Call.reaches_returned (files : Entry) (c : Compiler) (path : String) :
    Reaches files (c, .invalidate path (.start c path)) (c.invalidate path, .invalidate path .returned) := by
  rw [Invalidating.start, Compiler.invalidate]
  cases c.sharedDirs.filter fun dir => Path.isWithin path dir with
  | nil => exact .head .refl
  | cons dir dirs => exact reaches_returned_of_dropping files c path (dir :: dirs)

/-- The steps of the last call that was started change nothing but it and the compiler. -/
theorem Shared.exists_run_of_reaches {c' : Compiler} {call call' : Call}
    (h : Call.Reaches files (c, call) (c', call')) (calls : List Call) :
    ∃ n, run ⟨files, c, calls ++ [call]⟩ (List.replicate n (.step calls.length)) = ⟨files, c', calls ++ [call']⟩ := by
  obtain ⟨n, hn⟩ := h
  refine ⟨n, ?_⟩
  induction n generalizing c call with
  | zero =>
    cases hn
    rfl
  | succ n ih =>
    have hnext : next ⟨files, c, calls ++ [call]⟩ (.step calls.length) =
        ⟨files, (call.step files c).1, calls ++ [(call.step files c).2]⟩ := by
      simp [next]
    rw [List.replicate_succ, run, List.foldl_cons, hnext]
    exact ih hn

/-! ## What a step can do -/

def Compiling.held? : Compiling → Root → Option Catalog
  | finding .components held, .layouts => some held.layouts
  | discovering .components held, .layouts => some held.layouts
  | keeping .components held _, .layouts => some held.layouts
  | keeping .components _ catalog, .components => some catalog
  | keeping .layouts _ catalog, .layouts => some catalog
  | making held, root => some (root.catalog held)
  | storing held _, root => some (root.catalog held)
  | _, _ => none

def Call.held? : Call → Root → Option Catalog
  | compile _ _ stage, root => stage.held? root
  | invalidate _ _, _ => none

theorem Compiling.held?_after {held : Catalogs} {catalog catalog' : Catalog} {root root' : Root}
    (h : (after (root.hold held catalog) root).held? root' = some catalog') :
    (finding root held).held? root' = some catalog' ∨ root' = root ∧ catalog' = catalog := by
  cases root <;> cases root' <;> simp_all [after, held?, Root.hold, Root.catalog]

theorem Compiling.held?_discovering (root : Root) (held : Catalogs) :
    (discovering root held).held? = (finding root held).held? := by
  funext root'
  cases root <;> cases root' <;> rfl

/-- What a compilation holds after a step, it held before, or the compiler kept it, or it is found now. -/
theorem Compiling.held?_step {root : Root} {catalog : Catalog}
    (h : (stage.step files c source file).2.held? root = some catalog) :
    stage.held? root = some catalog ∨ root.dir c.options = none ∧ catalog = {} ∨
      ∃ dir, root.dir c.options = some dir ∧
        (c.found.lookup (Path.components dir) = some catalog ∨ catalog = discovered files dir) := by
  cases stage with
  | asked =>
    rw [step] at h
    split at h <;> cases h
  | finding root' held =>
    rw [step] at h
    split at h
    · rename_i hdir
      rcases held?_after h with h | ⟨rfl, rfl⟩
      · exact .inl h
      · exact .inr (.inl ⟨hdir, rfl⟩)
    · rename_i dir hdir
      split at h
      · rename_i kept hkept
        rcases held?_after h with h | ⟨rfl, rfl⟩
        · exact .inl h
        · exact .inr (.inr ⟨dir, hdir, .inl hkept⟩)
      · rw [held?_discovering] at h
        exact .inl h
  | discovering root' held =>
    rw [held?_discovering]
    rw [step] at h
    split at h
    · rename_i hdir
      rcases held?_after h with h | ⟨rfl, rfl⟩
      · exact .inl h
      · exact .inr (.inl ⟨hdir, rfl⟩)
    · rename_i dir hdir
      cases root' <;> cases root <;> simp_all [held?]
  | keeping root' held found =>
    have hfinding (h : (finding root' held).held? root = some catalog) :
        (keeping root' held found).held? root = some catalog := by
      cases root' <;> cases root <;> simp_all [held?]
    rw [step] at h
    split at h
    · rename_i hdir
      rcases held?_after h with h | ⟨rfl, rfl⟩
      · exact .inl (hfinding h)
      · exact .inr (.inl ⟨hdir, rfl⟩)
    · rcases held?_after h with h | ⟨rfl, rfl⟩
      · exact .inl (hfinding h)
      · exact .inl (by cases root <;> rfl)
  | making held =>
    rw [step] at h
    split at h
    · exact .inl h
    · cases h
  | storing held output => cases h
  | answered answer => cases h

theorem Compiling.found_step {key : List String} {catalog : Catalog}
    (h : (stage.step files c source file).1.found.lookup key = some catalog) :
    c.found.lookup key = some catalog ∨
      ∃ root dir, Root.dir c.options root = some dir ∧ Path.components dir = key ∧ stage.held? root = some catalog := by
  revert h
  -- Only the step that keeps a catalog changes what is kept.
  fun_cases step files c source file stage with
  | case9 root held found dir hdir =>
    intro h
    rw [Compiler.lookup_keep] at h
    split at h
    · rename_i hkey
      subst hkey
      cases hkept : c.found.lookup (Path.components dir) with
      | some kept =>
        rw [hkept] at h
        exact .inl h
      | none =>
        rw [hkept] at h
        refine .inr ⟨root, dir, hdir, rfl, ?_⟩
        cases root <;> exact h
    · exact .inl h
  | _ => exact .inl

theorem Compiling.cache_step (stage : Compiling) (files : Entry) (c : Compiler) (source file : String) :
    (stage.step files c source file).1.cache = c.cache ∨
      ∃ held output, stage = .storing held output ∧
        (stage.step files c source file).1.cache = c.cache.store file source c.options output := by
  fun_cases Compiling.step files c source file stage <;> simp

theorem Compiling.options_step (stage : Compiling) (files : Entry) (c : Compiler) (source file : String) :
    (stage.step files c source file).1.options = c.options := by
  fun_cases Compiling.step files c source file stage <;> rfl

@[simp] theorem Compiling.after_ne_storing (held held' : Catalogs) (root : Root) (output : Emit.Output) :
    after held root ≠ storing held' output := by
  cases root <;> simp [after]

@[simp] theorem Compiling.after_ne_answered (held : Catalogs) (root : Root) (answer : Compiled Emit.Output) :
    after held root ≠ answered answer := by
  cases root <;> simp [after]

theorem Compiling.made_of_step {held : Catalogs} {output : Emit.Output}
    (h : (stage.step files c source file).2 = storing held output) :
    PageCompiler.compile source file c.options held = .ok output := by
  revert h
  fun_cases step files c source file stage with
  | case10 held' output' hmade =>
    intro h
    cases h
    exact hmade
  | _ => simp

theorem Compiling.answered_of_step {answer : Compiled Emit.Output}
    (h : (stage.step files c source file).2 = answered answer) :
    stage = answered answer ∨
      (∃ output, c.cache.output? file source c.options = some output ∧ answer = .ok output) ∨
      (∃ held, stage = making held ∧ answer = PageCompiler.compile source file c.options held) ∨
      ∃ held output, stage = storing held output ∧ answer = .ok output := by
  revert h
  fun_cases step files c source file stage with
  | case1 output houtput =>
    intro h
    cases h
    exact .inr (.inl ⟨output, houtput, rfl⟩)
  | case11 held d hmade =>
    intro h
    cases h
    exact .inr (.inr (.inl ⟨held, rfl, hmade.symm⟩))
  | case12 held output =>
    intro h
    cases h
    exact .inr (.inr (.inr ⟨held, output, rfl, rfl⟩))
  | case13 => exact .inl
  | _ => simp

namespace Call

variable {call : Call} {files : Entry} {c : Compiler}

theorem held?_step {root : Root} {catalog : Catalog} (h : (call.step files c).2.held? root = some catalog) :
    call.held? root = some catalog ∨ root.dir c.options = none ∧ catalog = {} ∨
      ∃ dir, root.dir c.options = some dir ∧
        (c.found.lookup (Path.components dir) = some catalog ∨ catalog = discovered files dir) := by
  cases call with
  | compile source file stage => exact Compiling.held?_step h
  | invalidate path stage => cases h

theorem found_step {key : List String} {catalog : Catalog}
    (h : (call.step files c).1.found.lookup key = some catalog) :
    c.found.lookup key = some catalog ∨
      ∃ root dir, Root.dir c.options root = some dir ∧ Path.components dir = key ∧ call.held? root = some catalog := by
  cases call with
  | compile source file stage => exact Compiling.found_step h
  | invalidate path stage =>
    rcases stage with (_ | ⟨dir, dirs⟩) | _ | _
    · exact .inl h
    · have hfilter := Compiler.lookup_filter_key c.found (· != Path.components dir) key
      rw [step, Invalidating.step] at h
      rw [hfilter] at h
      split at h
      · exact .inl h
      · cases h
    · exact .inl h
    · exact .inl h

theorem options_step (call : Call) (files : Entry) (c : Compiler) : (call.step files c).1.options = c.options := by
  cases call with
  | compile source file stage => exact stage.options_step files c source file
  | invalidate path stage => rcases stage with (_ | ⟨dir, dirs⟩) | _ | _ <;> rfl

end Call

namespace Shared

variable {s : Shared} {ev : Event}

theorem options_next (s : Shared) (ev : Event) : (s.next ev).compiler.options = s.compiler.options := by
  cases ev with
  | step number =>
    rw [next]
    split
    · rfl
    · exact Call.options_step _ _ _
  | edit e => rfl
  | compile source file => rfl
  | invalidate path => rfl

theorem options_run (s : Shared) (events : List Event) : (s.run events).compiler.options = s.compiler.options := by
  induction events generalizing s with
  | nil => rfl
  | cons ev events ih => exact (ih (s.next ev)).trans (options_next s ev)

theorem run_append (s : Shared) (events events' : List Event) :
    s.run (events ++ events') = (s.run events).run events' :=
  List.foldl_append

/-- A call of a later moment is a call of before, or was started, or made a step. -/
theorem getElem?_calls_next {number : Nat} {call : Call} (h : (s.next ev).calls[number]? = some call) :
    s.calls[number]? = some call ∨
      number = s.calls.length ∧ (∃ source file, ev = .compile source file ∧ call = .compile source file .asked) ∨
      number = s.calls.length ∧ (∃ path, ev = .invalidate path ∧ call = .invalidate path (.start s.compiler path)) ∨
      ev = .step number ∧ ∃ old, s.calls[number]? = some old ∧ call = (old.step s.files s.compiler).2 := by
  have hstart {started : Call} (h : (s.calls ++ [started])[number]? = some call) :
      s.calls[number]? = some call ∨ number = s.calls.length ∧ call = started := by
    rcases Nat.lt_trichotomy number s.calls.length with hlt | rfl | hlt
    · rw [List.getElem?_append_left hlt] at h
      exact .inl h
    · rw [List.getElem?_concat_length, Option.some.injEq] at h
      exact .inr ⟨rfl, h.symm⟩
    · rw [List.getElem?_eq_none (by rw [List.length_append, List.length_singleton]; exact hlt)] at h
      cases h
  cases ev with
  | edit e => exact .inl h
  | compile source file =>
    rcases hstart h with h | ⟨hnumber, rfl⟩
    · exact .inl h
    · exact .inr (.inl ⟨hnumber, source, file, rfl, rfl⟩)
  | invalidate path =>
    rcases hstart h with h | ⟨hnumber, rfl⟩
    · exact .inl h
    · exact .inr (.inr (.inl ⟨hnumber, path, rfl, rfl⟩))
  | step other =>
    rw [next] at h
    split at h
    · exact .inl h
    · rename_i old hold
      by_cases heq : other = number
      · subst heq
        have hlt : other < s.calls.length := (List.getElem?_eq_some_iff.mp hold).1
        rw [List.getElem?_set_self hlt, Option.some.injEq] at h
        exact .inr (.inr (.inr ⟨rfl, old, hold, h.symm⟩))
      · rw [List.getElem?_set_ne heq] at h
        exact .inl h

theorem getElem?_calls_next_of_ne {number : Nat} (hlt : number < s.calls.length) (hev : ev ≠ .step number) :
    (s.next ev).calls[number]? = s.calls[number]? := by
  cases ev with
  | edit e => rfl
  | compile source file => exact List.getElem?_append_left hlt
  | invalidate path => exact List.getElem?_append_left hlt
  | step other =>
    have hne : other ≠ number := fun heq => hev (by rw [heq])
    rw [next]
    split
    · rfl
    · exact List.getElem?_set_ne hne

/-- The compiler of a later moment is the compiler of before, or a call made a step. -/
theorem compiler_next (s : Shared) (ev : Event) :
    (s.next ev).compiler = s.compiler ∨
      ∃ number call, ev = .step number ∧ s.calls[number]? = some call ∧
        (s.next ev).compiler = (call.step s.files s.compiler).1 := by
  cases ev with
  | step number =>
    rw [next]
    split
    · exact .inl rfl
    · rename_i call hcall
      exact .inr ⟨number, call, rfl, hcall, rfl⟩
  | edit e => exact .inl rfl
  | compile source file => exact .inl rfl
  | invalidate path => exact .inl rfl

/-- What holds at the start and is kept by every event of a run holds at its end. -/
theorem run_induction {P : Shared → Prop} {events : List Event} (h : P s)
    (hnext : ∀ past ev, past ++ [ev] <+: events → P (s.run past) → P ((s.run past).next ev)) : P (s.run events) := by
  -- By induction on the part of the run that is over, from its last event backwards.
  have hpast (past : List Event) (hbefore : past <+: events) : P (s.run past) := by
    induction past using List.reverseRecOn with
    | nil => exact h
    | append_singleton past ev ih =>
      rw [run_append]
      exact hnext past ev hbefore (ih ((List.prefix_append past [ev]).trans hbefore))
  exact hpast events (List.prefix_refl events)

end Shared

/-! ## Compilations come to an end -/

/-- How many steps a compilation makes at most for the directories that come after one. -/
def Root.later : Root → Nat
  | layouts => 3
  | components => 0

/-- How many steps a compilation makes at most before it answers. -/
def Compiling.rank : Compiling → Nat
  | asked => 9
  | finding root _ => 5 + root.later
  | discovering root _ => 4 + root.later
  | keeping root _ _ => 3 + root.later
  | making _ => 2
  | storing _ _ => 1
  | answered _ => 0

theorem Compiling.rank_after (held : Catalogs) (root : Root) : (after held root).rank = 2 + root.later := by
  cases root <;> rfl

theorem Compiling.rank_step (stage : Compiling) (files : Entry) (c : Compiler) (source file : String) :
    (stage.step files c source file).2.rank ≤ stage.rank - 1 := by
  fun_cases step files c source file stage <;>
    first
    | rw [rank_after, rank]; omega
    | simp only [rank, Root.later]; omega

theorem Compiling.eq_answered_of_rank (h : stage.rank = 0) : ∃ answer, stage = answered answer := by
  cases stage with
  | answered answer => exact ⟨answer, rfl⟩
  | asked | making | storing => cases h
  | finding | discovering | keeping =>
    rw [rank] at h
    omega

namespace Shared

variable {s : Shared}

/-- A compilation that was started stays one and comes nearer to its answer with each of its steps. -/
theorem exists_stage_run {number : Nat}
    (h : s.calls[number]? = some (.compile source file stage)) (events : List Event) :
    ∃ stage', (s.run events).calls[number]? = some (.compile source file stage') ∧
      stage'.rank ≤ stage.rank - events.count (.step number) := by
  induction events generalizing s stage with
  | nil => exact ⟨stage, h, Nat.le_refl _⟩
  | cons ev events ih =>
    have hlt : number < s.calls.length := (List.getElem?_eq_some_iff.mp h).1
    by_cases hev : ev = .step number
    · subst hev
      have hnext : (s.next (.step number)).calls[number]? =
          some (.compile source file (stage.step s.files s.compiler source file).2) := by
        rw [next, h]
        exact List.getElem?_set_self hlt
      obtain ⟨stage', hstage', hrank⟩ := ih hnext
      refine ⟨stage', hstage', ?_⟩
      have hstep := stage.rank_step s.files s.compiler source file
      rw [List.count_cons_self]
      omega
    · have hnext : (s.next ev).calls[number]? = some (.compile source file stage) := by
        rw [getElem?_calls_next_of_ne hlt hev]
        exact h
      obtain ⟨stage', hstage', hrank⟩ := ih hnext
      refine ⟨stage', hstage', ?_⟩
      rwa [List.count_cons_of_ne (by simpa using hev)]

end Shared

end PageCompiler.Project
