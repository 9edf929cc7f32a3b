import PageCompiler.Compile
import PageCompiler.Proofs.ResolutionRun
import PageCompiler.Proofs.Writes

/-!
# Where states are written

The check that states are written only where events are handled, against all writes of the scripts
(`Code.Tree.programWrites`). It sees a write if the target is plain and no function around it declares the name
anywhere, and it takes the top-level statement around the write for the function that the write belongs to
(`Page.checkMutations_cases`). So a page that passes may still write a state elsewhere, in the ways that
`written_of_compile` lists.
-/

namespace PageCompiler

open Code (Tree Write)

variable {tree : Tree} {state : String} {b : Script.Block} {p : Page} {w : Write}

variable {r : Code.Reference} {states handlers : List String} {m : Mutation} {block : Script.Block}

/-- The check sees a write, which is one to a state: its target is plain, and no function around it declares the name in
any of its blocks. -/
structure Sees (tree : Tree) (states : List String) (w : Write) (state : String) : Prop where
  write : w ∈ tree.programWrites
  plain : w.plain = true
  shown : tree.survey.isHidden w.name w.span.start = false
  state : w.state? states = some state

/-! ## References -/

theorem Code.mem_free_iff {s : Code.Survey} : r ∈ s.free ↔ r ∈ s.used ∧ s.isHidden r.name r.span.start = false := by
  simp [Code.Survey.free]

theorem Code.Reference.writtenState?_eq (h : r.written = true) (states : List String) :
    r.writtenState? states = r.target.state? states := by
  simp only [writtenState?, h, Bool.not_true, Bool.false_eq_true, if_false, Target.state?, target]
  cases r.member <;> rfl

theorem Code.exists_writtenState?_iff {offset : Nat} :
    (∃ r ∈ Code.inOrder (tree.survey.free ++ tree.survey.outermost),
        r.writtenState? states = some state ∧ r.span.start = offset) ↔
      ∃ w, Sees tree states w state ∧ w.span.start = offset := by
  constructor
  · rintro ⟨r, hr, hstate, rfl⟩
    have hwritten : r.written = true := by
      by_contra hnot
      simp [Code.Reference.writtenState?, hnot] at hstate
    rw [Code.mem_inOrder, List.mem_append] at hr
    rcases hr with hr | hr
    · obtain ⟨hused, hshown⟩ := Code.mem_free_iff.mp hr
      have htarget : r.target ∈ Tree.plainTargets tree.programWrites := by
        rw [Tree.plainTargets_programWrites]
        exact List.mem_map_of_mem (List.mem_filter.mpr ⟨hused, hwritten⟩)
      obtain ⟨hw, hplain⟩ := List.mem_filter.mp htarget
      obtain ⟨w, hw, heq⟩ := List.mem_map.mp hw
      rw [Code.Reference.writtenState?_eq hwritten, ← heq] at hstate
      have hname : w.name = r.name := congrArg Code.Target.name heq
      have hspan : w.span = r.span := congrArg Code.Target.span heq
      refine ⟨w, ⟨hw, heq ▸ rfl, ?_, hstate⟩, by rw [hspan]⟩
      rw [hname, hspan]
      exact hshown
    · -- a declaration is never written
      obtain ⟨declared, -, rfl⟩ := List.mem_map.mp hr
      cases hwritten
  · rintro ⟨w, hw, rfl⟩
    have htarget : w.toTarget ∈ Code.writtenTargets tree.survey.used := by
      rw [← Tree.plainTargets_programWrites]
      exact List.mem_filter.mpr ⟨List.mem_map_of_mem hw.write, hw.plain⟩
    obtain ⟨r, hr, heq⟩ := List.mem_map.mp htarget
    obtain ⟨hused, hwritten⟩ := List.mem_filter.mp hr
    have hname : r.name = w.name := congrArg Code.Target.name heq
    have hspan : r.span = w.span := congrArg Code.Target.span heq
    refine ⟨r, ?_, ?_, by rw [hspan]⟩
    · rw [Code.mem_inOrder, List.mem_append, Code.mem_free_iff, hname, hspan]
      exact .inl ⟨hused, hw.shown⟩
    · rw [Code.Reference.writtenState?_eq hwritten, heq]
      exact hw.state

/-! ## Blocks -/

def Script.Block.mutationAt (b : Script.Block) (state : String) (offset : Nat) : Mutation where
  state
  function := b.functionAt offset
  position := b.positionOf offset
  line := b.lineAround offset

theorem Script.Block.mutations_eq (htree : Code.parseProgram b.plain = .ok tree) (states : List String)
    (file : String) :
    b.mutations states file =
      .ok ((Code.inOrder (tree.survey.free ++ tree.survey.outermost)).filterMap fun r =>
        (r.writtenState? states).map fun state => b.mutationAt state r.span.start) := by
  rw [mutations, references, Code.programReferences_eq htree]
  refine congrArg Except.ok (congrArg (List.filterMap · _) ?_)
  funext r
  cases r.writtenState? states <;> rfl

theorem Mutation.isAllowed_iff : m.isAllowed handlers = true ↔ ∃ f ∈ handlers, m.function = some f := by
  unfold isAllowed
  cases m.function <;> simp

/-- A write stands in the top-level statement of a function that handles events. -/
def Script.Block.Handles (b : Script.Block) (handlers : List String) (w : Write) : Prop :=
  ∃ f ∈ handlers, b.functionAt w.span.start = some f

/-- The diagnostic of a write to a state that is not allowed. -/
def Page.mutationDiagnostic (p : Page) (b : Script.Block) (state : String) (w : Write) : Diagnostic where
  fault := .illegalMutation state (b.functionAt w.span.start) b.index
  file := b.file.getD p.file
  position := b.positionOf w.span.start
  context := some (b.lineAround w.span.start)

theorem exists_sees_of_mutation
    (hm : m ∈ (Code.inOrder (tree.survey.free ++ tree.survey.outermost)).filterMap fun r =>
      (r.writtenState? states).map fun state => b.mutationAt state r.span.start) :
    ∃ w, Sees tree states w m.state ∧ m = b.mutationAt m.state w.span.start := by
  obtain ⟨r, hr, heq⟩ := List.mem_filterMap.mp hm
  obtain ⟨state, hstate, rfl⟩ := Option.map_eq_some_iff.mp heq
  obtain ⟨w, hw, hoffset⟩ := Code.exists_writtenState?_iff.mp ⟨r, hr, hstate, rfl⟩
  exact ⟨w, hw, by rw [hoffset]; rfl⟩

/-- A block passes if all writes that the check sees stand in functions that handle events; otherwise it is rejected for
one that does not. -/
theorem Page.checkBlock_cases (states handlers : List String) (htree : Code.parseProgram b.plain = .ok tree) :
    (p.checkBlock states handlers b = .ok () ∧
      ∀ w state, Sees tree states w state → b.Handles handlers w) ∨
    ∃ w state, Sees tree states w state ∧ ¬ b.Handles handlers w ∧
      p.checkBlock states handlers b = .error (p.mutationDiagnostic b state w) := by
  rw [checkBlock, Script.Block.mutations_eq htree]
  simp only [bind, Except.bind]
  split
  · rename_i hfind
    refine .inl ⟨rfl, fun w state hw => ?_⟩
    obtain ⟨r, hr, hstate, hoffset⟩ := Code.exists_writtenState?_iff.mpr ⟨w, hw, rfl⟩
    have hallowed := List.find?_eq_none.mp hfind (b.mutationAt state r.span.start)
      (List.mem_filterMap.mpr ⟨r, hr, by rw [hstate]; rfl⟩)
    rw [Bool.not_eq_true, Bool.not_eq_false', Mutation.isAllowed_iff, hoffset] at hallowed
    exact hallowed
  · rename_i m hfind
    obtain ⟨w, hw, hm⟩ := exists_sees_of_mutation (List.mem_of_find?_eq_some hfind)
    refine .inr ⟨w, m.state, hw, ?_, ?_⟩
    · intro hhandles
      have hnot := List.find?_some hfind
      rw [Bool.not_eq_true', ← Bool.not_eq_true, Mutation.isAllowed_iff, hm] at hnot
      exact hnot hhandles
    · rw [hm]
      rfl

/-! ## Pages -/

/-- A block of the page writes a state; no scope around the write declares the name. -/
structure Page.WritesState (p : Page) (block : Script.Block) (tree : Tree) (w : Write) (state : String) : Prop where
  mem : block ∈ (p.script.getD {}).blocks
  parses : Code.parseProgram block.plain = .ok tree
  write : w ∈ tree.programWrites
  free : w.isLocal = false
  state : w.state? (p.script.getD {}).states.keys = some state

/-- A write to a state strays: the check sees it, and it stands in no function that handles events. -/
structure Page.Strays (p : Page) (block : Script.Block) (tree : Tree) (w : Write) (state : String) : Prop where
  mem : block ∈ (p.script.getD {}).blocks
  parses : Code.parseProgram block.plain = .ok tree
  sees : Sees tree (p.script.getD {}).states.keys w state
  unhandled : ¬ block.Handles (Template.handlersIn p.nodes) w

/-- The blocks pass if no write in them strays; otherwise the first block with one is rejected for it. -/
theorem Page.forM_checkBlock_cases {blocks : List Script.Block} (states handlers : List String)
    (hread : ∀ block ∈ blocks, block.IsRead) :
    (blocks.forM (p.checkBlock states handlers) = .ok () ∧
      ∀ block ∈ blocks, ∀ tree, Code.parseProgram block.plain = .ok tree →
        ∀ w state, Sees tree states w state → block.Handles handlers w) ∨
    ∃ block ∈ blocks, ∃ tree w state, Code.parseProgram block.plain = .ok tree ∧
      Sees tree states w state ∧ ¬ block.Handles handlers w ∧
      blocks.forM (p.checkBlock states handlers) = .error (p.mutationDiagnostic block state w) := by
  induction blocks with
  | nil => exact .inl ⟨rfl, nofun⟩
  | cons block blocks ih =>
    obtain ⟨⟨tree, htree⟩, hrest⟩ := List.forall_mem_cons.mp hread
    simp only [List.forM_eq_forM, List.forM_cons] at ih ⊢
    rcases checkBlock_cases (p := p) states handlers htree with ⟨hok, hhandles⟩ | ⟨w, state, hw, hnot, herror⟩
    · rw [hok]
      rcases ih hrest with ⟨hrestOk, hall⟩ | ⟨stray, hstray, tree, w, state, hfound⟩
      · refine .inl ⟨hrestOk, List.forall_mem_cons.mpr ⟨fun tree' htree' => ?_, hall⟩⟩
        cases htree.symm.trans htree'
        exact hhandles
      · exact .inr ⟨stray, List.mem_cons_of_mem _ hstray, tree, w, state, hfound⟩
    · refine .inr ⟨block, List.mem_cons_self, tree, w, state, htree, hw, hnot, ?_⟩
      rw [herror]
      rfl

theorem not_sees_nil : ¬ Sees tree [] w state := by
  rintro ⟨-, -, -, hstate⟩
  unfold Code.Target.state? at hstate
  cases hmember : w.member <;> simp [hmember] at hstate

theorem Page.checkMutations_eq (p : Page) :
    p.checkMutations = if (p.script.getD {}).states.isEmpty then .ok () else
      (p.script.getD {}).blocks.forM (p.checkBlock (p.script.getD {}).states.keys (Template.handlersIn p.nodes)) := by
  unfold checkMutations
  cases p.script with
  | none => rfl
  | some s =>
    show (if s.states.isEmpty = true then _ else _) = if s.states.isEmpty = true then _ else _
    split <;> rfl

/-- A page passes if no write strays; otherwise it is rejected for one that does. -/
theorem Page.checkMutations_cases (hread : ∀ block ∈ (p.script.getD {}).blocks, block.IsRead) :
    (p.checkMutations = .ok () ∧ ∀ block tree w state, ¬ p.Strays block tree w state) ∨
    ∃ block tree w state, p.Strays block tree w state ∧
      p.checkMutations = .error (p.mutationDiagnostic block state w) := by
  rw [checkMutations_eq]
  by_cases hempty : (p.script.getD {}).states.isEmpty = true
  · have hnone : (p.script.getD {}).states.keys = [] := by
      rw [Ordered.keys, List.isEmpty_iff.mp hempty, List.map_nil]
    refine .inl ⟨if_pos hempty, fun block tree w state hstrays => ?_⟩
    have hsees := hstrays.sees
    rw [hnone] at hsees
    exact not_sees_nil hsees
  · rw [if_neg hempty]
    rcases forM_checkBlock_cases (p := p) _ (Template.handlersIn p.nodes) hread with
      ⟨hok, hall⟩ | ⟨block, hblock, tree, w, state, htree, hw, hnot, herror⟩
    · refine .inl ⟨hok, fun block tree w state hstrays => ?_⟩
      exact hstrays.unhandled (hall block hstrays.mem tree hstrays.parses w state hstrays.sees)
    · exact .inr ⟨block, tree, w, state, ⟨hblock, htree, hw, hnot⟩, herror⟩

/-! ## Compilation -/

/-- The check overlooks a write to a state. -/
inductive Overlooked (block : Script.Block) (tree : Tree) (handlers : List String) (w : Write) : Prop
  /-- The target stands in a pattern, in the head of a loop, in parentheses or the like. -/
  | notPlain (h : w.plain = false)
  /-- A function around the write declares the name, wherever in its code. -/
  | hidden (h : tree.survey.isHidden w.name w.span.start = true)
  /-- The top-level statement defines a function that handles events, but the write is not in the body of it. -/
  | beside {statement : Script.Statement} {f : String} (hstatement : statement ∈ block.statements)
      (hcontains : statement.span.contains w.span.start = true) (hname : statement.functionName? = some f)
      (hf : f ∈ handlers) (hbody : w.function ≠ some f)

theorem Script.Block.Handles.inBody_or_overlooked (h : block.Handles handlers w) (tree : Tree) :
    (∃ f ∈ handlers, w.function = some f) ∨ Overlooked block tree handlers w := by
  obtain ⟨f, hf, hat⟩ := h
  by_cases hbody : w.function = some f
  · exact .inl ⟨f, hf, hbody⟩
  · obtain ⟨statement, hfind, hname⟩ := Option.bind_eq_some_iff.mp hat
    have hcontains : statement.span.contains w.span.start = true := by
      simpa using List.find?_some hfind
    exact .inr (.beside (List.mem_of_find?_eq_some hfind) hcontains hname hf hbody)

theorem Page.WritesState.inBody_or_overlooked (hw : p.WritesState block tree w state)
    (hnone : ¬ p.Strays block tree w state) :
    (∃ f ∈ Template.handlersIn p.nodes, w.function = some f) ∨
      Overlooked block tree (Template.handlersIn p.nodes) w := by
  cases hplain : w.plain with
  | false => exact .inr (.notPlain hplain)
  | true =>
    cases hhidden : tree.survey.isHidden w.name w.span.start with
    | true => exact .inr (.hidden hhidden)
    | false =>
      have hhandles : block.Handles (Template.handlersIn p.nodes) w := by
        by_contra hnot
        exact hnone ⟨hw.mem, hw.parses, ⟨hw.write, hplain, hhidden, hw.state⟩, hnot⟩
      exact hhandles.inBody_or_overlooked tree

/-- In a page that compiles, each write to a state is in the body of a function that handles events or it is one that the
check overlooks. Where a write strays, the page is rejected for such a write, unless its structure is already unsound. -/
theorem written_of_compile {source file : String} {options : Options} {catalogs : Component.Catalogs}
    {p page : Page} {count : Nat} (hp : Page.read source file = .ok p)
    (hresolve : Component.resolve catalogs options p = .ok (count, page)) :
    (∀ out, compile source file options catalogs = .ok out →
      ∀ block tree w state, page.WritesState block tree w state →
        (∃ f ∈ Template.handlersIn page.nodes, w.function = some f) ∨
          Overlooked block tree (Template.handlersIn page.nodes) w) ∧
    (∀ block tree w state, page.Strays block tree w state →
      Template.checkStructure file page.nodes page.expressions = .ok () →
      ∃ block tree w state, page.Strays block tree w state ∧
        compile source file options catalogs = .error (page.mutationDiagnostic block state w)) := by
  have hcompile : compile source file options catalogs =
      (do
        Template.checkStructure file page.nodes page.expressions
        page.checkMutations
        let bundled ← page.bundle options
        Emit.output file bundled.1) := by
    rw [compile, hp]
    show (Component.resolve catalogs options p >>= _) = _
    rw [hresolve]
    rfl
  have hcases := Page.checkMutations_cases (Component.isRead_of_resolve hp hresolve)
  rw [hcompile]
  constructor
  · intro out hout block tree w state hw
    obtain ⟨_, -, hrest⟩ := Compiled.bind_eq_ok.mp hout
    obtain ⟨_, hmutations, -⟩ := Compiled.bind_eq_ok.mp hrest
    rcases hcases with ⟨-, hnone⟩ | ⟨_, _, _, _, -, herror⟩
    · exact hw.inBody_or_overlooked (hnone block tree w state)
    · rw [herror] at hmutations
      cases hmutations
  · intro block tree w state hstrays hstructure
    rcases hcases with ⟨-, hnone⟩ | ⟨block', tree', w', state', hstrays', herror⟩
    · exact absurd hstrays (hnone block tree w state)
    · refine ⟨block', tree', w', state', hstrays', ?_⟩
      rw [hstructure, herror]
      rfl

/-! ## A write that is overlooked -/

def Page.anyWrite (p : Page) (test : Script.Block → Tree → Write → Bool) : Bool :=
  (p.script.getD {}).blocks.any fun block => (Code.parseProgram block.plain).toOption.any fun tree =>
    tree.programWrites.any fun w =>
      !w.isLocal && (w.state? (p.script.getD {}).states.keys).isSome && test block tree w

theorem Page.exists_writesState_of_anyWrite {test : Script.Block → Tree → Write → Bool} (h : p.anyWrite test = true) :
    ∃ block tree w state, p.WritesState block tree w state ∧ test block tree w = true := by
  obtain ⟨block, hblock, h⟩ := List.any_eq_true.mp h
  obtain ⟨tree, htree, h⟩ := exists_eq_ok_of_any h
  obtain ⟨w, hw, h⟩ := List.any_eq_true.mp h
  simp only [Bool.and_eq_true, Bool.not_eq_true'] at h
  obtain ⟨⟨hfree, hstate⟩, htest⟩ := h
  obtain ⟨state, hstate⟩ := Option.isSome_iff_exists.mp hstate
  exact ⟨block, tree, w, state, ⟨hblock, htree, hw, hfree, hstate⟩, htest⟩

/-- A page whose script writes its state in the head of a loop, outside of all functions, and in a function that handles
events. -/
def loopingPage : String :=
  "<script>state n = 0\nfor (n of []);\nfunction f() \x7bn++\x7d</script><b onclick=\x7bf\x7d></b>"

/-- A page whose script writes its state outside of all functions. -/
def strayingPage : String :=
  "<script>state n = 0\nn++</script>"

theorem exists_looping :
    ∃ out p count page, compile loopingPage "page.zen" {} {} = .ok out ∧
      Page.read loopingPage "page.zen" = .ok p ∧ Component.resolve {} {} p = .ok (count, page) ∧
      page.anyWrite (fun _ _ w => w.function.isNone) = true := by
  have hfacts : ((compile loopingPage "page.zen" {} {}).toOption.any fun _ =>
      (Page.read loopingPage "page.zen").toOption.any fun p =>
      (Component.resolve {} {} p).toOption.any fun resolved =>
      resolved.2.anyWrite fun _ _ w => w.function.isNone) = true := by
    decide +kernel
  obtain ⟨out, hout, hfacts⟩ := exists_eq_ok_of_any hfacts
  obtain ⟨p, hp, hfacts⟩ := exists_eq_ok_of_any hfacts
  obtain ⟨⟨count, page⟩, hresolve, hfacts⟩ := exists_eq_ok_of_any hfacts
  exact ⟨out, p, count, page, hout, hp, hresolve, hfacts⟩

theorem exists_straying :
    ∃ p count page, Page.read strayingPage "page.zen" = .ok p ∧
      Component.resolve {} {} p = .ok (count, page) ∧
      Template.checkStructure "page.zen" page.nodes page.expressions = .ok () ∧
      ∃ block tree w state, page.Strays block tree w state := by
  have hfacts : ((Page.read strayingPage "page.zen").toOption.any fun p =>
      (Component.resolve {} {} p).toOption.any fun resolved =>
      (Template.checkStructure "page.zen" resolved.2.nodes resolved.2.expressions).toOption.any fun _ =>
      decide (Template.handlersIn resolved.2.nodes = []) &&
        resolved.2.anyWrite fun _ tree w => w.plain && !tree.survey.isHidden w.name w.span.start) = true := by
    decide +kernel
  obtain ⟨p, hp, hfacts⟩ := exists_eq_ok_of_any hfacts
  obtain ⟨⟨count, page⟩, hresolve, hfacts⟩ := exists_eq_ok_of_any hfacts
  obtain ⟨_, hstructure, hfacts⟩ := exists_eq_ok_of_any hfacts
  simp only [Bool.and_eq_true, decide_eq_true_eq] at hfacts
  obtain ⟨hnone, hfacts⟩ := hfacts
  obtain ⟨block, tree, w, state, hw, htest⟩ := Page.exists_writesState_of_anyWrite hfacts
  simp only [Bool.and_eq_true, Bool.not_eq_true'] at htest
  refine ⟨p, count, page, hp, hresolve, hstructure, block, tree, w, state, hw.mem, hw.parses,
    ⟨hw.write, htest.1, htest.2, hw.state⟩, ?_⟩
  rintro ⟨f, hf, -⟩
  rw [hnone] at hf
  cases hf

/-- A page compiles although it writes its state outside of all functions. -/
theorem overlooked_of_compile :
    ∃ out p count page block tree w state, compile loopingPage "page.zen" {} {} = .ok out ∧
      Page.read loopingPage "page.zen" = .ok p ∧ Component.resolve {} {} p = .ok (count, page) ∧
      page.WritesState block tree w state ∧ w.function = none := by
  obtain ⟨out, p, count, page, hout, hp, hresolve, hany⟩ := exists_looping
  obtain ⟨block, tree, w, state, hw, hnone⟩ := Page.exists_writesState_of_anyWrite hany
  exact ⟨out, p, count, page, block, tree, w, state, hout, hp, hresolve, hw, Option.isNone_iff_eq_none.mp hnone⟩

/-- That write is one that the check overlooks; the same write as an increment is rejected. -/
theorem written_of_compile_looping :
    (∃ out p count page block tree w state, compile loopingPage "page.zen" {} {} = .ok out ∧
      Page.read loopingPage "page.zen" = .ok p ∧ Component.resolve {} {} p = .ok (count, page) ∧
      page.WritesState block tree w state ∧ Overlooked block tree (Template.handlersIn page.nodes) w) ∧
    ∃ p count page block state w, Page.read strayingPage "page.zen" = .ok p ∧
      Component.resolve {} {} p = .ok (count, page) ∧
      compile strayingPage "page.zen" {} {} = .error (page.mutationDiagnostic block state w) := by
  constructor
  · obtain ⟨out, p, count, page, hout, hp, hresolve, hany⟩ := exists_looping
    obtain ⟨block, tree, w, state, hw, hnone⟩ := Page.exists_writesState_of_anyWrite hany
    refine ⟨out, p, count, page, block, tree, w, state, hout, hp, hresolve, hw, ?_⟩
    rcases (written_of_compile hp hresolve).1 out hout block tree w state hw with ⟨f, -, hf⟩ | hoverlooked
    · rw [hf] at hnone
      cases hnone
    · exact hoverlooked
  · obtain ⟨p, count, page, hp, hresolve, hstructure, block, tree, w, state, hstrays⟩ := exists_straying
    obtain ⟨block', -, w', state', -, herror⟩ :=
      (written_of_compile hp hresolve).2 block tree w state hstrays hstructure
    exact ⟨p, count, page, block', state', w', hp, hresolve, herror⟩

end PageCompiler
