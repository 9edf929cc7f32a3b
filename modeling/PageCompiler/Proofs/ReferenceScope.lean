import PageCompiler.Proofs.GrammarLayout
import PageCompiler.Proofs.Records
import PageCompiler.Proofs.Runs

/-!
# Scope of references

The references of an expression or a program are its uses of names that no function around them declares, anywhere in
its own code (`FollowsFunctions`). They are its free uses in the sense of lexical scope exactly where the two notions
agree: a declaration in a block hides its name in the whole function, and one in a block outside of functions, or the
name of a function or a class that is a value, hides nothing.
-/

namespace PageCompiler.Code

def IsReported (references : List Reference) (u : Use) : Prop :=
  ∃ r ∈ references, r.declares = false ∧ r.name = u.name ∧ r.span = u.span

/-- The references are the uses that no function around them declares. They are those that no scope around them declares
exactly if both are the same for each use. -/
structure FollowsFunctions (references : List Reference) (lexical byFunction : List Use) : Prop where
  same_uses : lexical.map (fun u => (u.name, u.span)) = byFunction.map fun u => (u.name, u.span)
  reported : ((references.filter fun r => !r.declares).map fun r => (r.name, r.span)).Perm
    ((byFunction.filter fun u => !u.isLocal).map fun u => (u.name, u.span))
  lexical_iff : (∀ u ∈ lexical, IsReported references u ↔ u.isLocal = false) ↔
    ∀ p ∈ lexical.zip byFunction, p.1.isLocal = p.2.isLocal

section
variable {u : Use} {s : Survey} {items : List Item} {lo hi : Nat}

variable {references : List Reference} {lexical byFunction : List Use}

theorem same_of_mem_zip (h : lexical.map (fun u => (u.name, u.span)) = byFunction.map fun u => (u.name, u.span))
    {p : Use × Use} (hp : p ∈ lexical.zip byFunction) : p.1.name = p.2.name ∧ p.1.span = p.2.span := by
  induction lexical generalizing byFunction with
  | nil => cases hp
  | cons u lexical ih =>
    cases byFunction with
    | nil => cases hp
    | cons v byFunction =>
      obtain ⟨huv, hrest⟩ := List.cons.inj h
      rcases List.mem_cons.mp hp with rfl | hp
      · exact Prod.mk.inj huv
      · exact ih hrest hp

theorem exists_mem_zip (h : lexical.length = byFunction.length) (hu : u ∈ lexical) :
    ∃ v, (u, v) ∈ lexical.zip byFunction := by
  rw [← List.map_fst_zip (Nat.le_of_eq h)] at hu
  obtain ⟨⟨u, v⟩, hp, rfl⟩ := List.mem_map.mp hu
  exact ⟨v, hp⟩

/-- A use is reported unless a function around it declares its name. -/
theorem isReported_iff (hfinds : s.Finds items) (hfit : Item.FitAll lo hi items)
    (hfree : ∀ r, r ∈ references ∧ r.declares = false ↔ r ∈ s.free) (hu : u ∈ Item.usesOf [] items) :
    IsReported references u ↔ u.isLocal = false := by
  have hhidden := hfinds.isHidden_eq_isLocal hfit hu
  constructor
  · rintro ⟨r, hr, hd, hname, hspan⟩
    have hmem := (List.mem_filter.mp ((hfree r).mp ⟨hr, hd⟩)).2
    rwa [hname, hspan, hhidden, Bool.not_eq_true'] at hmem
  · intro hlocal
    have hpair : (u.name, u.span) ∈ s.used.map fun r => (r.name, r.span) := by
      rw [← hfinds.map_uses []]
      exact List.mem_map_of_mem hu
    obtain ⟨r, hr, heq⟩ := List.mem_map.mp hpair
    obtain ⟨hname, hspan⟩ := Prod.mk.inj heq
    have hrfree : r ∈ s.free := by
      refine List.mem_filter.mpr ⟨hr, ?_⟩
      rw [hname, hspan, hhidden, hlocal]
      rfl
    obtain ⟨hmem, hd⟩ := (hfree r).mpr hrfree
    exact ⟨r, hmem, hd, hname, hspan⟩

theorem followsFunctions (hfinds : s.Finds items) (hfit : Item.FitAll lo hi items)
    (huses : lexical.map (fun u => (u.name, u.span)) = s.used.map fun r => (r.name, r.span))
    (hfree : (references.filter fun r => !r.declares).Perm s.free) :
    FollowsFunctions references lexical (Item.usesOf [] items) := by
  have hsame := huses.trans (hfinds.map_uses []).symm
  have hlength : lexical.length = (Item.usesOf [] items).length := by
    simpa using congrArg List.length hsame
  have hmem : ∀ r, r ∈ references ∧ r.declares = false ↔ r ∈ s.free := by
    intro r
    rw [← hfree.mem_iff, List.mem_filter, Bool.not_eq_true']
  have hpairs : ∀ p ∈ lexical.zip (Item.usesOf [] items), IsReported references p.1 ↔ p.2.isLocal = false := by
    intro p hp
    obtain ⟨hname, hspan⟩ := same_of_mem_zip hsame hp
    rw [← isReported_iff hfinds hfit hmem (List.of_mem_zip hp).2, IsReported, IsReported, hname, hspan]
  refine ⟨hsame, ?_, ?_⟩
  · rw [← hfinds.map_free hfit]
    exact hfree.map _
  · constructor
    · intro h p hp
      have hreported := h p.1 (List.of_mem_zip hp).1
      rw [hpairs p hp] at hreported
      cases hlexical : p.1.isLocal <;> cases hfunction : p.2.isLocal <;> simp [hlexical, hfunction] at hreported ⊢
    · intro h u hu
      obtain ⟨v, hp⟩ := exists_mem_zip hlength hu
      rw [hpairs (u, v) hp, ← h (u, v) hp]

end

theorem Tree.filter_references (t : Tree) : (t.references.filter fun r => !r.declares).Perm t.survey.free := by
  have hall : ∀ r ∈ t.references, (!r.declares) = true := by
    intro r hr
    rw [t.declares_of_mem_used false (List.mem_filter.mp (mem_inOrder.mp hr)).1]
    rfl
  rw [List.filter_eq_self.mpr hall]
  exact sortBy_perm _

theorem Tree.filter_programReferences (t : Tree) :
    ((inOrder (t.survey.free ++ t.survey.outermost)).filter fun r => !r.declares).Perm t.survey.free := by
  have hfree : ∀ r ∈ t.survey.free, (!r.declares) = true := by
    intro r hr
    rw [t.declares_of_mem_used false (List.mem_filter.mp hr).1]
    rfl
  have houtermost : ∀ r ∈ t.survey.outermost, ¬ (!r.declares) = true := by
    intro r hr
    obtain ⟨declared, -, rfl⟩ := List.mem_map.mp hr
    nofun
  refine ((sortBy_perm _).filter _).trans ?_
  rw [List.filter_append, List.filter_eq_self.mpr hfree, List.filter_eq_nil_iff.mpr houtermost, List.append_nil]

/-- The references of every expression and of every program are its uses that no function around them declares, and are
the free uses of lexical scope exactly if the two notions agree on each use. -/
theorem references_follow_functions (code : String) (program : List Char) (t : Tree) :
    (parseExpression code.toList = .ok t →
      ∃ references, expressionReferences code = .ok references ∧
        FollowsFunctions references (t.uses []) (Item.usesOf [] t.items)) ∧
    (parseProgram program = .ok t →
      ∃ references, programReferences program = .ok references ∧
        FollowsFunctions references t.programUses (Item.usesOf [] t.items)) := by
  constructor
  · intro ht
    obtain ⟨lo, hi, hfit⟩ := fit_of_parseExpression ht
    refine ⟨t.references, ?_, ?_⟩
    · rw [expressionReferences, ht]
      rfl
    · exact followsFunctions (t.finds_items false) hfit.fitAll (t.map_uses [] false) t.filter_references
  · intro ht
    obtain ⟨lo, hi, hfit⟩ := fit_of_parseProgram ht
    exact ⟨_, programReferences_eq ht,
      followsFunctions (t.finds_items false) hfit.fitAll t.map_programUses t.filter_programReferences⟩

/-- A parameter hides a state, and a variable of a block is hidden in the whole function around it. -/
theorem references_follow_functions_shadowed :
    (∃ t references, parseExpression "rows.map(n => n + m)".toList = .ok t ∧
      expressionReferences "rows.map(n => n + m)" = .ok references ∧ references.map (·.name) = ["rows", "m"] ∧
      FollowsFunctions references (t.uses []) (Item.usesOf [] t.items)) ∧
    ∃ t references, parseProgram "function f(n) \x7b \x7b let k \x7d return n + k \x7d f(n)".toList = .ok t ∧
      programReferences "function f(n) \x7b \x7b let k \x7d return n + k \x7d f(n)".toList = .ok references ∧
      references.map (fun r => (r.name, r.declares)) = [("f", true), ("f", false), ("n", false)] ∧
      FollowsFunctions references t.programUses (Item.usesOf [] t.items) := by
  constructor
  · have hread : (parseExpression "rows.map(n => n + m)".toList).toOption.any (fun _ =>
        (expressionReferences "rows.map(n => n + m)").toOption.any fun references =>
          references.map (·.name) = ["rows", "m"]) = true := by
      decide +kernel
    obtain ⟨t, ht, hread⟩ := exists_eq_ok_of_any hread
    obtain ⟨references, hreferences, hnames⟩ := exists_eq_ok_of_any hread
    obtain ⟨found, hfound, hfollows⟩ := (references_follow_functions _ [] t).1 ht
    obtain rfl : found = references := Except.ok.inj (hfound.symm.trans hreferences)
    exact ⟨t, found, ht, hfound, of_decide_eq_true hnames, hfollows⟩
  · have hread : (parseProgram "function f(n) \x7b \x7b let k \x7d return n + k \x7d f(n)".toList).toOption.any
        (fun _ => (programReferences "function f(n) \x7b \x7b let k \x7d return n + k \x7d f(n)".toList).toOption.any
          fun references => references.map (fun r => (r.name, r.declares)) =
            [("f", true), ("f", false), ("n", false)]) = true := by
      decide +kernel
    obtain ⟨t, ht, hread⟩ := exists_eq_ok_of_any hread
    obtain ⟨references, hreferences, hnames⟩ := exists_eq_ok_of_any hread
    obtain ⟨found, hfound, hfollows⟩ := (references_follow_functions "" _ t).2 ht
    obtain rfl : found = references := Except.ok.inj (hfound.symm.trans hreferences)
    exact ⟨t, found, ht, hfound, of_decide_eq_true hnames, hfollows⟩

/-- A variable of a block hides its name after the block as well: the last `n` is free, and is no reference. -/
theorem block_hides_rest_of_function :
    ∃ t, parseExpression "() => \x7b \x7b let n \x7d return n \x7d".toList = .ok t ∧
      expressionReferences "() => \x7b \x7b let n \x7d return n \x7d" = .ok [] ∧
      ∃ u ∈ t.uses [], u.name = "n" ∧ u.span = ⟨25, 26⟩ ∧ u.isLocal = false := by
  have hread : (parseExpression "() => \x7b \x7b let n \x7d return n \x7d".toList).toOption.any (fun t =>
      (expressionReferences "() => \x7b \x7b let n \x7d return n \x7d").toOption.any (·.isEmpty) &&
        (t.uses []).any fun u => u.name = "n" && u.span = ⟨25, 26⟩ && !u.isLocal) = true := by
    decide +kernel
  obtain ⟨t, ht, hread⟩ := exists_eq_ok_of_any hread
  rw [Bool.and_eq_true] at hread
  obtain ⟨references, hreferences, hempty⟩ := exists_eq_ok_of_any hread.1
  rw [List.isEmpty_iff.mp hempty] at hreferences
  refine ⟨t, ht, hreferences, ?_⟩
  simpa [and_assoc] using hread.2

end PageCompiler.Code
