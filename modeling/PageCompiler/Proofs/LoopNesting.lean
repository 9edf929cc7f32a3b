import Mathlib.Data.List.Nodup
import PageCompiler.Component.Rebinding

/-!
# Loops inside of loops

The scope of a place is put together in different ways: loop by loop, from the outside in, where markup is read
(`lowered`), and by nesting scopes that are ready where a component is put into a loop (`Rebinding.scope`). Nesting is
associative, so only the loops themselves and their order count (`Nesting.scope_eq_lowered`).
-/

namespace PageCompiler

open Template (LoopScope)

/-! ## Nesting -/

namespace Template.LoopScope

variable (a b c : Option LoopScope)

/-- The expression that the innermost loop goes through, if it is known. -/
def sourceOf (scope : Option LoopScope) : Option String :=
  scope.bind (·.source)

theorem nest_none_right : nest a none = a := by
  cases a <;> rfl

/-- The variables of the inner loop come last, and before them are those outside that none of them hides. -/
theorem variablesOf_nest : variablesOf (nest a b) =
    (variablesOf a).filter (fun v => !(variablesOf b).contains v) ++ variablesOf b := by
  cases a <;> cases b <;> simp [nest, variablesOf]

theorem sourceOf_nest : sourceOf (nest a b) = (sourceOf b <|> sourceOf a) := by
  cases a <;> cases b <;> simp [nest, sourceOf]

theorem isSome_nest : (nest a b).isSome = (a.isSome || b.isSome) := by
  cases a <;> cases b <;> rfl

variable {a b c} in
theorem eq_of_variablesOf (hsome : a.isSome = b.isSome) (hvars : variablesOf a = variablesOf b)
    (hsource : sourceOf a = sourceOf b) : a = b := by
  cases a with
  | none => exact (Option.isNone_iff_eq_none.mp (by simpa using hsome.symm)).symm
  | some a =>
    obtain ⟨b, rfl⟩ := Option.isSome_iff_exists.mp hsome.symm
    obtain ⟨vars, source⟩ := a
    exact congrArg some (congrArg₂ LoopScope.mk hvars hsource)

theorem nest_assoc : nest (nest a b) c = nest a (nest b c) := by
  refine eq_of_variablesOf ?_ ?_ ?_
  · simp only [isSome_nest, Bool.or_assoc]
  · simp only [variablesOf_nest, List.filter_append, List.filter_filter, List.append_assoc]
    refine congrArg (· ++ _) (List.filter_congr fun v _ => ?_)
    -- a variable outside is hidden by both sides together if it is hidden by one of them
    rw [Bool.eq_iff_iff]
    simp only [List.contains_eq_mem, Bool.and_eq_true, Bool.not_eq_true', decide_eq_false_iff_not, List.mem_append,
      List.mem_filter]
    tauto
  · simp only [sourceOf_nest]
    cases sourceOf c <;> rfl

variable {a b}

theorem mem_variablesOf_nest {name : String} :
    name ∈ variablesOf (nest a b) ↔ name ∈ variablesOf a ∨ name ∈ variablesOf b := by
  rw [variablesOf_nest, List.mem_append, List.mem_filter, Bool.not_eq_true', List.contains_eq_mem,
    decide_eq_false_iff_not]
  tauto

theorem nodup_variablesOf_nest (ha : (variablesOf a).Nodup) (hb : (variablesOf b).Nodup) :
    (variablesOf (nest a b)).Nodup := by
  rw [variablesOf_nest]
  refine (ha.filter _).append hb fun v hv => ?_
  simpa using (List.mem_filter.mp hv).2

end Template.LoopScope

/-! ## Groupings -/

namespace Component

open Template.LoopScope

/-- A loop of the copy of a component. -/
def Rebinding.loop (b : Rebinding) (l : LoopScope) : LoopScope :=
  { l with source := l.source.map b.id }

/-- The scope inside of loops that are read one after the other, from the outside in. -/
def lowered (loops : List LoopScope) : Option LoopScope :=
  loops.foldl (fun outer l => nest outer (some l)) none

/-- How the loops around a place came together. -/
inductive Nesting where
  | outside
  | loop (l : LoopScope)
  | within (outer inner : Nesting)
  /-- A component is put into the page: `usage` is around its use, and `inner` around the place in the component. -/
  | inlined (b : Rebinding) (usage inner : Nesting)

namespace Nesting

def scope : Nesting → Option LoopScope
  | outside => none
  | loop l => some l
  | within outer inner => nest outer.scope inner.scope
  | inlined b usage inner => b.scope usage.scope inner.scope

/-- The loops around the place, from the outside in. -/
def loops : Nesting → List LoopScope
  | outside => []
  | loop l => [l]
  | within outer inner => outer.loops ++ inner.loops
  | inlined b usage inner => usage.loops ++ inner.loops.map b.loop

end Nesting

theorem foldl_nest (outer : Option LoopScope) (loops : List LoopScope) :
    loops.foldl (fun outer l => nest outer (some l)) outer = nest outer (lowered loops) := by
  induction loops generalizing outer with
  | nil => exact (nest_none_right outer).symm
  | cons l loops ih =>
    have hfirst : lowered (l :: loops) = nest (some l) (lowered loops) := ih (some l)
    rw [List.foldl_cons, ih, hfirst, nest_assoc]

theorem lowered_append (outer inner : List LoopScope) : lowered (outer ++ inner) = nest (lowered outer) (lowered inner) :=
  (List.foldl_append ..).trans (foldl_nest ..)

/-- A copy gets its new ids whether they are given to each of its loops or to the scope inside of them. -/
theorem lowered_map (b : Rebinding) (loops : List LoopScope) : lowered (loops.map b.loop) = (lowered loops).map b.loop := by
  have hnest : ∀ outer inner, (nest outer inner).map b.loop = nest (outer.map b.loop) (inner.map b.loop) := by
    intro outer inner
    cases outer <;> cases inner <;> simp [nest, Rebinding.loop, Option.map_or]
  induction loops with
  | nil => rfl
  | cons l loops ih =>
    have hfirst : ∀ l loops, lowered (l :: loops) = nest (some l) (lowered loops) := fun l => foldl_nest (some l)
    rw [List.map_cons, hfirst, hfirst, ih, hnest]
    rfl

/-- However the loops came together, the scope is the one of reading them one after the other. -/
theorem Nesting.scope_eq_lowered (n : Nesting) : n.scope = lowered n.loops := by
  induction n with
  | outside => rfl
  | loop l => rfl
  | within outer inner houter hinner => rw [scope, loops, lowered_append, houter, hinner]
  | inlined b usage inner husage hinner =>
    rw [scope, loops, lowered_append, lowered_map, husage, hinner]
    rfl

/-- Scopes of loops are a monoid: nesting is associative, and no loop is neutral on both sides. The variables are those
of both sides; the inner ones come last, in order, after the outer ones that they do not hide, in order, and none comes
twice if none does on either side. So loops and inlined components around a place give the same scope in any grouping. -/
theorem nesting_monoid (a b c : Option LoopScope) :
    nest none a = a ∧ nest a none = a ∧ nest (nest a b) c = nest a (nest b c) ∧
      ((variablesOf a).Nodup → (variablesOf b).Nodup → (variablesOf (nest a b)).Nodup) ∧
      (∀ name, name ∈ variablesOf (nest a b) ↔ name ∈ variablesOf a ∨ name ∈ variablesOf b) ∧
      variablesOf (nest a b) = (variablesOf a).filter (fun v => !(variablesOf b).contains v) ++ variablesOf b ∧
      sourceOf (nest a b) = (sourceOf b <|> sourceOf a) ∧
      ∀ n m : Nesting, n.loops = m.loops → n.scope = m.scope := by
  refine ⟨rfl, nest_none_right a, nest_assoc a b c, nodup_variablesOf_nest, fun _ => mem_variablesOf_nest,
    variablesOf_nest a b, sourceOf_nest a b, fun n m h => ?_⟩
  rw [n.scope_eq_lowered, m.scope_eq_lowered, h]

/-- A component with a loop over `item` in a loop over `item` and `i`: the outer `item` is hidden. -/
theorem nesting_monoid_hidden :
    (variablesOf (nest (some ⟨["item", "i"], some "expr_0"⟩) (some ⟨["item"], none⟩))).Nodup ∧
      Nesting.scope (.inlined { ids := [("expr_0", "expr_5")] } (.loop ⟨["item", "i"], some "expr_0"⟩)
        (.within (.loop ⟨["item"], some "expr_0"⟩) (.loop ⟨["j"], none⟩))) =
      some ⟨["i", "item", "j"], some "expr_5"⟩ := by
  obtain ⟨-, -, -, hnodup, -, -, -, hsame⟩ :=
    nesting_monoid (some ⟨["item", "i"], some "expr_0"⟩) (some ⟨["item"], none⟩) none
  refine ⟨hnodup (by decide) (by decide), ?_⟩
  refine (hsame _ (.within (.within (.loop ⟨["item", "i"], some "expr_0"⟩) (.loop ⟨["item"], some "expr_5"⟩))
    (.loop ⟨["j"], none⟩)) ?_).trans ?_
  · rfl
  · decide

end Component

end PageCompiler
