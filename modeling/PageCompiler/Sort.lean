/-!
# Sorting

A stable sort by insertion. It takes few comparisons for items that are nearly in order, as found items are.
-/

namespace PageCompiler

variable {α : Type}

/-- Puts an item before the first of the sorted items that it may precede. -/
def insertBy (le : α → α → Bool) (item : α) : List α → List α
  | [] => [item]
  | first :: rest => if le item first then item :: first :: rest else first :: insertBy le item rest

/-- The items in order; items of the same rank keep theirs. -/
def sortBy (le : α → α → Bool) (items : List α) : List α :=
  items.foldr (insertBy le) []

theorem insertBy_perm {le : α → α → Bool} (item : α) (items : List α) :
    (insertBy le item items).Perm (item :: items) := by
  induction items with
  | nil => exact .refl _
  | cons first rest ih =>
    rw [insertBy]
    split
    · exact .refl _
    · exact (ih.cons first).trans (.swap item first rest)

theorem sortBy_perm {le : α → α → Bool} (items : List α) : (sortBy le items).Perm items := by
  induction items with
  | nil => exact .refl _
  | cons item items ih => exact (insertBy_perm item _).trans (ih.cons item)

@[simp] theorem mem_insertBy {le : α → α → Bool} {x item : α} {items : List α} :
    x ∈ insertBy le item items ↔ x = item ∨ x ∈ items :=
  (insertBy_perm item items).mem_iff.trans List.mem_cons

@[simp] theorem mem_sortBy {le : α → α → Bool} {x : α} {items : List α} : x ∈ sortBy le items ↔ x ∈ items :=
  (sortBy_perm items).mem_iff

section

variable {le : α → α → Bool} (htrans : ∀ a b c, le a b = true → le b c = true → le a c = true)
  (htotal : ∀ a b, le a b = true ∨ le b a = true)

include htrans htotal

theorem pairwise_insertBy (a : α) {items : List α} (hsorted : items.Pairwise (le · · = true)) :
    (insertBy le a items).Pairwise (le · · = true) := by
  induction items with
  | nil => exact List.pairwise_singleton _ a
  | cons b items ih =>
    rw [insertBy]
    obtain ⟨hfirst, hrest⟩ := List.pairwise_cons.mp hsorted
    split
    case isTrue hab =>
      refine List.pairwise_cons.mpr ⟨fun c hc => ?_, hsorted⟩
      rcases List.mem_cons.mp hc with rfl | hc
      · exact hab
      · exact htrans a b c hab (hfirst c hc)
    case isFalse hab =>
      refine List.pairwise_cons.mpr ⟨fun c hc => ?_, ih hrest⟩
      rcases mem_insertBy.mp hc with rfl | hc
      · exact (htotal b c).resolve_right hab
      · exact hfirst c hc

theorem pairwise_sortBy (items : List α) : (sortBy le items).Pairwise (le · · = true) := by
  induction items with
  | nil => exact .nil
  | cons a items ih => exact pairwise_insertBy htrans htotal a ih

end

end PageCompiler
