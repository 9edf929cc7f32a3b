import Mathlib.Data.List.Nodup
import PageCompiler.Emit.Bundle

/-!
# Registration records

The names of a page are split into records: one for the page, and one for each instance that owns any of them. A state
is in the record of its owner and in no other (`Emit.filter_records_states`), and so is a handler
(`Emit.filter_records_handlers`).
-/

namespace PageCompiler

/-! ## Lists in which items are added once -/

section

variable {α : Type} [BEq α] [LawfulBEq α] {items start : List α} {item x : α}

theorem mem_pushNew : x ∈ pushNew items item ↔ x ∈ items ∨ x = item := by
  rw [pushNew]
  split
  · rename_i hmem
    rw [List.contains_iff_mem] at hmem
    constructor
    · exact .inl
    · rintro (h | rfl)
      · exact h
      · exact hmem
  · rw [List.mem_append, List.mem_singleton]

theorem nodup_pushNew (h : items.Nodup) : (pushNew items item).Nodup := by
  rw [pushNew]
  split
  · exact h
  · rename_i hout
    rw [List.contains_iff_mem] at hout
    rw [← List.concat_eq_append]
    exact h.concat hout

theorem mem_foldl_pushNew : x ∈ items.foldl pushNew start ↔ x ∈ start ∨ x ∈ items := by
  induction items generalizing start with
  | nil => simp
  | cons item items ih => rw [List.foldl_cons, ih, mem_pushNew, List.mem_cons, or_assoc]

theorem nodup_foldl_pushNew (h : start.Nodup) : (items.foldl pushNew start).Nodup := by
  induction items generalizing start with
  | nil => exact h
  | cons item items ih => exact ih (nodup_pushNew h)

end

section

variable {α κ : Type} [BEq κ] (key : α → κ) (items start : List α)

/-- Taking the first item of each key and then the keys is taking each key once. -/
theorem map_firsts [LawfulBEq κ] :
    (items.foldl (fun firsts x => if firsts.any (key · == key x) then firsts else firsts ++ [x]) start).map key =
      (items.map key).foldl pushNew (start.map key) := by
  induction items generalizing start with
  | nil => rfl
  | cons item items ih =>
    rw [List.foldl_cons, ih, List.map_cons, List.foldl_cons, pushNew]
    have hknown : (start.map key).contains (key item) = start.any (key · == key item) := by
      rw [Bool.eq_iff_iff, List.contains_iff_mem, List.any_eq_true]
      simp
    rw [hknown]
    split
    · rfl
    · rw [List.map_append, List.map_singleton]

theorem mem_of_mem_firsts {x : α}
    (h : x ∈ items.foldl (fun firsts x => if firsts.any (key · == key x) then firsts else firsts ++ [x]) start) :
    x ∈ start ∨ x ∈ items := by
  induction items generalizing start with
  | nil => exact .inl h
  | cons item items ih =>
    rw [List.foldl_cons] at h
    rcases ih _ h with hfirst | hlater
    · split at hfirst
      · exact .inl hfirst
      · rcases List.mem_append.mp hfirst with hold | hnew
        · exact .inl hold
        · exact .inr (List.mem_singleton.mp hnew ▸ List.mem_cons_self)
    · exact .inr (List.mem_cons_of_mem _ hlater)

end

/-! ## Owners and their records -/

namespace Emit

variable {names states handlers : List String} {x : String}

theorem mem_owners {n : Nat} : n ∈ owners names ↔ ∃ x ∈ names, owner? x = some n := by
  rw [owners, mem_sortBy, mem_foldl_pushNew, List.mem_filterMap]
  simp

theorem nodup_owners : (owners names).Nodup :=
  (sortBy_perm _).nodup_iff.mpr (nodup_foldl_pushNew .nil)

theorem nodup_recordOwners : (none :: (owners names).map some).Nodup := by
  refine List.nodup_cons.mpr ⟨?_, nodup_owners.map fun _ _ => Option.some.inj⟩
  simp

theorem mem_recordOwners (h : x ∈ names) : owner? x ∈ none :: (owners names).map some := by
  cases howner : owner? x with
  | none => exact List.mem_cons_self
  | some n =>
    refine List.mem_cons_of_mem _ (List.mem_map_of_mem ?_)
    exact mem_owners.mpr ⟨x, h, howner⟩

theorem contains_ownedBy (h : x ∈ names) (owner : Option Nat) :
    (ownedBy owner names).contains x = (owner == owner? x) := by
  rw [Bool.eq_iff_iff, List.contains_iff_mem, ownedBy, List.mem_filter, beq_iff_eq, beq_iff_eq]
  exact ⟨fun hx => hx.2.symm, fun howner => ⟨h, howner.symm⟩⟩

/-- If a record holds a name exactly if it is its owner's, then one record holds it. -/
theorem filter_records (test : Record → Bool) (hx : x ∈ states ++ handlers)
    (htest : ∀ owner, test (recordOf states handlers owner) = (owner == owner? x)) :
    (records states handlers).filter (test ·.2) =
      [(ownerId (owner? x), recordOf states handlers (owner? x))] := by
  have hone : (none :: (owners (states ++ handlers)).map some).filter (· == owner? x) = [owner? x] := by
    rw [List.filter_beq, List.count_eq_one_of_mem nodup_recordOwners (mem_recordOwners hx)]
    rfl
  rw [records, List.filter_map]
  have hcomp : ((test ·.2) ∘ fun owner => (ownerId owner, recordOf states handlers owner)) = (· == owner? x) :=
    funext htest
  rw [hcomp, hone, List.map_singleton]

theorem filter_records_states (h : x ∈ states) :
    (records states handlers).filter (·.2.states.contains x) =
      [(ownerId (owner? x), recordOf states handlers (owner? x))] :=
  filter_records (·.states.contains x) (List.mem_append_left _ h) (contains_ownedBy h)

theorem filter_records_handlers (h : x ∈ handlers) :
    (records states handlers).filter (·.2.handlers.contains x) =
      [(ownerId (owner? x), recordOf states handlers (owner? x))] :=
  filter_records (·.handlers.contains x) (List.mem_append_right _ h) (contains_ownedBy h)

end Emit

end PageCompiler
