/-!
# Searching and splitting texts
-/

namespace PageCompiler.Text

variable {needle cs before : List Char}

/-- What is before the first occurrence of `needle`, and what is after it. -/
def breakOn? (needle : List Char) : List Char → Option (List Char × List Char)
  | [] => if needle.isEmpty then some ([], []) else none
  | c :: cs =>
    if needle.isPrefixOf (c :: cs) then some ([], (c :: cs).drop needle.length)
    else (breakOn? needle cs).map fun (before, after) => (c :: before, after)

def contains (needle cs : List Char) : Bool :=
  (breakOn? needle cs).isSome

def strip? (lead cs : List Char) : Option (List Char) :=
  if lead.isPrefixOf cs then some (cs.drop lead.length) else none

def stripEnd? (tail cs : List Char) : Option (List Char) :=
  if tail.isSuffixOf cs then some (cs.take (cs.length - tail.length)) else none

/-- The pieces of the text between the occurrences of `sep`; there is always at least one. -/
def pieces (sep : Char) : List Char → List (List Char)
  | [] => [[]]
  | c :: cs =>
    if c = sep then [] :: pieces sep cs
    else match pieces sep cs with
      | [] => [[c]]
      | p :: ps => (c :: p) :: ps

theorem append_of_breakOn? {after : List Char}
    (h : breakOn? needle cs = some (before, after)) : cs = before ++ needle ++ after := by
  induction cs generalizing before after with
  | nil => simp_all [breakOn?]
  | cons c cs ih =>
    rw [breakOn?] at h
    split at h
    · rename_i hp
      simp only [Option.some.injEq, Prod.mk.injEq] at h
      obtain ⟨rfl, rfl⟩ := h
      obtain ⟨t, ht⟩ := List.isPrefixOf_iff_prefix.mp hp
      simp [← ht]
    · cases hb : breakOn? needle cs with
      | none => simp [hb] at h
      | some p =>
        simp only [hb, Option.map_some, Option.some.injEq, Prod.mk.injEq] at h
        obtain ⟨rfl, rfl⟩ := h
        simp [ih hb]

/-- The needle is not there earlier: what is before it, with all of the needle but its end, has none. -/
theorem not_infix_of_breakOn? {after : List Char} (hneedle : needle ≠ [])
    (h : breakOn? needle cs = some (before, after)) : ¬ needle <:+: before ++ needle.dropLast := by
  induction cs generalizing before after with
  | nil => simp_all [breakOn?]
  | cons c cs ih =>
    rw [breakOn?] at h
    split at h
    · simp only [Option.some.injEq, Prod.mk.injEq] at h
      obtain ⟨rfl, -⟩ := h
      intro hinfix
      have hle := hinfix.length_le
      have hpos := List.length_pos_iff.mpr hneedle
      rw [List.nil_append, List.length_dropLast] at hle
      omega
    · rename_i hstart
      cases hb : breakOn? needle cs with
      | none => simp [hb] at h
      | some p =>
        simp only [hb, Option.map_some, Option.some.injEq, Prod.mk.injEq] at h
        obtain ⟨rfl, rfl⟩ := h
        rw [List.cons_append, List.infix_cons_iff, not_or]
        refine ⟨fun hlead => hstart ?_, ih hb⟩
        have hsame : p.1 ++ needle.dropLast <+: p.1 ++ needle ++ p.2 :=
          ((List.prefix_append_right_inj _).mpr needle.dropLast_prefix).trans (List.prefix_append _ _)
        rw [List.isPrefixOf_iff_prefix, append_of_breakOn? hb]
        exact hlead.trans (List.cons_prefix_cons.mpr ⟨rfl, hsame⟩)

theorem breakOn?_append (hneedle : needle ≠ []) (h : ¬ needle <:+: before ++ needle.dropLast) (after : List Char) :
    breakOn? needle (before ++ needle ++ after) = some (before, after) := by
  induction before with
  | nil =>
    obtain ⟨c, cs, rfl⟩ := List.exists_cons_of_ne_nil hneedle
    have hlead : (c :: cs).isPrefixOf (c :: (cs ++ after)) = true := by
      rw [List.isPrefixOf_iff_prefix]
      exact List.prefix_append (c :: cs) after
    rw [List.nil_append, List.cons_append, breakOn?, if_pos hlead]
    simp
  | cons b before ih =>
    rw [List.cons_append, List.infix_cons_iff, not_or] at h
    have hstart : ¬ needle.isPrefixOf (b :: (before ++ needle ++ after)) = true := by
      rw [List.isPrefixOf_iff_prefix]
      intro hlead
      have hlast : b :: (before ++ needle.dropLast) <+: b :: (before ++ needle ++ after) :=
        List.cons_prefix_cons.mpr ⟨rfl,
          ((List.prefix_append_right_inj _).mpr needle.dropLast_prefix).trans (List.prefix_append _ _)⟩
      refine h.1 (List.prefix_of_prefix_length_le hlead hlast ?_)
      simp only [List.length_cons, List.length_append, List.length_dropLast]
      omega
    rw [List.cons_append, List.cons_append, breakOn?, if_neg hstart, ih h.2]
    rfl

theorem not_infix_of_breakOn?_eq_none (hneedle : needle ≠ []) (h : breakOn? needle cs = none) : ¬ needle <:+: cs := by
  induction cs with
  | nil => simpa using hneedle
  | cons c cs ih =>
    rw [breakOn?] at h
    split at h
    · cases h
    · rename_i hstart
      rw [List.infix_cons_iff, not_or, ← List.isPrefixOf_iff_prefix]
      exact ⟨hstart, ih (Option.map_eq_none_iff.mp h)⟩

theorem breakOn?_eq_none (h : ¬ needle <:+: cs) : breakOn? needle cs = none := by
  cases hfound : breakOn? needle cs with
  | none => rfl
  | some found => exact absurd ⟨found.1, found.2, (append_of_breakOn? hfound).symm⟩ h

theorem strip?_eq_some_iff {lead rest : List Char} : strip? lead cs = some rest ↔ cs = lead ++ rest := by
  rw [strip?]
  constructor
  · intro h
    split at h
    · rename_i hlead
      obtain ⟨after, rfl⟩ := List.isPrefixOf_iff_prefix.mp hlead
      rw [List.drop_left, Option.some.injEq] at h
      rw [h]
    · cases h
  · rintro rfl
    simp

theorem strip?_eq_none_iff {lead : List Char} : strip? lead cs = none ↔ ¬ lead <+: cs := by
  rw [strip?, ← List.isPrefixOf_iff_prefix]
  split <;> simp_all

theorem length_le_of_breakOn? {after : List Char}
    (h : breakOn? needle cs = some (before, after)) : after.length ≤ cs.length := by
  rw [append_of_breakOn? h]
  simp
  omega

end PageCompiler.Text

namespace PageCompiler

def stripString? (lead s : String) : Option String :=
  (Text.strip? lead.toList s.toList).map String.ofList

def joinStrings (sep : String) (parts : List String) : String :=
  sep.intercalate parts

end PageCompiler
