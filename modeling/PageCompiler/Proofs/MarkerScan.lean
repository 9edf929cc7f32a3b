import Mathlib.Data.Option.Basic
import PageCompiler.Proofs.Dictionaries
import PageCompiler.Proofs.MarkedText

/-!
# Reading the markers back

The expressions of a page are found again by the words of the marked text that have the form of a marker
(`wordsFrom`) and are the key of an expression (`Marked.found`). The texts of a markup are free to have such words
in them too. A word is found from left to right, so a text changes what is found after it only if one of its words is
completed by the marker that follows; as a marker has its `Z` in third place, such a word ends with the first or
second underscore of the marker (`wordsFrom_append`). So the words that are found are the markers exactly if every
text before a marker is `Clear` and no text has a word that is a key (`found_eq_inserted_iff`).
-/

namespace PageCompiler.Markup

open Text

variable {cs word rest : List Char} {pos : Nat} {w : Nat × List Char}

/-! ## Words with the form of a marker -/

/-- How a marker starts; its number and two underscores follow. -/
def markerLead : List Char :=
  "__ZENITH_EXPR_".toList

theorem toList_marker (n : Nat) : (marker n).toList = markerLead ++ Nat.toDigits 10 n ++ "__".toList := by
  have hdigits : (toString n).toList = Nat.toDigits 10 n := by simp [toString, Nat.repr]
  rw [marker, String.toList_append, String.toList_append, hdigits]
  rfl

theorem exists_of_markerAt? (h : markerAt? cs = some word) :
    ∃ digits rest, word = markerLead ++ digits ++ "__".toList ∧ cs = word ++ rest ∧
      digits ≠ [] ∧ ∀ c ∈ digits, isDecimal c = true := by
  simp only [markerAt?, Option.bind_eq_bind, Option.bind_eq_some_iff, strip?_eq_some_iff, Option.guard_eq_some'] at h
  obtain ⟨rest, rfl, -, hdigits, -, hend, hword⟩ := h
  obtain ⟨after, hafter⟩ := List.isPrefixOf_iff_prefix.mp hend
  obtain rfl := Option.some.inj hword
  refine ⟨rest.takeWhile isDecimal, after, rfl, ?_, by simpa using hdigits, List.all_eq_true.mp List.all_takeWhile⟩
  rw [List.append_assoc, List.append_assoc, hafter, List.prefix_iff_eq_append.mp (List.takeWhile_prefix _)]

theorem markerAt?_word {digits : List Char} (hword : word = markerLead ++ digits ++ "__".toList) (hne : digits ≠ [])
    (hdigits : ∀ c ∈ digits, isDecimal c = true) (rest : List Char) : markerAt? (word ++ rest) = some word := by
  subst hword
  have htake : (digits ++ ("__".toList ++ rest)).takeWhile isDecimal = digits := by
    have hend : ("__".toList ++ rest).takeWhile isDecimal = [] := List.takeWhile_cons_of_neg (by decide)
    rw [List.takeWhile_append_of_pos hdigits, hend, List.append_nil]
  have hnext : "__".toList.isPrefixOf ((digits ++ ("__".toList ++ rest)).drop digits.length) = true := by
    rw [List.drop_left, List.isPrefixOf_iff_prefix]
    exact List.prefix_append _ _
  simp only [markerAt?, Option.bind_eq_bind, Option.bind_eq_some_iff, strip?_eq_some_iff, Option.guard_eq_some']
  refine ⟨digits ++ ("__".toList ++ rest), by rw [List.append_assoc, List.append_assoc]; rfl, ?_⟩
  rw [htake]
  exact ⟨(), by simpa using hne, (), hnext, rfl⟩

theorem markerAt?_append (h : markerAt? cs = some word) (after : List Char) : markerAt? (cs ++ after) = some word := by
  obtain ⟨digits, rest, hword, rfl, hne, hdigits⟩ := exists_of_markerAt? h
  rw [List.append_assoc]
  exact markerAt?_word hword hne hdigits _

/-- A word is read in any part of the text that it fits in. -/
theorem markerAt?_of_length_le {after : List Char} (h : markerAt? (cs ++ after) = some word)
    (hle : word.length ≤ cs.length) : markerAt? cs = some word := by
  obtain ⟨digits, rest, hword, htext, hne, hdigits⟩ := exists_of_markerAt? h
  have hstart : word <+: cs ++ after := ⟨rest, htext.symm⟩
  obtain ⟨rest, rfl⟩ := List.prefix_of_prefix_length_le hstart (List.prefix_append cs after) hle
  exact markerAt?_word hword hne hdigits rest

theorem markerAt?_marker (n : Nat) (after : List Char) :
    markerAt? ((marker n).toList ++ after) = some (marker n).toList := by
  refine markerAt?_word (toList_marker n) Nat.toDigits_ne_nil (fun c hc => ?_) after
  exact isDecimal_of_isDigit (Nat.isDigit_of_mem_toDigits (by decide) (by decide) hc)

theorem ne_nil_of_markerAt? (h : markerAt? cs = some word) : word ≠ [] := by
  obtain ⟨digits, rest, rfl, -⟩ := exists_of_markerAt? h
  simp

/-- A word has no `Z` after its third character, so it reaches at most two characters into a marker after it. -/
theorem length_le_of_markerAt? {after : List Char} (hcs : cs ≠ [])
    (h : markerAt? (cs ++ ("__Z".toList ++ after)) = some word) : word.length ≤ cs.length + 2 := by
  obtain ⟨digits, rest, hword, htext, -, hdigits⟩ := exists_of_markerAt? h
  have hlater : 'Z' ∉ word.drop 3 := by
    have hdrop : word.drop 3 = "ENITH_EXPR_".toList ++ digits ++ "__".toList := by rw [hword]; rfl
    rw [hdrop, List.mem_append, List.mem_append, not_or, not_or]
    refine ⟨⟨by decide, fun hmem => ?_⟩, by decide⟩
    exact absurd (hdigits _ hmem) (by decide)
  have hstart : word <+: cs ++ "__Z".toList ++ after := ⟨rest, by rw [List.append_assoc, htext]⟩
  apply Nat.le_of_not_lt
  intro hlong
  obtain ⟨tail, rfl⟩ := List.prefix_of_prefix_length_le (List.prefix_append _ _) hstart
    (by rw [List.length_append]; exact hlong)
  have hpos := List.length_pos_iff.mpr hcs
  have hsplit : cs ++ "__Z".toList ++ tail = cs ++ "__".toList ++ 'Z' :: tail := by
    rw [List.append_assoc, List.append_assoc]
    rfl
  have hlength : 3 ≤ (cs ++ "__".toList).length := by
    rw [List.length_append]
    show 3 ≤ cs.length + 2
    omega
  rw [hsplit, List.drop_append_of_le_length hlength] at hlater
  simp at hlater

/-! ## Scanning -/

/-- The words among the stretches of a text at offset `pos`, with their offsets. -/
def wordsIn (pos : Nat) : List Stretch → List (Nat × List Char)
  | [] => []
  | .text chars :: rest => wordsIn (pos + byteLength chars) rest
  | .marker chars :: rest => (pos, chars) :: wordsIn (pos + byteLength chars) rest

/-- The words that are found in a text at offset `pos`. -/
def wordsFrom (pos : Nat) (cs : List Char) : List (Nat × List Char) :=
  wordsIn pos (stretchesFrom 0 cs)

theorem stretchesFrom_eq (skip : Nat) (cs : List Char) : stretchesFrom skip cs = stretchesFrom 0 (cs.drop skip) := by
  induction cs generalizing skip with
  | nil => rw [List.drop_nil]; rfl
  | cons c cs ih =>
    cases skip with
    | zero => rfl
    | succ skip => exact ih skip

theorem wordsFrom_word (h : markerAt? (word ++ rest) = some word) (pos : Nat) :
    wordsFrom pos (word ++ rest) = (pos, word) :: wordsFrom (pos + byteLength word) rest := by
  cases word with
  | nil => exact absurd rfl (ne_nil_of_markerAt? h)
  | cons c word =>
    have hstretches : stretchesFrom 0 (c :: word ++ rest) =
        .text [] :: .marker (c :: word) :: stretchesFrom 0 rest := by
      rw [List.cons_append] at h ⊢
      rw [stretchesFrom]
      simp only [h]
      rw [stretchesFrom_eq, List.length_cons, Nat.add_sub_cancel, List.drop_left]
    rw [wordsFrom, hstretches]
    rfl

theorem wordsFrom_char {c : Char} (h : markerAt? (c :: cs) = none) (pos : Nat) :
    wordsFrom pos (c :: cs) = wordsFrom (pos + c.utf8Size) cs := by
  rw [wordsFrom, wordsFrom, stretchesFrom]
  simp only [h]
  split
  · rename_i chars rest hrest
    rw [hrest, wordsIn, wordsIn, byteLength_cons, Nat.add_assoc]
  · rfl

/-- A text is scanned word by word and, where no word starts, character by character. -/
@[elab_as_elim]
theorem scan_induction {P : List Char → Prop} (nil : P [])
    (word : ∀ word rest, markerAt? (word ++ rest) = some word → P rest → P (word ++ rest))
    (char : ∀ c rest, markerAt? (c :: rest) = none → P rest → P (c :: rest)) (cs : List Char) : P cs := by
  induction hlength : cs.length using Nat.strongRecOn generalizing cs with
  | ind n ih =>
    cases cs with
    | nil => exact nil
    | cons c cs =>
      cases h : markerAt? (c :: cs) with
      | none => exact char c cs h (ih cs.length (by rw [← hlength]; simp) cs rfl)
      | some found =>
        obtain ⟨digits, rest, -, htext, -⟩ := exists_of_markerAt? h
        have hpos := List.length_pos_iff.mpr (ne_nil_of_markerAt? h)
        rw [htext] at h hlength ⊢
        rw [List.length_append] at hlength
        exact word found rest h (ih rest.length (by omega) rest rfl)

theorem exists_of_mem_wordsFrom (h : w ∈ wordsFrom pos cs) :
    ∃ before after, cs = before ++ w.2 ++ after ∧ w.1 = pos + byteLength before ∧
      markerAt? (w.2 ++ after) = some w.2 := by
  induction cs using scan_induction generalizing pos with
  | nil => cases h
  | word word rest hword ih =>
    rw [wordsFrom_word hword, List.mem_cons] at h
    rcases h with rfl | h
    · exact ⟨[], rest, rfl, rfl, hword⟩
    · obtain ⟨before, after, rfl, hoffset, hw⟩ := ih h
      refine ⟨word ++ before, after, by simp only [List.append_assoc], ?_, hw⟩
      rw [hoffset, byteLength_append, Nat.add_assoc]
  | char c rest hchar ih =>
    rw [wordsFrom_char hchar] at h
    obtain ⟨before, after, rfl, hoffset, hw⟩ := ih h
    refine ⟨c :: before, after, rfl, ?_, hw⟩
    rw [hoffset, byteLength_cons, Nat.add_assoc]

/-- A word that is found ends before the text does, and it is not empty. -/
theorem bounds_of_mem_wordsFrom (h : w ∈ wordsFrom pos cs) :
    pos ≤ w.1 ∧ w.1 + byteLength w.2 ≤ pos + byteLength cs ∧ 0 < byteLength w.2 := by
  obtain ⟨before, after, rfl, hoffset, hword⟩ := exists_of_mem_wordsFrom h
  have hpos := byteLength_pos (ne_nil_of_markerAt? hword)
  rw [byteLength_append, byteLength_append]
  omega

theorem wordsFrom_add (pos k : Nat) (cs : List Char) :
    wordsFrom (pos + k) cs = (wordsFrom pos cs).map fun w => (w.1 + k, w.2) := by
  induction cs using scan_induction generalizing pos with
  | nil => rfl
  | word word rest hword ih =>
    rw [wordsFrom_word hword, wordsFrom_word hword, List.map_cons, ← ih, Nat.add_right_comm]
  | char c rest hchar ih =>
    rw [wordsFrom_char hchar, wordsFrom_char hchar, ← ih, Nat.add_right_comm]

/-! ## Text before a marker -/

/-- No word is completed by the underscores with which a marker after the text starts. -/
def Clear (cs : List Char) : Prop :=
  wordsFrom 0 (cs ++ "__".toList) = wordsFrom 0 cs

theorem clear_iff (pos : Nat) : Clear cs ↔ wordsFrom pos (cs ++ "__".toList) = wordsFrom pos cs := by
  have hmoved : ∀ v w : Nat × List Char, (v.1 + pos, v.2) = (w.1 + pos, w.2) → v = w := by
    intro v w h
    obtain ⟨hoffset, hword⟩ := Prod.mk.inj h
    exact Prod.ext (Nat.add_right_cancel hoffset) hword
  rw [← Nat.zero_add pos, wordsFrom_add, wordsFrom_add, List.map_inj_right hmoved, Clear]

theorem clear_word (h : markerAt? (word ++ rest) = some word) : Clear (word ++ rest) ↔ Clear rest := by
  have hlater := markerAt?_append h "__".toList
  rw [List.append_assoc] at hlater
  rw [clear_iff 0, clear_iff (0 + byteLength word), List.append_assoc, wordsFrom_word h, wordsFrom_word hlater,
    List.cons.injEq]
  simp

theorem clear_char {c : Char} (h : markerAt? (c :: rest ++ "__".toList) = none) : Clear (c :: rest) ↔ Clear rest := by
  have hfirst : markerAt? (c :: rest) = none := by
    cases hword : markerAt? (c :: rest) with
    | none => rfl
    | some word => rw [markerAt?_append hword] at h; cases h
  rw [List.cons_append] at h
  rw [clear_iff 0, clear_iff (0 + c.utf8Size), wordsFrom_char hfirst, List.cons_append, wordsFrom_char h]

theorem byteLength_lt_of_isPrefix (h : cs <+: word) (hlong : cs.length < word.length) :
    byteLength cs < byteLength word := by
  obtain ⟨tail, rfl⟩ := h
  have htail : tail ≠ [] := by
    rintro rfl
    simp at hlong
  have hpos := byteLength_pos htail
  rw [byteLength_append]
  omega

/-- A word that reaches into the underscores makes the text unclear. -/
theorem not_clear (h : markerAt? (cs ++ "__".toList) = some word) (hlong : byteLength cs < byteLength word) :
    ¬ Clear cs := by
  intro hclear
  obtain ⟨digits, rest, -, htext, -⟩ := exists_of_markerAt? h
  have hmem : (0, word) ∈ wordsFrom 0 cs := by
    rw [← hclear, htext, wordsFrom_word (htext ▸ h)]
    exact List.mem_cons_self
  have hfits : 0 + byteLength word ≤ 0 + byteLength cs := (bounds_of_mem_wordsFrom hmem).2.1
  omega

/-- After a clear text a marker is reached; otherwise a word runs into it, and none is found where it starts. -/
theorem wordsFrom_append (cs after : List Char) :
    (Clear cs ∧ ∀ pos, wordsFrom pos (cs ++ ("__Z".toList ++ after)) =
      wordsFrom pos cs ++ wordsFrom (pos + byteLength cs) ("__Z".toList ++ after)) ∨
    (¬ Clear cs ∧ ∀ pos, ∀ w ∈ wordsFrom pos (cs ++ ("__Z".toList ++ after)), w.1 ≠ pos + byteLength cs) := by
  induction cs using scan_induction with
  | nil => exact .inl ⟨rfl, fun _ => rfl⟩
  | word word rest hword ih =>
    have hpos := byteLength_pos (ne_nil_of_markerAt? hword)
    have hlater := markerAt?_append hword ("__Z".toList ++ after)
    rw [List.append_assoc] at hlater
    rw [clear_word hword]
    refine ih.imp (fun h => ⟨h.1, fun pos => ?_⟩) (fun h => ⟨h.1, fun pos w hw => ?_⟩)
    · rw [List.append_assoc, wordsFrom_word hlater, wordsFrom_word hword, h.2, byteLength_append, Nat.add_assoc,
        List.cons_append]
    · rw [List.append_assoc, wordsFrom_word hlater, List.mem_cons] at hw
      rw [byteLength_append, ← Nat.add_assoc]
      rcases hw with rfl | hw
      · show pos ≠ _
        omega
      · exact h.2 _ w hw
  | char c rest hchar ih =>
    cases hword : markerAt? (c :: rest ++ ("__Z".toList ++ after)) with
    | none =>
      have hunder : markerAt? (c :: rest ++ "__".toList) = none := by
        cases hfound : markerAt? (c :: rest ++ "__".toList) with
        | none => rfl
        | some word =>
          have hlater := markerAt?_append hfound ('Z' :: after)
          rw [List.append_assoc] at hlater
          exact absurd (hword.symm.trans hlater) (by simp)
      rw [clear_char hunder]
      refine ih.imp (fun h => ⟨h.1, fun pos => ?_⟩) (fun h => ⟨h.1, fun pos w hw => ?_⟩)
      · rw [List.cons_append] at hword ⊢
        rw [wordsFrom_char hword, wordsFrom_char hchar, h.2, byteLength_cons, Nat.add_assoc]
      · rw [List.cons_append] at hword hw
        rw [wordsFrom_char hword] at hw
        rw [byteLength_cons, ← Nat.add_assoc]
        exact h.2 _ w hw
    | some word =>
      have hle := length_le_of_markerAt? (List.cons_ne_nil c rest) hword
      have hlong : (c :: rest).length < word.length := by
        apply Nat.lt_of_not_le
        intro hshort
        rw [markerAt?_of_length_le hword hshort] at hchar
        cases hchar
      obtain ⟨digits, later, -, htext, -⟩ := exists_of_markerAt? hword
      have hunder : markerAt? (c :: rest ++ "__".toList) = some word := by
        have hsplit : c :: rest ++ ("__Z".toList ++ after) = c :: rest ++ "__".toList ++ 'Z' :: after := by
          rw [List.append_assoc]
          rfl
        apply markerAt?_of_length_le (hsplit ▸ hword)
        rw [List.length_append]
        exact hle
      have hover : byteLength (c :: rest) < byteLength word :=
        byteLength_lt_of_isPrefix
          (List.prefix_of_prefix_length_le (List.prefix_append _ _) ⟨later, htext.symm⟩ (Nat.le_of_lt hlong)) hlong
      refine .inr ⟨not_clear hunder hover, fun pos w hw => ?_⟩
      rw [htext] at hword hw
      rw [wordsFrom_word hword, List.mem_cons] at hw
      have hpos := byteLength_pos (List.cons_ne_nil c rest)
      rcases hw with rfl | hw
      · show pos ≠ _
        omega
      · have hbounds := bounds_of_mem_wordsFrom hw
        omega

theorem wordsFrom_append_marker (cs : List Char) (n : Nat) (after : List Char) :
    (Clear cs ∧ ∀ pos, wordsFrom pos (cs ++ ((marker n).toList ++ after)) =
      wordsFrom pos cs ++ (pos + byteLength cs, (marker n).toList) ::
        wordsFrom (pos + byteLength cs + byteLength (marker n).toList) after) ∨
    (¬ Clear cs ∧ ∀ pos, ∀ w ∈ wordsFrom pos (cs ++ ((marker n).toList ++ after)), w.1 ≠ pos + byteLength cs) := by
  obtain ⟨tail, htail⟩ : ∃ tail, (marker n).toList ++ after = "__Z".toList ++ tail := by
    rw [toList_marker]
    exact ⟨"ENITH_EXPR_".toList ++ Nat.toDigits 10 n ++ "__".toList ++ after, rfl⟩
  have hcases := wordsFrom_append cs tail
  rw [← htail] at hcases
  refine hcases.imp_left fun h => ⟨h.1, fun pos => ?_⟩
  rw [h.2, wordsFrom_word (markerAt?_marker n after)]

/-! ## Splits -/

/-- The markers of codes and the places where they are put, from offset `pos` on. -/
def placedFrom (count pos : Nat) : List (List Char × List Char) → List (Nat × List Char)
  | [] => []
  | part :: later =>
    let rest := placedFrom (count + keptIn [part]) (pos + byteLength (standIn count part.1 ++ part.2)) later
    if isKept part.1 then (pos, (marker count).toList) :: rest else rest

/-- The texts before, between and after the markers; `chunk` comes before the codes. -/
def literalsFrom (chunk : List Char) : List (List Char × List Char) → List (List Char)
  | [] => [chunk]
  | part :: later =>
    if isKept part.1 then chunk :: literalsFrom part.2 later else literalsFrom (chunk ++ part.2) later

section
variable {part : List Char × List Char} (count pos : Nat) (chunk : List Char) (later : List (List Char × List Char))

theorem placedFrom_kept (h : isKept part.1 = true) : placedFrom count pos (part :: later) =
    (pos, (marker count).toList) ::
      placedFrom (count + 1) (pos + byteLength (marker count).toList + byteLength part.2) later := by
  simp only [placedFrom, if_pos h, standIn, keptIn, List.countP_singleton, byteLength_append, Nat.add_assoc]

theorem placedFrom_dropped (h : ¬ isKept part.1 = true) :
    placedFrom count pos (part :: later) = placedFrom count (pos + byteLength part.2) later := by
  simp only [placedFrom, if_neg h, standIn, keptIn, List.countP_singleton, List.nil_append, Nat.add_zero]

theorem withMarkers_kept (h : isKept part.1 = true) : withMarkers count (part :: later) =
    (marker count).toList ++ (part.2 ++ withMarkers (count + 1) later) := by
  simp only [withMarkers, if_pos h, standIn, keptIn, List.countP_singleton, List.append_assoc]

theorem withMarkers_dropped (h : ¬ isKept part.1 = true) :
    withMarkers count (part :: later) = part.2 ++ withMarkers count later := by
  simp only [withMarkers, if_neg h, standIn, keptIn, List.countP_singleton, List.nil_append, Nat.add_zero]

theorem dropLast_literalsFrom (h : isKept part.1 = true) :
    (literalsFrom chunk (part :: later)).dropLast = chunk :: (literalsFrom part.2 later).dropLast := by
  have hne : ∀ chunk, literalsFrom chunk later ≠ [] := by
    induction later with
    | nil => exact fun _ => List.cons_ne_nil _ _
    | cons next later ih =>
      intro chunk
      rw [literalsFrom]
      split
      · exact List.cons_ne_nil _ _
      · exact ih _
  rw [literalsFrom, if_pos h, List.dropLast_cons_of_ne_nil (hne _)]

end

variable {later : List (List Char × List Char)}

theorem le_of_mem_placedFrom {count : Nat} (h : w ∈ placedFrom count pos later) : pos ≤ w.1 := by
  induction later generalizing count pos with
  | nil => cases h
  | cons part later ih =>
    by_cases hkept : isKept part.1 = true
    · rw [placedFrom_kept _ _ _ hkept, List.mem_cons] at h
      rcases h with rfl | h
      · exact Nat.le_refl _
      · have hle := ih h
        omega
    · rw [placedFrom_dropped _ _ _ hkept] at h
      have hle := ih h
      omega

theorem filter_wordsFrom_eq_nil_iff {counts : List Char → Bool} (pos : Nat) :
    (wordsFrom pos cs).filter (fun w => counts w.2) = [] ↔ ∀ w ∈ wordsFrom 0 cs, counts w.2 = false := by
  rw [← Nat.zero_add pos, wordsFrom_add, List.filter_map, List.map_eq_nil_iff, List.filter_eq_nil_iff]
  simp

theorem append_cons_eq_cons_iff {α : Type} {x : α} {xs ys zs : List α} (h : x ∉ xs) :
    xs ++ x :: ys = x :: zs ↔ xs = [] ∧ ys = zs := by
  cases xs with
  | nil => simp
  | cons y xs =>
    refine iff_of_false (fun heq => h ?_) (by simp)
    obtain ⟨rfl, -⟩ := List.cons.inj heq
    exact List.mem_cons_self

/-- Between clear texts, the words that count are the markers exactly if no word of the texts counts. -/
theorem filter_wordsFrom_iff (counts : List Char → Bool) {count : Nat} {chunk : List Char}
    (hplaced : ∀ w ∈ placedFrom count (pos + byteLength chunk) later, counts w.2 = true)
    (hclear : ∀ cs ∈ (literalsFrom chunk later).dropLast, Clear cs) :
    (wordsFrom pos (chunk ++ withMarkers count later)).filter (fun w => counts w.2) =
      placedFrom count (pos + byteLength chunk) later ↔
      ∀ cs ∈ literalsFrom chunk later, ∀ w ∈ wordsFrom 0 cs, counts w.2 = false := by
  induction later generalizing count pos chunk with
  | nil =>
    rw [withMarkers, List.append_nil, placedFrom, filter_wordsFrom_eq_nil_iff, literalsFrom,
      List.forall_mem_singleton]
  | cons part later ih =>
    by_cases hkept : isKept part.1 = true
    · rw [placedFrom_kept _ _ _ hkept] at hplaced ⊢
      obtain ⟨hmarker, hplaced⟩ := List.forall_mem_cons.mp hplaced
      rw [dropLast_literalsFrom _ _ hkept] at hclear
      obtain ⟨hchunk, hclear⟩ := List.forall_mem_cons.mp hclear
      have hcases := wordsFrom_append_marker chunk count (part.2 ++ withMarkers (count + 1) later)
      obtain ⟨-, hwords⟩ := hcases.resolve_right fun hover => hover.1 hchunk
      -- A word of the text before the marker starts before it, so it is not the marker.
      have hbefore : (pos + byteLength chunk, (marker count).toList) ∉
          (wordsFrom pos chunk).filter fun w => counts w.2 := by
        intro hmem
        obtain ⟨-, hfits, hpos⟩ := bounds_of_mem_wordsFrom (List.mem_filter.mp hmem).1
        dsimp only at hfits hpos
        omega
      rw [withMarkers_kept _ _ hkept, hwords, List.filter_append, List.filter_cons, if_pos hmarker,
        append_cons_eq_cons_iff hbefore, filter_wordsFrom_eq_nil_iff, ih hplaced hclear, literalsFrom,
        if_pos hkept, List.forall_mem_cons]
    · rw [placedFrom_dropped _ _ _ hkept, Nat.add_assoc, ← byteLength_append] at hplaced ⊢
      rw [literalsFrom, if_neg hkept] at hclear ⊢
      rw [withMarkers_dropped _ _ hkept, ← List.append_assoc]
      exact ih hplaced hclear

theorem exists_notMem_wordsFrom {count : Nat} {chunk : List Char}
    (h : ¬ ∀ cs ∈ (literalsFrom chunk later).dropLast, Clear cs) :
    ∃ w ∈ placedFrom count (pos + byteLength chunk) later, w ∉ wordsFrom pos (chunk ++ withMarkers count later) := by
  induction later generalizing count pos chunk with
  | nil => exact absurd (List.forall_mem_nil _) h
  | cons part later ih =>
    by_cases hkept : isKept part.1 = true
    · rw [dropLast_literalsFrom _ _ hkept, List.forall_mem_cons] at h
      rw [placedFrom_kept _ _ _ hkept, withMarkers_kept _ _ hkept]
      rcases wordsFrom_append_marker chunk count (part.2 ++ withMarkers (count + 1) later) with hclear | hover
      · obtain ⟨w, hw, hlost⟩ := ih fun hlater => h ⟨hclear.1, hlater⟩
        refine ⟨w, List.mem_cons_of_mem _ hw, ?_⟩
        have hle := le_of_mem_placedFrom hw
        have hpos := byteLength_marker_pos count
        rw [hclear.2, List.mem_append, List.mem_cons, not_or, not_or]
        refine ⟨fun hmem => ?_, ?_, hlost⟩
        · have hbounds := bounds_of_mem_wordsFrom hmem
          omega
        · rintro rfl
          dsimp only at hle
          omega
      · exact ⟨_, List.mem_cons_self, fun hmem => hover.2 pos _ hmem rfl⟩
    · rw [literalsFrom, if_neg hkept] at h
      rw [placedFrom_dropped _ _ _ hkept, withMarkers_dropped _ _ hkept, ← List.append_assoc, Nat.add_assoc,
        ← byteLength_append]
      exact ih h

/-- The markers that are put into a marked text, with their offsets. -/
def Split.inserted (s : Split) : List (Nat × List Char) :=
  placedFrom 0 (byteLength s.first) s.later

/-- The texts before, between and after the markers of a marked text. -/
def Split.literals (s : Split) : List (List Char) :=
  literalsFrom s.first s.later

/-- The words of a marked text that stand for an expression, with their offsets. -/
def Marked.found (m : Marked) : List (Nat × List Char) :=
  (wordsFrom 0 m.text).filter fun w => m.holes.hasKey (String.ofList w.2)

theorem keys_mark (count pos source here : Nat) (ps : List Piece) :
    (mark count pos source ps).holes.keys =
      (placedFrom count here (Split.ofPieces ps).later).map fun w => String.ofList w.2 := by
  induction ps generalizing count pos source here with
  | nil => rfl
  | cons p ps ih =>
    cases p with
    | text chars => exact ih _ _ _ _
    | hole code =>
      by_cases hkept : isKept code = true
      · rw [mark_kept hkept, Split.ofPieces, placedFrom_kept _ _ _ hkept, List.map_cons, String.ofList_toList,
          ← ih]
        rfl
      · rw [mark_dropped hkept, Split.ofPieces, placedFrom_dropped _ _ _ hkept, ← ih]

theorem exists_split_of_marked {file : Source.File} {markup : List Char} {m : Marked} (h : marked file markup = .ok m) :
    ∃ s : Split, s.Proper ∧ s.markup = markup ∧ s.text = m.text ∧
      m.holes.keys = s.inserted.map fun w => String.ofList w.2 := by
  obtain ⟨ps, hps, h⟩ := Compiled.bind_eq_ok.mp h
  obtain ⟨hmarkup, hproper⟩ := cuts_of_pieces file 0 markup ps hps
  obtain rfl := Except.ok.inj h
  exact ⟨Split.ofPieces ps, hproper, hmarkup, (text_mark _ _ _ _).symm, keys_mark _ _ _ _ _⟩

/-- A word ends with two underscores, so that all but these is in the text before the last two characters. -/
theorem markerLead_infix_of_mem_wordsFrom {tail : List Char} (htail : tail.length ≤ 2)
    (h : w ∈ wordsFrom pos (cs ++ tail)) : markerLead <:+: cs := by
  obtain ⟨before, after, htext, -, hword⟩ := exists_of_mem_wordsFrom h
  obtain ⟨digits, -, hlead, -⟩ := exists_of_markerAt? hword
  have hsplit : cs ++ tail = before ++ markerLead ++ digits ++ ("__".toList ++ after) := by
    rw [htext, hlead]
    simp only [List.append_assoc]
  have hle : (before ++ markerLead ++ digits).length ≤ cs.length := by
    have hlength := congrArg List.length hsplit
    have hunder : "__".toList.length = 2 := rfl
    simp only [List.length_append, hunder] at hlength ⊢
    omega
  obtain ⟨rest, rfl⟩ := List.prefix_of_prefix_length_le ⟨_, hsplit.symm⟩ (List.prefix_append cs tail) hle
  exact ⟨before, digits ++ rest, by simp only [List.append_assoc]⟩

theorem wordsFrom_eq_nil (h : ¬ markerLead <:+: cs) : wordsFrom 0 cs = [] ∧ Clear cs := by
  have hnone : ∀ tail : List Char, tail.length ≤ 2 → wordsFrom 0 (cs ++ tail) = [] := by
    intro tail htail
    rw [List.eq_nil_iff_forall_not_mem]
    exact fun w hw => h (markerLead_infix_of_mem_wordsFrom htail hw)
  have hplain := hnone [] (Nat.zero_le _)
  rw [List.append_nil] at hplain
  refine ⟨hplain, ?_⟩
  rw [Clear, hplain]
  exact hnone "__".toList (Nat.le_refl _)

/-- The words of a marked text that stand for an expression are the markers that were put into it, each where it was
put, exactly if the texts around the markers have no such word and none that is completed by a marker. This holds
wherever no text has the start of a marker in it. -/
theorem found_eq_inserted_iff {file : Source.File} {markup : List Char} {m : Marked} (h : marked file markup = .ok m) :
    ∃ s : Split, s.Proper ∧ s.markup = markup ∧ s.text = m.text ∧
      m.holes.keys = s.inserted.map (fun w => String.ofList w.2) ∧
      (m.found = s.inserted ↔ (∀ cs ∈ s.literals.dropLast, Clear cs) ∧
        ∀ cs ∈ s.literals, ∀ w ∈ wordsFrom 0 cs, m.holes.hasKey (String.ofList w.2) = false) ∧
      ((∀ cs ∈ s.literals, ¬ markerLead <:+: cs) → m.found = s.inserted) := by
  obtain ⟨s, hproper, hmarkup, htext, hkeys⟩ := exists_split_of_marked h
  have hplaced : ∀ w ∈ placedFrom 0 (0 + byteLength s.first) s.later, m.holes.hasKey (String.ofList w.2) = true := by
    intro w hw
    rw [Nat.zero_add] at hw
    rw [Ordered.hasKey_iff, hkeys]
    exact List.mem_map_of_mem hw
  have hiff : m.found = s.inserted ↔ (∀ cs ∈ s.literals.dropLast, Clear cs) ∧
      ∀ cs ∈ s.literals, ∀ w ∈ wordsFrom 0 cs, m.holes.hasKey (String.ofList w.2) = false := by
    rw [Marked.found, ← htext, Split.text, Split.inserted, Split.literals, ← Nat.zero_add (byteLength s.first)]
    have hcount := filter_wordsFrom_iff (fun word => m.holes.hasKey (String.ofList word)) hplaced
    constructor
    · intro hfound
      -- A text that is not clear would hide a marker.
      have hclear : ∀ cs ∈ (literalsFrom s.first s.later).dropLast, Clear cs := by
        apply Classical.not_not.mp
        intro hnot
        obtain ⟨w, hw, hlost⟩ := @exists_notMem_wordsFrom 0 s.later 0 s.first hnot
        rw [← hfound] at hw
        exact hlost (List.mem_filter.mp hw).1
      exact ⟨hclear, (hcount hclear).mp hfound⟩
    · rintro ⟨hclear, hnone⟩
      exact (hcount hclear).mpr hnone
  refine ⟨s, hproper, hmarkup, htext, hkeys, hiff, fun hlead => hiff.mpr ⟨fun cs hcs => ?_, fun cs hcs w hw => ?_⟩⟩
  · exact (wordsFrom_eq_nil (hlead cs (List.dropLast_subset _ hcs))).2
  · rw [(wordsFrom_eq_nil (hlead cs hcs)).1] at hw
    cases hw

/-- Between two codes stands a word that is no marker of the text, and a blank code joins the texts around it. -/
theorem found_eq_inserted_iff_number :
    let markup := "\x7ba\x7d__ZENITH_EXPR_7_\x7b\x7d_\x7bb\x7d".toList
    ∃ m, marked (.ofText "page.zen" markup) markup = .ok m ∧
      m.found = [(0, (marker 0).toList), (34, (marker 1).toList)] ∧
      ∃ s : Split, s.markup = markup ∧ (m.found = s.inserted ↔ (∀ cs ∈ s.literals.dropLast, Clear cs) ∧
        ∀ cs ∈ s.literals, ∀ w ∈ wordsFrom 0 cs, m.holes.hasKey (String.ofList w.2) = false) := by
  intro markup
  obtain ⟨m, hm, hfacts⟩ := exists_eq_ok_of_any
    (show (marked (.ofText "page.zen" markup) markup).toOption.any (fun m => decide
      (m.found = [(0, (marker 0).toList), (34, (marker 1).toList)])) = true by decide +kernel)
  obtain ⟨s, -, hmarkup, -, -, hiff, -⟩ := found_eq_inserted_iff hm
  exact ⟨m, hm, of_decide_eq_true hfacts, s, hmarkup, hiff⟩

/-- Where not as many words are found as there are expressions, the words are not the markers. -/
theorem exists_found_ne {source : String} {codes : List String}
    (hfound : (marked (.ofString "page.zen" source) source.toList).toOption.any
      (fun m => decide (m.found.length ≠ m.holes.length)) = true)
    (hpage : (Page.read source "page.zen").toOption.any (fun p => decide (p.expressions.map (·.code) = codes)) = true) :
    ∃ m p, marked (.ofString "page.zen" source) source.toList = .ok m ∧
      (∃ s : Split, s.Proper ∧ s.markup = source.toList ∧ s.text = m.text ∧ m.found ≠ s.inserted) ∧
      Page.read source "page.zen" = .ok p ∧ p.expressions.map (·.code) = codes := by
  obtain ⟨m, hm, hlength⟩ := exists_eq_ok_of_any hfound
  obtain ⟨p, hp, hcodes⟩ := exists_eq_ok_of_any hpage
  obtain ⟨s, hproper, hmarkup, htext, hkeys⟩ := exists_split_of_marked hm
  refine ⟨m, p, hm, ⟨s, hproper, hmarkup, htext, fun heq => of_decide_eq_true hlength ?_⟩, hp, of_decide_eq_true hcodes⟩
  have hcount := congrArg List.length hkeys
  rw [Ordered.keys, List.length_map, List.length_map] at hcount
  rw [heq, hcount]

/-- A word in the text is taken for the marker of the code after it, and a word that the marker completes takes the
marker away: the one expression of the page is there twice, and not at all. -/
theorem found_ne_inserted :
    let taken := "__ZENITH_EXPR_0__\x7ba\x7d"
    let hidden := "__ZENITH_EXPR_1\x7ba\x7d"
    (∃ m p, marked (.ofString "page.zen" taken) taken.toList = .ok m ∧
      (∃ s : Split, s.Proper ∧ s.markup = taken.toList ∧ s.text = m.text ∧ m.found ≠ s.inserted) ∧
      Page.read taken "page.zen" = .ok p ∧ p.expressions.map (·.code) = ["a", "a"]) ∧
    ∃ m p, marked (.ofString "page.zen" hidden) hidden.toList = .ok m ∧
      (∃ s : Split, s.Proper ∧ s.markup = hidden.toList ∧ s.text = m.text ∧ m.found ≠ s.inserted) ∧
      Page.read hidden "page.zen" = .ok p ∧ p.expressions.map (·.code) = [] := by
  refine ⟨exists_found_ne ?_ ?_, exists_found_ne ?_ ?_⟩ <;> decide +kernel

end PageCompiler.Markup
