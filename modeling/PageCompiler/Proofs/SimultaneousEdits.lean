import Mathlib.Data.List.Nodup
import PageCompiler.Code.Edit

/-!
# Edits as one substitution

Edits are made one after the other, in a text that grows and shrinks meanwhile. As the last range is replaced first, no
range moves before its turn: what is made of a text is the text with all its ranges replaced at once (`splice`), whatever
the order in which the edits are given.
-/

namespace PageCompiler.Code

open Text (byteLength takeBytes dropBytes slice isBoundary)

variable {cs : List Char} {edits ordered : List Edit}

/-- The text from offset `pos` on with all ranges replaced at once. The edits are in the order of the text; what is
between their ranges is kept. -/
def splice (cs : List Char) (pos : Nat) : List Edit → List Char
  | [] => dropBytes pos cs
  | e :: es => slice pos e.span.start cs ++ e.text.toList ++ splice cs e.span.stop es

/-- The range of an edit is one of the text, between characters. -/
structure Edit.Fits (cs : List Char) (e : Edit) : Prop where
  le : e.span.start ≤ e.span.stop
  start : isBoundary e.span.start cs = true
  stop : isBoundary e.span.stop cs = true

/-- The ranges of two edits have no byte in common, and none is inside of the other. -/
def Edit.Apart (a b : Edit) : Prop :=
  a.span.stop ≤ b.span.start ∨ b.span.stop ≤ a.span.start

theorem exists_cut {start stop : Nat} (hle : start ≤ stop) (hstart : isBoundary start cs = true)
    (hstop : isBoundary stop cs = true) :
    ∃ before mid after, cs = before ++ mid ++ after ∧ start = byteLength before ∧ stop = byteLength (before ++ mid) := by
  obtain ⟨before, rest, rfl, rfl⟩ := Text.isBoundary_iff.mp hstart
  obtain ⟨lead, after, hsplit, rfl⟩ := Text.isBoundary_iff.mp hstop
  rcases List.append_eq_append_iff.mp hsplit with ⟨mid, rfl, rfl⟩ | ⟨mid, rfl, rfl⟩
  · exact ⟨before, mid, after, (List.append_assoc ..).symm, rfl, rfl⟩
  · -- the second boundary is not before the first, so that nothing is between them
    have hmid : mid = [] := by
      by_contra hne
      have hpos := Text.byteLength_pos hne
      rw [Text.byteLength_append] at hle
      omega
    subst hmid
    exact ⟨lead, [], rest, by simp, by simp, by simp⟩

theorem Edit.Fits.apply_takeBytes {e : Edit} (h : e.Fits cs) (changed : List Char) :
    e.apply (takeBytes e.span.stop cs ++ changed) = takeBytes e.span.start cs ++ e.text.toList ++ changed := by
  obtain ⟨before, old, after, hcut, hstart, hstop⟩ := exists_cut h.le h.start h.stop
  have hbefore : takeBytes e.span.start cs = before := by
    rw [hcut, hstart, List.append_assoc, Text.takeBytes_append]
  have hold : takeBytes e.span.stop cs = before ++ old := by
    rw [hcut, hstop, Text.takeBytes_append]
  rw [hbefore, hold]
  exact Edit.apply_append hstart hstop changed

theorem takeBytes_append_slice {start stop : Nat} (hle : start ≤ stop) (hstart : isBoundary start cs = true)
    (hstop : isBoundary stop cs = true) : takeBytes start cs ++ slice start stop cs = takeBytes stop cs := by
  obtain ⟨before, mid, after, hcut, rfl, rfl⟩ := exists_cut hle hstart hstop
  rw [slice, hcut, Text.takeBytes_append, Text.byteLength_append, Nat.add_sub_cancel_left, List.append_assoc,
    Text.dropBytes_append, Text.takeBytes_append, Text.takeBytes_append]

/-- Edits made from the last to the first leave the text before the first range as it is, and splice the rest. -/
theorem foldr_apply_eq_splice (hfits : ∀ e ∈ ordered, e.Fits cs)
    (hordered : ordered.Pairwise fun a b => a.span.stop ≤ b.span.start) {pos : Nat} (hpos : isBoundary pos cs = true)
    (hfirst : ∀ e ∈ ordered, pos ≤ e.span.start) :
    ordered.foldr (fun e cs => e.apply cs) cs = takeBytes pos cs ++ splice cs pos ordered := by
  induction ordered generalizing pos with
  | nil => exact (Text.takeBytes_append_dropBytes pos cs).symm
  | cons e es ih =>
    obtain ⟨he, hes⟩ := List.forall_mem_cons.mp hfits
    obtain ⟨hnext, hordered⟩ := List.pairwise_cons.mp hordered
    have hle := hfirst e List.mem_cons_self
    rw [List.foldr_cons, ih hes hordered he.stop hnext, he.apply_takeBytes, splice,
      ← takeBytes_append_slice hle hpos he.start]
    simp only [List.append_assoc]

/-- Edits of which no two have the same start are made in one order, however they are given. -/
theorem sortBy_start_eq {given : List Edit} (h : given.Perm edits) (hstarts : (edits.map (·.span.start)).Nodup) :
    sortBy (fun a b => b.span.start ≤ a.span.start) given = sortBy (fun a b => b.span.start ≤ a.span.start) edits := by
  have hsorted := @pairwise_sortBy Edit (fun a b => b.span.start ≤ a.span.start) (by simp; omega) (by simp; omega)
  refine List.Perm.eq_of_pairwise ?_ (hsorted given) (hsorted edits) (((sortBy_perm _).trans h).trans (sortBy_perm _).symm)
  intro a b ha hb hab hba
  have hsame : a.span.start = b.span.start := by
    simp only [decide_eq_true_eq] at hab hba
    omega
  exact List.inj_on_of_nodup_map hstarts (h.mem_iff.mp (mem_sortBy.mp ha)) (mem_sortBy.mp hb) hsame

theorem pairwise_reverse_sortBy (hfits : ∀ e ∈ edits, e.Fits cs) (hapart : edits.Pairwise Edit.Apart)
    (hstarts : (edits.map (·.span.start)).Nodup) :
    (sortBy (fun a b => b.span.start ≤ a.span.start) edits).reverse.Pairwise fun a b => a.span.stop ≤ b.span.start := by
  have hsorted := @pairwise_sortBy Edit (fun a b => b.span.start ≤ a.span.start) (by simp; omega) (by simp; omega) edits
  have hperm := @sortBy_perm Edit (fun a b => b.span.start ≤ a.span.start) edits
  have hapart := hperm.symm.pairwise hapart fun h => h.symm
  have hstarts := hperm.symm.pairwise (List.pairwise_map.mp hstarts) fun h => h.symm
  rw [List.pairwise_reverse]
  refine ((hsorted.and hapart).and hstarts).imp_of_mem fun {a b} ha hb h => ?_
  obtain ⟨⟨hle, hab⟩, hne⟩ := h
  have hfit := (hfits a (mem_sortBy.mp ha)).le
  rw [decide_eq_true_eq] at hle
  rcases hab with hab | hab <;> omega

/-- Edits are one substitution: if their ranges are ranges of the text between characters, apart from each other and
with different starts, then in whatever order they are given the result is the text with the pieces between the ranges
kept and the ranges replaced, in the order of the text. -/
theorem edits_simultaneous (hfits : ∀ e ∈ edits, e.Fits cs) (hapart : edits.Pairwise Edit.Apart)
    (hstarts : (edits.map (·.span.start)).Nodup) :
    ∃ ordered, ordered.Perm edits ∧ ordered.Pairwise (fun a b => a.span.stop ≤ b.span.start) ∧
      ∀ given, given.Perm edits → applyEdits given cs = splice cs 0 ordered := by
  have hperm := (List.reverse_perm _).trans (@sortBy_perm Edit (fun a b => b.span.start ≤ a.span.start) edits)
  refine ⟨_, hperm, pairwise_reverse_sortBy hfits hapart hstarts, fun given hgiven => ?_⟩
  have hsplice := foldr_apply_eq_splice (fun e he => hfits e (hperm.mem_iff.mp he))
    (pairwise_reverse_sortBy hfits hapart hstarts) (Text.isBoundary_iff.mpr ⟨[], cs, rfl, rfl⟩) (fun e _ => Nat.zero_le _)
  rw [List.foldr_reverse] at hsplice
  rw [applyEdits, sortBy_start_eq hgiven hstarts, hsplice]
  cases cs <;> rfl

/-- An insertion, a range that grows and one that shrinks, around characters of several bytes. -/
def threeEdits : List Edit :=
  [⟨⟨3, 6⟩, "x"⟩, ⟨⟨0, 0⟩, "let "⟩, ⟨⟨7, 8⟩, "state.b"⟩]

theorem edits_simultaneous_three :
    applyEdits threeEdits "é=√+b".toList = "let é=x+state.b".toList ∧
      applyEdits threeEdits.reverse "é=√+b".toList = "let é=x+state.b".toList := by
  have hfits : ∀ e ∈ threeEdits, e.Fits "é=√+b".toList := by
    intro e he
    have hall : threeEdits.all (fun e => e.span.start ≤ e.span.stop && isBoundary e.span.start "é=√+b".toList &&
        isBoundary e.span.stop "é=√+b".toList) = true := by decide +kernel
    have hfit := List.all_eq_true.mp hall e he
    simp only [Bool.and_eq_true, decide_eq_true_eq] at hfit
    exact ⟨hfit.1.1, hfit.1.2, hfit.2⟩
  have hapart : threeEdits.Pairwise Edit.Apart := by
    simp [threeEdits, Edit.Apart]
  obtain ⟨ordered, -, -, hsame⟩ := edits_simultaneous hfits hapart (by decide)
  have hfirst : applyEdits threeEdits "é=√+b".toList = "let é=x+state.b".toList := by decide +kernel
  exact ⟨hfirst, by rw [hsame _ (List.reverse_perm _), ← hsame _ (.refl _), hfirst]⟩

end PageCompiler.Code
