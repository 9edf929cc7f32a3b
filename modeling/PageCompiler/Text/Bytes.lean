/-!
# Texts and their byte positions

A text is a list of characters. Positions in a text count the bytes of its UTF-8 form, so that they
agree with what an editor, a file or another tool reports. `takeBytes` and `dropBytes` cut a text at a
byte position; they always give back the whole text together, and a position inside a character counts
as the position after it.
-/

namespace PageCompiler.Text

def byteLength : List Char → Nat
  | [] => 0
  | c :: cs => c.utf8Size + byteLength cs

/-- The characters that start before byte `n`. -/
def takeBytes : Nat → List Char → List Char
  | _, [] => []
  | 0, _ => []
  | n + 1, c :: cs => c :: takeBytes (n + 1 - c.utf8Size) cs

/-- The characters that start at byte `n` or later. -/
def dropBytes : Nat → List Char → List Char
  | _, [] => []
  | 0, cs => cs
  | n + 1, c :: cs => dropBytes (n + 1 - c.utf8Size) cs

/-- The characters from byte `start` up to byte `stop`. -/
def slice (start stop : Nat) (cs : List Char) : List Char :=
  takeBytes (stop - start) (dropBytes start cs)

/-- Whether byte `n` is the start of a character of the text, or its end. -/
def isBoundary : Nat → List Char → Bool
  | 0, _ => true
  | _ + 1, [] => false
  | n + 1, c :: cs => c.utf8Size ≤ n + 1 && isBoundary (n + 1 - c.utf8Size) cs

/-- The text between two boundaries, if both are boundaries and in order. -/
def slice? (start stop : Nat) (cs : List Char) : Option (List Char) :=
  if start ≤ stop && isBoundary start cs && isBoundary stop cs then some (slice start stop cs) else none

@[simp] theorem byteLength_nil : byteLength [] = 0 := rfl

@[simp] theorem byteLength_cons (c : Char) (cs : List Char) :
    byteLength (c :: cs) = c.utf8Size + byteLength cs := rfl

@[simp] theorem byteLength_append (l m : List Char) :
    byteLength (l ++ m) = byteLength l + byteLength m := by
  induction l with
  | nil => simp
  | cons c cs ih => simp [ih, Nat.add_assoc]

theorem byteLength_pos {cs : List Char} (h : cs ≠ []) : 0 < byteLength cs := by
  cases cs with
  | nil => exact absurd rfl h
  | cons c cs =>
    have hpos := c.utf8Size_pos
    rw [byteLength_cons]
    omega

theorem takeBytes_append_dropBytes (n : Nat) (cs : List Char) :
    takeBytes n cs ++ dropBytes n cs = cs := by
  induction cs generalizing n with
  | nil => cases n <;> rfl
  | cons c cs ih => cases n with
    | zero => rfl
    | succ n => simp [takeBytes, dropBytes, ih]

/-- Cutting never makes a text longer. -/
theorem length_dropBytes_le (n : Nat) (cs : List Char) : (dropBytes n cs).length ≤ cs.length := by
  have h := congrArg List.length (takeBytes_append_dropBytes n cs)
  simp at h
  omega

theorem exists_byteLength_cons (c : Char) (cs : List Char) :
    ∃ n, byteLength (c :: cs) = n + 1 ∧ n + 1 - c.utf8Size = byteLength cs := by
  have hpos := c.utf8Size_pos
  refine ⟨byteLength (c :: cs) - 1, ?_, ?_⟩ <;> rw [byteLength_cons] <;> omega

theorem dropBytes_append (before after : List Char) : dropBytes (byteLength before) (before ++ after) = after := by
  induction before with
  | nil => cases after <;> rfl
  | cons c before ih =>
    obtain ⟨n, hn, hrest⟩ := exists_byteLength_cons c before
    rw [hn, List.cons_append, dropBytes, hrest, ih]

theorem takeBytes_append (before after : List Char) : takeBytes (byteLength before) (before ++ after) = before := by
  have h := takeBytes_append_dropBytes (byteLength before) (before ++ after)
  rw [dropBytes_append] at h
  exact List.append_cancel_right h

theorem isBoundary_iff {n : Nat} {cs : List Char} :
    isBoundary n cs = true ↔ ∃ before after, cs = before ++ after ∧ byteLength before = n := by
  constructor
  · intro h
    induction cs generalizing n with
    | nil =>
      cases n with
      | zero => exact ⟨[], [], rfl, rfl⟩
      | succ n => cases h
    | cons c cs ih =>
      cases n with
      | zero => exact ⟨[], c :: cs, rfl, rfl⟩
      | succ n =>
        rw [isBoundary, Bool.and_eq_true, decide_eq_true_eq] at h
        obtain ⟨before, after, rfl, hlength⟩ := ih h.2
        refine ⟨c :: before, after, rfl, ?_⟩
        rw [byteLength_cons]
        omega
  · rintro ⟨before, after, rfl, rfl⟩
    induction before with
    | nil => cases after <;> rfl
    | cons c before ih =>
      obtain ⟨n, hn, hrest⟩ := exists_byteLength_cons c before
      rw [hn, List.cons_append, isBoundary, hrest, ih, Bool.and_true, decide_eq_true_eq, ← hn, byteLength_cons]
      omega

end PageCompiler.Text
