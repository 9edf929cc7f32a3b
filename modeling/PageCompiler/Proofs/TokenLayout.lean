import PageCompiler.Proofs.BraceGrammar
import PageCompiler.Proofs.Runs

/-!
# Tokens in their text

The tokens of a script stand in its text one after the other, with blanks and comments between them (`Laid`). They are
read by one rule for what separates tokens and one for a token (`Lexed`), and what is said of the tokens of a script
is proved from these two.

The statements of a script take its tokens apart without losing one, and where the brackets of the script are
balanced, those of each statement are.
-/

namespace PageCompiler.Script

open Brace (startsComment)
open Text (byteLength isSpace)

variable {rest cs : List Char} {c : Char} {pos : Nat} {t : Token} {ts : List Token}

variable {last : Option Token} {newline : Bool} {lead : List Char}

/-! ## Reading tokens -/

/-- A blank, or a comment with `rest` after it. A comment ends where it first can. -/
inductive Separator (rest : List Char) : List Char → Prop
  | space {c : Char} (hc : isSpace c = true) : Separator rest [c]
  | line {text : List Char} (htext : '\n' ∉ text) (hrest : ∀ c ∈ rest.head?, c = '\n') :
      Separator rest ('/' :: '/' :: text)
  | block {text : List Char} (htext : ¬ ['*', '/'] <:+: text ++ ['*']) :
      Separator rest ('/' :: '*' :: text ++ ['*', '/'])

/-- The tokens of a text at offset `pos`. `last` is the token before the text, and `newline` says whether a line ended
since then. -/
inductive Lexed : Option Token → Bool → Nat → List Char → List Token → Prop
  | done {last : Option Token} {newline : Bool} {pos : Nat} : Lexed last newline pos [] []
  | gap {last : Option Token} {newline : Bool} {pos : Nat} {lead rest : List Char} {ts : List Token}
      (hlead : Separator rest lead) :
      Lexed last (newline || lead.contains '\n') (pos + byteLength lead) rest ts →
      Lexed last newline pos (lead ++ rest) ts
  | token {last : Option Token} {t : Token} {c : Char} {rest : List Char} {ts : List Token} {n : Nat}
      (hsize : tokenSize last t.start c rest = .ok (t.kind, n)) (hspace : isSpace c = false)
      (hcomment : startsComment (c :: rest) = false) (htext : t.text = String.ofList (c :: rest.take n))
      (hstop : t.stop = t.start + byteLength (c :: rest.take n)) :
      Lexed (some t) false t.stop (rest.drop n) ts → Lexed last t.newlineBefore t.start (c :: rest) (t :: ts)

theorem map_eq_ok {ε α β : Type} {f : α → β} {x : Except ε α} {b : β} (h : x.map f = .ok b) :
    ∃ a, x = .ok a ∧ f a = b := by
  cases x with
  | error e => cases h
  | ok a => exact ⟨a, rfl, Except.ok.inj h⟩

theorem utf8Size_of_isSpace (h : isSpace c = true) : c.utf8Size = 1 := by
  simp only [isSpace, Bool.or_eq_true, beq_iff_eq] at h
  rcases h with (((rfl | rfl) | rfl) | rfl) | rfl <;> rfl

theorem exists_line (text : List Char) : ∃ line after, text = line ++ after ∧
    (line ++ after).takeWhile (· ≠ '\n') = line ∧ '\n' ∉ line ∧ ∀ c ∈ after.head?, c = '\n' := by
  refine ⟨text.takeWhile (· ≠ '\n'), text.dropWhile (· ≠ '\n'), ?_, ?_, ?_, ?_⟩
  · rw [List.takeWhile_append_dropWhile]
  · rw [List.takeWhile_append_dropWhile]
  · intro hmem
    simpa using List.all_eq_true.mp List.all_takeWhile _ hmem
  · intro c hc
    have hhead := List.head?_dropWhile_not (fun c => decide (c ≠ '\n')) text
    rw [Option.mem_def.mp hc] at hhead
    simpa using hhead

theorem lexed_of_tokensFrom (h : tokensFrom last newline pos cs = .ok ts) : Lexed last newline pos cs ts := by
  fun_induction tokensFrom last newline pos cs generalizing ts with
  | case1 =>
    cases h
    exact .done
  | case2 last newline pos rest ih =>
    have hgap := @Lexed.gap last newline pos ['\n'] rest ts (.space rfl)
    rw [show (newline || ['\n'].contains '\n') = true by simp] at hgap
    exact hgap (ih h)
  | case3 last newline pos c rest hline hspace ih =>
    have hgap := @Lexed.gap last newline pos [c] rest ts (.space hspace)
    rw [show (newline || [c].contains '\n') = newline by simp [Ne.symm hline], Text.byteLength_cons,
      utf8Size_of_isSpace hspace] at hgap
    exact hgap (ih h)
  | case4 last newline pos c rest hline hspace hcomment comment =>
    rename_i ih
    rw [Bool.and_eq_true, decide_eq_true_eq, decide_eq_true_eq] at hcomment
    obtain ⟨rfl, hhead⟩ := hcomment
    obtain ⟨text, rfl⟩ := List.head?_eq_some_iff.mp hhead
    obtain ⟨line, after, rfl, htake, hline, hafter⟩ := exists_line text
    have hcomment : comment = '/' :: line := congrArg ('/' :: ·) htake
    have hrest : ('/' :: (line ++ after)).drop comment.length = after := by
      rw [hcomment]
      exact List.drop_left
    rw [hrest, hcomment, Nat.add_assoc] at h ih
    have hgap := @Lexed.gap last newline pos ('/' :: '/' :: line) after ts (.line hline hafter)
    rw [show (newline || ('/' :: '/' :: line).contains '\n') = newline by simp [hline]] at hgap
    exact hgap (ih h)
  | case5 => cases h
  | case6 last newline pos c rest _ _ _ hcomment comment after hbreak ih =>
    rw [Bool.and_eq_true, decide_eq_true_eq, decide_eq_true_eq] at hcomment
    obtain ⟨rfl, hhead⟩ := hcomment
    obtain ⟨text, rfl⟩ := List.head?_eq_some_iff.mp hhead
    have htext : text = comment ++ ['*', '/'] ++ after := Text.append_of_breakOn? hbreak
    have hrest : ('*' :: text).drop (1 + comment.length + 2) = after := by
      rw [htext, Nat.add_assoc, Nat.add_comm 1, List.drop_succ_cons]
      exact List.drop_left' (by simp)
    rw [hrest] at h ih
    have hsize : pos + byteLength ('/' :: '*' :: comment ++ ['*', '/']) = pos + 2 + byteLength comment + 2 := by
      rw [Text.byteLength_append]
      show pos + (1 + (1 + byteLength comment) + 2) = _
      omega
    have hgap := @Lexed.gap last newline pos ('/' :: '*' :: comment ++ ['*', '/']) after ts
      (.block (Text.not_infix_of_breakOn? (by simp) hbreak))
    rw [show ('/' :: '*' :: comment ++ ['*', '/']).contains '\n' = comment.contains '\n' by simp, hsize] at hgap
    rw [htext]
    exact hgap (ih h)
  | case7 => cases h
  | case8 last newline pos c rest _ hspace hline hblock kind n hsize text stop token =>
    rename_i ih
    obtain ⟨ts, hts, rfl⟩ := map_eq_ok h
    have hcomment : startsComment (c :: rest) = false := by
      cases rest with
      | nil => simp [startsComment]
      | cons d rest =>
        rw [Brace.startsComment_cons_cons]
        simp_all
    exact @Lexed.token last token c rest ts n hsize (Bool.eq_false_iff.mpr hspace) hcomment rfl rfl (ih hts)

/-- A separator before a text changes only where the text is, and whether a line ended before it. -/
theorem tokensFrom_append (h : Separator rest lead) (last : Option Token) (newline : Bool) (pos : Nat) :
    tokensFrom last newline pos (lead ++ rest) =
      tokensFrom last (newline || lead.contains '\n') (pos + byteLength lead) rest := by
  cases h with
  | @space c hc =>
    rw [List.singleton_append, tokensFrom, Text.byteLength_cons, utf8Size_of_isSpace hc]
    by_cases hline : c = '\n'
    · simp [hline]
    · rw [if_neg hline, if_pos hc]
      simp [Ne.symm hline]
  | @line text htext hrest =>
    have hpos : ∀ c ∈ text, decide (c ≠ '\n') = true := by
      rintro c hc
      exact decide_eq_true fun heq => htext (heq ▸ hc)
    have hnil : rest.takeWhile (· ≠ '\n') = [] := by
      cases rest with
      | nil => rfl
      | cons c rest => simp [hrest c rfl]
    have htake : ('/' :: (text ++ rest)).takeWhile (· ≠ '\n') = '/' :: text := by
      rw [List.takeWhile_cons_of_pos (by decide), List.takeWhile_append_of_pos hpos, hnil, List.append_nil]
    rw [List.cons_append, List.cons_append, tokensFrom, if_neg (by decide), if_neg (by decide), if_pos (by simp)]
    dsimp only
    rw [htake, show (newline || ('/' :: '/' :: text).contains '\n') = newline by simp [htext],
      show ('/' :: (text ++ rest)).drop ('/' :: text).length = rest from List.drop_left, Nat.add_assoc]
    rfl
  | @block text htext =>
    have hbreak : Text.breakOn? "*/".toList (('*' :: (text ++ ['*', '/'] ++ rest)).drop 1) = some (text, rest) :=
      Text.breakOn?_append (by simp) htext rest
    have hdrop : ('*' :: (text ++ ['*', '/'] ++ rest)).drop (1 + text.length + 2) = rest := by
      rw [Nat.add_assoc, Nat.add_comm 1, List.drop_succ_cons]
      exact List.drop_left' (by simp)
    have hsize : pos + byteLength ('/' :: '*' :: text ++ ['*', '/']) = pos + 2 + byteLength text + 2 := by
      rw [Text.byteLength_append]
      show pos + (1 + (1 + byteLength text) + 2) = _
      omega
    show tokensFrom last newline pos ('/' :: '*' :: (text ++ ['*', '/'] ++ rest)) = _
    rw [tokensFrom, if_neg (by decide), if_neg (by decide), if_neg (by simp), if_pos (by simp), hbreak]
    dsimp only
    rw [hdrop, hsize, show ('/' :: '*' :: text ++ ['*', '/']).contains '\n' = text.contains '\n' by simp]

theorem tokensFrom_of_lexed (h : Lexed last newline pos cs ts) : tokensFrom last newline pos cs = .ok ts := by
  induction h with
  | done => rw [tokensFrom]
  | gap hlead _ ih => rw [tokensFrom_append hlead, ih]
  | @token last t c rest ts n hsize hspace hcomment htext hstop _ ih =>
    have hline : c ≠ '\n' := by
      rintro rfl
      cases hspace
    have hlineComment : ¬(c = '/' && rest.head? = some '/') = true := by
      cases rest <;> simp_all [Brace.startsComment_cons_cons]
    have hblockComment : ¬(c = '/' && rest.head? = some '*') = true := by
      cases rest <;> simp_all [Brace.startsComment_cons_cons]
    rw [tokensFrom, if_neg hline, if_neg (Bool.eq_false_iff.mp hspace), if_neg hlineComment, if_neg hblockComment, hsize]
    dsimp only
    rw [← htext, ← hstop, ih]
    rfl

/-! ## Where tokens stand -/

/-- Blanks and comments with `rest` after them. -/
inductive Gap (rest : List Char) : List Char → Prop
  | nil : Gap rest []
  | cons {lead gap : List Char} (hlead : Separator (gap ++ rest) lead) : Gap rest gap → Gap rest (lead ++ gap)

/-- The tokens stand in a text at offset `pos` one after the other, each with its own text where it says, and before,
between and after them are gaps. Each token says whether a line ended in the gap before it, or, if it is the first one,
already before the text. -/
inductive Laid : Bool → Nat → List Char → List Token → Prop
  | done {newline : Bool} {pos : Nat} {gap : List Char} (hgap : Gap [] gap) : Laid newline pos gap []
  | token {newline : Bool} {pos : Nat} {gap text rest : List Char} {t : Token} {ts : List Token}
      (hgap : Gap (text ++ rest) gap) (hne : text ≠ []) (htext : t.text = String.ofList text)
      (hstart : t.start = pos + byteLength gap) (hstop : t.stop = t.start + byteLength text)
      (hline : t.newlineBefore = (newline || gap.contains '\n')) :
      Laid false t.stop rest ts → Laid newline pos (gap ++ (text ++ rest)) (t :: ts)

theorem Laid.gap (hlead : Separator rest lead)
    (h : Laid (newline || lead.contains '\n') (pos + byteLength lead) rest ts) :
    Laid newline pos (lead ++ rest) ts := by
  cases h with
  | done hgap => exact .done (.cons (by rwa [List.append_nil]) hgap)
  | token hgap hne htext hstart hstop hline h =>
    rw [← List.append_assoc]
    refine .token (.cons hlead hgap) hne htext ?_ hstop ?_ h
    · rw [hstart, Text.byteLength_append, Nat.add_assoc]
    · rw [hline, Bool.or_assoc, List.contains_append]

theorem Lexed.laid (h : Lexed last newline pos cs ts) : Laid newline pos cs ts := by
  induction h with
  | done => exact .done .nil
  | gap hlead _ ih => exact .gap hlead ih
  | @token last t c rest ts n _ _ _ htext hstop _ ih =>
    have htoken := Laid.token (.nil : Gap (c :: rest.take n ++ rest.drop n) []) (List.cons_ne_nil _ _) htext
      (Nat.add_zero _).symm hstop (Bool.or_false _).symm ih
    rwa [List.nil_append, List.cons_append, List.take_append_drop] at htoken

/-! ## Statements -/

/-- Whether no bracket is closed that is not open and in the end none is open, if `depth` are open in the beginning. -/
def closesAll (depth : Int) : List Token → Bool
  | [] => depth == 0
  | t :: ts => 0 ≤ depth + t.depth && closesAll (depth + t.depth) ts

section
variable {group : List Token} {depth : Nat}
variable {g : List Token}

theorem flatten_groupFrom : (groupFrom group depth ts).flatten = group.reverse ++ ts := by
  induction ts generalizing group depth with
  | nil => cases group <;> simp [groupFrom]
  | cons t ts ih =>
    rw [groupFrom]
    split
    · simp [ih]
    · simp [ih]

theorem ne_nil_of_mem_groupFrom (h : g ∈ groupFrom group depth ts) : g ≠ [] := by
  induction ts generalizing group depth with
  | nil => cases group <;> simp_all [groupFrom]
  | cons t ts ih =>
    rw [groupFrom] at h
    split at h
    · rcases List.mem_cons.mp h with rfl | h
      · simp
      · exact ih h
    · exact ih h

/-- The statement so far takes the brackets to the depth, from where the tokens close all. -/
theorem closesAll_of_mem_groupFrom
    (hgroup : ∀ rest, closesAll depth rest = true → closesAll 0 (group.reverse ++ rest) = true)
    (h : closesAll depth ts = true) (hg : g ∈ groupFrom group depth ts) : closesAll 0 g = true := by
  induction ts generalizing group depth with
  | nil =>
    have hall := hgroup [] h
    cases group <;> simp_all [groupFrom]
  | cons t ts ih =>
    rw [closesAll, Bool.and_eq_true, decide_eq_true_eq] at h
    obtain ⟨hle, h⟩ := h
    have hdepth : (((depth : Int) + t.depth).toNat : Int) = depth + t.depth := Int.toNat_of_nonneg hle
    have hnext : ∀ rest, closesAll (depth + t.depth) rest = true →
        closesAll 0 ((t :: group).reverse ++ rest) = true := by
      intro rest hrest
      rw [List.reverse_cons, List.append_assoc]
      refine hgroup ([t] ++ rest) ?_
      rw [List.singleton_append, closesAll, hrest, Bool.and_true, decide_eq_true_eq]
      exact hle
    rw [groupFrom] at hg
    split at hg
    case isTrue hcomplete =>
      have hzero : ((depth : Int) + t.depth).toNat = 0 := by simpa using (Bool.and_eq_true_iff.mp hcomplete).1
      rw [← hdepth, hzero] at h hnext
      rcases List.mem_cons.mp hg with rfl | hg
      · simpa using hnext [] rfl
      · rw [hzero] at hg
        exact ih (fun _ hrest => hrest) h hg
    case isFalse =>
      rw [← hdepth] at h hnext
      exact ih hnext h hg

end

/-- The tokens of a script and the gaps between them are its whole text, its statements are its tokens in order, and
where the brackets of the script are balanced, so are those of each statement. -/
theorem splitting_loses_nothing {src : List Char} {ts : List Token} (h : tokens src = .ok ts) :
    Laid false 0 src ts ∧ (group ts).flatten = ts ∧ (∀ g ∈ group ts, g ≠ []) ∧
      (closesAll 0 ts = true → ∀ g ∈ group ts, closesAll 0 g = true) := by
  refine ⟨(lexed_of_tokensFrom h).laid, flatten_groupFrom, fun g hg => ne_nil_of_mem_groupFrom hg, fun hall g hg => ?_⟩
  exact closesAll_of_mem_groupFrom (fun _ hrest => hrest) hall hg

/-- Two lines, of which the first has a bracket in a comment. -/
theorem splitting_loses_nothing_lines :
    ∃ ts, tokens "é=[1] // [\nf()".toList = .ok ts ∧ Laid false 0 "é=[1] // [\nf()".toList ts ∧
      (group ts).map (·.map fun t => (t.text, t.start, t.newlineBefore)) =
        [[("é", 0, false), ("=", 2, false), ("[", 3, false), ("1", 4, false), ("]", 5, false)],
          [("f", 12, true), ("(", 13, false), (")", 14, false)]] ∧
      (group ts).flatten = ts ∧ ∀ g ∈ group ts, closesAll 0 g = true := by
  have hread : (tokens "é=[1] // [\nf()".toList).toOption.any (fun ts => closesAll 0 ts &&
      (group ts).map (·.map fun t => (t.text, t.start, t.newlineBefore)) ==
        [[("é", 0, false), ("=", 2, false), ("[", 3, false), ("1", 4, false), ("]", 5, false)],
          [("f", 12, true), ("(", 13, false), (")", 14, false)]]) = true := by
    decide +kernel
  obtain ⟨ts, hts, htest⟩ := exists_eq_ok_of_any hread
  rw [Bool.and_eq_true, beq_iff_eq] at htest
  obtain ⟨hlaid, hflatten, -, hall⟩ := splitting_loses_nothing hts
  exact ⟨ts, hts, hlaid, htest.2, hflatten, hall htest.1⟩

end PageCompiler.Script
