import PageCompiler.Proofs.MarkedText
import PageCompiler.Proofs.TokenLayout

/-!
# Codes without a marker

A code in braces has no marker if it is at most one block comment, with blanks around it (`LoneComment`). Such a code
has no tokens, unless one of its blanks is none that separates tokens; but a code may have no tokens and still have a
marker: two comments, or a comment that runs to the end of its line (`dropped_iff`).
-/

namespace PageCompiler.Script

open Text (isBlank isSpace)

variable {rest gap cs : List Char} {c : Char}

/-! ## Codes without tokens -/

theorem tokens_eq_nil_iff {code : List Char} : tokens code = .ok [] ↔ Gap [] code := by
  constructor
  · intro h
    cases (lexed_of_tokensFrom h).laid with
    | done hgap => exact hgap
  · intro h
    have hall : ∀ last newline pos, tokensFrom last newline pos code = .ok [] := by
      induction h with
      | nil => simp [tokensFrom]
      | cons hlead _ ih =>
        intro last newline pos
        rw [List.append_nil] at hlead
        rw [tokensFrom_append hlead, ih]
    exact hall none false 0

theorem gap_of_spaces (h : ∀ c ∈ cs, isSpace c = true) (hgap : Gap rest gap) : Gap rest (cs ++ gap) := by
  induction cs with
  | nil => exact hgap
  | cons c cs ih =>
    obtain ⟨hc, hcs⟩ := List.forall_mem_cons.mp h
    exact @Gap.cons rest [c] (cs ++ gap) (.space hc) (ih hcs)

theorem Gap.of_blanks {blanks : List Char} (h : Gap rest (blanks ++ gap)) (hblanks : ∀ c ∈ blanks, isBlank c = true) :
    (∀ c ∈ blanks, isSpace c = true) ∧ Gap rest gap := by
  induction blanks with
  | nil => exact ⟨nofun, h⟩
  | cons c blanks ih =>
    obtain ⟨hc, hblanks⟩ := List.forall_mem_cons.mp hblanks
    generalize heq : c :: blanks ++ gap = code at h
    cases h with
    | nil => cases heq
    | cons hlead hgap =>
      cases hlead with
      | space hspace =>
        cases heq
        obtain ⟨hall, hrest⟩ := ih hgap hblanks
        exact ⟨List.forall_mem_cons.mpr ⟨hspace, hall⟩, hrest⟩
      | line =>
        rw [(List.cons.inj heq).1] at hc
        cases hc
      | block =>
        rw [(List.cons.inj heq).1] at hc
        cases hc

theorem Gap.of_block {text : List Char} (htext : ¬ ['*', '/'] <:+: text ++ ['*'])
    (h : Gap rest ('/' :: '*' :: text ++ ['*', '/'] ++ gap)) : Gap rest gap := by
  generalize heq : '/' :: '*' :: text ++ ['*', '/'] ++ gap = code at h
  cases h with
  | nil => cases heq
  | cons hlead hgap =>
    cases hlead with
    | space hspace =>
      cases heq
      cases hspace
    | line =>
      cases heq
    | @block text' htext' =>
      have hsame : text ++ ['*', '/'] ++ gap = text' ++ ['*', '/'] ++ _ := (List.cons.inj (List.cons.inj heq).2).2
      have hbreak := Text.breakOn?_append (by simp) htext gap
      rw [hsame, Text.breakOn?_append (by simp) htext'] at hbreak
      cases hbreak
      exact hgap

end PageCompiler.Script

namespace PageCompiler.Markup

open Script (Gap tokens)
open Text

/-! ## Codes that are dropped -/

/-- The code is nothing or one block comment, with blanks of a class around it. -/
def LoneComment (blank : Char → Bool) (code : List Char) : Prop :=
  ∃ before inner after, code = before ++ inner ++ after ∧ (∀ c ∈ before ++ after, blank c = true) ∧
    (inner = [] ∨ ∃ text, inner = '/' :: '*' :: text ++ ['*', '/'] ∧ ¬ ['*', '/'] <:+: text ++ ['*'])

theorem isComment_iff {code : List Char} : isComment code = true ↔
    ∃ text, trim code = '/' :: '*' :: text ++ ['*', '/'] ∧ ¬ ['*', '/'] <:+: text ++ ['*'] := by
  have hmark : ∀ text, contains ['*', '/'] text = false ↔ ¬ ['*', '/'] <:+: text ++ ['*'] := by
    intro text
    rw [contains, Option.isSome_eq_false_iff, Option.isNone_iff_eq_none, List.infix_concat_iff, not_or]
    refine ⟨fun h => ⟨fun hend => ?_, not_infix_of_breakOn?_eq_none (by simp) h⟩, fun h => breakOn?_eq_none h.2⟩
    simpa using hend.getLast (by simp)
  simp only [isComment, Bool.and_eq_true, decide_eq_true_eq, List.isPrefixOf_iff_prefix, List.isSuffixOf_iff_suffix,
    Bool.not_eq_true']
  constructor
  · rintro ⟨⟨⟨hlength, rest, hrest⟩, hend⟩, htext⟩
    rw [← hrest, List.length_append] at hlength
    rw [← hrest] at hend htext
    have hle : 2 ≤ rest.length := Nat.le_of_add_le_add_left (show 2 + 2 ≤ 2 + rest.length from hlength)
    obtain ⟨text, rfl⟩ := List.suffix_of_suffix_length_le hend (List.suffix_append _ rest) hle
    refine ⟨text, hrest.symm, (hmark text).mp ?_⟩
    simpa using htext
  · rintro ⟨text, htrim, htext⟩
    rw [htrim]
    refine ⟨⟨⟨by simp, ⟨_, rfl⟩⟩, ⟨'/' :: '*' :: text, rfl⟩⟩, ?_⟩
    simpa using (hmark text).mpr htext

theorem isKept_eq_false_iff {code : List Char} : isKept code = false ↔ LoneComment isBlank code := by
  rw [isKept, Bool.and_eq_false_iff, Bool.not_eq_false', Bool.not_eq_false', isComment_iff]
  constructor
  · rintro (hblank | ⟨text, htrim, htext⟩)
    · exact ⟨code, [], [], by simp, by simpa [allBlank] using hblank, .inl rfl⟩
    · obtain ⟨before, after, hcode, hblank⟩ := exists_trimmed code
      exact ⟨before, trim code, after, hcode, hblank, .inr ⟨text, htrim, htext⟩⟩
  · rintro ⟨before, inner, after, rfl, hblank, rfl | ⟨text, rfl, htext⟩⟩
    · left
      rw [allBlank, List.append_nil]
      exact List.all_eq_true.mpr hblank
    · right
      refine ⟨text, ?_, htext⟩
      rw [trim_between hblank, trim, trimStart, List.cons_append, List.dropWhile_cons_of_neg (by decide), trimEnd]
      simp [isBlank]

theorem isBlank_of_isSpace {c : Char} (h : isSpace c = true) : isBlank c = true := by
  simp only [isSpace, Bool.or_eq_true, beq_iff_eq] at h
  rcases h with (((rfl | rfl) | rfl) | rfl) | rfl <;> rfl

/-- A code is dropped and has no tokens if all blanks around its comment separate tokens. -/
theorem isKept_eq_false_and_tokens_iff {code : List Char} :
    isKept code = false ∧ tokens code = .ok [] ↔ LoneComment isSpace code := by
  rw [isKept_eq_false_iff, Script.tokens_eq_nil_iff]
  constructor
  · rintro ⟨⟨before, inner, after, rfl, hblank, hinner⟩, hgap⟩
    obtain ⟨hbefore, hafter⟩ := List.forall_mem_append.mp hblank
    rw [List.append_assoc] at hgap
    obtain ⟨hbefore, hgap⟩ := hgap.of_blanks hbefore
    have hend : Gap [] (after ++ []) := by
      rw [List.append_nil]
      rcases hinner with rfl | ⟨text, rfl, htext⟩
      · exact hgap
      · exact hgap.of_block htext
    exact ⟨before, inner, after, rfl, List.forall_mem_append.mpr ⟨hbefore, (hend.of_blanks hafter).1⟩, hinner⟩
  · rintro ⟨before, inner, after, rfl, hspace, hinner⟩
    refine ⟨⟨before, inner, after, rfl, fun c hc => isBlank_of_isSpace (hspace c hc), hinner⟩, ?_⟩
    obtain ⟨hbefore, hafter⟩ := List.forall_mem_append.mp hspace
    have hend : Gap [] after := by simpa using Script.gap_of_spaces hafter .nil
    rw [List.append_assoc]
    refine Script.gap_of_spaces hbefore ?_
    rcases hinner with rfl | ⟨text, rfl, htext⟩
    · exact hend
    · exact .cons (.block htext) hend

/-- A marked markup is cut at its codes. A code has no marker exactly if it is at most one block comment with blanks
around it, and no tokens exactly if it is a gap; both hold if the blanks are such as separate tokens. -/
theorem dropped_iff {file : Source.File} {markup : List Char} {m : Marked} (h : marked file markup = .ok m) :
    ∃ s : Split, s.Proper ∧ markup = s.markup ∧ m.text = s.text ∧ m.holes.length = keptIn s.later ∧
      ∀ part ∈ s.later,
        (isKept part.1 = false ↔ LoneComment isBlank part.1) ∧ (tokens part.1 = .ok [] ↔ Gap [] part.1) ∧
        (isKept part.1 = false ∧ tokens part.1 = .ok [] ↔ LoneComment isSpace part.1) := by
  obtain ⟨ps, hps, h⟩ := Compiled.bind_eq_ok.mp h
  obtain ⟨hmarkup, hproper⟩ := cuts_of_pieces file 0 markup ps hps
  obtain rfl := Except.ok.inj h
  refine ⟨Split.ofPieces ps, hproper, hmarkup.symm, text_mark _ _ _ _, length_holes_mark _ _ _ _, fun part _ => ?_⟩
  exact ⟨isKept_eq_false_iff, Script.tokens_eq_nil_iff, isKept_eq_false_and_tokens_iff⟩

/-- A code that is dropped, one that is kept for its second comment, and one that is dropped though it has a token. -/
theorem dropped_iff_comments :
    let markup := "\x7b/*a*/ \x7d\x7b/**//**/\x7d\x7b\u00a0\x7d".toList
    ∃ m, marked (.ofText "a.zen" markup) markup = .ok m ∧ m.text = (marker 0).toList ∧
      ∃ s : Split, s.Proper ∧ markup = s.markup ∧ m.text = s.text ∧ m.holes.length = keptIn s.later := by
  intro markup
  obtain ⟨m, hm, htext⟩ := exists_eq_ok_of_any
    (show (marked (.ofText "a.zen" markup) markup).toOption.any (fun m => decide (m.text = (marker 0).toList)) = true by
      decide +kernel)
  obtain ⟨s, hproper, hmarkup, hs, hholes, -⟩ := dropped_iff hm
  exact ⟨m, hm, of_decide_eq_true htext, s, hproper, hmarkup, hs, hholes⟩

/-- Two comments are no tokens, and have a marker. -/
theorem two_comments_have_marker :
    ∃ m, marked (.ofText "a.zen" "<p>\x7b/* a */ /* b */\x7d</p>".toList) "<p>\x7b/* a */ /* b */\x7d</p>".toList = .ok m ∧
      m.text = "<p>__ZENITH_EXPR_0__</p>".toList ∧ tokens "/* a */ /* b */".toList = .ok [] := by
  have hread : (marked (.ofText "a.zen" "<p>\x7b/* a */ /* b */\x7d</p>".toList)
      "<p>\x7b/* a */ /* b */\x7d</p>".toList).toOption.any (fun m =>
        decide (m.text = "<p>__ZENITH_EXPR_0__</p>".toList)) = true := by
    decide +kernel
  obtain ⟨m, hm, htext⟩ := exists_eq_ok_of_any hread
  refine ⟨m, hm, of_decide_eq_true htext, ?_⟩
  have htokens : (tokens "/* a */ /* b */".toList).toOption.any (·.isEmpty) = true := by decide +kernel
  obtain ⟨ts, hts, hempty⟩ := exists_eq_ok_of_any htokens
  rw [hts, List.isEmpty_iff.mp hempty]

end PageCompiler.Markup
