import Mathlib.Data.List.Find
import PageCompiler.Code.Edit
import PageCompiler.Proofs.TokenBraces

/-!
# A word of a script in the place of another

A token is read with the text after it in sight. If that text goes on with a letter, no token but a word or a number
ends directly before the letter, and what is read before it does not depend on what comes from the letter on
(`tokenSize_append`). So a word that starts a declaration can be replaced by another: the tokens before it and after it
stay as they are (`tokens_apply`).
-/

namespace PageCompiler.Script

open Brace
open Text (byteLength isSpace)

variable {w x y cs rest lead : List Char} {c : Char} {n pos : Nat} {last : Option Token} {newline : Bool} {t : Token}
  {before after ts : List Token}

/-! ## What is read before a letter -/

def Lettered (cs : List Char) : Prop :=
  ∃ c tail, cs = c :: tail ∧ c.isAlpha = true

theorem ne_of_isAlpha (hc : c.isAlpha = true) {d : Char} (hd : d.isAlpha = false) : c ≠ d := by
  rintro rfl
  rw [hd] at hc
  cases hc

theorem isDigit_of_isAlpha (hc : c.isAlpha = true) : c.isDigit = false := by
  have hletter : 'A'.val ≤ c.val := by
    rcases Bool.or_eq_true_iff.mp hc with h | h
    · exact (of_decide_eq_true h).1
    · exact UInt32.le_trans (by decide) (of_decide_eq_true (Bool.and_eq_true_iff.mp h).1)
  refine Bool.and_eq_false_iff.mpr (.inr (decide_eq_false ?_))
  exact fun h => absurd (UInt32.le_trans hletter h) (by decide)

theorem isDigit_head?_append (hx : Lettered x) (hy : Lettered y) :
    ((w ++ x).head?.map Char.isDigit).getD false = ((w ++ y).head?.map Char.isDigit).getD false := by
  obtain ⟨c, _, rfl, hc⟩ := hx
  obtain ⟨d, _, rfl, hd⟩ := hy
  cases w with
  | nil => exact (isDigit_of_isAlpha hc).trans (isDigit_of_isAlpha hd).symm
  | cons a w => rfl

theorem startsComment_lettered (hy : Lettered y) (h : startsComment (c :: (w ++ x)) = false) :
    startsComment (c :: (w ++ y)) = false := by
  cases w with
  | nil =>
    obtain ⟨d, _, rfl, hd⟩ := hy
    have hslash : d ≠ '/' := ne_of_isAlpha hd rfl
    have hstar : d ≠ '*' := ne_of_isAlpha hd rfl
    simp [startsComment_cons_cons, hslash, hstar]
  | cons a w => rwa [List.cons_append, startsComment_cons_cons] at h ⊢

theorem Separator.append_of_lettered (hx : Lettered x) (h : Separator (w ++ x) lead) (y : List Char) :
    Separator (w ++ y) lead := by
  cases h with
  | space hc => exact .space hc
  | line htext hrest =>
    refine .line htext ?_
    cases w with
    | nil =>
      obtain ⟨c, _, rfl, hc⟩ := hx
      exact absurd (hrest c rfl) (ne_of_isAlpha hc rfl)
    | cons a w => exact hrest
  | block htext => exact .block htext

theorem exists_eq_append_cons {inner : List Char} (h : w ++ x = inner ++ c :: rest) (hn : inner.length + 1 ≤ w.length) :
    ∃ tail, w = inner ++ c :: tail := by
  rcases List.append_eq_append_iff.mp h with ⟨m, rfl, -⟩ | ⟨m, rfl, hm⟩
  · rw [List.length_append] at hn
    omega
  · cases m with
    | nil =>
      rw [List.append_nil] at hn
      omega
    | cons d m =>
      cases hm
      exact ⟨m, rfl⟩

theorem stringSize?_quoted {quote : Char} (hquote : quote ≠ '\\') {inner : List Char} (h : Quoted quote inner) :
    stringSize? quote (inner ++ quote :: rest) = some (inner.length + 1) := by
  induction h with
  | empty => rw [List.nil_append, stringSize?.eq_2 _ _ _ (by simp [hquote]), if_pos rfl, List.length_nil]
  | escape _ ih => simp [stringSize?, ih]
  | char hescape hne hline _ ih =>
    rw [List.cons_append, stringSize?.eq_2 _ _ _ (by simp [hescape]), if_neg hne, if_neg hline, ih]
    rfl

theorem templateSize_derives {items : List Char} (h : Derives .template items) (pos : Nat) :
    templateSize pos (items ++ '`' :: rest) = .ok (items.length + 1) := by
  generalize hlevel : Level.template = level at h
  induction h generalizing pos with
  | empty => rw [List.nil_append, templateSize.eq_3 _ _ _ (by simp) (by simp), if_pos rfl, List.length_nil]
  | escape _ ih =>
    rw [List.cons_append, List.cons_append, templateSize, ih _ hlevel]
    rfl
  | @interpolation inner items hinner _ _ ih =>
    have hclose : closingBrace? (inner ++ '}' :: (items ++ '`' :: rest)) = some (byteLength inner) :=
      closingBrace?_eq_some_iff.mpr ⟨inner, _, rfl, rfl, hinner⟩
    have hdrop : (inner ++ '}' :: (items ++ '`' :: rest)).drop (inner.length + 1) = items ++ '`' :: rest := by
      simp [List.drop_append]
    rw [List.append_assoc, List.cons_append, List.cons_append, List.cons_append, templateSize, hclose]
    dsimp only
    rw [Text.takeBytes_append, hdrop, ih _ hlevel]
    simp only [Except.map, List.length_append, List.length_cons, Except.ok.injEq]
    omega
  | @other c items hescape hclose hopen _ ih =>
    have hbrace : ∀ tail, c = '$' → items ++ '`' :: rest ≠ '{' :: tail := by
      intro tail hc heq
      cases items with
      | nil => cases heq
      | cons d items =>
        cases heq
        exact hopen hc rfl
    rw [List.cons_append, templateSize.eq_3 _ _ _ (by simp [hescape]) hbrace, if_neg hclose, ih _ hlevel]
    rfl
  | _ => cases hlevel

theorem regexSize?_append {inClass : Bool} (hx : x ≠ []) (h : regexSize? inClass (w ++ x) = some n) (hn : n ≤ w.length)
    (y : List Char) : regexSize? inClass (w ++ y) = some n := by
  generalize hcs : w ++ x = cs at h
  fun_induction regexSize? inClass cs generalizing w n with
  | case1 inClass c cs ih =>
    obtain ⟨m, hm, rfl⟩ := Option.map_eq_some_iff.mp h
    obtain _ | ⟨_, _ | ⟨_, w⟩⟩ := w
    · cases hn
    · simp at hn
    · cases hcs
      simp [regexSize?, ih (by simpa using hn) rfl hm]
  | case3 inClass c cs hescape hline hslash =>
    cases h
    cases w with
    | nil => cases hn
    | cons _ w =>
      cases hcs
      rw [List.cons_append, regexSize?.eq_2 _ _ _ (by rintro _ _ rfl; simp at hslash), if_neg hline, if_pos hslash]
  | case4 inClass c cs hescape hline hslash =>
    rename_i ih
    obtain ⟨m, hm, rfl⟩ := Option.map_eq_some_iff.mp h
    cases w with
    | nil => cases hn
    | cons _ w =>
      cases hcs
      have hc : c ≠ '\\' := by
        intro hc
        obtain ⟨d, tail, htail⟩ := List.exists_cons_of_ne_nil (List.append_ne_nil_of_right_ne_nil w hx)
        exact hescape d tail hc htail
      rw [List.cons_append, regexSize?.eq_2 _ _ _ (by simp [hc]), if_neg hline, if_neg hslash]
      dsimp only
      rw [ih (by simpa using hn) rfl hm]
      rfl
  | _ => cases h

theorem takeWhile_append_eq {p : Char → Bool} (hp : ∀ c, c.isAlpha = true → p c = true) (hx : Lettered x)
    (hn : ((w ++ x).takeWhile p).length ≤ w.length) (y : List Char) : (w ++ y).takeWhile p = (w ++ x).takeWhile p := by
  obtain ⟨c, tail, rfl, hc⟩ := hx
  rw [List.takeWhile_append] at hn ⊢
  rw [List.takeWhile_append]
  split
  · -- a run up to the letter would go on with it
    rename_i hall
    rw [if_pos hall, List.takeWhile_cons_of_pos (hp c hc), List.length_append, List.length_cons] at hn
    omega
  · rfl

theorem numberSize_append {first : Char} (hx : Lettered x) (hn : numberSize first (w ++ x) ≤ w.length) (y : List Char) :
    numberSize first (w ++ y) = numberSize first (w ++ x) := by
  induction w generalizing first with
  | nil =>
    obtain ⟨c, tail, rfl, hc⟩ := hx
    rw [List.nil_append, numberSize, if_pos (by simp [Char.isAlphanum, hc])] at hn
    cases hn
  | cons a w ih =>
    rw [List.cons_append, numberSize] at hn ⊢
    rw [List.cons_append, numberSize]
    split
    · rename_i ha
      rw [if_pos ha, List.length_cons] at hn
      rw [ih (by omega)]
    · rfl

/-- No punctuator has a letter, so that the one at the start of a text ends before any letter. -/
theorem find?_punctuators_append (hx : Lettered x) (hy : Lettered y) :
    punctuators.find? (·.isPrefixOf (w ++ x)) = punctuators.find? (·.isPrefixOf (w ++ y)) := by
  have hcut : ∀ {x p : List Char}, Lettered x → p.all (!·.isAlpha) = true → ∀ w, p.isPrefixOf (w ++ x) = p.isPrefixOf w := by
    rintro _ p ⟨c, tail, rfl, hc⟩ hp w
    induction w generalizing p with
    | nil =>
      cases p with
      | nil => rfl
      | cons a p =>
        have ha : a ≠ c := by
          rintro rfl
          simp [hc] at hp
        simp [List.isPrefixOf, ha]
    | cons b w ih =>
      cases p with
      | nil => rfl
      | cons a p =>
        rw [List.all_cons, Bool.and_eq_true] at hp
        rw [List.cons_append, List.isPrefixOf, List.isPrefixOf, ih hp.2]
  have hall : punctuators.all (·.all (!·.isAlpha)) = true := by decide +kernel
  refine List.find?_congr fun p hp => ?_
  rw [hcut hx (List.all_eq_true.mp hall p hp), hcut hy (List.all_eq_true.mp hall p hp)]

/-- The size of a token that ends before a letter does not depend on the text from the letter on. -/
theorem tokenSize_append {kind : TokenKind} (hx : Lettered x) (hy : Lettered y)
    (h : tokenSize last pos c (w ++ x) = .ok (kind, n)) (hn : n ≤ w.length) :
    tokenSize last pos c (w ++ y) = .ok (kind, n) := by
  have hne : x ≠ [] := by
    obtain ⟨_, _, rfl, -⟩ := hx
    exact List.cons_ne_nil _ _
  rw [tokenSize] at h ⊢
  split at h
  case isTrue hquote =>
    rw [if_pos hquote]
    split at h
    case h_2 => cases h
    case h_1 m hm =>
      cases h
      obtain ⟨inner, rest, heq, rfl, hinner⟩ := quoted_of_stringSize? hm
      obtain ⟨tail, rfl⟩ := exists_eq_append_cons heq hn
      have hc : c ≠ '\\' := by
        rintro rfl
        cases hquote
      rw [List.append_assoc, List.cons_append, stringSize?_quoted hc hinner]
  case isFalse hquote =>
  rw [if_neg hquote]
  split at h
  case isTrue hmark =>
    rw [if_pos hmark]
    split at h
    case h_2 => cases h
    case h_3 => cases h
    case h_1 m hm =>
      cases h
      obtain ⟨items, rest, heq, rfl, hitems⟩ := derives_of_templateSize hm
      obtain ⟨tail, rfl⟩ := exists_eq_append_cons heq hn
      rw [List.append_assoc, List.cons_append, templateSize_derives hitems]
  case isFalse hmark =>
  rw [if_neg hmark, ← isDigit_head?_append hx hy]
  split at h
  case isTrue hnumber =>
    cases h
    rw [if_pos hnumber, numberSize_append hx hn]
  case isFalse hnumber =>
  rw [if_neg hnumber]
  split at h
  case isTrue hslash =>
    rw [if_pos hslash]
    split at h
    case h_2 => cases h
    case h_1 m hm =>
      cases h
      have hle : m ≤ w.length := by omega
      rw [List.drop_append_of_le_length hle] at hn
      rw [regexSize?_append hne hm hle, List.drop_append_of_le_length hle]
      dsimp only
      rw [List.drop_append_of_le_length hle, takeWhile_append_eq (fun _ hc => hc) hx (by rw [List.length_drop]; omega)]
  case isFalse hslash =>
  rw [if_neg hslash]
  split at h
  case isTrue hstart =>
    cases h
    rw [if_pos hstart, takeWhile_append_eq (fun c hc => by simp [isWordPart, isWordStart, hc]) hx hn]
  case isFalse hstart =>
    rw [if_neg hstart, ← List.cons_append, ← find?_punctuators_append hx hy]
    exact h

/-! ## A keyword and its replacement -/

/-- A word that starts a declaration, and the text of the same size that stands in its place in the plain text. -/
inductive Keyword : String → String → Prop
  | state : Keyword "state" "let  "
  | prop : Keyword "prop" "let "

variable {word new : String}

theorem Keyword.byteLength_eq (h : Keyword word new) : byteLength new.toList = byteLength word.toList := by
  cases h <;> rfl

theorem Keyword.lettered (h : Keyword word new) (rest : List Char) :
    Lettered (word.toList ++ rest) ∧ Lettered (new.toList ++ rest) := by
  cases h <;> exact ⟨⟨_, _, rfl, rfl⟩, _, _, rfl, rfl⟩

/-- The word `let` in the place of the token. -/
def Token.plain (t : Token) : Token :=
  { t with text := "let", stop := t.start + 3 }

/-- Of the token before a text it only counts whether a regular expression may follow. -/
theorem Lexed.of_last {last' : Option Token} (hlast : regexMayFollow last = regexMayFollow last')
    (h : Lexed last newline pos cs ts) : Lexed last' newline pos cs ts := by
  induction h with
  | done => exact .done
  | gap hlead _ ih => exact .gap hlead (ih hlast)
  | token hsize hspace hcomment htext hstop h =>
    rw [tokenSize, hlast, ← tokenSize] at hsize
    exact .token hsize hspace hcomment htext hstop h

theorem Lexed.space (h : Lexed last newline (pos + 1) cs ts) : Lexed last newline pos (' ' :: cs) ts := by
  refine @Lexed.gap last newline pos [' '] cs ts (.space rfl) ?_
  rwa [show (newline || [' '].contains '\n') = newline by simp]

/-- The text of the replacement is the word `let` and blanks, after which the same is read as after the keyword. -/
theorem Lexed.keyword (hword : Keyword word new) (ht : t.isWord word = true)
    (h : Lexed (some t) false (t.start + byteLength word.toList) rest ts) :
    Lexed last t.newlineBefore t.start (new.toList ++ rest) (t.plain :: ts) := by
  obtain ⟨hkind, htext⟩ : t.kind = .word ∧ t.text = word := by simpa [Token.isWord] using ht
  have hlast : regexMayFollow (some t) = regexMayFollow (some t.plain) := by
    cases hword <;> simp [regexMayFollow, Token.plain, hkind, htext, regexLeaders]
  have hlet : ∀ blanks, Lexed (some t.plain) false (t.start + 3) (' ' :: blanks) ts →
      Lexed last t.newlineBefore t.start ('l' :: 'e' :: 't' :: ' ' :: blanks) (t.plain :: ts) := by
    intro blanks hblanks
    refine @Lexed.token last t.plain 'l' ('e' :: 't' :: ' ' :: blanks) ts 2 ?_ rfl rfl rfl rfl hblanks
    rw [show t.plain.kind = .word from hkind, tokenSize]
    simp [isWordPart, isWordStart]
  have h := h.of_last hlast
  cases hword with
  | state => exact hlet _ h.space.space
  | prop => exact hlet _ h.space

/-- Where a keyword is among the tokens of a text, its replacement is read in its place. -/
theorem Lexed.replace (hword : Keyword word new) (ht : t.isWord word = true)
    (h : Lexed last newline pos cs (before ++ t :: after)) :
    ∃ lead rest, cs = lead ++ word.toList ++ rest ∧ t.start = pos + byteLength lead ∧
      Lexed last newline pos (lead ++ new.toList ++ rest) (before ++ t.plain :: after) := by
  generalize hts : before ++ t :: after = ts at h
  induction h generalizing before with
  | done => simp at hts
  | @gap last newline pos gap cs ts hgap _ ih =>
    obtain ⟨lead, rest, rfl, hstart, hread⟩ := ih hts
    refine ⟨gap ++ lead, rest, by simp, by rw [hstart, Text.byteLength_append, Nat.add_assoc], ?_⟩
    rw [List.append_assoc] at hgap hread
    rw [List.append_assoc, List.append_assoc]
    exact .gap (hgap.append_of_lettered (hword.lettered rest).1 _) hread
  | @token last s c cs ts n hsize hspace hcomment htext hstop h ih =>
    cases before with
    | nil =>
      cases hts
      have hchars : c :: cs.take n = word.toList := by
        have heq : t.text = word := by simpa using (Bool.and_eq_true_iff.mp ht).2
        rw [← heq, htext, String.toList_ofList]
      rw [hstop, hchars] at h
      refine ⟨[], cs.drop n, ?_, rfl, h.keyword hword ht⟩
      rw [List.nil_append, ← hchars, List.cons_append, List.take_append_drop]
    | cons _ before =>
      cases hts
      obtain ⟨lead, rest, hsplit, hstart, hread⟩ := ih rfl
      obtain ⟨hold, hnew⟩ := hword.lettered rest
      obtain ⟨text, rfl, rfl⟩ : ∃ text, cs = text ++ (lead ++ word.toList ++ rest) ∧ n = text.length := by
        have hlong : n ≤ cs.length := by
          have hlength := congrArg List.length hsplit
          obtain ⟨_, _, heq, -⟩ := hold
          rw [List.append_assoc, heq, List.length_append, List.length_cons, List.length_drop] at hlength
          omega
        refine ⟨cs.take n, ?_, (List.length_take_of_le hlong).symm⟩
        rw [← hsplit, List.take_append_drop]
      rw [List.take_left] at htext hstop
      refine ⟨c :: text ++ lead, rest, by simp only [List.cons_append, List.append_assoc], ?_, ?_⟩
      · rw [hstart, hstop, Text.byteLength_append, Nat.add_assoc]
      · rw [List.append_assoc, ← List.append_assoc] at hsize hcomment
        have htoken := @Lexed.token last s c (text ++ (lead ++ new.toList ++ rest)) (before ++ t.plain :: after) text.length
        rw [List.take_left, List.drop_left] at htoken
        rw [List.cons_append, List.cons_append, List.cons_append, List.append_assoc, List.append_assoc,
          ← List.append_assoc lead]
        refine htoken ?_ hspace ?_ htext hstop hread
        · rw [List.append_assoc, ← List.append_assoc]
          exact tokenSize_append hold hnew hsize (by simp)
        · rw [List.append_assoc, ← List.append_assoc]
          exact startsComment_lettered hnew hcomment

/-- Putting the replacement of a keyword into a script changes this token and no other. -/
theorem tokens_apply (hword : Keyword word new) (ht : t.isWord word = true) (h : tokens cs = .ok (before ++ t :: after)) :
    tokens (Code.Edit.apply ⟨⟨t.start, t.start + byteLength word.toList⟩, new⟩ cs) = .ok (before ++ t.plain :: after) ∧
      byteLength (Code.Edit.apply ⟨⟨t.start, t.start + byteLength word.toList⟩, new⟩ cs) = byteLength cs := by
  obtain ⟨lead, rest, rfl, hstart, hread⟩ := (lexed_of_tokensFrom h).replace hword ht
  rw [Nat.zero_add] at hstart
  rw [Code.Edit.apply_append hstart (by rw [Text.byteLength_append, hstart])]
  refine ⟨tokensFrom_of_lexed hread, ?_⟩
  simp only [Text.byteLength_append, hword.byteLength_eq]

end PageCompiler.Script
