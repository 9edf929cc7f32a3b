import PageCompiler.Proofs.TokenLayout

/-!
# The brace scan and the tokens of a script

The brace that closes an open one is found in two ways: by a scan of the text with a stack of frames
(`matchingBrace?`), and by a count over the tokens of a script (`Script.IsCloser`). They agree on every script that
has no regular expression, of which the scan does not know.

A string token is a text of the grammar of quoted texts, and a template token one of the grammar of template
literals. So the scan passes over what the tokens are made of and over what is between them (`Passes`), braces
apart, and the open braces of its stack are those that the count has seen (`Spelled.close?_eq`).
-/

namespace PageCompiler.Script

open Brace
open Text (byteLength)

variable {rest cs : List Char} {c : Char} {n pos : Nat} {t u : Token} {ts : List Token}

/-! ## Texts that the scan passes over -/

theorem startsComment_of_ne (h : c ≠ '/') (rest : List Char) : startsComment (c :: rest) = false := by
  cases rest with
  | nil => simp [startsComment]
  | cons d rest => simp [startsComment_cons_cons, h]

/-- Characters that neither open, close nor start anything are passed over one by one. -/
theorem passes_run {text : List Char} (h : ∀ c ∈ text, isPlain c = true ∧ c ≠ '/') (rest : List Char) :
    Passes text rest := by
  induction text with
  | nil => exact fun _ _ _ => rfl
  | cons c text ih =>
    obtain ⟨hc, htext⟩ := List.forall_mem_cons.mp h
    exact (passes_char hc.1 (startsComment_of_ne hc.2 _)).append (ih htext)

/-- A class of characters that has none of the marks of the scan has plain characters only. -/
theorem isPlain_of_class {p : Char → Bool} (hp : ['\'', '"', '`', '{', '}', '/'].all (!p ·) = true) {c : Char}
    (h : p c = true) : isPlain c = true ∧ c ≠ '/' := by
  have hmark : ∀ mark ∈ ['\'', '"', '`', '{', '}', '/'], c ≠ mark := by
    rintro mark hmem rfl
    have hnot := List.all_eq_true.mp hp c hmem
    rw [h] at hnot
    cases hnot
  simp_all [isPlain]

theorem passes_separator {lead : List Char} (h : Separator rest lead) : Passes lead rest := by
  cases h with
  | space hc =>
    have hplain := @isPlain_of_class Text.isSpace (by decide) _ hc
    exact passes_char hplain.1 (startsComment_of_ne hplain.2 _)
  | line htext hrest => exact passes_lineComment htext hrest
  | block htext => exact passes_blockComment htext rest

/-! ## Texts of tokens -/

theorem quoted_of_stringSize? {quote : Char} (h : stringSize? quote cs = some n) :
    ∃ inner rest, cs = inner ++ quote :: rest ∧ n = inner.length + 1 ∧ Quoted quote inner := by
  fun_induction stringSize? quote cs generalizing n with
  | case1 c cs ih =>
    obtain ⟨m, hm, rfl⟩ := Option.map_eq_some_iff.mp h
    obtain ⟨inner, rest, rfl, rfl, hinner⟩ := ih hm
    exact ⟨'\\' :: c :: inner, rest, rfl, rfl, .escape hinner⟩
  | case2 cs hescape =>
    cases h
    exact ⟨[], cs, rfl, rfl, .empty⟩
  | case3 => cases h
  | case4 c cs hescape hquote hline ih =>
    obtain ⟨m, hm, rfl⟩ := Option.map_eq_some_iff.mp h
    obtain ⟨inner, rest, rfl, rfl, hinner⟩ := ih hm
    have hc : c ≠ '\\' := by
      rintro rfl
      cases inner <;> exact hescape _ _ rfl rfl
    exact ⟨c :: inner, rest, rfl, rfl, .char hc hquote hline hinner⟩
  | case5 => cases h

/-- What a template token has after its opening mark is the inside of a template literal and the mark. -/
theorem derives_of_templateSize (h : templateSize pos cs = .ok n) :
    ∃ items rest, cs = items ++ '`' :: rest ∧ n = items.length + 1 ∧ Derives .template items := by
  fun_induction templateSize pos cs generalizing n with
  | case1 pos d cs ih =>
    obtain ⟨m, hm, rfl⟩ := map_eq_ok h
    obtain ⟨items, rest, rfl, rfl, hitems⟩ := ih hm
    exact ⟨'\\' :: d :: items, rest, rfl, rfl, .escape hitems⟩
  | case2 pos cs size hsize inner =>
    rename_i ih
    obtain ⟨m, hm, rfl⟩ := map_eq_ok h
    obtain ⟨code, after, rfl, rfl, hcode⟩ := closingBrace?_eq_some_iff.mp hsize
    have hinner : inner = code.length := congrArg List.length (Text.takeBytes_append _ _)
    have hdrop : (code ++ '}' :: after).drop (code.length + 1) = after := by simp [List.drop_append]
    rw [hinner, hdrop] at hm ih
    rw [hinner]
    obtain ⟨items, rest, rfl, rfl, hitems⟩ := ih hm
    refine ⟨'$' :: '{' :: code ++ '}' :: items, rest, by simp, ?_, .interpolation hcode hitems⟩
    simp only [List.length_cons, List.length_append]
    omega
  | case3 => cases h
  | case4 pos cs hescape hopen =>
    cases h
    exact ⟨[], cs, rfl, rfl, .empty⟩
  | case5 pos c cs hescape hopen hclose ih =>
    obtain ⟨m, hm, rfl⟩ := map_eq_ok h
    obtain ⟨items, rest, rfl, rfl, hitems⟩ := ih hm
    refine ⟨c :: items, rest, rfl, rfl, .other ?_ hclose ?_ hitems⟩
    · rintro rfl
      cases items <;> exact hescape _ _ rfl rfl
    · rintro rfl hhead
      obtain ⟨tail, rfl⟩ := List.head?_eq_some_iff.mp hhead
      exact hopen _ rfl rfl
  | case6 => cases h

theorem passes_template {items : List Char} (h : Derives .template items) (rest : List Char) :
    Passes ('`' :: items ++ ['`']) rest :=
  passes_literal (close?_append h (show Frame.level .template = .template from rfl)) rest

theorem numberSize_run (last : Char) (cs : List Char) :
    ∀ c ∈ cs.take (numberSize last cs), isPlain c = true ∧ c ≠ '/' := by
  fun_induction numberSize last cs with
  | case1 last c cs hc ih =>
    rw [List.take_succ_cons, List.forall_mem_cons]
    refine ⟨?_, ih⟩
    have hclass : (c.isAlphanum || c = '_' || c = '.' || c = '+' || c = '-') = true := by
      simp only [Bool.or_eq_true, Bool.and_eq_true] at hc ⊢
      rcases hc with hc | ⟨hc | hc, _⟩
      · exact .inl (.inl hc)
      · exact .inl (.inr hc)
      · exact .inr hc
    exact @isPlain_of_class (fun c => c.isAlphanum || c = '_' || c = '.' || c = '+' || c = '-') (by decide) _ hclass
  | case2 => simp
  | case3 => simp

theorem wordSize_run (cs : List Char) :
    ∀ c ∈ cs.take (cs.takeWhile isWordPart).length, isPlain c = true ∧ c ≠ '/' := by
  intro c hc
  have htake : cs.take (cs.takeWhile isWordPart).length = cs.takeWhile isWordPart :=
    (List.prefix_iff_eq_take.mp (List.takeWhile_prefix _)).symm
  rw [htake] at hc
  exact @isPlain_of_class isWordPart (by decide) c (List.all_eq_true.mp (List.all_takeWhile) c hc)

/-- A punctuator of several characters has no mark of the scan in it but a slash that it starts with. -/
theorem punctuators_plain {p : List Char} (hp : p ∈ punctuators) : (∀ c ∈ p.head?, isPlain c = true) ∧
    ∀ c ∈ p.tail, isPlain c = true ∧ c ≠ '/' := by
  have hall : punctuators.all (fun p => p.head?.all isPlain && p.tail.all fun c => isPlain c && c != '/') = true := by
    decide +kernel
  have hplain := List.all_eq_true.mp hall p hp
  rw [Bool.and_eq_true, List.all_eq_true, Option.all_eq_true] at hplain
  refine ⟨hplain.1, fun c hc => ?_⟩
  have hboth := hplain.2 c hc
  rwa [Bool.and_eq_true, bne_iff_ne] at hboth

/-- For the scan, a token that is no regular expression is a brace or a text to pass over. -/
theorem tokenSize_cases {last : Option Token} {kind : TokenKind} (h : tokenSize last pos c rest = .ok (kind, n))
    (hregex : kind ≠ .regex) (hcomment : startsComment (c :: rest) = false) :
    (kind = .punct ∧ (c = '{' ∨ c = '}') ∧ n = 0) ∨
      ((kind = .punct → c ≠ '{' ∧ c ≠ '}') ∧ Passes (c :: rest.take n) (rest.drop n)) := by
  rw [tokenSize] at h
  split at h
  case isTrue hquote =>
    right
    split at h
    case h_2 => cases h
    case h_1 m hm =>
      cases h
      obtain ⟨inner, after, rfl, rfl, hinner⟩ := quoted_of_stringSize? hm
      refine ⟨by simp, ?_⟩
      have hsplit : inner ++ c :: after = (inner ++ [c]) ++ after := by simp
      have hlength : inner.length + 1 = (inner ++ [c]).length := by simp
      rw [hsplit, hlength, List.take_left, List.drop_left]
      exact passes_quoted (by simpa [or_comm] using hquote) hinner after
  split at h
  case isTrue hmark =>
    right
    subst hmark
    split at h
    case h_2 => cases h
    case h_3 => cases h
    case h_1 m hm =>
      cases h
      obtain ⟨items, after, rfl, rfl, hitems⟩ := derives_of_templateSize hm
      refine ⟨by simp, ?_⟩
      have hsplit : items ++ '`' :: after = (items ++ ['`']) ++ after := by simp
      have hlength : items.length + 1 = (items ++ ['`']).length := by simp
      rw [hsplit, hlength, List.take_left, List.drop_left]
      exact passes_template hitems after
  -- Every other token has a first character that the scan reads by itself, and plain ones after it.
  have hrun : ∀ {m : Nat}, isPlain c = true → (∀ d ∈ rest.take m, isPlain d = true ∧ d ≠ '/') →
      Passes (c :: rest.take m) (rest.drop m) := by
    intro m hc htail
    have hfirst : Passes [c] (rest.take m ++ rest.drop m) := by
      rw [List.take_append_drop]
      exact passes_char hc hcomment
    exact hfirst.append (passes_run htail _)
  split at h
  case isTrue hdigit =>
    cases h
    refine .inr ⟨by simp, hrun ?_ (numberSize_run c rest)⟩
    have hclass : (c.isDigit || c = '.') = true := by
      simp only [Bool.or_eq_true, Bool.and_eq_true] at hdigit ⊢
      exact hdigit.imp_right And.left
    exact (@isPlain_of_class (fun c => c.isDigit || c = '.') (by decide) c hclass).1
  split at h
  case isTrue =>
    split at h
    · cases h
      exact absurd rfl hregex
    · cases h
  split at h
  case isTrue hstart =>
    cases h
    exact .inr ⟨by simp, hrun (@isPlain_of_class isWordStart (by decide) c hstart).1 (wordSize_run rest)⟩
  split at h
  case h_1 p hp =>
    cases h
    obtain ⟨hmem, hlead⟩ := And.intro (List.mem_of_find?_eq_some hp) (List.find?_some hp)
    obtain ⟨after, hafter⟩ := List.isPrefixOf_iff_prefix.mp hlead
    obtain ⟨hhead, htail⟩ := punctuators_plain hmem
    cases p with
    | nil => exact absurd hmem (by decide +kernel)
    | cons d p =>
      rw [List.cons_append, List.cons.injEq] at hafter
      obtain ⟨rfl, rfl⟩ := hafter
      have hc : isPlain d = true := hhead _ rfl
      refine .inr ⟨fun _ => ?_, hrun hc ?_⟩
      · constructor <;> rintro rfl <;> cases hc
      · rwa [List.length_cons, Nat.add_sub_cancel, List.take_left]
  case h_2 hnone =>
    cases h
    by_cases hbrace : c = '{' ∨ c = '}'
    · exact .inl ⟨rfl, hbrace, rfl⟩
    · refine .inr ⟨fun _ => not_or.mp hbrace, hrun ?_ (by simp)⟩
      simp_all [isPlain]

/-! ## Tokens in their text -/

/-- The tokens of a text at offset `pos`, of which none is a regular expression. -/
structure Spelled (pos : Nat) (cs : List Char) (ts : List Token) : Prop where
  lexed : ∃ last newline, Lexed last newline pos cs ts
  regex : ∀ t ∈ ts, t.kind ≠ .regex

theorem isPunct_eq_false {mark : Char} {tail : List Char} (htext : t.text = String.ofList (c :: tail))
    (h : t.kind = .punct → c ≠ mark) : t.isPunct (String.ofList [mark]) = false := by
  rw [Token.isPunct, htext, Bool.and_eq_false_imp, beq_eq_false_iff_ne]
  intro hkind heq
  rw [String.ofList_inj, List.cons.injEq] at heq
  exact h (by simpa using hkind) heq.1

theorem spelled_of_tokensFrom {last : Option Token} {newline : Bool} (h : tokensFrom last newline pos cs = .ok ts)
    (hregex : ∀ t ∈ ts, t.kind ≠ .regex) : Spelled pos cs ts :=
  ⟨⟨last, newline, lexed_of_tokensFrom h⟩, hregex⟩

/-- The text at an open brace among the tokens, and what the tokens after it spell. -/
theorem Spelled.split {before after : List Token} (h : Spelled pos cs ts) (hts : ts = before ++ t :: after)
    (ht : t.isPunct "\x7b" = true) :
    ∃ lead rest, cs = lead ++ '{' :: rest ∧ pos + byteLength lead = t.start ∧ Spelled (t.start + 1) rest after := by
  obtain ⟨⟨last, newline, hlexed⟩, hregex⟩ := h
  induction hlexed generalizing before with
  | done => simp at hts
  | @gap _ _ pos gap cs ts _ _ ih =>
    obtain ⟨lead, rest, rfl, hstart, hrest⟩ := ih hts hregex
    refine ⟨gap ++ lead, rest, by simp, ?_, hrest⟩
    rw [Text.byteLength_append, ← hstart, Nat.add_assoc]
  | @token _ s c cs ts n _ _ _ htext hstop hlexed ih =>
    have hregex' := (List.forall_mem_cons.mp hregex).2
    have hcs : cs.take n ++ cs.drop n = cs := List.take_append_drop n cs
    cases before with
    | nil =>
      cases hts
      -- The text of the token is the brace and nothing else.
      have hbrace : String.ofList (c :: cs.take n) = String.ofList ['{'] := by
        rw [← htext]
        simpa [Token.isPunct] using (Bool.and_eq_true_iff.mp ht).2
      obtain ⟨rfl, htake⟩ := List.cons.inj (String.ofList_inj.mp hbrace)
      rw [htake] at hcs hstop
      rw [show cs.drop n = cs from hcs, hstop] at hlexed
      exact ⟨[], cs, rfl, rfl, ⟨_, _, hlexed⟩, hregex'⟩
    | cons _ before =>
      cases hts
      obtain ⟨lead, rest, hsplit, hstart, hrest⟩ := ih rfl hregex'
      refine ⟨c :: cs.take n ++ lead, rest, ?_, ?_, hrest⟩
      · rw [List.append_assoc, ← hsplit, List.cons_append, hcs]
      · rw [Text.byteLength_append, ← hstart, hstop, Nat.add_assoc]

/-! ## Counting braces -/

/-- How many more braces the tokens open than they close. -/
def braceBalance (ts : List Token) : Int :=
  (ts.countP (·.isPunct "\x7b") : Int) - ts.countP (·.isPunct "\x7d")

def FirstIn (P : List Token → Token → Prop) (ts : List Token) (u : Token) : Prop :=
  ∃ mid post, ts = mid ++ u :: post ∧ P mid u ∧ ∀ earlier v later, mid = earlier ++ v :: later → ¬ P earlier v

/-- Among the tokens after the open brace `t`, `u` is the first closing brace at which, counted from `t` on, as many
braces are closed as are opened. -/
def IsCloser (t : Token) (after : List Token) (u : Token) : Prop :=
  FirstIn (fun mid v => v.isPunct "\x7d" = true ∧ braceBalance (t :: mid ++ [v]) = 0) after u

/-- The closing brace at which `depth` more braces are closed than opened since the first of the tokens. -/
def closer? : Nat → List Token → Option Token
  | _, [] => none
  | depth, t :: ts =>
    if t.isPunct "\x7b" then closer? (depth + 1) ts
    else if t.isPunct "\x7d" then
      if depth = 0 then some t else closer? (depth - 1) ts
    else closer? depth ts

/-- The frames of the scan are the braces that the count has open. -/
theorem Spelled.close?_eq (h : Spelled pos cs ts) (depth : Nat) :
    close? .code (List.replicate (depth + 1) .brace) pos cs = (closer? depth ts).map (·.start) := by
  have hstack : ∀ depth, InCode (List.replicate (depth + 1) .brace) := by
    intro depth below heq
    cases heq
  obtain ⟨⟨last, newline, hlexed⟩, hregex⟩ := h
  induction hlexed generalizing depth with
  | done => exact close?_nil _ _ _
  | @gap _ _ pos lead rest ts hlead _ ih =>
    rw [passes_separator hlead _ pos (hstack depth), ih depth hregex]
  | @token _ t c rest ts n hsize _ hcomment htext hstop _ ih =>
    obtain ⟨hkind, hregex⟩ := List.forall_mem_cons.mp hregex
    have hnext := fun depth => ih depth hregex
    rcases tokenSize_cases hsize hkind hcomment with ⟨hpunct, rfl | rfl, rfl⟩ | ⟨hbrace, hpasses⟩
    · have hopen : t.isPunct "\x7b" = true := by simp [Token.isPunct, hpunct, htext]
      rw [hstop] at hnext
      rw [close?_openBrace (hstack depth), closer?, if_pos hopen, ← hnext]
      rfl
    · have hopen : ¬ t.isPunct "\x7b" = true := by simp [Token.isPunct, htext]
      have hclose : t.isPunct "\x7d" = true := by simp [Token.isPunct, hpunct, htext]
      rw [hstop] at hnext
      rw [closer?, if_neg hopen, if_pos hclose]
      cases depth with
      | zero => exact close?_lastBrace (by simp) _ _
      | succ depth => exact (close?_closeBrace (by simp) _ _ _ _).trans (hnext depth)
    · have hopen := isPunct_eq_false htext fun hpunct => (hbrace hpunct).1
      have hclose := isPunct_eq_false htext fun hpunct => (hbrace hpunct).2
      have hscan := hpasses _ t.start (hstack depth)
      rw [List.cons_append, List.take_append_drop, ← hstop, hnext] at hscan
      rw [hscan, closer?, if_neg (by simp [hopen]), if_neg (by simp [hclose])]

theorem firstIn_nil {P : List Token → Token → Prop} : ¬ FirstIn P [] u := by
  rintro ⟨mid, post, heq, _⟩
  simp at heq

theorem firstIn_cons {P : List Token → Token → Prop} :
    FirstIn P (t :: ts) u ↔ (P [] t ∧ t = u) ∨ (¬ P [] t ∧ FirstIn (fun mid => P (t :: mid)) ts u) := by
  constructor
  · rintro ⟨mid, post, heq, hu, hfirst⟩
    cases mid with
    | nil =>
      cases heq
      exact .inl ⟨hu, rfl⟩
    | cons _ mid =>
      cases heq
      refine .inr ⟨hfirst [] t mid rfl, mid, post, rfl, hu, fun earlier v later hmid => ?_⟩
      exact hfirst (t :: earlier) v later (by rw [hmid]; rfl)
  · rintro (⟨ht, rfl⟩ | ⟨ht, mid, post, rfl, hu, hfirst⟩)
    · exact ⟨[], ts, rfl, ht, by simp⟩
    · refine ⟨t :: mid, post, rfl, hu, fun earlier v later hmid => ?_⟩
      cases earlier with
      | nil =>
        cases hmid
        exact ht
      | cons _ earlier =>
        cases hmid
        exact hfirst earlier v later rfl

theorem braceBalance_cons (t : Token) (ts : List Token) :
    braceBalance (t :: ts) = braceBalance [t] + braceBalance ts := by
  simp only [braceBalance, List.countP_cons, List.countP_nil]
  omega

theorem braceBalance_opening (ht : t.isPunct "\x7b" = true) : braceBalance [t] = 1 := by
  have hclose : t.isPunct "\x7d" = false := by simp_all [Token.isPunct]
  simp [braceBalance, ht, hclose]

theorem braceBalance_closing (ht : t.isPunct "\x7d" = true) : braceBalance [t] = -1 := by
  have hopen : t.isPunct "\x7b" = false := by simp_all [Token.isPunct]
  simp [braceBalance, ht, hopen]

/-- The token closes the last of the braces that are open if `depth` of them are open before the tokens `mid`. -/
def ReturnsTo0 (depth : Int) (mid : List Token) (v : Token) : Prop :=
  v.isPunct "\x7d" = true ∧ depth + braceBalance (mid ++ [v]) = 0

/-- A token that does not close the last brace only changes how many are open. -/
theorem firstIn_returnsTo0_cons {depth : Int} (ht : ¬ ReturnsTo0 depth [] t) :
    FirstIn (ReturnsTo0 depth) (t :: ts) u ↔ FirstIn (ReturnsTo0 (depth + braceBalance [t])) ts u := by
  have hshift : (fun mid => ReturnsTo0 depth (t :: mid)) = ReturnsTo0 (depth + braceBalance [t]) := by
    funext mid v
    rw [ReturnsTo0, ReturnsTo0, List.cons_append, braceBalance_cons, Int.add_assoc]
  rw [firstIn_cons, hshift]
  simp [ht]

theorem closer?_eq_some_iff {depth : Nat} : closer? depth ts = some u ↔ FirstIn (ReturnsTo0 (depth + 1)) ts u := by
  fun_induction closer? depth ts with
  | case1 => simp [firstIn_nil]
  | case2 depth t ts ht ih =>
    have hnot : ¬ ReturnsTo0 (depth + 1) [] t := fun hreturns => by
      have hclose := hreturns.1
      simp_all [Token.isPunct]
    rw [ih, firstIn_returnsTo0_cons hnot, braceBalance_opening ht]
    rfl
  | case3 t ts hopen ht =>
    have hreturns : ReturnsTo0 1 [] t := ⟨ht, by rw [List.nil_append, braceBalance_closing ht]; rfl⟩
    rw [firstIn_cons]
    simp [hreturns]
  | case4 depth t ts hopen ht hdepth ih =>
    have hnot : ¬ ReturnsTo0 (depth + 1) [] t := fun hreturns => by
      have hzero := hreturns.2
      rw [List.nil_append, braceBalance_closing ht] at hzero
      omega
    have hless : (depth + 1 : Int) + -1 = (depth - 1 : Nat) + 1 := by omega
    rw [ih, firstIn_returnsTo0_cons hnot, braceBalance_closing ht, hless]
  | case5 depth t ts hopen hclose ih =>
    have hzero : braceBalance [t] = 0 := by simp [braceBalance, hopen, hclose]
    rw [ih, firstIn_returnsTo0_cons fun hreturns => hclose hreturns.1, hzero, Int.add_zero]

/-- The brace that the scan finds for an open brace of a script is where the count of the braces among its tokens comes
back to zero for the first time; and none is found where it never does. -/
theorem matchingBrace?_counts {src : List Char} {ts before after : List Token} {t : Token}
    (h : tokens src = .ok ts) (hregex : ∀ s ∈ ts, s.kind ≠ .regex) (hts : ts = before ++ t :: after)
    (ht : t.isPunct "\x7b" = true) :
    (∀ c, matchingBrace? t.start src = some c ↔ ∃ u, IsCloser t after u ∧ u.start = c) ∧
      (matchingBrace? t.start src = none ↔ ∀ u, ¬ IsCloser t after u) := by
  obtain ⟨lead, rest, rfl, hlead, hspelled⟩ := (spelled_of_tokensFrom h hregex).split hts ht
  rw [Nat.zero_add] at hlead
  have hscan : matchingBrace? t.start (lead ++ '{' :: rest) = (closer? 0 after).map (·.start) := by
    rw [← hlead, matchingBrace?_append, hlead]
    exact hspelled.close?_eq 0
  have hcloser : ∀ u, closer? 0 after = some u ↔ IsCloser t after u := by
    intro u
    rw [closer?_eq_some_iff, IsCloser]
    simp only [List.cons_append, braceBalance_cons t (_ ++ _), braceBalance_opening ht]
    rfl
  rw [hscan]
  refine ⟨fun c => ?_, ?_⟩
  · simp only [Option.map_eq_some_iff, hcloser]
  · rw [Option.map_eq_none_iff, Option.eq_none_iff_forall_ne_some]
    exact forall_congr' fun u => not_congr (hcloser u)

/-- A block with braces in a string, in a comment and in interpolations inside of each other. -/
def nestedBlock : List Char :=
  "\x7b'\x7d' /* \x7d */ `$\x7b`$\x7bc\x7d`\x7d\x7d`\x7d".toList

def nestedTokens : Token × List Token :=
  (⟨.punct, "\x7b", 0, 1, false⟩, [⟨.string, "'\x7d'", 1, 4, false⟩,
    ⟨.template, "`$\x7b`$\x7bc\x7d`\x7d\x7d`", 13, 25, false⟩, ⟨.punct, "\x7d", 25, 26, false⟩])

theorem matchingBrace?_counts_nested :
    tokens nestedBlock = .ok (nestedTokens.1 :: nestedTokens.2) ∧ matchingBrace? 0 nestedBlock = some 25 ∧
      ∃ u, IsCloser nestedTokens.1 nestedTokens.2 u ∧ u.start = 25 := by
  have hread : (tokens nestedBlock).toOption.any (· = nestedTokens.1 :: nestedTokens.2) = true := by decide +kernel
  have htokens : tokens nestedBlock = .ok (nestedTokens.1 :: nestedTokens.2) := by
    obtain ⟨ts, hts, heq⟩ := exists_eq_ok_of_any hread
    rw [hts, of_decide_eq_true heq]
  have hbrace : matchingBrace? 0 nestedBlock = some 25 := by decide +kernel
  have hregex : ∀ s ∈ nestedTokens.1 :: nestedTokens.2, s.kind ≠ .regex := by decide +kernel
  have hcounts := matchingBrace?_counts htokens hregex (List.nil_append _).symm (by decide +kernel)
  exact ⟨htokens, hbrace, (hcounts.1 25).mp hbrace⟩

end PageCompiler.Script
