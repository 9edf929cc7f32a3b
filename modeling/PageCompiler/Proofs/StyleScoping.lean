import Mathlib.Data.List.TakeWhile
import Mathlib.Logic.Function.Basic
import PageCompiler.Emit.Style
import PageCompiler.Proofs.ExpressionPositions

/-!
# Confined styles

A style is a sequence of rules (`Sheet`): lists of selectors with a block, conditional at-rules around a style, other
at-rules with a block, and statements. Confining the rules of a style keeps this sequence and writes new lists of selectors
(`confinedRules_text`), provided that the braces of the conditional at-rules are those that the scan of blocks finds. It
finds them if the statements inside close their quotes (`Sheet.passes_text`).
-/

namespace PageCompiler.Emit

open Text

variable {depth : Nat} {c : Char} {cs : List Char} {ss : List (List Char)}

variable {s body after : List Char} {quote : Option Char}

/-! ## Lists of selectors -/

def bracketDepth (depth : Nat) (c : Char) : Nat :=
  if c = '[' || c = '(' then depth + 1 else if c = ']' || c = ')' then depth - 1 else depth

/-- Whether the brackets are balanced and commas stand in brackets only, the text being inside `depth` brackets. -/
def balanced : Nat → List Char → Bool
  | depth, [] => depth = 0
  | depth, c :: cs => (depth ≠ 0 || c ∉ [',', ']', ')']) && balanced (bracketDepth depth c) cs

theorem selectors_cons (hc : ¬ (c = ',' ∧ depth = 0)) (h : selectors (bracketDepth depth c) cs = s :: ss) :
    selectors depth (c :: cs) = (c :: s) :: ss := by
  rw [bracketDepth] at h
  rw [selectors, if_neg (by simpa using hc)]
  simp only [h]

theorem selectors_comma (cs : List Char) : selectors 0 (',' :: cs) = [] :: selectors 0 cs :=
  rfl

theorem exists_selectors (depth : Nat) (cs : List Char) : ∃ s ss, selectors depth cs = s :: ss := by
  induction cs generalizing depth with
  | nil => exact ⟨[], [], rfl⟩
  | cons c cs ih =>
    by_cases hc : c = ',' ∧ depth = 0
    · rw [hc.1, hc.2]
      exact ⟨[], _, selectors_comma cs⟩
    · obtain ⟨s, ss, h⟩ := ih (bracketDepth depth c)
      exact ⟨c :: s, ss, selectors_cons hc h⟩

theorem selectors_append {rest : List Char} (hrest : selectors 0 rest = s :: ss) (h : balanced depth cs = true) :
    selectors depth (cs ++ rest) = (cs ++ s) :: ss := by
  induction cs generalizing depth with
  | nil =>
    have hdepth : depth = 0 := by simpa [balanced] using h
    rw [hdepth]
    exact hrest
  | cons c cs ih =>
    rw [balanced, Bool.and_eq_true] at h
    refine selectors_cons ?_ (ih h.2)
    grind

theorem bracketDepth_blank (hc : isBlank c = true) (depth : Nat) : bracketDepth depth c = depth := by
  have hne : ∀ d ∈ ['[', '(', ']', ')'], c ≠ d := by
    rintro d hd rfl
    simp only [List.mem_cons, List.not_mem_nil, or_false] at hd
    rcases hd with rfl | rfl | rfl | rfl <;> cases hc
  simp [bracketDepth, hne]

theorem selectors_cons_blank (hc : isBlank c = true) (h : selectors depth cs = s :: ss) :
    selectors depth (c :: cs) = (c :: s) :: ss := by
  refine selectors_cons ?_ ?_
  · rintro ⟨rfl, -⟩
    cases hc
  · rwa [bracketDepth_blank hc]

theorem map_trim_selectors_trimStart (depth : Nat) (cs : List Char) :
    (selectors depth (trimStart cs)).map trim = (selectors depth cs).map trim := by
  induction cs with
  | nil => rfl
  | cons c cs ih =>
    by_cases hc : isBlank c = true
    · obtain ⟨s, ss, hs⟩ := exists_selectors depth cs
      rw [selectors_cons_blank hc hs, List.map_cons, trim_cons_blank hc, ← List.map_cons, ← hs, ← ih, trimStart,
        List.dropWhile_cons_of_pos hc]
      rfl
    · rw [trimStart, List.dropWhile_cons_of_neg hc]

theorem exists_selectors_append_blanks {blanks : List Char} (h : ∀ c ∈ blanks, isBlank c = true) (depth : Nat)
    (cs : List Char) :
    ∃ init last, selectors depth cs = init ++ [last] ∧ selectors depth (cs ++ blanks) = init ++ [last ++ blanks] := by
  induction cs generalizing depth with
  | nil =>
    refine ⟨[], [], rfl, ?_⟩
    induction blanks with
    | nil => rfl
    | cons c blanks ih =>
      exact selectors_cons_blank (h c (.head _)) (ih fun d hd => h d (.tail _ hd))
  | cons c cs ih =>
    by_cases hc : c = ',' ∧ depth = 0
    · rw [hc.1, hc.2]
      obtain ⟨init, last, hbefore, hafter⟩ := ih 0
      refine ⟨[] :: init, last, ?_, ?_⟩
      · rw [selectors_comma, hbefore]
        rfl
      · rw [List.cons_append, selectors_comma, hafter]
        rfl
    · obtain ⟨init, last, hbefore, hafter⟩ := ih (bracketDepth depth c)
      cases init with
      | nil => exact ⟨[], c :: last, selectors_cons hc hbefore, selectors_cons hc hafter⟩
      | cons s init => exact ⟨(c :: s) :: init, last, selectors_cons hc hbefore, selectors_cons hc hafter⟩

theorem map_trim_selectors_trimEnd (depth : Nat) (cs : List Char) :
    (selectors depth (trimEnd cs)).map trim = (selectors depth cs).map trim := by
  obtain ⟨blanks, hsplit, hblanks⟩ : ∃ blanks, cs = trimEnd cs ++ blanks ∧ ∀ c ∈ blanks, isBlank c = true := by
    refine ⟨(cs.reverse.takeWhile isBlank).reverse, ?_, fun c hc => ?_⟩
    · rw [trimEnd, ← List.reverse_append, List.takeWhile_append_dropWhile, List.reverse_reverse]
    · exact List.mem_takeWhile_imp (List.mem_reverse.mp hc)
  obtain ⟨init, last, hbefore, hafter⟩ := exists_selectors_append_blanks hblanks depth (trimEnd cs)
  rw [← hsplit] at hafter
  rw [hbefore, hafter]
  simp [trim_append_blanks hblanks]

/-- Blanks around a list of selectors do not matter for what becomes of them. -/
theorem map_confined_selectors_trim (marker cs : List Char) :
    (selectors 0 (trim cs)).map (confined marker) = (selectors 0 cs).map (confined marker) := by
  have hfactors : Function.FactorsThrough (confined marker) trim := by
    intro s s' h
    rw [confined, confined, h]
  obtain ⟨g, hg⟩ := (Function.factorsThrough_iff _).mp hfactors
  rw [hg, ← List.map_map, ← List.map_map, trim, map_trim_selectors_trimEnd, map_trim_selectors_trimStart]

/-! ## Blocks -/

theorem blockEnd?_open (depth : Nat) (cs : List Char) :
    blockEnd? depth none ('{' :: cs) = (blockEnd? (depth + 1) none cs).map fun p => ('{' :: p.1, p.2) :=
  rfl

theorem blockEnd?_close (depth : Nat) (cs : List Char) :
    blockEnd? (depth + 1) none ('}' :: cs) = (blockEnd? depth none cs).map fun p => ('}' :: p.1, p.2) :=
  rfl

theorem blockEnd?_plain (hbraces : c ≠ '}' ∧ c ≠ '{') (depth : Nat) (cs : List Char) : blockEnd? depth none (c :: cs) =
      (blockEnd? depth (if c = '"' || c = '\'' then some c else none) cs).map fun p => (c :: p.1, p.2) := by
  rw [blockEnd?.eq_def]
  simp only [if_neg hbraces.1, if_neg hbraces.2]
  split
  · rfl
  · rfl

theorem exists_of_map_cons {scan : Option (List Char × List Char)}
    (h : (scan.map fun p => (c :: p.1, p.2)) = some (body, after)) :
    ∃ later, body = c :: later ∧ scan = some (later, after) := by
  obtain ⟨p, rfl, hp⟩ := Option.map_eq_some_iff.mp h
  cases hp
  exact ⟨_, rfl, rfl⟩

/-- A scan that closes a block does so inside of other blocks too, and goes on from its brace. -/
theorem blockEnd?_resume (h : blockEnd? depth quote cs = some (body, after)) (outer : Nat) (rest : List Char) :
    blockEnd? (depth + outer) quote (cs ++ rest) =
      (blockEnd? outer none ('}' :: (after ++ rest))).map fun p => (body ++ p.1, p.2) := by
  fun_induction blockEnd? depth quote cs generalizing body after with
  | case1 => cases h
  | case2 depth q c cs ih =>
    simp only [Option.map_eq_some_iff, Prod.exists, Prod.mk.injEq] at h
    obtain ⟨b, a, h, rfl, rfl⟩ := h
    rw [List.cons_append, List.cons_append, blockEnd?, ih h, Option.map_map]
    rfl
  | case3 depth q c cs hc ih =>
    obtain ⟨b, rfl, hb⟩ := exists_of_map_cons h
    rw [List.cons_append, blockEnd?, ih hb, Option.map_map]
    · rfl
    · rintro d ds rfl hcs
      cases cs with
      | nil => cases hb
      | cons e es => exact hc e es rfl rfl
  | case4 cs =>
    cases h
    rw [Nat.zero_add]
    simp
  | case5 cs depth ih =>
    obtain ⟨b, rfl, hb⟩ := exists_of_map_cons h
    rw [List.cons_append, Nat.succ_add, blockEnd?_close, ih hb, Option.map_map]
    rfl
  | case6 depth cs _ ih =>
    obtain ⟨b, rfl, hb⟩ := exists_of_map_cons h
    rw [List.cons_append, blockEnd?_open, Nat.add_right_comm, ih hb, Option.map_map]
    rfl
  | case7 depth c cs hclose hopen hquote ih =>
    obtain ⟨b, rfl, hb⟩ := exists_of_map_cons h
    rw [List.cons_append, blockEnd?_plain ⟨hclose, hopen⟩, if_pos hquote, ih hb, Option.map_map]
    rfl
  | case8 depth c cs hclose hopen hquote ih =>
    obtain ⟨b, rfl, hb⟩ := exists_of_map_cons h
    rw [List.cons_append, blockEnd?_plain ⟨hclose, hopen⟩, if_neg hquote, ih hb, Option.map_map]
    rfl

theorem blockEnd?_of_closes (h : blockEnd? 0 none (body ++ ['}']) = some (body, [])) (rest : List Char) :
    blockEnd? 0 none (body ++ '}' :: rest) = some (body, rest) := by
  have hresume := blockEnd?_resume h 0 rest
  rw [List.append_assoc] at hresume
  exact hresume.trans (by simp [blockEnd?])

/-- The scan of blocks comes out of the text as it came into it. -/
def Passes (cs : List Char) : Prop :=
  ∀ depth rest, blockEnd? depth none (cs ++ rest) = (blockEnd? depth none rest).map fun p => (cs ++ p.1, p.2)

namespace Passes

variable {cs ds : List Char}

theorem nil : Passes [] := by
  intro depth rest
  simp

theorem append (hcs : Passes cs) (hds : Passes ds) : Passes (cs ++ ds) := by
  intro depth rest
  rw [List.append_assoc, hcs, hds, Option.map_map]
  simp only [Function.comp_def, List.append_assoc]

theorem block (h : blockEnd? 0 none (cs ++ ['}']) = some (cs, [])) : Passes ('{' :: cs ++ ['}']) := by
  intro depth rest
  have hresume := blockEnd?_resume h (depth + 1) rest
  rw [Nat.zero_add, List.append_assoc] at hresume
  rw [List.append_assoc, List.cons_append, blockEnd?_open, hresume, List.nil_append, blockEnd?_close, Option.map_map,
    Option.map_map]
  simp [Function.comp_def]

theorem closes (h : Passes cs) : blockEnd? 0 none (cs ++ ['}']) = some (cs, []) := by
  rw [h]
  simp [blockEnd?]

end Passes

variable {cs : List Char}

/-- The quote that is open after a text, if there is one. -/
def quoteAfter : Option Char → List Char → Option Char
  | quote, [] => quote
  | some q, '\\' :: _ :: cs => quoteAfter (some q) cs
  | some q, c :: cs => quoteAfter (if c = q then none else some q) cs
  | none, c :: cs => quoteAfter (if c = '"' || c = '\'' then some c else none) cs

def Braceless (cs : List Char) : Prop :=
  ∀ c ∈ cs, c ≠ '}' ∧ c ≠ '{'

instance (cs : List Char) : Decidable (Braceless cs) :=
  List.decidableBAll _ cs

theorem blockEnd?_of_quoteAfter (hquote : quote ≠ some '\\') (h : quoteAfter quote cs = none) (hbraces : Braceless cs)
    (depth : Nat) (rest : List Char) :
    blockEnd? depth quote (cs ++ rest) = (blockEnd? depth none rest).map fun p => (cs ++ p.1, p.2) := by
  fun_induction quoteAfter quote cs with
  | case1 quote =>
    rw [h]
    exact Passes.nil depth rest
  | case2 q c cs ih =>
    rw [List.cons_append, List.cons_append, blockEnd?, ih hquote h fun d hd => hbraces d (.tail _ (.tail _ hd)),
      Option.map_map]
    rfl
  | case3 q c cs hc ih =>
    have hlater : (if c = q then none else some q) ≠ some '\\' := by grind
    rw [List.cons_append, blockEnd?, ih hlater h fun d hd => hbraces d (.tail _ hd), Option.map_map]
    · rfl
    · rintro d ds rfl hcs
      cases cs with
      | nil => grind [quoteAfter]
      | cons e es => exact hc e es rfl rfl
  | case4 c cs ih =>
    have hlater : (if c = '"' || c = '\'' then some c else none) ≠ some '\\' := by grind
    rw [List.cons_append, blockEnd?_plain (hbraces c (.head _)), ih hlater h fun d hd => hbraces d (.tail _ hd),
      Option.map_map]
    rfl

theorem passes_of_quoteAfter (h : quoteAfter none cs = none) (hbraces : Braceless cs) : Passes cs :=
  blockEnd?_of_quoteAfter (by simp) h hbraces

/-- The text has no quotes, braces and semicolons. -/
def Plain (cs : List Char) : Prop :=
  ∀ c ∈ cs, c ∉ ['"', '\'', '{', '}', ';']

instance (cs : List Char) : Decidable (Plain cs) :=
  List.decidableBAll _ cs

theorem Plain.lead (h : Plain cs) : ∀ c ∈ cs, c ≠ '{' ∧ c ≠ ';' := by
  intro c hc
  have hc := h c hc
  simp only [List.mem_cons, not_or] at hc
  exact ⟨hc.2.2.1, hc.2.2.2.2.1⟩

theorem Plain.passes (h : Plain cs) : Passes cs := by
  refine passes_of_quoteAfter ?_ fun c hc => ?_
  · induction cs with
    | nil => rfl
    | cons c cs ih =>
      have hc := h c (.head _)
      simp only [List.mem_cons, not_or] at hc
      rw [quoteAfter, if_neg (by simp [hc])]
      exact ih fun d hd => h d (.tail _ hd)
  · have hc := h c hc
    simp only [List.mem_cons, not_or] at hc
    exact ⟨hc.2.2.2.1, hc.2.2.1⟩

/-! ## Styles -/

/-- A selector: a text without quotes, braces and semicolons, with balanced brackets and with commas inside of them only,
that does not begin like an at-rule. -/
structure Selector where
  text : List Char
  plain : Plain text
  balanced : balanced 0 text = true
  start : (trimStart text).head? ≠ some '@'

/-- Selectors with commas between them. -/
structure SelectorList where
  first : Selector
  more : List Selector

namespace SelectorList

variable (list : SelectorList)

def all : List Selector :=
  list.first :: list.more

def text : List Char :=
  list.first.text ++ list.more.flatMap fun s => ',' :: s.text

theorem selectors_text : selectors 0 list.text = list.all.map (·.text) := by
  obtain ⟨first, more⟩ := list
  have hmore : selectors 0 (more.flatMap fun s => ',' :: s.text) = [] :: more.map (·.text) := by
    induction more with
    | nil => rfl
    | cons s more ih =>
      rw [List.flatMap_cons, List.cons_append, selectors_comma, selectors_append ih s.balanced, List.append_nil,
        List.map_cons]
  rw [text, selectors_append hmore first.balanced, List.append_nil]
  rfl

theorem plain_text : Plain list.text := by
  intro c hc
  rcases List.mem_append.mp hc with hc | hc
  · exact list.first.plain c hc
  · obtain ⟨s, -, hc⟩ := List.mem_flatMap.mp hc
    rcases List.mem_cons.mp hc with rfl | hc
    · decide
    · exact s.plain c hc

theorem start_text : (trimStart list.text).head? ≠ some '@' := by
  rw [text, trimStart, List.dropWhile_append]
  split
  · cases list.more with
    | nil => simp
    | cons s more => simp [isBlank]
  · rename_i hkept
    rw [List.head?_append_of_ne_nil _ (by simpa using hkept)]
    exact list.first.start

/-- The list with each selector confined to the elements with a marker. -/
def confinedTo (marker : List Char) : List Char :=
  list.text.takeWhile isBlank ++
    (", ".toList).intercalate ((list.all.map fun s => confined marker s.text).filter (!·.isEmpty)) ++ [' ']

end SelectorList

def isConditionalHead (cs : List Char) : Bool :=
  isConditionalBlock ((cs.drop 1).takeWhile fun c => !isBlank c && c ≠ '(')

/-- What is before the block of an at-rule. -/
structure AtHead where
  text : List Char
  plain : Plain text
  start : (trimStart text).head? = some '@'

namespace AtHead

variable (head : AtHead)

/-- Whether the block of the rule holds rules again. -/
def isConditional : Bool :=
  isConditionalHead (trim head.text)

theorem head?_trim_text : (trim head.text).head? = some '@' := by
  rw [head?_trim]
  exact head.start

def spaced : List Char :=
  head.text.takeWhile isBlank ++ trim head.text ++ [' ']

end AtHead

/-- The content of a block. The brace after it is the one that closes the block. -/
structure Block where
  text : List Char
  closes : blockEnd? 0 none (text ++ ['}']) = some (text, [])

/-- An at-rule without a block. -/
structure Statement where
  text : List Char
  braceless : Braceless text
  start : (trimStart text).head? = some '@'
  stop : text.getLast? = some ';'

/-- A style: rules one after the other, and blanks at the end. -/
inductive Sheet where
  | blank (gap : List Char) (h : allBlank gap = true)
  | style (list : SelectorList) (block : Block) (rest : Sheet)
  | conditional (head : AtHead) (h : head.isConditional = true) (inner rest : Sheet)
  | block (head : AtHead) (h : head.isConditional = false) (block : Block) (rest : Sheet)
  | statement (statement : Statement) (rest : Sheet)

namespace Sheet

variable {sheet : Sheet}

/-- The text of a style, when lists of selectors and heads of at-rules are written in the given way. -/
def textWith (list : SelectorList → List Char) (head : AtHead → List Char) : Sheet → List Char
  | blank gap _ => gap
  | style l b rest => list l ++ ('{' :: b.text ++ ['}']) ++ rest.textWith list head
  | conditional a _ inner rest => head a ++ ('{' :: inner.textWith list head ++ ['}']) ++ rest.textWith list head
  | block a _ b rest => head a ++ ('{' :: b.text ++ ['}']) ++ rest.textWith list head
  | statement s rest => s.text ++ rest.textWith list head

def text (sheet : Sheet) : List Char :=
  sheet.textWith (·.text) (·.text)

/-- Whether the brace after each conditional at-rule is the one that closes its block. -/
def isNested : Sheet → Bool
  | blank _ _ => true
  | style _ _ rest => rest.isNested
  | conditional _ _ inner rest =>
    blockEnd? 0 none (inner.text ++ ['}']) = some (inner.text, []) && inner.isNested && rest.isNested
  | block _ _ _ rest => rest.isNested
  | statement _ rest => rest.isNested

/-- Whether the statements close their quotes, those outside of conditional at-rules only if asked for. -/
def closesQuotes (outside : Bool) : Sheet → Bool
  | blank _ _ => true
  | style _ _ rest => rest.closesQuotes outside
  | conditional _ _ inner rest => inner.closesQuotes true && rest.closesQuotes outside
  | block _ _ _ rest => rest.closesQuotes outside
  | statement s rest => (!outside || (quoteAfter none s.text).isNone) && rest.closesQuotes outside

theorem passes_text (h : sheet.closesQuotes true = true) : Passes sheet.text := by
  induction sheet with
  | blank gap hgap =>
    refine Plain.passes fun c hc hreserved => ?_
    have hblank := List.all_eq_true.mp hgap c hc
    simp only [List.mem_cons, List.not_mem_nil, or_false] at hreserved
    rcases hreserved with rfl | rfl | rfl | rfl | rfl <;> cases hblank
  | style l b rest ih => exact (l.plain_text.passes.append (.block b.closes)).append (ih h)
  | conditional a _ inner rest ihinner ih =>
    rw [closesQuotes, Bool.and_eq_true] at h
    exact (a.plain.passes.append (.block (ihinner h.1).closes)).append (ih h.2)
  | block a _ b rest ih => exact (a.plain.passes.append (.block b.closes)).append (ih h)
  | statement s rest ih =>
    rw [closesQuotes, Bool.not_true, Bool.false_or, Bool.and_eq_true, Option.isNone_iff_eq_none] at h
    exact (passes_of_quoteAfter h.1 s.braceless).append (ih h.2)

theorem isNested_of_closesQuotes {outside : Bool} (h : sheet.closesQuotes outside = true) : sheet.isNested = true := by
  induction sheet generalizing outside with
  | blank gap hgap => rfl
  | style l b rest ih => exact ih h
  | conditional a _ inner rest ihinner ih =>
    rw [closesQuotes, Bool.and_eq_true] at h
    rw [isNested, (passes_text h.1).closes, ihinner h.1, ih h.2]
    simp
  | block a _ b rest ih => exact ih h
  | statement s rest ih =>
    rw [closesQuotes, Bool.and_eq_true] at h
    exact ih h.2

end Sheet

/-! ## Rules -/

theorem takeWhile_blank_append {c : Char} (hc : isBlank c = false) (lead rest : List Char) :
    (lead ++ c :: rest).takeWhile isBlank = lead.takeWhile isBlank := by
  induction lead with
  | nil => simp [hc]
  | cons d lead ih => simp only [List.cons_append, List.takeWhile_cons, ih]

section
variable (marker : List Char) {lead rest body after : List Char}

theorem dropWhile_lead (h : ∀ c ∈ lead, c ≠ '{' ∧ c ≠ ';') (rest : List Char) :
    (lead ++ rest).dropWhile (fun c => !(c = '{' || c = ';')) = rest.dropWhile (fun c => !(c = '{' || c = ';')) :=
  List.dropWhile_append_of_pos fun c hc => by simp [h c hc]

theorem takeWhile_lead (h : ∀ c ∈ lead, c ≠ '{' ∧ c ≠ ';') (rest : List Char) :
    (lead ++ rest).takeWhile (fun c => !(c = '{' || c = ';')) =
      lead ++ rest.takeWhile (fun c => !(c = '{' || c = ';')) :=
  List.takeWhile_append_of_pos fun c hc => by simp [h c hc]

theorem confinedRules_of_none (h : ∀ c ∈ lead, c ≠ '{' ∧ c ≠ ';') : confinedRules marker lead = lead := by
  have hdrop := dropWhile_lead h []
  rw [List.append_nil] at hdrop
  rw [confinedRules]
  split
  · rfl
  · rename_i hc
    rw [hdrop] at hc
    cases hc

theorem confinedRules_semicolon (h : ∀ c ∈ lead, c ≠ '{' ∧ c ≠ ';') :
    confinedRules marker (lead ++ ';' :: rest) = lead ++ ';' :: confinedRules marker rest := by
  rw [confinedRules]
  split
  · rename_i hc
    rw [dropWhile_lead h] at hc
    cases hc
  · rename_i hc
    rw [dropWhile_lead h] at hc
    cases hc
    rw [if_pos rfl, takeWhile_lead h]
    simp

theorem confinedRules_brace (h : ∀ c ∈ lead, c ≠ '{' ∧ c ≠ ';') (hblock : blockEnd? 0 none rest = some (body, after)) :
    confinedRules marker (lead ++ '{' :: rest) = lead.takeWhile isBlank ++
      (if (trim lead).head? = some '@' then
        if isConditionalHead (trim lead) then
          trim lead ++ [' '] ++ ('{' :: confinedRules marker body ++ ['}'])
        else trim lead ++ [' '] ++ ('{' :: body ++ ['}'])
      else confinedList marker (trim lead) ++ [' '] ++ ('{' :: body ++ ['}'])) ++
      confinedRules marker after := by
  rw [confinedRules]
  split
  · rename_i hc
    rw [dropWhile_lead h] at hc
    cases hc
  · rename_i hc
    rw [dropWhile_lead h] at hc
    cases hc
    rw [if_neg (by decide), takeWhile_lead h]
    split
    · rename_i hb
      rw [hblock] at hb
      cases hb
    · rename_i hb
      rw [hblock] at hb
      cases hb
      rw [takeWhile_blank_append rfl, List.takeWhile_cons_of_neg (by decide), List.append_nil]
      cases trim lead with
      | nil => simp
      | cons c named =>
        by_cases hat : c = '@'
        · subst hat
          simp only [isConditionalHead, List.head?_cons, List.drop_one, List.tail_cons, if_true]
          split
          · simp
          · simp
        · simp [hat]

/-- What has no block and ends in a semicolon is copied. -/
theorem confinedRules_copies {cs : List Char} (rest : List Char) (h : ∀ c ∈ cs, c ≠ '{') :
    confinedRules marker (cs ++ ';' :: rest) = cs ++ ';' :: confinedRules marker rest := by
  by_cases hmem : ';' ∈ cs
  · obtain ⟨lead, later, rfl, hlead⟩ := List.eq_append_cons_of_mem hmem
    have hsplit : lead ++ ';' :: later ++ ';' :: rest = lead ++ ';' :: (later ++ ';' :: rest) := by simp
    rw [hsplit, confinedRules_semicolon marker fun c hc => ⟨h c (by simp [hc]), fun heq => hlead (heq ▸ hc)⟩,
      confinedRules_copies rest fun c hc => h c (by simp [hc])]
    simp
  · exact confinedRules_semicolon marker fun c hc => ⟨h c hc, fun heq => hmem (heq ▸ hc)⟩
termination_by cs.length
decreasing_by
  have hcs : cs = lead ++ ';' :: later := by assumption
  rw [hcs, List.length_append, List.length_cons]
  omega

end

/-- Confining the rules of a style keeps its rules, and writes new lists of selectors. -/
theorem confinedRules_text (marker : List Char) {sheet : Sheet} (h : sheet.isNested = true) :
    confinedRules marker sheet.text = sheet.textWith (·.confinedTo marker) (·.spaced) := by
  induction sheet with
  | blank gap hgap =>
    refine confinedRules_of_none marker fun c hc => ?_
    have hblank := List.all_eq_true.mp hgap c hc
    constructor <;> rintro rfl <;> cases hblank
  | style l b rest ih =>
    have hend := blockEnd?_of_closes b.closes rest.text
    have hhead : (trim l.text).head? ≠ some '@' := by
      rw [head?_trim]
      exact l.start_text
    have hlist : confinedList marker (trim l.text) =
        (", ".toList).intercalate ((l.all.map fun s => confined marker s.text).filter (!·.isEmpty)) := by
      rw [confinedList, map_confined_selectors_trim, l.selectors_text, List.map_map]
      rfl
    have hrule := confinedRules_brace marker l.plain_text.lead hend
    rw [if_neg hhead, hlist, ih h] at hrule
    simpa [Sheet.text, Sheet.textWith, SelectorList.confinedTo] using hrule
  | conditional a hcond inner rest ihinner ih =>
    rw [Sheet.isNested, Bool.and_eq_true, Bool.and_eq_true, decide_eq_true_eq] at h
    have hend := blockEnd?_of_closes h.1.1 rest.text
    have hrule := confinedRules_brace marker a.plain.lead hend
    rw [if_pos a.head?_trim_text, if_pos (by exact hcond), ihinner h.1.2, ih h.2] at hrule
    simpa [Sheet.text, Sheet.textWith, AtHead.spaced] using hrule
  | block a hcond b rest ih =>
    have hend := blockEnd?_of_closes b.closes rest.text
    have hrule := confinedRules_brace marker a.plain.lead hend
    rw [if_pos a.head?_trim_text, if_neg (by exact Bool.eq_false_iff.mp hcond), ih h] at hrule
    simpa [Sheet.text, Sheet.textWith, AtHead.spaced] using hrule
  | statement s rest ih =>
    obtain ⟨before, hbefore⟩ := List.getLast?_eq_some_iff.mp s.stop
    have hopen : ∀ c ∈ before, c ≠ '{' := fun c hc => (s.braceless c (by simp [hbefore, hc])).2
    have hcopies := confinedRules_copies marker rest.text hopen
    rw [ih h] at hcopies
    simpa [Sheet.text, Sheet.textWith, hbefore] using hcopies

/-! ## Comments -/

/-- Whether no comment begins in the text, outside of quotes. -/
def commentFree : Option Char → List Char → Bool
  | _, [] => true
  | some q, '\\' :: _ :: cs => commentFree (some q) cs
  | some q, c :: cs => commentFree (if c = q then none else some q) cs
  | none, '/' :: '*' :: _ => false
  | none, c :: cs => commentFree (if c = '"' || c = '\'' then some c else none) cs

/-- Where the removal of comments stands in a quote, or outside. -/
def StyleState.ofQuote : Option Char → StyleState
  | none => .plain
  | some q => .quoted q

theorem withoutStyleComments_of_commentFree {cs : List Char} (h : commentFree quote cs = true) :
    withoutStyleComments (.ofQuote quote) cs = cs := by
  fun_induction commentFree quote cs with
  | case1 quote => rw [withoutStyleComments]
  | case2 q c cs ih =>
    rw [StyleState.ofQuote, withoutStyleComments, ← StyleState.ofQuote, ih h]
  | case3 q c cs hc ih | case5 c cs hc ih =>
    have hlater := ih h
    rw [StyleState.ofQuote, withoutStyleComments]
    · rw [apply_ite StyleState.ofQuote] at hlater
      exact congrArg _ hlater
    · exact hc
  | case4 => cases h

/-- The attribute that marks the root of a component. -/
def componentMarker (component : String) : List Char :=
  ("[data-zen-component=\"" ++ component ++ "\"]").toList

/-- Confining a style to a component writes new lists of selectors, and leaves all else as it is but for blanks around the
heads of rules and at the ends. This holds if the brace after each conditional at-rule is the one that closes its block,
and so it does if the statements inside conditional at-rules close their quotes. -/
theorem confinedStyle_of_isNested (sheet : Sheet) (component : String) (hfree : commentFree none sheet.text = true) :
    (sheet.isNested = true → confinedStyle (String.ofList sheet.text) component =
      String.ofList (trim (sheet.textWith (·.confinedTo (componentMarker component)) (·.spaced)))) ∧
    (sheet.closesQuotes false = true → sheet.isNested = true) := by
  refine ⟨fun h => ?_, Sheet.isNested_of_closesQuotes⟩
  rw [confinedStyle, String.toList_ofList]
  have hplain := withoutStyleComments_of_commentFree hfree
  rw [StyleState.ofQuote] at hplain
  rw [hplain, ← confinedRules_text _ h]
  rfl

/-- A style with a statement, and with a conditional at-rule around a rule and another at-rule. -/
def printSheet : Sheet :=
  .statement ⟨"@import 'a;b';".toList, by decide, by decide, by decide⟩ <|
  .conditional ⟨"\n@media(print)".toList, by decide, by decide⟩ (by decide)
    (.statement ⟨"@layer 'x';".toList, by decide, by decide, by decide⟩ <|
      .style ⟨⟨".a:is(i, u)".toList, by decide, by decide, by decide⟩, [⟨" p ".toList, by decide, by decide, by decide⟩]⟩
        ⟨"x: '\x7d'".toList, by decide⟩ <|
      .block ⟨"@font-face".toList, by decide, by decide⟩ (by decide) ⟨"y: 1".toList, by decide⟩ <|
      .blank [' '] (by decide)) <|
  .style ⟨⟨" :global(b)".toList, by decide, by decide, by decide⟩, [⟨[], by decide, by decide, by decide⟩]⟩
    ⟨"\x7bz\x7d".toList, by decide⟩ (.blank [] rfl)

theorem confinedStyle_of_isNested_print :
    commentFree none printSheet.text = true ∧ printSheet.closesQuotes false = true ∧ printSheet.isNested = true ∧
      confinedStyle (String.ofList printSheet.text) "C" =
        "@import 'a;b';\n@media(print) \x7b@layer 'x';[data-zen-component=\"C\"] .a:is(i, u), " ++
          ".a[data-zen-component=\"C\"]:is(i, u), [data-zen-component=\"C\"] p, p[data-zen-component=\"C\"] " ++
          "\x7bx: '\x7d'\x7d@font-face \x7by: 1\x7d \x7d b \x7b\x7bz\x7d\x7d" := by
  have hfree : commentFree none printSheet.text = true := by decide +kernel
  have hcloses : printSheet.closesQuotes false = true := by decide +kernel
  obtain ⟨hconfined, hnested⟩ := confinedStyle_of_isNested printSheet "C" hfree
  refine ⟨hfree, hcloses, hnested hcloses, (hconfined (hnested hcloses)).trans ?_⟩
  decide +kernel

/-- A style with a conditional at-rule in which a statement leaves a quote open. -/
def openQuoteSheet : Sheet :=
  .conditional ⟨"@media print ".toList, by decide, by decide⟩ (by decide)
    (.statement ⟨" @import ';".toList, by decide, by decide, by decide⟩ <|
      .style ⟨⟨" .a ".toList, by decide, by decide, by decide⟩, []⟩ ⟨" x: 1 ".toList, by decide⟩ (.blank [' '] (by decide)))
    (.blank [] rfl)

/-- Such a style is not confined at all. -/
theorem open_quote_hides_rules :
    commentFree none openQuoteSheet.text = true ∧ openQuoteSheet.isNested = false ∧
      confinedStyle (String.ofList openQuoteSheet.text) "Card" = String.ofList openQuoteSheet.text ∧
      openQuoteSheet.text.filter (!isBlank ·) ≠
        (openQuoteSheet.textWith (·.confinedTo (componentMarker "Card")) (·.spaced)).filter (!isBlank ·) := by
  refine ⟨by decide +kernel, by decide +kernel, by decide +kernel, by decide +kernel⟩

end PageCompiler.Emit
