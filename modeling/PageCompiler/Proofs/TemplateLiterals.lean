import Mathlib.Data.List.Chain
import PageCompiler.Proofs.BraceGrammar
import PageCompiler.Template.Registry

/-!
# Interpolated values as template literals

A value with expressions in it becomes one template literal. Read back, the literal has exactly these expressions, and its
text, escapes apart, is the text of the value (`templateLiteral_reads_back`). Texts are escaped one by one, so this takes
that no `$` at the end of one meets a `{` at the start of the next: an empty text between them does not part them.
-/

namespace PageCompiler.Template

open Text (byteLength)

/-! ## Reading a template literal -/

/-- A template literal: its first stretch of text as it is written, and each interpolated code with the stretch after it. -/
structure Literal where
  first : List Char := []
  more : List (List Char × List Char) := []
deriving DecidableEq

namespace Literal

def codes (l : Literal) : List (List Char) :=
  l.more.map (·.1)

/-- The stretches of text around the codes, as they are written. -/
def stretches (l : Literal) : List (List Char) :=
  l.first :: l.more.map (·.2)

def prepend (cs : List Char) (l : Literal) : Literal :=
  { l with first := cs ++ l.first }

def interpolate (code : List Char) (l : Literal) : Literal where
  more := (code, l.first) :: l.more

/-- Reads a literal from its opening backtick on; what follows its closing one is left. -/
def read? (cs : List Char) : Option (Literal × List Char) :=
  match cs with
  | '\\' :: d :: rest => (read? rest).map fun (l, after) => (l.prepend ['\\', d], after)
  | '$' :: '{' :: rest =>
    match closingBrace? rest with
    | some size =>
      let code := Text.takeBytes size rest
      (read? (rest.drop (code.length + 1))).map fun (l, after) => (l.interpolate code, after)
    | none => none
  | c :: rest => if c = '`' then some ({}, rest) else (read? rest).map fun (l, after) => (l.prepend [c], after)
  | [] => none
termination_by cs.length

theorem templateSize_of_read? {cs after : List Char} {l : Literal} (h : read? cs = some (l, after)) (pos : Nat) :
    ∃ n, Script.templateSize pos cs = .ok n ∧ n + after.length = cs.length := by
  fun_induction read? cs generalizing pos l with
  | case1 d rest ih =>
    obtain ⟨⟨l', _⟩, hl', heq⟩ := Option.map_eq_some_iff.mp h
    cases heq
    obtain ⟨n, hn, hlength⟩ := ih hl' (pos + 1 + d.utf8Size)
    refine ⟨n + 2, by rw [Script.templateSize, hn]; rfl, ?_⟩
    simp only [List.length_cons]
    omega
  | case2 rest size hsize code =>
    rename_i ih
    obtain ⟨⟨l', _⟩, hl', heq⟩ := Option.map_eq_some_iff.mp h
    cases heq
    obtain ⟨inner, tail, rfl, rfl, -⟩ := closingBrace?_eq_some_iff.mp hsize
    have hcode : code = inner := Text.takeBytes_append _ _
    obtain ⟨n, hn, hlength⟩ := ih hl' (pos + 2 + byteLength inner + 1)
    have hdrop : (inner ++ '}' :: tail).drop (inner.length + 1) = tail := by simp [List.drop_append]
    rw [hcode, hdrop] at hn hlength
    refine ⟨n + (2 + inner.length + 1), ?_, ?_⟩
    · rw [Script.templateSize, hsize]
      simp only [Text.takeBytes_append, hdrop, hn]
      rfl
    · simp only [List.length_cons, List.length_append]
      omega
  | case3 => cases h
  | case4 rest hescape hopen =>
    cases h
    refine ⟨1, ?_, by rw [List.length_cons, Nat.add_comm]⟩
    rw [Script.templateSize.eq_3 _ _ _ (by simp) (by simp), if_pos rfl]
  | case5 c rest hescape hopen hclose ih =>
    obtain ⟨⟨l', _⟩, hl', heq⟩ := Option.map_eq_some_iff.mp h
    cases heq
    obtain ⟨n, hn, hlength⟩ := ih hl' (pos + c.utf8Size)
    refine ⟨n + 1, ?_, by rw [List.length_cons]; omega⟩
    rw [Script.templateSize.eq_3 _ _ _ hescape hopen, if_neg hclose, hn]
    rfl
  | case6 => cases h

/-! ## The literal of a value -/

/-- A stretch of text without the backslashes that escape a character. -/
def unescaped : List Char → List Char
  | '\\' :: c :: cs => c :: unescaped cs
  | c :: cs => c :: unescaped cs
  | [] => []

def ofParts : List ValuePart → Literal
  | [] => {}
  | .text value :: parts => (ofParts parts).prepend (literalText value.toList)
  | .code value :: parts => (ofParts parts).interpolate (Text.trim value.toList)

end Literal

open Literal

/-- The text that a part of a value stands for by itself. -/
def ValuePart.chars : ValuePart → List Char
  | text value => value.toList
  | code _ => []

/-- The code of a part of a value, without the blanks around it. -/
def ValuePart.code? : ValuePart → Option (List Char)
  | text _ => none
  | code value => some (Text.trim value.toList)

/-- Whether a text that ends in a dollar sign comes before a text that starts with a brace. -/
def ValuePart.meets : ValuePart → ValuePart → Bool
  | text value, text next => value.toList.getLast? == some '$' && next.toList.head? == some '{'
  | _, _ => false

theorem codes_ofParts (parts : List ValuePart) : (ofParts parts).codes = parts.filterMap ValuePart.code? := by
  induction parts with
  | nil => rfl
  | cons part parts ih =>
    cases part with
    | text value => exact ih
    | code value => exact congrArg (_ :: ·) ih

theorem unescaped_literalText (text rest : List Char) : unescaped (literalText text ++ rest) = text ++ unescaped rest := by
  fun_induction literalText text with
  | case1 cs ih | case2 cs ih => exact congrArg (_ :: ·) ih
  | case3 cs ih => exact congrArg ('$' :: '{' :: ·) ih
  | case4 c cs hslash _ _ ih =>
    rw [List.cons_append, List.cons_append, ← ih, unescaped.eq_2]
    exact fun _ _ hc _ => hslash hc
  | case5 => rfl

theorem unescaped_stretches_ofParts (parts : List ValuePart) :
    (ofParts parts).stretches.flatMap unescaped = parts.flatMap ValuePart.chars := by
  induction parts with
  | nil => rfl
  | cons part parts ih =>
    rw [List.flatMap_cons, ← ih]
    cases part with
    | text value =>
      show unescaped (literalText value.toList ++ (ofParts parts).first) ++ _ = _
      rw [unescaped_literalText, List.append_assoc]
      rfl
    | code value => rfl

theorem head?_literalText {text rest : List Char} (h : (literalText text ++ rest).head? = some '{') :
    text.head? = some '{' ∨ text = [] ∧ rest.head? = some '{' := by
  fun_induction literalText text with
  | case1 | case2 | case3 => cases h
  | case4 c cs => exact .inl h
  | case5 => exact .inr ⟨rfl, h⟩

theorem read?_cons {c : Char} {rest after : List Char} {l : Literal} (hrest : read? rest = some (l, after))
    (hslash : c ≠ '\\') (hquote : c ≠ '`') (hopen : c = '$' → rest.head? ≠ some '{') :
    read? (c :: rest) = some (l.prepend [c], after) := by
  rw [read?.eq_3, if_neg hquote, hrest]
  · rfl
  · intro d tail hc
    exact absurd hc hslash
  · rintro tail hc rfl
    exact absurd rfl (hopen hc)

/-- A text is read as one stretch, unless its end and what follows start a code. -/
theorem read?_literalText {text rest after : List Char} {l : Literal} (hrest : read? rest = some (l, after))
    (hmeets : text.getLast? = some '$' → rest.head? ≠ some '{') :
    read? (literalText text ++ rest) = some (l.prepend (literalText text), after) := by
  fun_induction literalText text with
  | case1 cs ih | case2 cs ih =>
    have ih := ih fun hlast => hmeets (by simp [List.getLast?_cons, hlast])
    rw [List.cons_append, List.cons_append, read?.eq_1, ih]
    rfl
  | case3 cs ih =>
    have ih := ih fun hlast => hmeets (by simp [List.getLast?_cons, hlast])
    rw [List.cons_append, List.cons_append, read?.eq_1, List.cons_append, read?_cons ih] <;> simp [Literal.prepend]
  | case4 c cs hslash hquote hopen ih =>
    have ih := ih fun hlast => hmeets (by simp [List.getLast?_cons, hlast])
    refine read?_cons ih hslash hquote ?_
    rintro rfl hhead
    rcases head?_literalText hhead with hhead | ⟨rfl, hhead⟩
    · obtain ⟨tail, rfl⟩ := List.head?_eq_some_iff.mp hhead
      exact hopen _ rfl rfl
    · exact hmeets rfl hhead
  | case5 => exact hrest

theorem read?_code {code rest after : List Char} {l : Literal} (hrest : read? rest = some (l, after))
    (hcode : matchingBrace? 0 ('{' :: code ++ ['}']) = some (1 + byteLength code)) :
    read? ('$' :: '{' :: code ++ '}' :: rest) = some (l.interpolate code, after) := by
  have hclose : closingBrace? (code ++ '}' :: rest) = some (byteLength code) := by
    have hscan : Brace.close? .code [.brace] (byteLength [] + 1) (code ++ ['}']) = some (1 + byteLength code) := by
      rw [← matchingBrace?_append]
      exact hcode
    obtain ⟨inner, tail, htext, hlength, hinner⟩ := close?_eq_some_iff.mp hscan
    have hsize : byteLength inner = byteLength code := by
      rw [Text.byteLength_nil] at hlength
      omega
    have htake := congrArg (Text.takeBytes (byteLength code)) htext
    rw [Text.takeBytes_append, ← hsize, Text.takeBytes_append] at htake
    exact closingBrace?_eq_some_iff.mpr ⟨code, rest, rfl, rfl, htake ▸ hinner⟩
  simp only [List.cons_append, read?.eq_2, hclose, Text.takeBytes_append]
  have hdrop : (code ++ '}' :: rest).drop (code.length + 1) = rest := by simp [List.drop_append]
  rw [hdrop, hrest]
  rfl

theorem exists_head?_of_literal {parts : List ValuePart} {rest : List Char} (hrest : rest.head? ≠ some '{')
    (h : (parts.flatMap ValuePart.literal ++ rest).head? = some '{') :
    ∃ value, (parts.filter (· != .text "")).head? = some (.text value) ∧ value.toList.head? = some '{' := by
  induction parts with
  | nil => exact absurd h hrest
  | cons part parts ih =>
    rw [List.flatMap_cons, List.append_assoc] at h
    cases part with
    | text value =>
      by_cases hvalue : value = ""
      · subst hvalue
        exact ih h
      · refine ⟨value, by simp [hvalue], ?_⟩
        rcases head?_literalText h with hhead | ⟨hnil, -⟩
        · exact hhead
        · exact absurd (String.toList_eq_nil_iff.mp hnil) hvalue
    | code value => cases h

theorem read?_ofParts {parts : List ValuePart} (rest : List Char)
    (hmeets : (parts.filter (· != .text "")).IsChain fun p q => p.meets q = false)
    (hcodes : ∀ code ∈ parts.filterMap ValuePart.code?,
      matchingBrace? 0 ('{' :: code ++ ['}']) = some (1 + byteLength code)) :
    read? (parts.flatMap ValuePart.literal ++ '`' :: rest) = some (ofParts parts, rest) := by
  induction parts with
  | nil => rw [List.flatMap_nil, List.nil_append, read?.eq_3 _ _ (by simp) (by simp), if_pos rfl, ofParts]
  | cons part parts ih =>
    rw [List.flatMap_cons, List.append_assoc]
    cases part with
    | text value =>
      by_cases hvalue : value = ""
      · subst hvalue
        exact ih hmeets hcodes
      · rw [List.filter_cons_of_pos (by simpa using hvalue), List.isChain_cons] at hmeets
        refine read?_literalText (ih hmeets.2 hcodes) fun hlast hhead => ?_
        obtain ⟨next, hnext, hbrace⟩ := exists_head?_of_literal (by simp) hhead
        have hapart := hmeets.1 _ hnext
        simp [ValuePart.meets, hlast, hbrace] at hapart
    | code value =>
      rw [List.filter_cons_of_pos (by simp), List.isChain_cons] at hmeets
      have hcodes := List.forall_mem_cons.mp hcodes
      have hread := read?_code (ih hmeets.2 hcodes.2) hcodes.1
      simpa [ValuePart.literal, ofParts] using hread

/-- A literal is one token of a script from its opening to its closing backtick, its codes are those of the value, in order,
and its text is the text of the value. -/
theorem templateLiteral_reads_back {parts : List ValuePart}
    (hmeets : (parts.filter (· != .text "")).IsChain fun p q => p.meets q = false)
    (hcodes : ∀ code ∈ parts.filterMap ValuePart.code?,
      matchingBrace? 0 ('{' :: code ++ ['}']) = some (1 + byteLength code)) :
    ∃ tail, (templateLiteral parts).toList = '`' :: tail ∧ Script.templateSize 1 tail = .ok tail.length ∧
      read? tail = some (ofParts parts, []) ∧ (ofParts parts).codes = parts.filterMap ValuePart.code? ∧
      (ofParts parts).stretches.flatMap unescaped = parts.flatMap ValuePart.chars := by
  have hread := read?_ofParts [] hmeets hcodes
  obtain ⟨n, hn, hlength⟩ := templateSize_of_read? hread 1
  rw [List.length_nil, Nat.add_zero] at hlength
  refine ⟨_, ?_, hlength ▸ hn, hread, codes_ofParts parts, unescaped_stretches_ofParts parts⟩
  rw [templateLiteral, String.toList_ofList, List.cons_append]

/-- A dollar sign before a code, an escaped one before a brace, and a code with a brace in quotes. -/
theorem templateLiteral_reads_back_dollars :
    let parts : List ValuePart := [.text "\x60\\$", .code " f('\x7d') ", .text "$\x7b", .text "$", .text "", .code "`$\x7ba\x7d`"]
    (templateLiteral parts).toList = "`\\`\\\\$$\x7bf('\x7d')\x7d\\$\x7b$$\x7b`$\x7ba\x7d`\x7d`".toList ∧
    ∃ tail, (templateLiteral parts).toList = '`' :: tail ∧ Script.templateSize 1 tail = .ok tail.length ∧
      read? tail = some (ofParts parts, []) ∧ (ofParts parts).codes = ["f('\x7d')".toList, "`$\x7ba\x7d`".toList] ∧
      (ofParts parts).stretches.flatMap unescaped = "`\\$$\x7b$".toList := by
  intro parts
  obtain ⟨tail, htail⟩ := @templateLiteral_reads_back parts (by decide +kernel) (by decide +kernel)
  exact ⟨by decide +kernel, tail, htail⟩

/-- An empty text does not part a dollar sign from a brace: together they start a code that the value does not have. -/
theorem empty_text_joins :
    let parts : List ValuePart := [.text "$", .text "", .text "\x7bx\x7d"]
    (parts.IsChain fun p q => p.meets q = false) ∧ parts.filterMap ValuePart.code? = [] ∧
    ∃ tail l, (templateLiteral parts).toList = '`' :: tail ∧ read? tail = some (l, []) ∧ l.codes = [['x']] := by
  intro parts
  refine ⟨by decide +kernel, rfl, "$\x7bx\x7d`".toList, ⟨[], [(['x'], [])]⟩, ?_⟩
  decide +kernel

end PageCompiler.Template
