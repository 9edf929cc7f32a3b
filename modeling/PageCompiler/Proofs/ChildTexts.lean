import PageCompiler.Proofs.Runs
import PageCompiler.Template.Fragment

/-!
# Texts among the children of an element

Markup in an expression becomes nodes of the template or calls that make it. Both go through the children of an element
one by one, and what they make of a child is in the same place (`rows_of_children`). A text has the same words in both;
calls have no blanks around it, and nodes keep those of a text on one line.
-/

namespace PageCompiler.Template

open Code (Tree)
open Code.Tree (childCodes callCode)

/-! ## Texts -/

section Texts

variable {value : String}

/-- The text without the blanks around it, if there is more. -/
def words (value : String) : List String :=
  [trimString value].filter (!·.isEmpty)

/-- What nodes show of a text, and its codes in calls. -/
structure TextAlike (value : String) (shown codes : List String) : Prop where
  codes_eq : codes = (words value).map quote
  words_eq : shown.flatMap words = words value
  same_iff : shown = words value ↔ '\n' ∈ value.toList ∨ trimString value = value

theorem trimString_trimString (value : String) : trimString (trimString value) = trimString value := by
  simp [trimString]

theorem blankString_iff : blankString value = true ↔ trimString value = "" := by
  rw [blankString, Text.allBlank, List.all_eq_true, trimString, String.ofList_eq_empty_iff]
  constructor
  · intro h
    have htrim := Text.trim_append_blanks h []
    rwa [List.nil_append] at htrim
  · intro h
    obtain ⟨before, after, hvalue, hblank⟩ := Text.exists_trimmed value.toList
    rw [hvalue, h, List.append_nil]
    exact hblank

theorem words_of_blank (h : trimString value = "") : words value = [] := by
  simp [words, h]

theorem words_of_not_blank (h : trimString value ≠ "") : words value = [trimString value] := by
  simp [words, h]

theorem textAlike_childText (value : String) :
    TextAlike value ([childText value].filter (!·.isEmpty)) ((words value).map quote) := by
  by_cases hblank : trimString value = ""
  · have hbefore : blankString value = true := blankString_iff.mpr hblank
    by_cases hline : '\n' ∈ value.toList
    · exact ⟨rfl, by simp [childText, hline, hblank, words], by simp [childText, hline, hblank, words]⟩
    · by_cases hempty : value = ""
      · exact ⟨rfl, by simp [childText, hempty, words_of_blank (hempty ▸ hblank)],
          by simp [childText, hempty, words_of_blank (hempty ▸ hblank), hempty ▸ hblank]⟩
      · have htext : childText value = " " := by simp [childText, hline, hempty, hbefore]
        refine ⟨rfl, ?_, ?_⟩
        · rw [htext, words_of_blank hblank]
          rfl
        · rw [htext, words_of_blank hblank]
          simp [hline, hblank, Ne.symm hempty]
  · have hempty : value ≠ "" := fun h => hblank (by rw [h]; rfl)
    by_cases hline : '\n' ∈ value.toList
    · have hkept : blankString (trimString value) = false :=
        Bool.eq_false_iff.mpr fun h => hblank (trimString_trimString value ▸ blankString_iff.mp h)
      have htext : childText value = trimString value := by simp [childText, hline, hblank, hkept]
      exact ⟨rfl, by simp [htext, words, hblank, trimString_trimString], by simp [htext, words, hline]⟩
    · have hkept : blankString value = false := Bool.eq_false_iff.mpr fun h => hblank (blankString_iff.mp h)
      have htext : childText value = value := by simp [childText, hline, hempty, hkept]
      refine ⟨rfl, by simp [htext, hempty], ?_⟩
      rw [htext, words_of_not_blank hblank]
      simp [hempty, hline, eq_comm (a := value)]

end Texts

/-! ## Children -/

/-- What may be a child of an element: a text, markup, or an expression in braces, which may be missing or spread. -/
inductive IsChild : Tree → Prop
  | text {value span parts} : IsChild (.node (.rawText value) span parts)
  | element {tag span parts} : IsChild (.node (.element tag) span parts)
  | fragment {span parts} : IsChild (.node .fragment span parts)
  | expression {span e} : IsChild (.node .container span [e])
  | nothing {span} : IsChild (.node .container span [])
  | spread {span e} : IsChild (.node .spreadChild span [e])

/-- The nodes and the codes of one child. -/
inductive Row (depth : Nat) (c : Snippet) (scope : Option LoopScope) (embed : Span → Except SyntaxError String) :
    Tree → List Node → List String → Prop
  | text {value span parts shown place codes} (h : TextAlike value shown codes) :
    Row depth c scope embed (.node (.rawText value) span parts) (shown.map (.text · place)) codes
  | element {tag span parts n code r r'} (hnode : Gives (elementNode depth c scope tag span parts) r n r')
    (hcode : callCode embed (.node (.element tag) span parts) = .ok code) :
    Row depth c scope embed (.node (.element tag) span parts) [n] [code]
  | fragment {span parts nodes code r r'} (hnodes : Gives (childNodes depth c scope (childrenOf parts)) r nodes r')
    (hcode : callCode embed (.node .fragment span parts) = .ok code) :
    Row depth c scope embed (.node .fragment span parts) nodes [code]
  | lowered {span e nodes code r r'} (hnodes : Gives (lower depth c scope e) r (some nodes) r')
    (hcode : embed e.span = .ok code) : Row depth c scope embed (.node .container span [e]) nodes [code]
  | expression {span e n code r r'} (hnode : Gives (c.expressionNode scope e.span) r n r')
    (hcode : embed e.span = .ok code) : Row depth c scope embed (.node .container span [e]) [n] [code]
  | nothing {span} : Row depth c scope embed (.node .container span []) [] []
  | spread {span e n code r r'} (hnode : Gives (c.expressionNode scope e.span) r n r')
    (hcode : embed e.span = .ok code) :
    Row depth c scope embed (.node .spreadChild span [e]) [n] ["...(" ++ code ++ ")"]

variable {depth : Nat} {c : Snippet} {scope : Option LoopScope} {embed : Span → Except SyntaxError String}
  {r r' : Registry} {t : Tree} {ts : List Tree} {nodes : List Node} {codes : List String}

theorem gives_childNodes_cons (h : Gives (childNodes (depth + 1) c scope (t :: ts)) r nodes r') :
    ∃ ns r₁ rest, Gives (childNodes (depth + 1) c scope [t]) r ns r₁ ∧
      Gives (childNodes (depth + 1) c scope ts) r₁ rest r' ∧ nodes = ns ++ rest := by
  simp only [childNodes, List.mapM_cons, List.mapM_nil, gives_bind, gives_pure] at h ⊢
  obtain ⟨_, _, ⟨ns, r₁, hfirst, lists, _, hrest, rfl, rfl⟩, rfl, rfl⟩ := h
  exact ⟨ns, r₁, lists.flatten, ⟨_, _, ⟨ns, r₁, hfirst, [], r₁, ⟨rfl, rfl⟩, rfl, rfl⟩, by simp⟩,
    ⟨_, _, hrest, rfl, rfl⟩, rfl⟩

theorem exists_codes_of_cons {x : Except SyntaxError String} {f : String → String}
    (h : (do let code ← x; return f code :: (← childCodes embed ts)) = .ok codes) :
    ∃ code rest, x = .ok code ∧ childCodes embed ts = .ok rest ∧ codes = f code :: rest := by
  obtain ⟨code, hcode, h⟩ := Compiled.bind_eq_ok.mp h
  obtain ⟨rest, hrest, h⟩ := Compiled.bind_eq_ok.mp h
  exact ⟨code, rest, hcode, hrest, (Except.ok.inj h).symm⟩

theorem row_of_child {ns : List Node} (h : IsChild t) (hnodes : Gives (childNodes (depth + 1) c scope [t]) r ns r')
    (hcodes : childCodes embed (t :: ts) = .ok codes) :
    ∃ cs rest, Row depth c scope embed t ns cs ∧ childCodes embed ts = .ok rest ∧ codes = cs ++ rest := by
  simp only [childNodes, List.mapM_cons, List.mapM_nil, gives_bind, gives_pure] at hnodes
  obtain ⟨_, _, ⟨ns, _, hnodes, _, _, ⟨rfl, rfl⟩, rfl, rfl⟩, rfl, rfl⟩ := hnodes
  rw [List.flatten_singleton]
  cases h with
  | @text value span parts =>
    obtain ⟨rest, hrest, hcodes⟩ := Compiled.bind_eq_ok.mp hcodes
    obtain rfl := Except.ok.inj hcodes
    obtain ⟨rfl, rfl⟩ := gives_pure.mp hnodes
    have hshown : (if (childText value).isEmpty then [] else [.text (childText value) ⟨c.positionOf span, scope⟩]) =
        ([childText value].filter (!·.isEmpty)).map fun text => Node.text text ⟨c.positionOf span, scope⟩ := by
      by_cases hempty : childText value = "" <;> simp [hempty]
    rw [hshown]
    refine ⟨_, rest, .text (textAlike_childText value), hrest, ?_⟩
    by_cases hblank : trimString value = "" <;> simp [words, hblank]
  | element =>
    obtain ⟨n, hnode, rfl⟩ := gives_bind_pure.mp hnodes
    obtain ⟨code, rest, hcode, hrest, rfl⟩ := exists_codes_of_cons hcodes
    exact ⟨[code], rest, .element hnode hcode, hrest, rfl⟩
  | fragment =>
    obtain ⟨code, rest, hcode, hrest, rfl⟩ := exists_codes_of_cons hcodes
    exact ⟨[code], rest, .fragment hnodes hcode, hrest, rfl⟩
  | expression =>
    obtain ⟨code, rest, hcode, hrest, rfl⟩ := exists_codes_of_cons hcodes
    refine ⟨[code], rest, ?_, hrest, rfl⟩
    obtain ⟨lowered, _, hlower, hnodes⟩ := gives_bind.mp hnodes
    cases lowered with
    | some nodes =>
      obtain ⟨rfl, rfl⟩ := gives_pure.mp hnodes
      exact .lowered hlower hcode
    | none =>
      obtain ⟨n, hnode, rfl⟩ := gives_bind_pure.mp hnodes
      exact .expression hnode hcode
  | nothing =>
    obtain ⟨rfl, rfl⟩ := gives_pure.mp hnodes
    exact ⟨[], codes, .nothing, hcodes, rfl⟩
  | spread =>
    obtain ⟨n, hnode, rfl⟩ := gives_bind_pure.mp hnodes
    obtain ⟨code, rest, hcode, hrest, rfl⟩ := exists_codes_of_cons (f := fun code => "...(" ++ code ++ ")") hcodes
    exact ⟨_, rest, .spread hnode hcode, hrest, rfl⟩

/-- The nodes and the codes of the children of an element go child by child. -/
theorem rows_of_children (hts : ∀ t ∈ ts, IsChild t) (hnodes : Gives (childNodes (depth + 1) c scope ts) r nodes r')
    (hcodes : childCodes embed ts = .ok codes) :
    ∃ rows : List (Tree × List Node × List String), rows.map (·.1) = ts ∧ nodes = rows.flatMap (·.2.1) ∧
      codes = rows.flatMap (·.2.2) ∧ ∀ row ∈ rows, Row depth c scope embed row.1 row.2.1 row.2.2 := by
  induction ts generalizing r nodes codes with
  | nil =>
    simp only [childNodes, List.mapM_nil, gives_bind, gives_pure] at hnodes
    obtain ⟨_, _, ⟨rfl, rfl⟩, rfl, rfl⟩ := hnodes
    obtain rfl := Except.ok.inj hcodes
    exact ⟨[], rfl, rfl, rfl, List.forall_mem_nil _⟩
  | cons t ts ih =>
    obtain ⟨ht, hts⟩ := List.forall_mem_cons.mp hts
    obtain ⟨ns, r₁, nodes, hfirst, hlater, rfl⟩ := gives_childNodes_cons hnodes
    obtain ⟨cs, codes, hrow, hrest, rfl⟩ := row_of_child ht hfirst hcodes
    obtain ⟨rows, rfl, rfl, rfl, hrows⟩ := ih hts hlater hrest
    exact ⟨(t, ns, cs) :: rows, rfl, rfl, rfl, List.forall_mem_cons.mpr ⟨hrow, hrows⟩⟩

/-- A text before an expression that is missing, and one after a line end. -/
theorem rows_of_children_words :
    let c : Snippet := ⟨"Go \x7b\x7d\n on ".toList, {}⟩
    let first : Span := ⟨0, 3⟩
    let last : Span := ⟨5, 10⟩
    let ts : List Tree := [.node (.rawText "Go ") first [], .node .container ⟨3, 5⟩ [], .node (.rawText "\n on ") last []]
    ∃ rows : List (Tree × List Node × List String), rows.map (·.1) = ts ∧
      [.text "Go " ⟨c.positionOf first, none⟩, .text "on" ⟨c.positionOf last, none⟩] = rows.flatMap (·.2.1) ∧
      ["\"Go\"", "\"on\""] = rows.flatMap (·.2.2) ∧
      ∀ row ∈ rows, Row 0 c none (fun _ => .ok "") row.1 row.2.1 row.2.2 := by
  intro c first last ts
  have hts : ∀ t ∈ ts, IsChild t := by
    simpa [ts] using ⟨.text, .nothing, .text⟩
  have hnodes : Gives (childNodes 1 c none ts) { file := "a.zen" }
      [.text "Go " ⟨c.positionOf first, none⟩, .text "on" ⟨c.positionOf last, none⟩] { file := "a.zen" } := rfl
  have hcodes : childCodes (fun _ => .ok "") ts = .ok ["\"Go\"", "\"on\""] := rfl
  exact rows_of_children hts hnodes hcodes

/-- In calls the blank before an expression is gone, and in nodes it is there. -/
theorem calls_lose_blank :
    (Code.withCalls "<a>Go \x7bname\x7d</a>").toOption = some "__zenith.h(\"a\", null, [\"Go\", name])" ∧
      childText "Go " = "Go " := by
  decide +kernel

end PageCompiler.Template
