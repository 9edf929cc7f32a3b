import PageCompiler.Emit.Html

/-!
# Values in written markup

The texts of a template and the values of its attributes are written escaped, and all else that is written is
determined by the rest of the template, its skeleton. Two templates with one skeleton are therefore written as the same
pieces of markup around the values of the one or of the other (`Emit.Alike`), so no value adds an angle or a quote to
the markup (`Emit.html_alike`). Each value can be read back from what is written for it (`Emit.unescape_escape`).
-/

namespace PageCompiler

/-! ## Skeletons and values -/

namespace Template

/-- The value without its text. The id of an expression stays. -/
def Value.skeleton : Value → Value
  | .fixed _ => .fixed ""
  | .expression id => .expression id
  | .handler _ => .handler ""

/-- The text of a value; an expression has none. -/
def Value.text? : Value → Option String
  | .fixed text => some text
  | .expression _ => none
  | .handler name => some name

def Attribute.skeleton (a : Attribute) : Attribute :=
  { a with value := a.value.skeleton }

def attributeValues (attributes : List Attribute) : List String :=
  attributes.filterMap (·.value.text?)

mutual

def Node.skeleton : Node → Node
  | .element tag attributes children place =>
    .element tag (attributes.map (·.skeleton)) (skeletonIn children) place
  | .text _ place => .text "" place
  | .expression id place => .expression id place
  | .component name attributes children place =>
    .component name (attributes.map (·.skeleton)) (skeletonIn children) place
  | .slot name fallback place => .slot name (skeletonIn fallback) place
  | .choice condition yes no place => .choice condition (skeletonIn yes) (skeletonIn no) place
  | .optional condition content place => .optional condition (skeletonIn content) place
  | .loop source item index key body place => .loop source item index key (skeletonIn body) place
  | .doctype name position => .doctype name position

/-- The nodes without texts and without the texts of their attributes. -/
def skeletonIn : List Node → List Node
  | [] => []
  | n :: ns => n.skeleton :: skeletonIn ns

end

mutual

/-- The texts of a node that are written, in their order. -/
def Node.values : Node → List String
  | .element _ attributes children _ => attributeValues attributes ++ valuesIn children
  | .text value _ => [value]
  | .choice _ yes no _ => valuesIn yes ++ valuesIn no
  | .optional _ content _ => valuesIn content
  | .loop _ _ _ _ body _ => valuesIn body
  | _ => []

/-- The texts of nodes that are written, in their order. -/
def valuesIn : List Node → List String
  | [] => []
  | n :: ns => n.values ++ valuesIn ns

end

theorem skeletonIn_eq_nil {nodes : List Node} : skeletonIn nodes = [] ↔ nodes = [] := by
  cases nodes <;> simp [skeletonIn]

end Template

namespace Emit

open Template (Node Attribute Value Expression LoopScope skeletonIn valuesIn attributeValues)

/-! ## Escapes -/

/-- The characters that are not written as themselves, and what is written for them. -/
def entities : List (Char × String) :=
  [('&', "&amp;"), ('<', "&lt;"), ('>', "&gt;"), ('"', "&quot;"), ('\'', "&#39;")]

/-- The text with the escapes undone, after the given number of characters that belong to an escape already undone. -/
def unescapeFrom : Nat → List Char → List Char
  | _, [] => []
  | n + 1, _ :: cs => unescapeFrom n cs
  | 0, c :: cs =>
    match entities.find? fun e => e.2.toList.isPrefixOf (c :: cs) with
    | some (d, text) => d :: unescapeFrom (text.length - 1) cs
    | none => c :: unescapeFrom 0 cs

def unescape (text : String) : String :=
  String.ofList (unescapeFrom 0 text.toList)

def isMarkup (c : Char) : Bool :=
  c == '<' || c == '>' || c == '"'

theorem escapeChar_cases (c : Char) :
    c ∈ entities.map (·.1) ∨ (escapeChar c = [c] ∧ c ∉ entities.map (·.1)) := by
  by_cases h : c ∈ entities.map (·.1)
  · exact .inl h
  · refine .inr ⟨?_, h⟩
    unfold escapeChar
    split <;> simp_all [entities]

theorem unescapeFrom_escapeChar (c : Char) (cs : List Char) :
    unescapeFrom 0 (escapeChar c ++ cs) = c :: unescapeFrom 0 cs := by
  rcases escapeChar_cases c with h | ⟨hself, hother⟩
  · simp only [entities, List.map_cons, List.map_nil, List.mem_cons, List.not_mem_nil, or_false] at h
    rcases h with rfl | rfl | rfl | rfl | rfl <;> rfl
  · -- every escape starts with an ampersand, and this character is none
    have hnone : entities.find? (fun e => e.2.toList.isPrefixOf (c :: cs)) = none := by
      have hamp : c ≠ '&' := fun heq => hother (by simp [heq, entities])
      simp [entities, List.isPrefixOf, hamp.symm]
    rw [hself, List.singleton_append, unescapeFrom, hnone]

/-- A value is read back from what is written for it. -/
theorem unescape_escape (text : String) : unescape (escape text) = text := by
  have hchars : ∀ cs : List Char, unescapeFrom 0 (cs.flatMap escapeChar) = cs := by
    intro cs
    induction cs with
    | nil => rfl
    | cons c cs ih => rw [List.flatMap_cons, unescapeFrom_escapeChar, ih]
  rw [unescape, escape, String.toList_ofList, hchars, String.ofList_toList]

theorem filter_isMarkup_escape (text : String) : (escape text).toList.filter isMarkup = [] := by
  rw [escape, String.toList_ofList, List.filter_eq_nil_iff]
  intro d hd
  obtain ⟨c, -, hd⟩ := List.mem_flatMap.mp hd
  rcases escapeChar_cases c with h | ⟨hself, hother⟩
  · have hnone : ((entities.map (·.1)).all fun c => (escapeChar c).all fun d => !isMarkup d) = true := by decide
    have hplain := List.all_eq_true.mp (List.all_eq_true.mp hnone c h) d hd
    simpa using hplain
  · rw [hself, List.mem_singleton] at hd
    subst hd
    simp only [entities, List.map_cons, List.map_nil, List.mem_cons, List.not_mem_nil, or_false, not_or] at hother
    simp [isMarkup, hother]

/-! ## Markup around values -/

/-- A piece of written markup. -/
inductive Piece where
  | markup (text : String)
  | gap
deriving DecidableEq, Repr

def gaps : List Piece → Nat
  | [] => 0
  | .markup _ :: ps => gaps ps
  | .gap :: ps => gaps ps + 1

/-- The text of the pieces with the values, escaped, in their places. -/
def fill : List Piece → List String → String
  | [], _ => ""
  | .markup text :: ps, vs => text ++ fill ps vs
  | .gap :: ps, v :: vs => escape v ++ fill ps vs
  | .gap :: ps, [] => fill ps []

theorem gaps_append (ps qs : List Piece) : gaps (ps ++ qs) = gaps ps + gaps qs := by
  induction ps with
  | nil => simp [gaps]
  | cons p ps ih => cases p <;> simp [gaps, ih, Nat.add_right_comm]

theorem fill_append {ps : List Piece} {vs : List String} (h : gaps ps = vs.length) (qs : List Piece)
    (us : List String) : fill (ps ++ qs) (vs ++ us) = fill ps vs ++ fill qs us := by
  fun_induction fill ps vs with
  | case1 vs =>
    rw [List.eq_nil_of_length_eq_zero h.symm]
    simp
  | case2 text ps vs ih => simp [fill, ih h, String.append_assoc]
  | case3 ps v vs ih => simp [fill, ih (Nat.succ.inj h), String.append_assoc]
  | case4 ps => cases h

theorem filter_isMarkup_fill {ps : List Piece} {vs us : List String} :
    (fill ps vs).toList.filter isMarkup = (fill ps us).toList.filter isMarkup := by
  induction ps generalizing vs us with
  | nil => rfl
  | cons p ps ih =>
    have hgap : ∀ vs : List String, (fill (.gap :: ps) vs).toList.filter isMarkup =
        (fill ps vs.tail).toList.filter isMarkup := by
      intro vs
      cases vs with
      | nil => rfl
      | cons v vs => simp [fill, filter_isMarkup_escape]
    cases p with
    | markup text =>
      have htext : ∀ vs : List String, (fill (.markup text :: ps) vs).toList.filter isMarkup =
          text.toList.filter isMarkup ++ (fill ps vs).toList.filter isMarkup := by simp [fill]
      rw [htext, htext, ih]
    | gap => rw [hgap, hgap, ih]

/-! ## Two writings -/

theorem Html.ofString_append (a b : String) : Html.ofString (a ++ b) = Html.ofString a ++ Html.ofString b :=
  rfl

/-- Two outputs have the same markers and the same pieces of markup, around the first values in the one and around
the second values in the other. -/
structure Both (values values' : List String) (out out' : Html) : Prop where
  pieces : ∃ ps, gaps ps = values.length ∧ gaps ps = values'.length ∧
    out.text = fill ps values ∧ out'.text = fill ps values'
  bindings : out.bindings = out'.bindings

/-- Both writings fail, or both succeed with outputs that differ in the values only. -/
def Alike (values values' : List String) (x x' : Compiled Html) : Prop :=
  (∃ d d', x = .error d ∧ x' = .error d') ∨ ∃ out out', x = .ok out ∧ x' = .ok out' ∧ Both values values' out out'

section

variable {vs vs' us us' : List String} {out out' more more' : Html}

theorem Both.same {out : Html} : Both [] [] out out where
  pieces := ⟨[.markup out.text], rfl, rfl, by simp [fill], by simp [fill]⟩
  bindings := rfl

theorem Both.value (v v' : String) : Both [v] [v'] (Html.ofString (escape v)) (Html.ofString (escape v')) where
  pieces := ⟨[.gap], rfl, rfl, by simp [fill, Html.ofString], by simp [fill, Html.ofString]⟩
  bindings := rfl

theorem Both.append (h : Both vs vs' out out') (hmore : Both us us' more more') :
    Both (vs ++ us) (vs' ++ us') (out ++ more) (out' ++ more') := by
  obtain ⟨⟨ps, hcount, hcount', htext, htext'⟩, hbindings⟩ := h
  obtain ⟨⟨qs, hmoreCount, hmoreCount', hmoreText, hmoreText'⟩, hmoreBindings⟩ := hmore
  refine ⟨⟨ps ++ qs, ?_, ?_, ?_, ?_⟩, ?_⟩
  · rw [gaps_append, hcount, hmoreCount, List.length_append]
  · rw [gaps_append, hcount', hmoreCount', List.length_append]
  · rw [fill_append hcount, ← htext, ← hmoreText]
    rfl
  · rw [fill_append hcount', ← htext', ← hmoreText']
    rfl
  · show out.bindings ++ more.bindings = out'.bindings ++ more'.bindings
    rw [hbindings, hmoreBindings]

theorem Both.after (h : Both vs vs' out out') (text : String) :
    Both vs vs' (Html.ofString text ++ out) (Html.ofString text ++ out') := by
  simpa using Both.same.append h

/-- Text behind two outputs. -/
theorem Both.before (h : Both vs vs' out out') (text : String) :
    Both vs vs' (out ++ Html.ofString text) (out' ++ Html.ofString text) := by
  simpa using h.append Both.same

theorem Alike.of_both (h : Both vs vs' out out') : Alike vs vs' (pure out) (pure out') :=
  .inr ⟨out, out', rfl, rfl, h⟩

theorem Alike.throw (d d' : Diagnostic) : Alike vs vs' (throw d) (throw d') :=
  .inl ⟨d, d', rfl, rfl⟩

theorem Alike.bind {x x' : Compiled Html} {f f' : Html → Compiled Html} (h : Alike vs vs' x x')
    (hf : ∀ out out', Both vs vs' out out' → Alike us us' (f out) (f' out')) : Alike us us' (x >>= f) (x' >>= f') := by
  rcases h with ⟨d, d', rfl, rfl⟩ | ⟨out, out', rfl, rfl, hboth⟩
  · exact .inl ⟨d, d', rfl, rfl⟩
  · exact hf out out' hboth

end

namespace Writer

variable {w w' : Writer} (hw : w.expressions = w'.expressions)

include hw in
theorem alike_marker (id : String) (kind : BindingKind) (target : String) (scope : Option LoopScope) :
    Alike [] [] (w.marker id kind target scope) (w'.marker id kind target scope) := by
  unfold marker
  rw [hw]
  split
  · exact .throw _ _
  · exact .of_both .same

include hw in
theorem alike_key (key : Option String) : Alike [] [] (w.key key) (w'.key key) := by
  cases key with
  | none => exact .of_both .same
  | some id => exact (alike_marker hw ..).bind fun _ _ h => .of_both (h.after _)

theorem both_quoted (name v v' : String) : Both [v] [v'] (Html.ofString (name ++ "=\"" ++ escape v ++ "\""))
    (Html.ofString (name ++ "=\"" ++ escape v' ++ "\"")) := by
  rw [Html.ofString_append, Html.ofString_append, Html.ofString_append (name ++ "=\"" ++ escape v'),
    Html.ofString_append _ (escape v')]
  exact ((Both.value v v').after _).before _

include hw in
theorem alike_attr {a a' : Attribute} (h : a.skeleton = a'.skeleton) :
    Alike a.value.text?.toList a'.value.text?.toList (w.attr a) (w'.attr a') := by
  obtain ⟨name, value, place⟩ := a
  obtain ⟨name', value', place'⟩ := a'
  simp only [Attribute.skeleton, Attribute.mk.injEq] at h
  obtain ⟨rfl, hvalue, rfl⟩ := h
  cases value <;> cases value' <;> cases hvalue
  · exact .of_both (both_quoted name _ _)
  · exact alike_marker hw ..
  · exact .of_both (both_quoted name _ _)

include hw in
theorem alike_attributes {as as' : List Attribute} (h : as.map (·.skeleton) = as'.map (·.skeleton)) :
    Alike (attributeValues as) (attributeValues as') (w.attributes as) (w'.attributes as') := by
  induction as generalizing as' with
  | nil =>
    obtain rfl : as' = [] := by simpa using h.symm
    exact .of_both .same
  | cons a as ih =>
    obtain ⟨a', as', rfl, ha, has⟩ := List.map_eq_cons_iff.mp h.symm
    rw [attributes, attributes]
    refine (alike_attr hw ha.symm).bind fun here here' hhere => (ih has.symm).bind fun rest rest' hrest => .of_both ?_
    have hvalues : ∀ (a : Attribute) (as : List Attribute),
        attributeValues (a :: as) = a.value.text?.toList ++ attributeValues as := by
      intro a as
      cases h : a.value.text? <;> simp [attributeValues, h]
    rw [hvalues, hvalues]
    exact (hhere.after " ").append hrest

mutual

theorem alike_node (hw : w.expressions = w'.expressions) : {n n' : Node} → n.skeleton = n'.skeleton →
    Alike n.values n'.values (w.node n) (w'.node n')
  | .text value place, n', h => by
    cases n' <;> cases h
    exact .of_both (.value ..)
  | .doctype name position, n', h => by
    cases n' <;> cases h
    exact .of_both .same
  | .component name attributes children place, n', h => by
    cases n' with
    | component => exact .throw _ _
    | _ => cases h
  | .slot name fallback place, n', h => by
    cases n' with
    | slot => exact .throw _ _
    | _ => cases h
  | .expression id place, n', h => by
    cases n' <;> cases h
    exact (alike_marker hw ..).bind fun _ _ hm => .of_both ((hm.after _).before _)
  | .element tag attributes children place, n', h => by
    cases n' with
    | element tag' attributes' children' place' =>
      simp only [Node.skeleton, Node.element.injEq] at h
      obtain ⟨rfl, hattributes, hchildren, rfl⟩ := h
      rw [node, node]
      refine (alike_attributes hw hattributes).bind fun out out' hout => ?_
      have hempty : children.isEmpty = children'.isEmpty := by
        cases children <;> cases children' <;> first | rfl | cases hchildren
      rw [← hempty]
      split
      · rename_i hvoid
        rw [Bool.and_eq_true] at hvoid
        have hnil : children = [] := List.isEmpty_iff.mp hvoid.2
        have hnil' : children' = [] := List.isEmpty_iff.mp (hempty ▸ hvoid.2)
        subst hnil hnil'
        simpa [Node.values, valuesIn] using Alike.of_both ((hout.after _).before _)
      · refine (alike_nodes hw hchildren).bind fun inside inside' hinside => .of_both ?_
        exact (((hout.after _).before _).append hinside).before _
    | _ => cases h
  | .choice condition yes no place, n', h => by
    cases n' with
    | choice condition' yes' no' place' =>
      simp only [Node.skeleton, Node.choice.injEq] at h
      obtain ⟨rfl, hyes, hno, rfl⟩ := h
      rw [node, node]
      refine (alike_marker hw ..).bind fun m m' hm => (alike_nodes hw hyes).bind fun y y' hy =>
        (alike_nodes hw hno).bind fun n n' hn => .of_both ?_
      exact (((((hm.after _).before _).append hy).before _).append hn).before _
    | _ => cases h
  | .optional condition content place, n', h => by
    cases n' with
    | optional condition' content' place' =>
      simp only [Node.skeleton, Node.optional.injEq] at h
      obtain ⟨rfl, hcontent, rfl⟩ := h
      rw [node, node]
      refine (alike_marker hw ..).bind fun m m' hm => (alike_nodes hw hcontent).bind fun c c' hc => .of_both ?_
      exact (((hm.after _).before _).append hc).before _
    | _ => cases h
  | .loop source item index key body place, n', h => by
    cases n' with
    | loop source' item' index' key' body' place' =>
      simp only [Node.skeleton, Node.loop.injEq] at h
      obtain ⟨rfl, rfl, rfl, rfl, hbody, rfl⟩ := h
      unfold node
      refine (alike_marker hw ..).bind fun m m' hm => (alike_key hw key).bind fun k k' hk =>
        (alike_nodes hw hbody).bind fun b b' hb => .of_both ?_
      exact (((((hm.after _).before _).append hk).before _).append hb).before _
    | _ => cases h

theorem alike_nodes (hw : w.expressions = w'.expressions) : {ns ns' : List Node} → skeletonIn ns = skeletonIn ns' →
    Alike (valuesIn ns) (valuesIn ns') (w.nodes ns) (w'.nodes ns')
  | [], ns', h => by
    obtain rfl : ns' = [] := Template.skeletonIn_eq_nil.mp h.symm
    exact .of_both .same
  | n :: ns, ns', h => by
    cases ns' with
    | nil => cases h
    | cons n' ns' =>
      obtain ⟨hn, hns⟩ := List.cons.inj h
      rw [nodes, nodes]
      exact (alike_node hw hn).bind fun _ _ hhere => (alike_nodes hw hns).bind fun _ _ hrest =>
        .of_both (hhere.append hrest)

end

end Writer

/-! ## Markup -/

/-- Two templates with one skeleton are both written, or neither is. If they are, they have the same markers, and the
texts are the same markup around the values of the one and of the other, so that angles and quotes are the same; and
each value is read back from what is written for it. -/
theorem html_alike {nodes nodes' : List Node} (file file' : String) (expressions : List Expression)
    (h : skeletonIn nodes = skeletonIn nodes') :
    ((∃ d d', html file nodes expressions = .error d ∧ html file' nodes' expressions = .error d') ∨
      ∃ out out', html file nodes expressions = .ok out ∧ html file' nodes' expressions = .ok out' ∧
        out.bindings = out'.bindings ∧
        (∃ pieces, gaps pieces = (valuesIn nodes).length ∧ gaps pieces = (valuesIn nodes').length ∧
          out.text = fill pieces (valuesIn nodes) ∧ out'.text = fill pieces (valuesIn nodes')) ∧
        out.text.toList.filter isMarkup = out'.text.toList.filter isMarkup) ∧
    ∀ value, unescape (escape value) = value := by
  refine ⟨?_, unescape_escape⟩
  have hwriters : (Writer.mk file expressions).expressions = (Writer.mk file' expressions).expressions := rfl
  rcases Writer.alike_nodes hwriters h with ⟨d, d', hout, hout'⟩ | ⟨out, out', hout, hout', ⟨hpieces, hbindings⟩⟩
  · exact .inl ⟨d, d', hout, hout'⟩
  · refine .inr ⟨out, out', hout, hout', hbindings, hpieces, ?_⟩
    obtain ⟨ps, -, -, htext, htext'⟩ := hpieces
    rw [htext, htext']
    exact filter_isMarkup_fill

/-- Markup in the texts and quotes in the values of attributes stay values. -/
theorem html_alike_injected :
    let page (text title handler : String) : List Node :=
      [.loop "expr_0" "item" none none
        [.element "p" [⟨"title", .fixed title, {}⟩, ⟨"data-zen-click", .handler handler, {}⟩] [.text text {}] {}] {}]
    let expressions : List Expression := [{ id := "expr_0", code := "items" }]
    skeletonIn (page "one" "two" "f") = skeletonIn (page "<b>&lt;</b>" "\" onclick='g()'" "'&'") ∧
      ∃ out out', html "page.zen" (page "one" "two" "f") expressions = .ok out ∧
        html "page.zen" (page "<b>&lt;</b>" "\" onclick='g()'" "'&'") expressions = .ok out' ∧
        out.bindings = out'.bindings ∧ out.text.toList.filter isMarkup = out'.text.toList.filter isMarkup := by
  intro page expressions
  have hskeleton : skeletonIn (page "one" "two" "f") = skeletonIn (page "<b>&lt;</b>" "\" onclick='g()'" "'&'") := rfl
  refine ⟨hskeleton, ?_⟩
  rcases (html_alike "page.zen" "page.zen" expressions hskeleton).1 with
    ⟨d, -, hfails, -⟩ | ⟨out, out', hout, hout', hbindings, -, hmarkup⟩
  · cases hfails
  · exact ⟨out, out', hout, hout', hbindings, hmarkup⟩

end Emit

end PageCompiler
