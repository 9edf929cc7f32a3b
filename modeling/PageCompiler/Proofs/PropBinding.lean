import PageCompiler.Component.Resolution
import PageCompiler.Proofs.Inlining
import PageCompiler.Proofs.LoopNesting
import PageCompiler.Proofs.Scoping

/-!
# Code in the place of props

The copy of a component holds, wherever the component names a prop, the code that was written for the prop. A name of
that code is read at the new place through what is declared around it. `Site.denotes` says what the name stands for
there and `Written.denotes` what it stood for where it was written; `denotes_iff_kept` says exactly when the two agree.
They need not: code is put in place as text, so what the component declares around the place can capture a name.
-/

namespace PageCompiler

open Template (LoopScope Expression)

variable {name : String}

/-- What a name stands for at a place of a page. -/
inductive Denotation where
  /-- A parameter, a local or a loop variable of the component around the place. -/
  | captured
  /-- A variable of a loop around the use of the component. -/
  | loop (name : String)
  | prop (name : String)
  | page (name : String)
  | global (name : String)
deriving DecidableEq, Repr

/-- What a name stands for in the scripts. -/
def Scope.denotes (s : Scope) (name : String) : Denotation :=
  if s.declares name then .page name else .global name

theorem Scope.denotes_ne {s : Scope} {d : Denotation} (hpage : d ≠ .page name) (hglobal : d ≠ .global name) :
    s.denotes name ≠ d := by
  unfold Scope.denotes
  split
  · exact hpage.symm
  · exact hglobal.symm

theorem Scope.denotes_eq_iff {s t : Scope} : s.denotes name = t.denotes name ↔ s.declares name = t.declares name := by
  unfold Scope.denotes
  cases s.declares name <;> cases t.declares name <;> simp

/-- The names that the code of an expression uses and does not declare itself. -/
def Code.freeNames (code : String) : List String :=
  match Code.parseExpression code.toList with
  | .ok tree => ((tree.uses []).filter (!·.isLocal)).map (·.name)
  | .error _ => []

namespace Component

variable {component : Component} {usage : Usage} {b : Rebinding} {r : Code.Reference} {prop text : String}

/-! ## Places -/

/-- The prop whose code takes the place of a reference. -/
def Rebinding.prop? (b : Rebinding) (loops : Option LoopScope) (r : Code.Reference) : Option String :=
  if (LoopScope.variablesOf loops).contains r.name || b.renames.hasKey r.name then none
  else if b.props.hasKey r.name then some r.name
  else if r.name == "props" then (r.member.map (·.1)).filter b.props.hasKey
  else none

/-- A piece of the code of a component that is copied: the references on which the copy decides, the uses of names,
the loops of the component around the code, the edits that make the copy, and the loop variables that the copy sees. -/
structure Piece where
  references : List Code.Reference
  uses : List Code.Use
  loops : Option LoopScope
  edits : List Code.Edit
  inMarkup : Bool
  visible : List String

variable {piece : Piece}

/-- The pieces of a component: its expressions and the blocks of its script. -/
inductive IsPiece (component : Component) (usage : Usage) (b : Rebinding) : Piece → Prop where
  | expression {e : Expression} {tree : Code.Tree} (he : e ∈ component.page.expressions)
      (htree : Code.parseExpression e.code.toList = .ok tree) :
      IsPiece component usage b {
        references := tree.references
        uses := tree.uses []
        loops := e.place.scope
        edits := Code.editsFor tree.references (b.reference? e.place.scope)
        inMarkup := true
        visible := LoopScope.variablesOf (b.place usage.place.scope e.place).scope }
  | block {block : Script.Block} {tree : Code.Tree} {references : List Code.Reference}
      (hblock : block ∈ scriptBlocks component) (htree : Code.parseProgram block.plain = .ok tree)
      (hreferences : block.references = .ok references) :
      IsPiece component usage b {
        references := keptReferences b block references
        uses := tree.programUses
        loops := none
        edits := blockEdits b block references
        inMarkup := false
        visible := [] }

def nameAfter (edits : List Code.Edit) (declared : String × Span) : String :=
  ((edits.find? (·.span == declared.2)).map (·.text)).getD declared.1

/-- A place of the copy of a component where the code for a prop is put: whether it is a declaration, what the code
around it declares in the copy, the variables of the loops of the component around it, and what the piece says. -/
structure Site where
  declares : Bool
  locals : List String
  loops : List String
  inMarkup : Bool
  visible : List String

/-- The places of a piece where the code for a prop is put. -/
inductive Piece.HasSite (piece : Piece) (b : Rebinding) (prop : String) : Site → Prop where
  | use {r : Code.Reference} {u : Code.Use} (hr : r ∈ piece.references)
      (hprop : b.prop? piece.loops r = some prop) (hdeclares : r.declares = false)
      (hu : u ∈ piece.uses) (hname : u.name = r.name) (hspan : u.span = r.span) :
      piece.HasSite b prop {
        declares := false
        locals := u.locals.map (nameAfter piece.edits)
        loops := LoopScope.variablesOf piece.loops
        inMarkup := piece.inMarkup
        visible := piece.visible }
  | declaration {r : Code.Reference} (hr : r ∈ piece.references)
      (hprop : b.prop? piece.loops r = some prop) (hdeclares : r.declares = true) :
      piece.HasSite b prop {
        declares := true
        locals := []
        loops := LoopScope.variablesOf piece.loops
        inMarkup := piece.inMarkup
        visible := piece.visible }

theorem IsPiece.exists_site (h : IsPiece component usage b piece) (hr : r ∈ piece.references)
    (hprop : b.prop? piece.loops r = some prop) : ∃ s, piece.HasSite b prop s := by
  cases hd : r.declares with
  | true => exact ⟨_, .declaration hr hprop hd⟩
  | false =>
    have huse : ∃ u ∈ piece.uses, u.name = r.name ∧ u.span = r.span := by
      cases h with
      | expression he htree => exact Code.Tree.exists_use hr []
      | block hblock htree hreferences =>
        exact Code.Tree.exists_programUse htree hreferences (List.mem_filter.mp hr).1 hd
    obtain ⟨u, hu, hname, hspan⟩ := huse
    exact ⟨_, .use hr hprop hd hu hname hspan⟩

/-- The edit puts the text for a prop in the place of a reference, or of the member of `props` that it names; a member
of an object that is written by its name alone keeps its key. -/
def Puts (r : Code.Reference) (prop text : String) (edit : Code.Edit) : Prop :=
  edit = ⟨r.span, text⟩ ∨ edit = ⟨r.span, r.name ++ ": " ++ text⟩ ∨
    ∃ span, r.member = some (prop, span) ∧ edit = ⟨span, text⟩

theorem Rebinding.exists_edit {loops : Option LoopScope} (h : b.prop? loops r = some prop)
    (htext : b.props.get? prop = some text) :
    ∃ edit, (b.reference? loops r >>= r.edit?) = some edit ∧ Puts r prop text edit := by
  unfold prop? at h
  split at h
  · cases h
  rename_i hfree
  simp only [Bool.or_eq_true, not_or, Bool.not_eq_true, Ordered.hasKey_eq_false] at hfree
  obtain ⟨hloops, hrenames⟩ := hfree
  split at h
  · cases h
    have hname : b.reference? loops r = some (.name text) := by
      simp only [reference?, hloops, Bool.false_eq_true, if_false, hrenames, htext]
    rw [hname]
    cases hshort : r.shorthand with
    | true => exact ⟨_, rfl, .inr (.inl (by simp [hshort]))⟩
    | false => exact ⟨_, rfl, .inl (by simp [hshort])⟩
  · rename_i hkey
    split at h
    · rename_i hprops
      obtain ⟨hproperty, -⟩ := Option.filter_eq_some_iff.mp h
      obtain ⟨⟨property, span⟩, hmember, rfl⟩ := Option.map_eq_some_iff.mp hproperty
      rw [Bool.not_eq_true, Ordered.hasKey_eq_false] at hkey
      have hname : b.reference? loops r = some (.member text) := by
        simp only [reference?, hloops, Bool.false_eq_true, if_false, hrenames, hkey, hprops, if_true,
          hmember]
        exact congrArg (Option.map Code.Renaming.member) htext
      refine ⟨⟨span, text⟩, ?_, .inr (.inr ⟨span, hmember, rfl⟩)⟩
      rw [hname]
      simp [Code.Reference.edit?, hmember]
    · cases h

theorem IsPiece.exists_edit (h : IsPiece component usage b piece) (hr : r ∈ piece.references)
    (hprop : b.prop? piece.loops r = some prop) (htext : b.props.get? prop = some text) :
    ∃ edit ∈ piece.edits, Puts r prop text edit := by
  obtain ⟨edit, hedit, hputs⟩ := b.exists_edit hprop htext
  refine ⟨edit, ?_, hputs⟩
  have hmem : edit ∈ Code.editsFor piece.references (b.reference? piece.loops) :=
    List.mem_filterMap.mpr ⟨r, hr, hedit⟩
  cases h with
  | expression he htree => exact hmem
  | block hblock htree hreferences => exact List.mem_append_left _ hmem

/-! ## What names stand for -/

/-- What a name of the code for a prop stood for where the code was written. `before` are the names of the page when
the component is used. -/
def Written.denotes (component : Component) (b : Rebinding) (before : Scope) (name : String) :
    Written → Denotation
  | .atUse loops => if name ∈ loops then .loop name else before.denotes name
  | .asDefault =>
    match b.renames.get? name with
    | some renamed => .page renamed
    | none =>
      if component.props.hasKey name then .prop name
      else (Scope.ofScript component.page.script).denotes name

/-- What a name of the code that is put at a place stands for there. `after` are the names of the page with the
component in it. -/
def Site.denotes (s : Site) (after : Scope) (name : String) : Denotation :=
  if s.declares = true ∨ name ∈ s.locals ∨ name ∈ s.loops then .captured
  else if name ∈ s.visible then .loop name
  else after.denotes name

/-- Nothing stands between a name at a place and what it stood for where it was written: the component declares nothing
of that name around the place; a variable of a loop around the use is put into markup, and no other name meets such a
variable; the component does not bring a name of that kind into the page; and in a default the name is none of
the component's own. -/
def Kept (component : Component) (usage : Usage) (b : Rebinding) (before after : Scope) (written : Written)
    (s : Site) (name : String) : Prop :=
  s.declares = false ∧ name ∉ s.locals ∧ name ∉ s.loops ∧
    match written with
    | .atUse loops =>
      (name ∈ loops ↔ s.inMarkup = true ∧ name ∈ LoopScope.variablesOf usage.place.scope) ∧
        (name ∉ loops → before.declares name = after.declares name)
    | .asDefault =>
      ¬ (s.inMarkup = true ∧ name ∈ LoopScope.variablesOf usage.place.scope) ∧
        b.renames.hasKey name = false ∧ component.props.hasKey name = false ∧
        (Scope.ofScript component.page.script).declares name = after.declares name

/-- A name at a place stands for what it stood for where it was written exactly if nothing stands between. -/
theorem denotes_iff_kept {before after : Scope} {written : Written} {s : Site} {name : String}
    (hvisible : name ∈ s.visible ↔ s.inMarkup = true ∧
      (name ∈ s.loops ∨ name ∈ LoopScope.variablesOf usage.place.scope))
    (hrenames : ∀ renamed, b.renames.get? name = some renamed → renamed ≠ name) :
    s.denotes after name = written.denotes component b before name ↔
      Kept component usage b before after written s name := by
  unfold Site.denotes Kept
  by_cases hcaptured : s.declares = true ∨ name ∈ s.locals ∨ name ∈ s.loops
  · rw [if_pos hcaptured]
    constructor
    · intro heq
      cases written with
      | atUse loops =>
        rw [Written.denotes] at heq
        split at heq
        · cases heq
        · exact absurd heq.symm (Scope.denotes_ne (by simp) (by simp))
      | asDefault =>
        rw [Written.denotes] at heq
        split at heq
        · cases heq
        · split at heq
          · cases heq
          · exact absurd heq.symm (Scope.denotes_ne (by simp) (by simp))
    · rintro ⟨hdeclares, hlocals, hloops, -⟩
      simp [hdeclares, hlocals, hloops] at hcaptured
  · rw [if_neg hcaptured]
    simp only [not_or, Bool.not_eq_true] at hcaptured
    obtain ⟨hdeclares, hlocals, hloops⟩ := hcaptured
    simp only [hloops, false_or] at hvisible
    rw [← hvisible]
    simp only [hdeclares, hlocals, hloops, not_false_eq_true, true_and]
    cases written with
    | atUse loops =>
      simp only [Written.denotes]
      by_cases hv : name ∈ s.visible <;> by_cases hl : name ∈ loops
      · simp [hv, hl]
      · simpa [hv, hl] using (Scope.denotes_ne (d := .loop name) (by simp) (by simp)).symm
      · simpa [hv, hl] using Scope.denotes_ne (d := .loop name) (by simp) (by simp)
      · simp [hv, hl, Scope.denotes_eq_iff, eq_comm]
    | asDefault =>
      simp only [Written.denotes]
      cases hget : b.renames.get? name with
      | some renamed =>
        have hkey : b.renames.hasKey name = true := Ordered.hasKey_eq_true.mpr ⟨renamed, hget⟩
        simp only [hkey, Bool.true_eq_false, false_and, and_false, iff_false]
        split
        · intro heq
          cases heq
        · exact Scope.denotes_ne (by simpa using hrenames renamed hget) (by simp)
      | none =>
        have hkey : b.renames.hasKey name = false := Ordered.hasKey_eq_false.mpr hget
        cases hprop : component.props.hasKey name with
        | true =>
          simp only [if_true, Bool.true_eq_false, false_and, and_false, iff_false]
          split
          · intro heq
            cases heq
          · exact Scope.denotes_ne (by simp) (by simp)
        | false =>
          by_cases hv : name ∈ s.visible
          · simpa [hv, hkey] using (Scope.denotes_ne (d := .loop name) (by simp) (by simp)).symm
          · simp [hv, hkey, Scope.denotes_eq_iff, eq_comm]

/-! ## One use -/

/-- A place of a piece in markup sees the variables of the loops of the component and of those around the use; a place in
a script sees none. -/
theorem IsPiece.mem_visible_iff {s : Site} (h : IsPiece component usage b piece) (hs : piece.HasSite b prop s)
    (name : String) :
    name ∈ s.visible ↔ s.inMarkup = true ∧
      (name ∈ s.loops ∨ name ∈ LoopScope.variablesOf usage.place.scope) := by
  have hpiece : name ∈ piece.visible ↔ piece.inMarkup = true ∧
      (name ∈ LoopScope.variablesOf piece.loops ∨ name ∈ LoopScope.variablesOf usage.place.scope) := by
    cases h with
    | expression he htree =>
      rename_i e tree
      have hvars : LoopScope.variablesOf (e.place.scope.map fun l => { l with source := l.source.map b.id }) =
          LoopScope.variablesOf e.place.scope := by
        cases e.place.scope <;> rfl
      simp only [Rebinding.place, Rebinding.scope, LoopScope.mem_variablesOf_nest, hvars, true_and]
      exact or_comm
    | block => simp
  cases hs <;> exact hpiece

theorem ne_of_copiedNames {role : Role} {a : Assembly} {script : Option Script} {name renamed : String}
    (h : (copiedNames role a script).get? name = some renamed) : renamed ≠ name := by
  replace h := Ordered.mem_of_get? h
  have hlonger : name.length < renamed.length := by
    cases script with
    | none => cases role <;> cases h
    | some s =>
      cases role <;> obtain ⟨own, -, heq⟩ := List.mem_map.mp h <;> cases heq
      · have hprefix : (toString "__zen_layout_").length = 13 := by decide
        have hdropped : "__zen_".length = 6 := by decide
        simp only [String.length_append, String.length_ofList, List.length_drop, String.length_toList]
        omega
      · have hprefix : (toString "__zen_comp_").length = 11 := by decide
        simp only [String.length_append]
        omega
  rintro rfl
  exact Nat.lt_irrefl _ hlonger

theorem Fills.get? {a : Assembly} {props : Ordered (Option String)} {entries : Ordered String}
    (h : List.Forall₂ (Fills a usage) props entries) {fallback : Option String}
    (hprop : props.get? prop = some fallback) :
    ∃ text, entries.get? prop = some text ∧ PutFor (passed? a usage prop fallback) text := by
  induction h with
  | nil => cases hprop
  | @cons p entry props entries hfirst hrest ih =>
    simp only [Ordered.get?, List.find?_cons, hfirst.name] at hprop ih ⊢
    cases heq : p.1 == prop with
    | true =>
      simp only [heq, Option.map_some, Option.some.injEq] at hprop
      obtain rfl : p.1 = prop := by simpa using heq
      subst hprop
      exact ⟨entry.2, rfl, hfirst.text⟩
    | false =>
      simp only [heq] at hprop
      exact ih hprop

/-- When a component is put into a page, the code written for a prop takes the place of the prop in the copy,
possibly in parentheses, and a name of the code stands there for what it stood for where the code was written exactly
if it is kept. -/
theorem inline_denotes_iff {file : String} {role : Role} {component : Component} {usage : Usage}
    {a a' : Assembly} {nodes : List Template.Node}
    (h : Builds (inline file role component usage) a nodes a') :
    ∃ b copied a₁, CopyOf role component usage a b copied a₁ ∧
      Takes (handedIds role component usage copied) a₁ a' ∧ EndsInCopies component b a' ∧
      ∀ prop fallback written code, component.props.get? prop = some fallback →
        passed? a usage prop fallback = some (written, code) →
        ∃ text, b.props.get? prop = some text ∧ (text = code ∨ text = "(" ++ code ++ ")") ∧
        ∀ piece, IsPiece component usage b piece →
          (∀ r ∈ piece.references, b.prop? piece.loops r = some prop →
            (∃ edit ∈ piece.edits, Puts r prop text edit) ∧ ∃ s, piece.HasSite b prop s) ∧
          ∀ s, piece.HasSite b prop s → ∀ name ∈ Code.freeNames code,
            (s.denotes (.ofScript a'.script) name =
                written.denotes component b (.ofScript a.script) name ↔
              Kept component usage b (.ofScript a.script) (.ofScript a'.script) written s name) := by
  obtain ⟨b, copied, a₁, hcopy, htakes, -, hblocks⟩ := (builds_inline h).steps
  refine ⟨b, copied, a₁, hcopy, htakes, hblocks, ?_⟩
  intro prop fallback written code hprop hpassed
  obtain ⟨text, htext, hput⟩ := Fills.get? hcopy.props hprop
  rw [hpassed] at hput
  refine ⟨text, htext, hput, ?_⟩
  intro piece hpiece
  refine ⟨fun r hr hr' => ⟨?_, hpiece.exists_site hr hr'⟩, fun s hs name _ => ?_⟩
  · exact hpiece.exists_edit hr hr' htext
  · refine denotes_iff_kept (hpiece.mem_visible_iff hs name) ?_
    rw [hcopy.renames]
    exact fun renamed => ne_of_copiedNames

/-! ## A name that is captured -/

/-- A component with a parameter around the place of its prop. -/
def capturingSource : String :=
  "<script>prop label</script><p>\x7b[1].map(x => label + x)\x7d</p>"

/-- A page that passes a state with the name of the parameter. -/
def capturedPage : String :=
  "<script>state x = 1</script><Inner label=\x7bx + 1\x7d />"

theorem exists_capturing :
    ∃ component p usage b copied a₁ nodes a', Component.read capturingSource "Inner.zen" = .ok component ∧
      Page.read capturedPage "page.zen" = .ok p ∧ usage ∈ Template.usagesIn p.nodes ∧
      Builds (copyTemplate "page.zen" .component component usage) (.ofPage p) (b, copied) a₁ ∧
      Builds (inline "page.zen" .component component usage) (.ofPage p) nodes a' ∧
      component.props = [("label", none)] ∧
      component.page.expressions.map (fun e => (e.code, e.place.scope)) = [("[1].map(x => label + x)", none)] ∧
      copiedNames .component (.ofPage p) component.page.script = [] ∧
      passed? (.ofPage p) usage "label" none = some (.atUse [], "x + 1") ∧
      (Scope.ofScript p.script).declares "x" = true := by
  have hfacts : ((Component.read capturingSource "Inner.zen").toOption.any fun component =>
      (Page.read capturedPage "page.zen").toOption.any fun p =>
      (Template.usagesIn p.nodes).any fun usage =>
      ((copyTemplate "page.zen" .component component usage).run (.ofPage p)).toOption.isSome &&
      ((inline "page.zen" .component component usage).run (.ofPage p)).toOption.isSome &&
      decide (component.props = [("label", none)] ∧
        component.page.expressions.map (fun e => (e.code, e.place.scope)) = [("[1].map(x => label + x)", none)] ∧
        copiedNames .component (.ofPage p) component.page.script = [] ∧
        passed? (.ofPage p) usage "label" none = some (.atUse [], "x + 1") ∧
        (Scope.ofScript p.script).declares "x" = true)) = true := by
    decide +kernel
  obtain ⟨component, hcomponent, hfacts⟩ := exists_eq_ok_of_any hfacts
  obtain ⟨p, hp, hfacts⟩ := exists_eq_ok_of_any hfacts
  obtain ⟨usage, husage, hfacts⟩ := List.any_eq_true.mp hfacts
  simp only [Bool.and_eq_true, decide_eq_true_eq] at hfacts
  obtain ⟨⟨hcopy, hinline⟩, hfacts⟩ := hfacts
  obtain ⟨⟨⟨b, copied⟩, a₁⟩, hcopy⟩ := Compiled.exists_eq_ok hcopy
  obtain ⟨⟨nodes, a'⟩, hinline⟩ := Compiled.exists_eq_ok hinline
  exact ⟨component, p, usage, b, copied, a₁, nodes, a', hcomponent, hp, husage, hcopy, hinline, hfacts⟩

/-- The place of the prop in that component stands inside the function with the parameter. -/
theorem exists_site_capturing
    (hcode : component.page.expressions.map (fun e => (e.code, e.place.scope)) = [("[1].map(x => label + x)", none)])
    (hrenames : b.renames = []) (htext : b.props.get? "label" = some text) :
    ∃ piece s, IsPiece component usage b piece ∧ piece.HasSite b "label" s ∧ "x" ∈ s.locals := by
  let r : Code.Reference := { name := "label", span := ⟨13, 18⟩ }
  have hparse : (Code.parseExpression "[1].map(x => label + x)".toList).toOption.any (fun tree =>
      decide (tree.references = [r] ∧ ⟨"label", ⟨13, 18⟩, [("x", ⟨8, 9⟩)]⟩ ∈ tree.uses [])) = true := by
    decide +kernel
  obtain ⟨tree, htree, hfound⟩ := exists_eq_ok_of_any hparse
  obtain ⟨hreferences, huse⟩ := of_decide_eq_true hfound
  obtain ⟨e, he, heq⟩ : ∃ e ∈ component.page.expressions, (e.code, e.place.scope) =
      ("[1].map(x => label + x)", none) :=
    List.mem_map.mp (hcode ▸ List.mem_singleton.mpr rfl)
  obtain ⟨hsource, hscope⟩ := Prod.mk.inj heq
  rw [← hsource] at htree
  have hprop : b.prop? e.place.scope r = some "label" := by
    have hkey : b.props.hasKey "label" = true := Ordered.hasKey_eq_true.mpr ⟨text, htext⟩
    have hnone : Ordered.hasKey ([] : Ordered String) "label" = false := rfl
    simp [Rebinding.prop?, hscope, LoopScope.variablesOf, hrenames, hnone, r, hkey]
  have hdecision : b.reference? e.place.scope r = some (.name text) := by
    have hnone : Ordered.get? ([] : Ordered String) "label" = none := rfl
    simp [Rebinding.reference?, hscope, LoopScope.variablesOf, hrenames, hnone, r, htext]
  refine ⟨_, _, .expression he htree, .use (r := r) ?_ hprop rfl huse rfl rfl, ?_⟩
  · rw [hreferences]
    exact List.mem_singleton.mpr rfl
  · simp [hreferences, Code.editsFor, hdecision, Code.Reference.edit?, nameAfter, r]

/-- The parameter of the component captures the state that the page passes. -/
theorem captured_of_inline :
    ∃ component p usage b copied a₁ nodes a', Component.read capturingSource "Inner.zen" = .ok component ∧
      Page.read capturedPage "page.zen" = .ok p ∧ usage ∈ Template.usagesIn p.nodes ∧
      Builds (copyTemplate "page.zen" .component component usage) (.ofPage p) (b, copied) a₁ ∧
      Builds (inline "page.zen" .component component usage) (.ofPage p) nodes a' ∧
      ∃ written code, passed? (.ofPage p) usage "label" none = some (written, code) ∧
        ∃ piece s, IsPiece component usage b piece ∧ piece.HasSite b "label" s ∧
          ∃ name ∈ Code.freeNames code,
            written.denotes component b (.ofScript p.script) name = .page name ∧
            s.denotes (.ofScript a'.script) name = .captured := by
  obtain ⟨component, p, usage, b, copied, a₁, nodes, a', hcomponent, hp, husage, hcopy, hinline,
    hprops, hcode, hnames, hpassed, hdeclared⟩ := exists_capturing
  have hcopied := builds_copyTemplate hcopy
  have hprop : component.props.get? "label" = some none := by
    rw [hprops]
    rfl
  obtain ⟨text, htext, -⟩ := Fills.get? hcopied.props hprop
  obtain ⟨piece, s, hpiece, hs, hlocal⟩ :=
    exists_site_capturing hcode (hcopied.renames.trans hnames) htext
  have hfree : "x" ∈ Code.freeNames "x + 1" := by decide +kernel
  refine ⟨component, p, usage, b, copied, a₁, nodes, a', hcomponent, hp, husage, hcopy, hinline,
    .atUse [], "x + 1", hpassed, piece, s, hpiece, hs, "x", hfree, ?_, ?_⟩
  · simp [Written.denotes, Scope.denotes, hdeclared]
  · simp [Site.denotes, hlocal]

/-- In that use the state is not kept. -/
theorem inline_denotes_iff_capturing :
    ∃ component p usage nodes a', Component.read capturingSource "Inner.zen" = .ok component ∧
      Page.read capturedPage "page.zen" = .ok p ∧
      Builds (inline "page.zen" .component component usage) (.ofPage p) nodes a' ∧
      ∃ b text, (text = "x + 1" ∨ text = "(" ++ "x + 1" ++ ")") ∧ b.props.get? "label" = some text ∧
        ∃ s, ¬ Kept component usage b (.ofScript p.script) (.ofScript a'.script) (.atUse []) s "x" := by
  obtain ⟨component, p, usage, -, -, -, nodes, a', hcomponent, hp, -, -, hinline, hprops, hcode,
    hnames, hpassed, -⟩ := exists_capturing
  obtain ⟨b, copied, a₁, hcopied, -, -, h⟩ := inline_denotes_iff hinline
  have hprop : component.props.get? "label" = some none := by
    rw [hprops]
    rfl
  obtain ⟨text, htext, hput, hpieces⟩ := h "label" none (.atUse []) "x + 1" hprop hpassed
  obtain ⟨piece, s, hpiece, hs, hlocal⟩ :=
    exists_site_capturing hcode (hcopied.renames.trans hnames) htext
  refine ⟨component, p, usage, nodes, a', hcomponent, hp, hinline, b, text, hput, htext, s, ?_⟩
  have hfree : "x" ∈ Code.freeNames "x + 1" := by decide +kernel
  intro hkept
  have heq := ((hpieces piece hpiece).2 s hs "x" hfree).mpr hkept
  rw [Site.denotes, if_pos (.inr (.inl hlocal)), Written.denotes, if_neg List.not_mem_nil] at heq
  exact absurd heq.symm (Scope.denotes_ne nofun nofun)

end Component

end PageCompiler
