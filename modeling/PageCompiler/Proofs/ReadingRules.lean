import Mathlib.Data.Option.Basic
import PageCompiler.Proofs.Dictionaries
import PageCompiler.Proofs.Registration

/-!
# Rules of reading

A document and the markup inside of an expression are read by different functions, but into nodes of the same kinds.
`Collects P scope r nodes r'` says what any of them does, with one rule for each kind of node: which expressions are
registered, in which order, and inside of which loops. The property `P` says where these expressions come from: from the
marked text of a page (`Origin`), or from the code of another expression (`FromCode`). What holds of every reading is
proved from the rules.
-/

namespace PageCompiler.Template

open Code (Tree)

variable {α β : Type} {P : Expression → Prop} {scope : Option LoopScope} {r r' : Registry}

variable {id : String}

variable {attributes : List Attribute} {items : List α}

/-! ## Rules -/

/-- An expression with the property is registered inside of the given loops: it gets the next id and comes last. -/
inductive Registers (P : Expression → Prop) (scope : Option LoopScope) (r : Registry) : String → Registry → Prop
  | last (e : Expression) (hid : e.id = expressionId r.next) (hscope : e.place.scope = scope) (hP : P e)
      (hread : e.Readable) :
      Registers P scope r e.id { r with expressions := r.expressions ++ [e], next := r.next + 1 }

/-- The value of an attribute is read: text, a function that handles an event, or an expression that is registered. -/
inductive CollectsValue (P : Expression → Prop) (scope : Option LoopScope) (r : Registry) : Value → Registry → Prop
  | fixed {text : String} : CollectsValue P scope r (.fixed text) r
  | handler {name : String} {r' : Registry} (hname : name ≠ "undefined") (he : r'.expressions = r.expressions)
      (hnext : r'.next = r.next) : CollectsValue P scope r (.handler name) r'
  | expression {id : String} {r' : Registry} (h : Registers P scope r id r') : CollectsValue P scope r (.expression id) r'

def Attribute.MayBeKey (P : Expression → Prop) (a : Attribute) : Prop :=
  ∀ (text id : String) (scope : Option LoopScope),
    P { id, code := String.ofList (stored (quote text).toList), place := ⟨a.place.position, scope⟩ }

/-- Attributes are read one after the other. -/
inductive CollectsAttributes (P : Expression → Prop) (scope : Option LoopScope) :
    Registry → List Attribute → Registry → Prop
  | nil (r : Registry) : CollectsAttributes P scope r [] r
  | cons {a : Attribute} {as : List Attribute} {r r₁ r' : Registry} (hvalue : CollectsValue P scope r a.value r₁)
      (hkey : a.MayBeKey P) (hrest : CollectsAttributes P scope r₁ as r') : CollectsAttributes P scope r (a :: as) r'

/-- The key is taken out of attributes: its value is an expression, or the key is registered as one. -/
inductive FindsKey (P : Expression → Prop) (scope : Option LoopScope) (r : Registry) :
    List Attribute → String → List Attribute → Registry → Prop
  | expression {before after : List Attribute} {key : Attribute} {id : String} (hkey : key.value = .expression id) :
      FindsKey P scope r (before ++ key :: after) id (before ++ after) r
  | registered {before after : List Attribute} {key : Attribute} {id : String} {r' : Registry}
      (hkey : key.value.id? = none) (h : Registers P scope r id r') :
      FindsKey P scope r (before ++ key :: after) id (before ++ after) r'

/-- The key is taken out of the body of a loop, if the body is one element or use of a component that has it. -/
inductive TakesKey (P : Expression → Prop) (scope : Option LoopScope) (r : Registry) :
    List Node → Option String → List Node → Registry → Prop
  | none {body : List Node} : TakesKey P scope r body none body r
  | element {tag id : String} {attributes rest : List Attribute} {children : List Node} {place : Place} {r' : Registry}
      (h : FindsKey P scope r attributes id rest r') :
      TakesKey P scope r [.element tag attributes children place] (some id) [.element tag rest children place] r'
  | component {name id : String} {attributes rest : List Attribute} {children : List Node} {place : Place}
      {r' : Registry} (h : FindsKey P scope r attributes id rest r') :
      TakesKey P scope r [.component name attributes children place] (some id) [.component name rest children place] r'

/-- From the registry `r`, nodes are read inside of the given loops, which leaves the registry `r'`. The children of an
element are read before its attributes, and the body of a loop before its key. -/
inductive Collects (P : Expression → Prop) : Option LoopScope → Registry → List Node → Registry → Prop
  | nil {scope : Option LoopScope} (r : Registry) : Collects P scope r [] r
  | append {scope : Option LoopScope} {here later : List Node} {r r₁ r' : Registry} (hhere : Collects P scope r here r₁)
      (hlater : Collects P scope r₁ later r') : Collects P scope r (here ++ later) r'
  | text {scope : Option LoopScope} {value : String} {place : Place} {r : Registry} :
      Collects P scope r [.text value place] r
  | doctype {scope : Option LoopScope} {name : String} {position : Position} {r : Registry} :
      Collects P scope r [.doctype name position] r
  | expression {scope : Option LoopScope} {id : String} {position : Position} {r r' : Registry}
      (h : Registers P scope r id r') : Collects P scope r [.expression id ⟨position, scope⟩] r'
  | element {scope : Option LoopScope} {tag : String} {attributes : List Attribute} {children : List Node}
      {place : Place} {r r₁ r' : Registry} (hchildren : Collects P scope r children r₁)
      (hattributes : CollectsAttributes P scope r₁ attributes r') :
      Collects P scope r [.element tag attributes children place] r'
  | component {scope : Option LoopScope} {name : String} {attributes : List Attribute} {children : List Node}
      {position : Position} {r r₁ r' : Registry} (hchildren : Collects P scope r children r₁)
      (hattributes : CollectsAttributes P scope r₁ attributes r') :
      Collects P scope r [.component name attributes children ⟨position, scope⟩] r'
  | slot {scope : Option LoopScope} {name : Option String} {fallback : List Node} {place : Place} {r r' : Registry}
      (hfallback : Collects P scope r fallback r') : Collects P scope r [.slot name fallback place] r'
  | choice {scope : Option LoopScope} {condition : String} {yes no : List Node} {place : Place} {r r₁ r₂ r' : Registry}
      (hcondition : Registers P scope r condition r₁) (hyes : Collects P scope r₁ yes r₂)
      (hno : Collects P scope r₂ no r') : Collects P scope r [.choice condition yes no place] r'
  | optional {scope : Option LoopScope} {condition : String} {content : List Node} {place : Place} {r r₁ r' : Registry}
      (hcondition : Registers P scope r condition r₁) (hcontent : Collects P scope r₁ content r') :
      Collects P scope r [.optional condition content place] r'
  | loop {scope inner : Option LoopScope} {source : String} {vars : List String} {key : Option String}
      {body body' : List Node} {place : Place} {r r₁ r₂ r' : Registry} (hlength : vars.length ≤ 2)
      (hinner : inner = LoopScope.nest scope (some { vars, source := some source }))
      (hsource : Registers P scope r source r₁) (hbody : Collects P inner r₁ body r₂)
      (hkey : TakesKey P inner r₂ body key body' r') :
      Collects P scope r [.loop source (vars.headD "") vars[1]? key body' place] r'

/-! ## What is registered -/

theorem Registers.extends (h : Registers P scope r id r') : Extends P r r' [id] := by
  cases h with
  | last e hid hscope hP hread =>
    refine ⟨[e], rfl, ⟨?_, rfl, ?_⟩, .refl _, ?_⟩
    · rw [List.map_singleton, hid]
      rfl
    · exact List.forall_mem_singleton.mpr hread
    · exact List.forall_mem_singleton.mpr hP

theorem CollectsValue.extends {value : Value} (h : CollectsValue P scope r value r') :
    Extends P r r' value.id?.toList := by
  cases h with
  | fixed => exact .self r
  | handler hname he hnext => exact .refl he hnext
  | expression h => exact h.extends

theorem CollectsAttributes.extends (h : CollectsAttributes P scope r attributes r') :
    Extends P r r' (attributeIds attributes) := by
  induction h with
  | nil r => exact .self r
  | cons hvalue _ _ ih =>
    rw [attributeIds_cons]
    exact hvalue.extends.trans ih

/-- Taking a key out of attributes moves its id, or registers it if it has none. -/
theorem FindsKey.extends {rest : List Attribute} (h : FindsKey P scope r attributes id rest r') :
    ∃ used, Extends P r r' used ∧ (id :: attributeIds rest).Perm (attributeIds attributes ++ used) := by
  cases h with
  | expression hkey =>
    refine ⟨[], .self r, ?_⟩
    simpa [attributeIds_append, attributeIds_cons, hkey, Value.id?] using List.perm_middle.symm
  | registered hkey h =>
    refine ⟨[id], h.extends, ?_⟩
    rw [attributeIds_append, attributeIds_append, attributeIds_cons, hkey]
    exact (List.perm_append_singleton _ _).symm

private theorem keyed_perm {used before after ids : List String} (h : (id :: after).Perm (before ++ used)) :
    (id :: (after ++ ids)).Perm ((before ++ ids) ++ used) := by
  calc (id :: (after ++ ids)).Perm ((before ++ used) ++ ids) := h.append_right ids
    _ |>.Perm ((before ++ ids) ++ used) := by
      rw [List.append_assoc, List.append_assoc]
      exact List.perm_append_comm.append_left before

theorem TakesKey.extends {body body' : List Node} {key : Option String} (h : TakesKey P scope r body key body' r') :
    ∃ used, Extends P r r' used ∧ (key.toList ++ idsIn body').Perm (idsIn body ++ used) := by
  cases h with
  | none => exact ⟨[], .self r, by simp⟩
  | element h | component h =>
    obtain ⟨used, hext, hperm⟩ := h.extends
    exact ⟨used, hext, by simpa [Node.ids] using keyed_perm hperm⟩

/-- Reading nodes registers what they refer to and nothing else. -/
theorem Collects.extends {nodes : List Node} (h : Collects P scope r nodes r') : Extends P r r' (idsIn nodes) := by
  induction h with
  | nil | text | doctype => exact .self _
  | append _ _ ihhere ihlater =>
    rw [idsIn_append]
    exact ihhere.trans ihlater
  | expression h => exact h.extends
  | element _ hattributes ih | component _ hattributes ih =>
    -- the attributes are read after the children, but their ids come first
    refine (ih.trans hattributes.extends).perm ?_
    simpa [Node.ids] using List.perm_append_comm
  | slot _ ih => simpa [Node.ids] using ih
  | choice hcondition _ _ ihyes ihno =>
    simpa [Node.ids] using hcondition.extends.trans (ihyes.trans ihno)
  | optional hcondition _ ih => simpa [Node.ids] using hcondition.extends.trans ih
  | @loop _ _ source _ _ _ _ _ _ _ _ _ _ _ hsource _ hkey ih =>
    obtain ⟨used, hext, hperm⟩ := hkey.extends
    refine (hsource.extends.trans (ih.trans hext)).perm ?_
    simpa [Node.ids] using hperm.cons source

/-! ## Attributes -/

theorem ne_undefined_of_isPlainName {code : String} (h : Code.isPlainName code = true) : code ≠ "undefined" := by
  rintro rfl
  have hnone : Code.isPlainName "undefined" = false := by decide
  rw [hnone] at h
  cases h

theorem liftedName_ne_undefined (k : Nat) : liftedName k ≠ "undefined" := by
  intro h
  have hstart := congrArg (·.toList.head?) h
  simp [liftedName, toString] at hstart

/-- The code of the value of an attribute, if it is an expression. -/
def Written.source : Written → String
  | .fixed text => text
  | .code text => text
  | .mixed parts => templateLiteral parts

section
variable {place : Place}
variable {code name : String} {written : Written}
variable {value : Value} {isComponent : Bool}

theorem registers_register (h : Gives (register code place) r id r')
    (hP : ∀ id, P { id, code := String.ofList (stored code.toList), place }) : Registers P place.scope r id r' := by
  obtain ⟨text, ⟨rfl, htext⟩, rfl, rfl⟩ := gives_register h
  exact .last { id := expressionId r.next, code := _, place } rfl rfl (hP _) htext

theorem collectsValue_liftHandler (h : Gives (liftHandler code place) r name r') :
    CollectsValue P scope r (.handler name) r' := by
  simp only [liftHandler, gives_bind, gives_get, gives_modify, gives_pure] at h
  obtain ⟨_, _, ⟨rfl, rfl⟩, _, _, rfl, rfl, rfl⟩ := h
  exact .handler (liftedName_ne_undefined _) rfl rfl

theorem collectsValue_handlerValue (h : Gives (handlerValue code place) r value r') :
    CollectsValue P scope r value r' := by
  rw [handlerValue] at h
  split at h
  · rename_i hplain
    obtain ⟨rfl, rfl⟩ := gives_pure.mp h
    exact .handler (ne_undefined_of_isPlainName hplain) rfl rfl
  · obtain ⟨name, hl, rfl⟩ := gives_bind_pure.mp h
    exact collectsValue_liftHandler hl

theorem collectsValue_plainValue {reactive : Bool}
    (h : Gives (plainValue written reactive isComponent place) r value r')
    (hP : ∀ id, P { id, code := String.ofList (stored written.source.toList), place }) :
    CollectsValue P place.scope r value r' := by
  cases written with
  | fixed text =>
    simp only [plainValue] at h
    split at h
    · obtain ⟨id, hr, rfl⟩ := gives_bind_pure.mp h
      exact .expression (registers_register hr hP)
    · obtain ⟨rfl, rfl⟩ := gives_pure.mp h
      exact .fixed
  | code text =>
    simp only [plainValue] at h
    split at h
    · obtain ⟨name, hl, rfl⟩ := gives_bind_pure.mp h
      exact collectsValue_liftHandler hl
    · obtain ⟨id, hr, rfl⟩ := gives_bind_pure.mp h
      exact .expression (registers_register hr hP)
  | mixed parts =>
    obtain ⟨id, hr, rfl⟩ := gives_bind_pure.mp h
    exact .expression (registers_register hr hP)

theorem gives_eventCode {code : Option String} (h : Gives (eventCode? name written place) r code r') : r' = r := by
  cases written with
  | fixed text => simp_all [eventCode?]
  | code text => simp_all [eventCode?]
  | mixed parts => simp [eventCode?] at h

/-- An attribute has the place at which it is read, and its value is registered there if it is an expression. -/
theorem collectsValue_attributeOf {a : Attribute} (h : Gives (attributeOf name written isComponent place) r a r')
    (hP : ∀ id, P { id, code := String.ofList (stored written.source.toList), place }) :
    CollectsValue P place.scope r a.value r' ∧ a.place = place := by
  have hplain : ∀ {name : String} {reactive : Bool} {r r' : Registry},
      Gives (do return { name, value := ← plainValue written reactive isComponent place, place }) r a r' →
        CollectsValue P place.scope r a.value r' ∧ a.place = place := by
    intro name reactive r r' h
    obtain ⟨value, hv, rfl⟩ := gives_bind_pure.mp h
    exact ⟨collectsValue_plainValue hv hP, rfl⟩
  simp only [attributeOf] at h
  split at h
  · exact hplain h
  · rw [gives_bind] at h
    obtain ⟨code, r₁, hc, h⟩ := h
    obtain rfl := gives_eventCode hc
    split at h
    · exact hplain h
    · obtain ⟨value, hv, rfl⟩ := gives_bind_pure.mp h
      exact ⟨collectsValue_handlerValue hv, rfl⟩

end

/-- What the runs for single items compose to, a run for all of them comes to. -/
theorem of_mapM {T : Registry → List β → Registry → Prop} {f : α → Reading β} {ys : List β} (hnil : ∀ r, T r [] r)
    (hcons : ∀ x ∈ items, ∀ {r y r₁ ys r'}, Gives (f x) r y r₁ → T r₁ ys r' → T r (y :: ys) r')
    (h : Gives (items.mapM f) r ys r') : T r ys r' := by
  induction items generalizing r ys with
  | nil =>
    rw [List.mapM_nil, gives_pure] at h
    obtain ⟨rfl, rfl⟩ := h
    exact hnil r
  | cons x items ih =>
    simp only [List.mapM_cons, gives_bind, gives_pure] at h
    obtain ⟨y, r₁, hx, ys, r₂, hxs, rfl, rfl⟩ := h
    exact hcons x List.mem_cons_self hx (ih (fun z hz => hcons z (List.mem_cons_of_mem _ hz)) hxs)

theorem collects_mapM {f : α → Reading (List Node)} {lists : List (List Node)}
    (hf : ∀ x ∈ items, ∀ {r nodes r'}, Gives (f x) r nodes r' → Collects P scope r nodes r')
    (h : Gives (items.mapM f) r lists r') : Collects P scope r lists.flatten r' :=
  of_mapM (T := fun r lists r' => Collects P scope r lists.flatten r') .nil (fun x hx _ _ _ _ _ h => (hf x hx h).append) h

end PageCompiler.Template

/-! ## Where expressions come from -/

namespace PageCompiler.Code

/-- A tree is in another one, at any depth. -/
inductive Tree.Has (root : Tree) : Tree → Prop
  | self : Tree.Has root root
  | part {t s : Tree} (h : Tree.Has root t) (hs : s ∈ t.parts) : Tree.Has root s

namespace Tree

variable {root : Tree}

theorem Has.unwrap {t : Tree} (h : root.Has t) : root.Has t.unwrap := by
  fun_induction Tree.unwrap t with
  | case1 span inner ih => exact ih (.part h List.mem_cons_self)
  | case2 t _ => exact h

theorem Has.parts {kind : NodeKind} {span : Span} {parts : List Tree} (h : root.Has (.node kind span parts)) :
    ∀ t ∈ parts, root.Has t :=
  fun _ ht => .part h ht

/-- What the first part of some kind consists of. -/
theorem Has.found {parts : List Tree} (h : ∀ t ∈ parts, root.Has t) (test : Tree → Bool) :
    ∀ t ∈ ((parts.find? test).map (·.parts)).getD [], root.Has t := by
  cases hfind : parts.find? test with
  | none => exact nofun
  | some found => exact fun t ht => .part (h found (List.mem_of_find?_eq_some hfind)) ht

end Tree

end PageCompiler.Code

namespace PageCompiler.Template

open Code (Tree)

variable {scope : Option LoopScope} {r r' : Registry} {root : Tree} {c : Snippet}

variable {P : Expression → Prop} {value : Tree}

/-- What an expression comes from that is registered while the code of a snippet becomes markup. -/
inductive FromCode (c : Snippet) (root : Tree) (e : Expression) : Prop
  /-- A node of the code, at its own place. -/
  | part {t : Tree} (ht : root.Has t) (hcode : e.code = String.ofList (stored (c.textOf t.span)))
      (hposition : e.place.position = c.positionOf t.span)
  /-- The value of an attribute, at the place of the attribute. -/
  | value {name : String} {span : Span} {value : List Tree} {written : Written}
      (hattribute : root.Has (.node (.attr name) span value)) (hvalue : writtenValue? c value = some written)
      (hcode : e.code = String.ofList (stored written.source.toList)) (hposition : e.place.position = c.positionOf span)
  /-- A key that is no expression, at the place of its attribute. -/
  | key {name text : String} {span : Span} {value : List Tree} (hattribute : root.Has (.node (.attr name) span value))
      (hcode : e.code = String.ofList (stored (quote text).toList)) (hposition : e.place.position = c.positionOf span)

/-- What an expression of a page comes from. -/
inductive Origin (file : Source.File) (holes : Ordered Markup.Hole) : Expression → Prop
  /-- A hole in the text, or one that is the value of an attribute. -/
  | hole {key : String} {hole : Markup.Hole} {e : Expression} (hhole : (key, hole) ∈ holes)
      (hcode : e.code = String.ofList (stored hole.code.toList))
      (hposition : e.place.position = file.position hole.offset) : Origin file holes e
  /-- The value of an attribute that is text, or text with holes in it. -/
  | attribute {written : Written} {e : Expression} (hwritten : ∀ code, written ≠ .code code)
      (hcode : e.code = String.ofList (stored written.source.toList)) : Origin file holes e
  /-- The code of another expression, which became markup. -/
  | code {base e : Expression} {tree : Tree} (hbase : Origin file holes base)
      (htree : Code.parseExpression base.code.toList = .ok tree)
      (hcode : FromCode ⟨base.code.toList, base.place.position⟩ tree e) : Origin file holes e

/-! ## Documents -/

section
variable {c : Conversion} {nodes : List Node} {r r' : Registry}

theorem collects_textNodes {P : Expression → Prop} (chars : List Char) (position : Position) :
    Collects P scope r (textNodes chars position) r := by
  unfold textNodes
  split
  · exact .nil r
  · split
    · split
      · exact .nil r
      · exact .text
    · exact .text

theorem collects_convertText {position : Position} {text : String} (h : Gives (convertText c position text) r nodes r') :
    Collects (Origin c.file c.holes) none r nodes r' := by
  obtain ⟨lists, hm, rfl⟩ := gives_bind_pure.mp h
  refine collects_mapM ?_ hm
  intro s _ r nodes r' h
  split at h
  · obtain ⟨rfl, rfl⟩ := gives_pure.mp h
    exact collects_textNodes _ _
  · split at h
    · obtain ⟨rfl, rfl⟩ := gives_pure.mp h
      exact collects_textNodes _ _
    · rename_i hole hhole
      obtain ⟨id, hr, rfl⟩ := gives_bind_pure.mp h
      exact .expression (registers_register hr fun _ => .hole (Ordered.mem_of_get? hhole) rfl rfl)

/-- The value of an attribute is a hole with its position, or it is no expression by itself. -/
theorem writtenValue_cases (c : Conversion) (value : String) :
    (∃ key hole, (key, hole) ∈ c.holes ∧ writtenValue c value = (.code hole.code, some (c.file.position hole.offset))) ∨
      ∀ code, (writtenValue c value).1 ≠ .code code := by
  unfold writtenValue
  split
  · rename_i hole hhole
    exact .inl ⟨_, hole, Ordered.mem_of_get? hhole, rfl⟩
  · right
    split
    · exact nofun
    · exact nofun

theorem collects_convertAttributes {notes : TagNotes} {isComponent : Bool} {attributes : List Document.Attribute}
    {found : List Attribute} (h : Gives (convertAttributes c notes isComponent attributes) r found r') :
    CollectsAttributes (Origin c.file c.holes) none r found r' := by
  refine of_mapM .nil ?_ h
  intro a _ r found r₁ later r' h hlater
  generalize hvalue : writtenValue c a.value = value at h
  obtain ⟨written, first⟩ := value
  refine .cons (collectsValue_attributeOf h fun id => ?_).1 ?_ hlater
  · rcases writtenValue_cases c a.value with ⟨key, hole, hhole, heq⟩ | hwritten
    · obtain ⟨rfl, rfl⟩ := Prod.mk.inj (hvalue.symm.trans heq)
      exact .hole hhole rfl rfl
    · rw [hvalue] at hwritten
      exact .attribute hwritten rfl
  · intro text id scope
    have hfixed : ∀ code, Written.fixed (quote text) ≠ .code code := nofun
    exact .attribute hfixed rfl

end

section
variable {c : Conversion}

mutual

theorem collects_convert {outer : Position} {nodes : List Node} {r r' : Registry} (i : Document.Item)
    (h : Gives (convert c outer i) r nodes r') : Collects (Origin c.file c.holes) none r nodes r' := by
  match i with
  | .doctype _ | .comment =>
    obtain ⟨rfl, rfl⟩ := gives_pure.mp h
    exact .nil r
  | .text value => exact collects_convertText h
  | .element name attributes children =>
    simp only [convert, gives_bind] at h
    obtain ⟨inner, r₁, hc, h⟩ := h
    have hchildren := collects_convertAll children hc
    split at h
    · obtain ⟨rfl, rfl⟩ := gives_pure.mp h
      exact .slot hchildren
    · obtain ⟨found, ha, rfl⟩ := gives_bind_pure.mp h
      split
      · exact .component hchildren (collects_convertAttributes ha)
      · exact .element hchildren (collects_convertAttributes ha)

theorem collects_convertAll {outer : Position} {nodes : List Node} {r r' : Registry} (is : List Document.Item)
    (h : Gives (convertAll c outer is) r nodes r') : Collects (Origin c.file c.holes) none r nodes r' := by
  match is with
  | [] =>
    obtain ⟨rfl, rfl⟩ := gives_pure.mp h
    exact .nil r
  | i :: is =>
    simp only [convertAll, gives_bind, gives_pure] at h
    obtain ⟨here, r₁, hi, later, r₂, his, rfl, rfl⟩ := h
    exact (collects_convert i hi).append (collects_convertAll is his)

end

mutual

theorem collects_convertOuter {nodes : List Node} {r r' : Registry} (i : Document.Item)
    (h : Gives (convertOuter c i) r nodes r') : Collects (Origin c.file c.holes) none r nodes r' := by
  match i with
  | .doctype _ | .comment | .text _ => exact collects_convert _ h
  | .element name attributes children =>
    rw [convertOuter] at h
    split at h
    · exact collects_convertOuterAll children h
    · exact collects_convert _ h

theorem collects_convertOuterAll {nodes : List Node} {r r' : Registry} (is : List Document.Item)
    (h : Gives (convertOuterAll c is) r nodes r') : Collects (Origin c.file c.holes) none r nodes r' := by
  match is with
  | [] =>
    obtain ⟨rfl, rfl⟩ := gives_pure.mp h
    exact .nil r
  | i :: is =>
    simp only [convertOuterAll, gives_bind, gives_pure] at h
    obtain ⟨here, r₁, hi, later, r₂, his, rfl, rfl⟩ := h
    exact (collects_convertOuter i hi).append (collects_convertOuterAll is his)

end

theorem collects_ofDocument {items : List Document.Item} {nodes : List Node}
    (h : Gives (ofDocument c items) r nodes r') : Collects (Origin c.file c.holes) none r nodes r' := by
  obtain ⟨lists, hm, rfl⟩ := gives_bind_pure.mp h
  refine collects_mapM ?_ hm
  intro i _ r nodes r' h
  split at h
  · obtain ⟨rfl, rfl⟩ := gives_pure.mp h
    split
    · exact .doctype
    · exact .nil r
  · exact collects_convertOuter _ h
  · obtain ⟨rfl, rfl⟩ := gives_pure.mp h
    exact .nil r

end

/-! ## Markup inside of expressions -/

/-- The attributes of an element or of the use of a component. -/
def Node.attributes : Node → List Attribute
  | element _ attributes _ _ => attributes
  | component _ attributes _ _ => attributes
  | _ => []

theorem CollectsAttributes.mayBeKey {attributes : List Attribute} (h : CollectsAttributes P scope r attributes r') :
    ∀ a ∈ attributes, a.MayBeKey P := by
  induction h with
  | nil => exact nofun
  | cons _ hkey _ ih => exact List.forall_mem_cons.mpr ⟨hkey, ih⟩

theorem Collects.mayBeKey {nodes : List Node} (h : Collects P scope r nodes r') :
    ∀ n ∈ nodes, ∀ a ∈ n.attributes, a.MayBeKey P := by
  induction h with
  | nil => exact nofun
  | append _ _ ihhere ihlater => exact List.forall_mem_append.mpr ⟨ihhere, ihlater⟩
  | element _ hattributes | component _ hattributes => exact List.forall_mem_singleton.mpr hattributes.mayBeKey
  | _ => exact List.forall_mem_singleton.mpr nofun

section
variable {c : Snippet} {root : Tree} {scope : Option LoopScope} {r r' : Registry}
variable {t : Tree}

theorem registers_span {id : String} (ht : root.Has t) (h : Gives (c.register scope t.span) r id r') :
    Registers (FromCode c root) scope r id r' :=
  registers_register h fun _ => .part ht (by rw [String.toList_ofList]) rfl

theorem collects_expressionNode {node : Node} (ht : root.Has t) (h : Gives (c.expressionNode scope t.span) r node r') :
    Collects (FromCode c root) scope r [node] r' := by
  obtain ⟨id, hr, rfl⟩ := gives_bind_pure.mp h
  exact .expression (registers_span ht hr)

theorem collects_attributesIn {isComponent : Bool} {ts : List Tree} {found : List Attribute}
    (hts : ∀ t ∈ ts, root.Has t) (h : Gives (attributesIn c scope isComponent ts) r found r') :
    CollectsAttributes (FromCode c root) scope r found r' := by
  induction ts generalizing found r with
  | nil =>
    obtain ⟨rfl, rfl⟩ := gives_pure.mp h
    exact .nil _
  | cons t ts ih =>
    obtain ⟨ht, hlater⟩ := List.forall_mem_cons.mp hts
    unfold attributesIn at h
    split at h
    · contradiction
    · rename_i heq
      cases heq
      split at h
      · exact ih hlater h
      · rename_i written hwritten
        simp only [gives_bind, gives_pure] at h
        obtain ⟨a, r₁, ha, as, r₂, has, rfl, rfl⟩ := h
        obtain ⟨hvalue, hplace⟩ := collectsValue_attributeOf (P := FromCode c root) ha fun _ => .value ht hwritten rfl rfl
        refine .cons hvalue (fun text id scope => .key ht rfl ?_) (ih hlater has)
        rw [hplace]
    · rename_i heq
      cases heq
      exact ih hlater h

end

section
variable {P : Expression → Prop} {scope : Option LoopScope} {r r' : Registry}
variable {attributes : List Attribute}

theorem gives_keyOf_none (h : Gives (keyOf? scope attributes) r none r') : r' = r := by
  simp only [keyOf?] at h
  split at h
  · simp_all
  · rename_i key after hdrop
    cases hkey : key.value <;> simp [hkey] at h

theorem findsKey_keyOf {rest : List Attribute} {id : String} (hkeys : ∀ a ∈ attributes, a.MayBeKey P)
    (h : Gives (keyOf? scope attributes) r (some (id, rest)) r') : FindsKey P scope r attributes id rest r' := by
  have hsplit := List.takeWhile_append_dropWhile (p := fun a : Attribute => a.name ≠ "key") (l := attributes)
  simp only [keyOf?] at h
  split at h
  · simp at h
  · rename_i key after hdrop
    rw [hdrop] at hsplit
    have hkey : key.MayBeKey P := by
      refine hkeys key ?_
      rw [← hsplit]
      simp
    rw [← hsplit]
    cases hvalue : key.value with
    | expression own =>
      simp only [hvalue, gives_pure, gives_bind, Option.some.injEq, Prod.mk.injEq] at h
      obtain ⟨_, _, ⟨rfl, rfl⟩, ⟨rfl, rfl⟩, rfl⟩ := h
      exact .expression hvalue
    | fixed text | handler text =>
      simp only [hvalue, gives_pure, gives_bind, Option.some.injEq, Prod.mk.injEq] at h
      obtain ⟨_, _, hid, ⟨rfl, rfl⟩, rfl⟩ := h
      refine .registered ?_ (registers_register hid fun id => hkey text id scope)
      rw [hvalue]
      rfl

theorem takesKey_takeKey {body body' : List Node} {key : Option String}
    (hkeys : ∀ n ∈ body, ∀ a ∈ n.attributes, a.MayBeKey P) (h : Gives (takeKey scope body) r (key, body') r') :
    TakesKey P scope r body key body' r' := by
  have hsame : ∀ {r r' : Registry}, Gives (pure (none, body)) r (key, body') r' →
      TakesKey P scope r body key body' r' := by
    intro r r' h
    simp only [gives_pure, Prod.mk.injEq] at h
    obtain ⟨⟨rfl, rfl⟩, rfl⟩ := h
    exact .none
  unfold takeKey at h
  split at h
  · rw [gives_bind] at h
    obtain ⟨found, r₁, hk, h⟩ := h
    split at h
    · simp only [gives_pure, Prod.mk.injEq] at h
      obtain ⟨⟨rfl, rfl⟩, rfl⟩ := h
      exact .element (findsKey_keyOf (hkeys _ List.mem_cons_self) hk)
    · obtain rfl := gives_keyOf_none hk
      exact hsame h
  · rw [gives_bind] at h
    obtain ⟨found, r₁, hk, h⟩ := h
    split at h
    · simp only [gives_pure, Prod.mk.injEq] at h
      obtain ⟨⟨rfl, rfl⟩, rfl⟩ := h
      exact .component (findsKey_keyOf (hkeys _ List.mem_cons_self) hk)
    · obtain rfl := gives_keyOf_none hk
      exact hsame h
  · exact hsame h

end

/-! ## Shapes of loops -/

theorem has_of_returned? {body : Tree} (h : root.Has body) (hvalue : returned? body = some value) : root.Has value := by
  unfold returned? at hvalue
  split at hvalue
  · rename_i span value' hparts
    obtain rfl := Option.some.inj hvalue
    have hmem : Code.Tree.node .returnStatement span [value'] ∈ body.parts :=
      (List.mem_filter.mp (hparts ▸ List.mem_cons_self)).1
    exact .part (.part h hmem) List.mem_cons_self
  · cases hvalue

theorem has_of_resultOf? {f : Tree} (h : root.Has f) (hvalue : resultOf? f = some value) : root.Has value := by
  unfold resultOf? at hvalue
  split at hvalue
  · rename_i value' _ hlast
    obtain rfl := Option.some.inj hvalue
    exact .part h (List.mem_of_getLast? hlast)
  · rename_i hlast
    exact has_of_returned? (.part h (List.mem_of_getLast? hlast)) hvalue
  · rename_i hlast
    exact has_of_returned? (.part h (List.mem_of_getLast? hlast)) hvalue
  · cases hvalue

theorem length_of_mapM {α β : Type} {f : α → Option β} {xs : List α} {ys : List β} (h : xs.mapM f = some ys) :
    ys.length = xs.length := by
  induction xs generalizing ys with
  | nil => simp_all
  | cons x xs ih =>
    simp only [List.mapM_cons, Option.bind_eq_bind, Option.bind_eq_some_iff, Option.pure_def, Option.some.injEq] at h
    obtain ⟨y, -, ys, hys, rfl⟩ := h
    rw [List.length_cons, List.length_cons, ih hys]

theorem length_le_of_plainParams? {params : Tree} {vars : List String} (h : plainParams? c params = some vars) :
    vars.length ≤ 2 := by
  simp only [plainParams?, Option.bind_eq_bind, Option.bind_eq_some_iff, Option.guard_eq_some', Bool.and_eq_true,
    decide_eq_true_eq] at h
  obtain ⟨_, -, _, ⟨-, hcount⟩, hvars⟩ := h
  rw [length_of_mapM hvars]
  exact hcount

/-- What a loop goes through and its markup are in its code, and it has one or two variables. -/
theorem has_of_loopShape? {call : Tree} {shape : LoopShape} (h : root.Has call)
    (hshape : loopShape? c call = some shape) :
    (∃ object, root.Has object ∧ shape.source = object.span) ∧ root.Has shape.body ∧ shape.vars.length ≤ 2 := by
  unfold loopShape? at hshape
  split at hshape
  · rename_i span callee rest
    have hcallee : root.Has callee.unwrap := (h.parts callee List.mem_cons_self).unwrap
    split at hshape
    · rename_i object _ hmember
      rw [hmember] at hcallee
      simp only [Option.bind_eq_bind, Option.bind_eq_some_iff] at hshape
      obtain ⟨list, hlist, first, hfirst, params, hparams, vars, hvars, body, hbody, -, -, hshape⟩ := hshape
      obtain rfl := Option.some.inj hshape
      have hlist : root.Has list := h.parts list (List.mem_cons_of_mem _ (List.mem_of_find?_eq_some hlist))
      have hfirst : root.Has first := .part hlist (List.mem_of_mem_head? hfirst)
      exact ⟨⟨object, hcallee.parts object List.mem_cons_self, rfl⟩, has_of_resultOf? hfirst.unwrap hbody,
        length_le_of_plainParams? hvars⟩
    · cases hshape
  · cases hshape

/-! ## Levels of markup -/

/-- Markup of at most `depth` levels in code is read by the rules. Code that is no markup registers nothing. -/
structure CollectsCode (c : Snippet) (root : Tree) (depth : Nat) : Prop where
  lower : ∀ {scope : Option LoopScope} {t : Tree} {result : Option (List Node)} {r r' : Registry}, root.Has t →
    Gives (lower depth c scope t) r result r' → Collects (FromCode c root) scope r (result.getD []) r'
  branch : ∀ {scope : Option LoopScope} {t : Tree} {nodes : List Node} {r r' : Registry}, root.Has t →
    Gives (branch depth c scope t) r nodes r' → Collects (FromCode c root) scope r nodes r'
  elementNode : ∀ {scope : Option LoopScope} {tag : String} {span : Span} {parts : List Tree} {node : Node}
    {r r' : Registry}, (∀ t ∈ parts, root.Has t) → Gives (elementNode depth c scope tag span parts) r node r' →
      Collects (FromCode c root) scope r [node] r'
  childNodes : ∀ {scope : Option LoopScope} {ts : List Tree} {nodes : List Node} {r r' : Registry},
    (∀ t ∈ ts, root.Has t) → Gives (childNodes depth c scope ts) r nodes r' →
      Collects (FromCode c root) scope r nodes r'

section
variable {c : Snippet} {root : Tree} {scope : Option LoopScope} {r r' : Registry} {depth : Nat}
variable {t : Tree} {nodes : List Node}

theorem CollectsCode.lower_succ (ih : CollectsCode c root depth) {result : Option (List Node)} (ht : root.Has t)
    (h : Gives (Template.lower (depth + 1) c scope t) r result r') :
    Collects (FromCode c root) scope r (result.getD []) r' := by
  have hnone : ∀ {r r' : Registry}, Gives (pure none) r result r' →
      Collects (FromCode c root) scope r (result.getD []) r' := by
    intro r r' h
    obtain ⟨rfl, rfl⟩ := gives_pure.mp h
    exact .nil r
  have hunwrap := ht.unwrap
  simp only [Template.lower] at h
  split at h
  · rename_i heq
    rw [heq] at hunwrap
    obtain ⟨node, he, rfl⟩ := gives_bind_pure.mp h
    exact ih.elementNode hunwrap.parts he
  · rename_i heq
    rw [heq] at hunwrap
    obtain ⟨nodes, hc, rfl⟩ := gives_bind_pure.mp h
    exact ih.childNodes (.found hunwrap.parts _) hc
  · rename_i test yes no heq
    rw [heq] at hunwrap
    have hparts := hunwrap.parts
    split at h
    · simp only [gives_bind, gives_pure] at h
      obtain ⟨condition, r₁, hr, yesNodes, r₂, hy, noNodes, r₃, hn, rfl, rfl⟩ := h
      exact .choice (registers_span (hparts test (by simp)) hr) (ih.branch (hparts yes (by simp)) hy)
        (ih.branch (hparts no (by simp)) hn)
    · exact hnone h
  · rename_i left right heq
    rw [heq] at hunwrap
    have hparts := hunwrap.parts
    split at h
    · simp only [gives_bind, gives_pure] at h
      obtain ⟨condition, r₁, hr, content, r₂, hc, rfl, rfl⟩ := h
      exact .optional (registers_span (hparts left (by simp)) hr) (ih.branch (hparts right (by simp)) hc)
    · exact hnone h
  · split at h
    · exact hnone h
    · rename_i shape hshape
      obtain ⟨⟨object, hobject, hsource⟩, hbody, hlength⟩ := has_of_loopShape? hunwrap hshape
      rw [hsource] at h
      simp only [gives_bind, gives_pure] at h
      obtain ⟨source, r₁, hr, body, r₂, hb, ⟨key, body'⟩, r₃, hk, rfl, rfl⟩ := h
      have hcollects := ih.branch hbody hb
      exact .loop hlength rfl (registers_span hobject hr) hcollects (takesKey_takeKey hcollects.mayBeKey hk)

theorem CollectsCode.branch_succ (ih : CollectsCode c root depth) (ht : root.Has t)
    (h : Gives (Template.branch (depth + 1) c scope t) r nodes r') : Collects (FromCode c root) scope r nodes r' := by
  simp only [Template.branch, gives_bind] at h
  obtain ⟨result, r₁, hl, h⟩ := h
  have hlower := ih.lower ht hl
  split at h
  · obtain ⟨rfl, rfl⟩ := gives_pure.mp h
    exact hlower
  · split at h
    · obtain ⟨rfl, rfl⟩ := gives_pure.mp h
      exact hlower
    · obtain ⟨node, he, rfl⟩ := gives_bind_pure.mp h
      exact hlower.append (collects_expressionNode ht he)

theorem CollectsCode.elementNode_succ (ih : CollectsCode c root depth) {tag : String} {span : Span}
    {parts : List Tree} {node : Node} (hparts : ∀ t ∈ parts, root.Has t)
    (h : Gives (Template.elementNode (depth + 1) c scope tag span parts) r node r') :
    Collects (FromCode c root) scope r [node] r' := by
  simp only [Template.elementNode, gives_bind] at h
  obtain ⟨children, r₁, hc, h⟩ := h
  have hchildren := ih.childNodes (.found hparts _) hc
  split at h
  · obtain ⟨rfl, rfl⟩ := gives_pure.mp h
    exact .slot hchildren
  · obtain ⟨attributes, ha, rfl⟩ := gives_bind_pure.mp h
    have hattributes := collects_attributesIn (.found hparts _) ha
    split
    · exact .component hchildren hattributes
    · exact .element hchildren hattributes

theorem CollectsCode.childNodes_succ (ih : CollectsCode c root depth) {ts : List Tree} (hts : ∀ t ∈ ts, root.Has t)
    (h : Gives (Template.childNodes (depth + 1) c scope ts) r nodes r') :
    Collects (FromCode c root) scope r nodes r' := by
  obtain ⟨lists, hm, rfl⟩ := gives_bind_pure.mp h
  refine collects_mapM ?_ hm
  intro t ht r nodes r' h
  have htree := hts t ht
  split at h
  · obtain ⟨rfl, rfl⟩ := gives_pure.mp h
    split
    · exact .nil r
    · exact .text
  · obtain ⟨node, he, rfl⟩ := gives_bind_pure.mp h
    exact ih.elementNode htree.parts he
  · exact ih.childNodes (.found htree.parts _) h
  · have hinner := htree.parts _ List.mem_cons_self
    rw [gives_bind] at h
    obtain ⟨result, r₁, hl, h⟩ := h
    have hlower := ih.lower hinner hl
    split at h
    · obtain ⟨rfl, rfl⟩ := gives_pure.mp h
      exact hlower
    · obtain ⟨node, he, rfl⟩ := gives_bind_pure.mp h
      exact hlower.append (collects_expressionNode hinner he)
  · obtain ⟨node, he, rfl⟩ := gives_bind_pure.mp h
    exact collects_expressionNode (htree.parts _ List.mem_cons_self) he
  · obtain ⟨rfl, rfl⟩ := gives_pure.mp h
    exact .nil r

end

theorem collectsCode (c : Snippet) (root : Tree) (depth : Nat) : CollectsCode c root depth := by
  induction depth with
  | zero =>
    refine ⟨?_, ?_, ?_, ?_⟩ <;> intros <;> rename_i h <;> obtain ⟨rfl, rfl⟩ := gives_pure.mp h
    · exact .nil _
    · exact .nil _
    · exact .text
    · exact .nil _
  | succ depth ih => exact ⟨ih.lower_succ, ih.branch_succ, ih.elementNode_succ, ih.childNodes_succ⟩

/-- An expression that becomes markup is read by the rules. -/
theorem collects_lower {depth : Nat} {tree : Tree} {result : Option (List Node)}
    (h : Gives (lower depth c scope tree) r result r') : Collects (FromCode c tree) scope r (result.getD []) r' :=
  (collectsCode c tree depth).lower .self h

end PageCompiler.Template
