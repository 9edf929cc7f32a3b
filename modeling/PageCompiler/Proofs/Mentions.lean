import PageCompiler.Proofs.Registration

/-!
# What a template mentions inside of loops

Each id in a template stands inside of some loops of the template (`mentionsIn`). A template is placed if the expression
of each id sees only variables of the loops around the id, and if no handler in it is `undefined` (`Placed`). Moving
nodes into more loops keeps them placed (`placed_mono`).
-/

namespace PageCompiler.Template

variable {around around' : List String}

/-! ## Mentions -/

/-- Something that a template mentions. The variables are those of the loops around it in the template. -/
inductive Mention where
  | id (around : List String) (id : String)
  | scope (around : List String) (scope : Option LoopScope)
  | handler (name : String)
deriving DecidableEq, Repr

def Mention.id? : Mention → Option String
  | .id _ mentioned => some mentioned
  | _ => none

def inside (item : String) (index : Option String) (around : List String) : List String :=
  item :: (index.toList ++ around)

def Value.mentions (around : List String) : Value → List Mention
  | .fixed _ => []
  | .expression id => [.id around id]
  | .handler name => [.handler name]

def attributeMentions (around : List String) (attributes : List Attribute) : List Mention :=
  attributes.flatMap (·.value.mentions around)

mutual

/-- What a node mentions inside of loops with these variables. The source of a loop is outside of the loop, its key is
inside. -/
def Node.mentions (around : List String) : Node → List Mention
  | .element _ attributes children _ => attributeMentions around attributes ++ mentionsIn around children
  | .text .. => []
  | .expression id place => [.id around id, .scope around place.scope]
  | .component _ attributes children place =>
    .scope around place.scope :: (attributeMentions around attributes ++ mentionsIn around children)
  | .slot _ fallback _ => mentionsIn around fallback
  | .choice condition yes no _ => .id around condition :: (mentionsIn around yes ++ mentionsIn around no)
  | .optional condition content _ => .id around condition :: mentionsIn around content
  | .loop source item index key body _ =>
    .id around source :: (key.toList.map (.id (inside item index around)) ++
      mentionsIn (inside item index around) body)
  | .doctype .. => []

/-- What nodes mention inside of loops with these variables. -/
def mentionsIn (around : List String) : List Node → List Mention
  | [] => []
  | n :: ns => n.mentions around ++ mentionsIn around ns

end

attribute [local simp] Node.mentions mentionsIn

theorem filterMap_id?_attributeMentions (around : List String) (as : List Attribute) :
    (attributeMentions around as).filterMap Mention.id? = attributeIds as := by
  rw [attributeMentions, List.filterMap_flatMap, attributeIds_eq_flatMap]
  refine List.flatMap_congr fun a _ => ?_
  cases a.value <;> rfl

theorem filterMap_id?_mentionsIn (around : List String) (ns : List Node) :
    (mentionsIn around ns).filterMap Mention.id? = idsIn ns := by
  induction ns using nodes_induction generalizing around with
  | loop source item index key body place ih =>
    cases key <;> simp [Mention.id?, Node.ids, ih]
  | _ => simp_all [List.filterMap_cons, Mention.id?, Node.ids, filterMap_id?_attributeMentions]

theorem mem_idsIn_of_mention {id : String} {ns : List Node} (h : .id around' id ∈ mentionsIn around ns) :
    id ∈ idsIn ns := by
  rw [← filterMap_id?_mentionsIn around]
  exact List.mem_filterMap.mpr ⟨_, h, rfl⟩

/-! ## Templates that are placed -/

/-- The mention is in order: the expression of an id sees only variables of the loops around the id, so does a place,
and a handler is not `undefined`. -/
def Mention.Holds (known : List Expression) : Mention → Prop
  | .id around mentioned => ∃ e ∈ known, e.id = mentioned ∧ LoopScope.variablesOf e.place.scope ⊆ around
  | .scope around noted => LoopScope.variablesOf noted ⊆ around
  | .handler name => name ≠ "undefined"

def Value.Placed (known : List Expression) (around : List String) (v : Value) : Prop :=
  ∀ m ∈ v.mentions around, m.Holds known

def AttributesPlaced (known : List Expression) (around : List String) (as : List Attribute) : Prop :=
  ∀ a ∈ as, a.value.Placed known around

/-- All that nodes mention inside of loops with these variables is in order. -/
def Placed (known : List Expression) (around : List String) (ns : List Node) : Prop :=
  ∀ m ∈ mentionsIn around ns, m.Holds known

section
variable {id name condition : String} {as attributes : List Attribute} {ns children : List Node}

variable {known known' : List Expression} {around around' : List String} {place : Place}

@[simp] theorem placed_fixed {text : String} : (Value.fixed text).Placed known around := by
  simp [Value.Placed, Value.mentions]

@[simp] theorem placed_value : (Value.expression id).Placed known around ↔ (Mention.id around id).Holds known := by
  simp [Value.Placed, Value.mentions]

@[simp] theorem placed_handler : (Value.handler name).Placed known around ↔ name ≠ "undefined" := by
  simp [Value.Placed, Value.mentions, Mention.Holds]

theorem holds_attributeMentions :
    (∀ m ∈ attributeMentions around as, m.Holds known) ↔ AttributesPlaced known around as := by
  simp only [attributeMentions, List.mem_flatMap, forall_exists_index, and_imp, AttributesPlaced, Value.Placed]
  exact ⟨fun h a ha m hm => h m a ha hm, fun h m a ha hm => h a ha m hm⟩

@[simp] theorem attributesPlaced_cons {a : Attribute} :
    AttributesPlaced known around (a :: as) ↔ a.value.Placed known around ∧ AttributesPlaced known around as := by
  simp [AttributesPlaced]

theorem AttributesPlaced.subset {bs : List Attribute} (h : AttributesPlaced known around bs) (hsub : as ⊆ bs) :
    AttributesPlaced known around as :=
  fun a ha => h a (hsub ha)

@[simp] theorem placed_nil : Placed known around [] := by
  simp [Placed]

theorem placed_cons {n : Node} : Placed known around (n :: ns) ↔ Placed known around [n] ∧ Placed known around ns := by
  simp [Placed, or_imp, forall_and]

theorem placed_append {ms : List Node} :
    Placed known around (ns ++ ms) ↔ Placed known around ns ∧ Placed known around ms := by
  induction ns with
  | nil => simp
  | cons n ns ih => rw [List.cons_append, placed_cons, ih, @placed_cons ns _ _ n, and_assoc]

@[simp] theorem placed_text {value : String} : Placed known around [.text value place] := by
  simp [Placed]

@[simp] theorem placed_doctype {position : Position} : Placed known around [.doctype name position] := by
  simp [Placed]

@[simp] theorem placed_expression : Placed known around [.expression id place] ↔
    (Mention.id around id).Holds known ∧ LoopScope.variablesOf place.scope ⊆ around := by
  simp [Placed, Mention.Holds]

@[simp] theorem placed_element {tag : String} :
    Placed known around [.element tag attributes children place] ↔
      AttributesPlaced known around attributes ∧ Placed known around children := by
  rw [← holds_attributeMentions]
  simp [Placed, or_imp, forall_and]

@[simp] theorem placed_component :
    Placed known around [.component name attributes children place] ↔
      LoopScope.variablesOf place.scope ⊆ around ∧ AttributesPlaced known around attributes ∧
        Placed known around children := by
  rw [← holds_attributeMentions]
  simp [Placed, Mention.Holds, or_imp, forall_and]

@[simp] theorem placed_slot {name : Option String} {fallback : List Node} :
    Placed known around [.slot name fallback place] ↔ Placed known around fallback := by
  simp [Placed]

@[simp] theorem placed_choice {yes no : List Node} :
    Placed known around [.choice condition yes no place] ↔
      (Mention.id around condition).Holds known ∧ Placed known around yes ∧ Placed known around no := by
  simp [Placed, or_imp, forall_and]

@[simp] theorem placed_optional {content : List Node} :
    Placed known around [.optional condition content place] ↔
      (Mention.id around condition).Holds known ∧ Placed known around content := by
  simp [Placed]

@[simp] theorem placed_loop {source item : String} {index key : Option String} {body : List Node} :
    Placed known around [.loop source item index key body place] ↔
      (Mention.id around source).Holds known ∧
        (∀ id ∈ key, (Mention.id (inside item index around) id).Holds known) ∧
          Placed known (inside item index around) body := by
  simp [Placed, or_imp, forall_and]

/-! ## More loops, more expressions -/

theorem subset_inside (item : String) (index : Option String) : around ⊆ inside item index around :=
  List.Subset.trans (List.subset_append_right _ _) (List.subset_cons_self _ _)

theorem inside_subset (item : String) (index : Option String) (h : around ⊆ around') :
    inside item index around ⊆ inside item index around' := by
  intro name hname
  simp only [inside, List.mem_cons, List.mem_append] at hname ⊢
  exact hname.imp_right (.imp_right (@h name))

theorem holds_mono (hknown : known ⊆ known') (haround : around ⊆ around') (h : (Mention.id around id).Holds known) :
    (Mention.id around' id).Holds known' := by
  obtain ⟨e, he, hid, hvars⟩ := h
  exact ⟨e, hknown he, hid, List.Subset.trans hvars haround⟩

theorem Value.Placed.mono {v : Value} (h : v.Placed known around) (hknown : known ⊆ known')
    (haround : around ⊆ around') : v.Placed known' around' := by
  cases v with
  | fixed text => exact placed_fixed
  | expression id => exact placed_value.mpr (holds_mono hknown haround (placed_value.mp h))
  | handler name => exact placed_handler.mpr (placed_handler.mp h)

theorem AttributesPlaced.mono (h : AttributesPlaced known around as) (hknown : known ⊆ known')
    (haround : around ⊆ around') : AttributesPlaced known' around' as :=
  fun a ha => (h a ha).mono hknown haround

end

/-- Nodes that are placed are so with more expressions and inside of more loops. -/
theorem placed_mono {known known' : List Expression} (hknown : known ⊆ known') (haround : around ⊆ around')
    (ns : List Node) (h : Placed known around ns) : Placed known' around' ns := by
  induction ns using nodes_induction generalizing around around' with
  | nil => exact placed_nil
  | cons n ns hn hns =>
    obtain ⟨hfirst, hrest⟩ := placed_cons.mp h
    exact placed_cons.mpr ⟨hn haround hfirst, hns haround hrest⟩
  | element tag attributes children place ih =>
    obtain ⟨hattributes, hchildren⟩ := placed_element.mp h
    exact placed_element.mpr ⟨hattributes.mono hknown haround, ih haround hchildren⟩
  | text value place => exact placed_text
  | expression id place =>
    obtain ⟨hid, hplace⟩ := placed_expression.mp h
    exact placed_expression.mpr ⟨holds_mono hknown haround hid, List.Subset.trans hplace haround⟩
  | component name attributes children place ih =>
    obtain ⟨hplace, hattributes, hchildren⟩ := placed_component.mp h
    exact placed_component.mpr ⟨List.Subset.trans hplace haround, hattributes.mono hknown haround,
      ih haround hchildren⟩
  | slot name fallback place ih => exact placed_slot.mpr (ih haround (placed_slot.mp h))
  | choice condition yes no place hyes hno =>
    obtain ⟨hid, hinYes, hinNo⟩ := placed_choice.mp h
    exact placed_choice.mpr ⟨holds_mono hknown haround hid, hyes haround hinYes, hno haround hinNo⟩
  | optional condition content place ih =>
    obtain ⟨hid, hcontent⟩ := placed_optional.mp h
    exact placed_optional.mpr ⟨holds_mono hknown haround hid, ih haround hcontent⟩
  | loop source item index key body place ih =>
    obtain ⟨hid, hkey, hbody⟩ := placed_loop.mp h
    have hinside := inside_subset item index haround
    exact placed_loop.mpr ⟨holds_mono hknown haround hid, fun id hid => holds_mono hknown hinside (hkey id hid),
      ih hinside hbody⟩
  | doctype name position => exact placed_doctype

end PageCompiler.Template
