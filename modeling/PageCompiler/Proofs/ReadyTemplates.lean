import Mathlib.Tactic.MkIffOfInductiveProp
import Mathlib.Tactic.Tauto
import PageCompiler.Proofs.ExpressionTable

/-!
# Templates that are ready for output

A template is ready if no use of a component and no slot is left in it and all its ids are known (`Ready`). The check
of the structure passes exactly the ready templates (`Template.checkStructure_eq_ok_iff`), and the output of markup,
which looks up each id by itself, has a result for exactly the same ones (`Emit.Writer.succeeds_nodes`).

In both, whether a later part succeeds does not depend on what came out of the parts before it, so both are opened
by `succeeds_bind`.
-/

namespace PageCompiler

open Template (Node Attribute Expression LoopScope Place attributeIds idsIn)

variable {α β : Type}

variable {x : Compiled α}

/-! ## Computations that succeed -/

def Succeeds (x : Compiled α) : Prop :=
  ∃ a, x = .ok a

@[simp] theorem succeeds_pure (a : α) : Succeeds (pure a : Compiled α) :=
  ⟨a, rfl⟩

@[simp] theorem not_succeeds_throw (d : Diagnostic) : ¬ Succeeds (throw d : Compiled α) := by
  rintro ⟨a, h⟩
  cases h

/-- If what follows succeeds or fails whatever came before it, then both parts have to succeed. -/
theorem succeeds_bind {f : α → Compiled β} {p : Prop} (hf : ∀ a, Succeeds (f a) ↔ p) :
    Succeeds (x >>= f) ↔ Succeeds x ∧ p := by
  constructor
  · rintro ⟨b, h⟩
    obtain ⟨a, ha, hb⟩ := Compiled.bind_eq_ok.mp h
    exact ⟨⟨a, ha⟩, (hf a).mp ⟨b, hb⟩⟩
  · rintro ⟨⟨a, ha⟩, hp⟩
    obtain ⟨b, hb⟩ := (hf a).mpr hp
    exact ⟨b, Compiled.bind_eq_ok.mpr ⟨a, ha, hb⟩⟩

/-- What is made of a result in the end cannot fail. -/
theorem succeeds_bind_pure {f : α → β} : Succeeds (x >>= fun a => pure (f a)) ↔ Succeeds x := by
  rw [succeeds_bind (p := True) fun a => iff_of_true (succeeds_pure (f a)) trivial, and_true]

theorem succeeds_unit {x : Compiled Unit} : Succeeds x ↔ x = .ok () :=
  ⟨fun ⟨(), h⟩ => h, fun h => ⟨(), h⟩⟩

namespace Template

/-! ## Ready templates -/

/-- No use of a component and no slot is left in the nodes, and all their ids are known. -/
@[mk_iff] structure Ready (known : List String) (nodes : List Node) : Prop where
  uses : usagesIn nodes = []
  slots : hasSlotIn nodes = false
  ids : ∀ id ∈ idsIn nodes, id ∈ known

section
variable {known : List String} {place : Place}
variable {name condition : String} {attributes : List Attribute} {children : List Node}

@[simp] theorem ready_nil : Ready known [] :=
  ⟨rfl, rfl, by simp⟩

theorem ready_cons {n : Node} {ns : List Node} : Ready known (n :: ns) ↔ Ready known [n] ∧ Ready known ns := by
  simp only [ready_iff, usagesIn, List.append_nil, List.append_eq_nil_iff, hasSlotIn, Bool.or_false,
    Bool.or_eq_false_iff, idsIn_cons, idsIn_nil, List.mem_append, or_imp, forall_and]
  tauto

@[simp] theorem ready_text {value : String} : Ready known [.text value place] :=
  ⟨rfl, rfl, by simp [Node.ids]⟩

@[simp] theorem ready_doctype {position : Position} : Ready known [.doctype name position] :=
  ⟨rfl, rfl, by simp [Node.ids]⟩

@[simp] theorem ready_expression {id : String} : Ready known [.expression id place] ↔ id ∈ known := by
  simp [ready_iff, usagesIn, Node.usages, hasSlotIn, Node.hasSlot, Node.ids]

@[simp] theorem not_ready_component : ¬ Ready known [.component name attributes children place] := by
  rintro ⟨huses, -, -⟩
  cases huses

@[simp] theorem not_ready_slot {name : Option String} {fallback : List Node} :
    ¬ Ready known [.slot name fallback place] := by
  rintro ⟨-, hslots, -⟩
  cases hslots

@[simp] theorem ready_element {tag : String} :
    Ready known [.element tag attributes children place] ↔
      (∀ id ∈ attributeIds attributes, id ∈ known) ∧ Ready known children := by
  simp only [ready_iff, usagesIn, Node.usages, List.append_nil, hasSlotIn, Node.hasSlot, Bool.or_false, idsIn_cons,
    idsIn_nil, Node.ids, List.mem_append, or_imp, forall_and]
  tauto

@[simp] theorem ready_choice {yes no : List Node} :
    Ready known [.choice condition yes no place] ↔ condition ∈ known ∧ Ready known yes ∧ Ready known no := by
  simp only [ready_iff, usagesIn, Node.usages, List.append_nil, List.append_eq_nil_iff, hasSlotIn, Node.hasSlot,
    Bool.or_false, Bool.or_eq_false_iff, idsIn_cons, idsIn_nil, Node.ids, List.mem_cons, List.mem_append, or_imp,
    forall_and, forall_eq]
  tauto

@[simp] theorem ready_optional {content : List Node} :
    Ready known [.optional condition content place] ↔ condition ∈ known ∧ Ready known content := by
  simp only [ready_iff, usagesIn, Node.usages, List.append_nil, hasSlotIn, Node.hasSlot, Bool.or_false, idsIn_cons,
    idsIn_nil, Node.ids, List.mem_cons, or_imp, forall_and, forall_eq]
  tauto

@[simp] theorem ready_loop {source item : String} {index key : Option String} {body : List Node} :
    Ready known [.loop source item index key body place] ↔
      source ∈ known ∧ (∀ id ∈ key, id ∈ known) ∧ Ready known body := by
  simp only [ready_iff, usagesIn, Node.usages, List.append_nil, hasSlotIn, Node.hasSlot, Bool.or_false, idsIn_cons,
    idsIn_nil, Node.ids, List.mem_cons, List.mem_append, Option.mem_toList, or_imp, forall_and, forall_eq]
  tauto

end

/-! ## The check of the structure -/

namespace Checking

theorem succeeds_id (c : Checking) {user id : String} {position : Position} :
    Succeeds (c.id user id position) ↔ id ∈ c.known := by
  unfold Checking.id
  split
  · rename_i hknown
    exact iff_of_true (succeeds_pure ()) (List.contains_iff_mem.mp hknown)
  · rename_i hunknown
    exact iff_of_false (not_succeeds_throw _) (fun hid => hunknown (List.contains_iff_mem.mpr hid))

theorem succeeds_attributes (c : Checking) (attributes : List Attribute) :
    Succeeds (c.attributes attributes) ↔ ∀ id ∈ attributeIds attributes, id ∈ c.known := by
  unfold Checking.attributes
  induction attributes with
  | nil => simp
  | cons a rest ih =>
    rw [List.forM_eq_forM, List.forM_cons, ← List.forM_eq_forM, succeeds_bind fun _ => ih, attributeIds_cons]
    cases hvalue : a.value with
    | expression id => simp [succeeds_id, Value.id?]
    | fixed text => simp [Value.id?]
    | handler name => simp [Value.id?]

mutual

theorem succeeds_node (c : Checking) (n : Node) : Succeeds (c.node n) ↔ Ready c.known [n] := by
  match n with
  | .text .. | .doctype .. | .component .. | .slot .. => simp [Checking.node]
  | .expression id place => simp [Checking.node, succeeds_id]
  | .element tag attributes children place =>
    rw [Checking.node, succeeds_bind fun _ => succeeds_nodes c children, succeeds_attributes, ready_element]
  | .choice condition yes no place =>
    have hbranches : Succeeds (do c.nodes yes; c.nodes no) ↔ Ready c.known yes ∧ Ready c.known no := by
      rw [succeeds_bind fun _ => succeeds_nodes c no, succeeds_nodes c yes]
    rw [Checking.node, succeeds_bind fun _ => hbranches, succeeds_id, ready_choice]
  | .optional condition content place =>
    rw [Checking.node, succeeds_bind fun _ => succeeds_nodes c content, succeeds_id, ready_optional]
  | .loop source item index key body place =>
    cases key with
    | none =>
      have hbody := succeeds_nodes c body
      rw [Checking.node, succeeds_bind (p := Ready c.known body) fun _ => by simpa using hbody, succeeds_id]
      simp
    | some key =>
      have hinside : Succeeds (do c.id "Loop key" key place.position; c.nodes body) ↔
          key ∈ c.known ∧ Ready c.known body := by
        rw [succeeds_bind fun _ => succeeds_nodes c body, succeeds_id]
      rw [Checking.node, succeeds_bind fun _ => hinside, succeeds_id]
      simp

/-- The check of the structure passes the ready templates. -/
theorem succeeds_nodes (c : Checking) (ns : List Node) : Succeeds (c.nodes ns) ↔ Ready c.known ns := by
  match ns with
  | [] => simp [Checking.nodes]
  | n :: ns =>
    rw [ready_cons, Checking.nodes, succeeds_bind fun _ => succeeds_nodes c ns, succeeds_node c n]

end

end Checking

theorem checkStructure_eq_ok_iff {file : String} {nodes : List Node} {expressions : List Expression} :
    checkStructure file nodes expressions = .ok () ↔ Ready (expressions.map (·.id)) nodes := by
  rw [← succeeds_unit]
  exact Checking.succeeds_nodes _ nodes

end Template

/-! ## The output of markup -/

namespace Emit

def Writer.known (w : Writer) : List String :=
  w.expressions.map (·.id)

namespace Writer

variable (w : Writer)

theorem succeeds_marker {id target : String} {kind : BindingKind} {scope : Option LoopScope} :
    Succeeds (w.marker id kind target scope) ↔ id ∈ w.known := by
  have hknown : id ∈ w.known ↔ ∃ e ∈ w.expressions.reverse, (e.id == id) = true := by
    simp [known]
  unfold marker
  split
  · rename_i hfind
    refine iff_of_false (not_succeeds_throw _) fun hid => ?_
    obtain ⟨e, he, heq⟩ := hknown.mp hid
    exact List.find?_eq_none.mp hfind e he heq
  · rename_i e hfind
    have hid : (e.id == id) = true := by simpa using List.find?_some hfind
    exact iff_of_true (succeeds_pure _) (hknown.mpr ⟨e, List.mem_of_find?_eq_some hfind, hid⟩)

theorem succeeds_attributes (attributes : List Attribute) :
    Succeeds (w.attributes attributes) ↔ ∀ id ∈ attributeIds attributes, id ∈ w.known := by
  induction attributes with
  | nil => simp [Writer.attributes]
  | cons a rest ih =>
    have hattr : Succeeds (w.attr a) ↔ ∀ id ∈ a.value.id?.toList, id ∈ w.known := by
      unfold attr
      cases hvalue : a.value with
      | expression id => simp [succeeds_marker, Template.Value.id?]
      | fixed text => simp [Template.Value.id?]
      | handler name => simp [Template.Value.id?]
    rw [Writer.attributes, succeeds_bind fun _ => succeeds_bind_pure, hattr, ih, Template.attributeIds_cons]
    simp only [List.mem_append, or_imp, forall_and]

theorem succeeds_key (key : Option String) : Succeeds (w.key key) ↔ ∀ id ∈ key, id ∈ w.known := by
  cases key with
  | none => simp [Writer.key]
  | some id =>
    rw [Writer.key, succeeds_bind_pure, succeeds_marker]
    simp

mutual

theorem succeeds_node (n : Node) : Succeeds (w.node n) ↔ Template.Ready w.known [n] := by
  match n with
  | .text .. | .doctype .. | .component .. | .slot .. => simp [Writer.node]
  | .expression id place => rw [Writer.node, succeeds_bind_pure, succeeds_marker, Template.ready_expression]
  | .element tag attributes children place =>
    have hinside := succeeds_nodes children
    rw [Writer.node, succeeds_bind (p := Template.Ready w.known children), succeeds_attributes,
      Template.ready_element]
    intro opening
    split
    · rename_i hvoid
      -- an element without content is written without looking at its children, of which there are none
      have hempty : children = [] := by
        rw [Bool.and_eq_true] at hvoid
        exact List.isEmpty_iff.mp hvoid.2
      simp [hempty]
    · exact succeeds_bind_pure.trans hinside
  | .choice condition yes no place =>
    have hno := succeeds_nodes no
    have hyes := succeeds_nodes yes
    rw [Writer.node, succeeds_bind (p := Template.Ready w.known yes ∧ Template.Ready w.known no), succeeds_marker,
      Template.ready_choice]
    intro marker
    rw [succeeds_bind fun _ => succeeds_bind_pure.trans hno, hyes]
  | .optional condition content place =>
    have hinside := succeeds_nodes content
    rw [Writer.node, succeeds_bind fun _ => succeeds_bind_pure.trans hinside, succeeds_marker,
      Template.ready_optional]
  | .loop source item index key body place =>
    have hinside := succeeds_nodes body
    unfold Writer.node
    rw [succeeds_bind (p := (∀ id ∈ key, id ∈ w.known) ∧ Template.Ready w.known body), succeeds_marker,
      Template.ready_loop]
    intro marker
    rw [succeeds_bind fun _ => succeeds_bind_pure.trans hinside, succeeds_key]

/-- The output of markup has a result for the ready templates. -/
theorem succeeds_nodes (ns : List Node) : Succeeds (w.nodes ns) ↔ Template.Ready w.known ns := by
  match ns with
  | [] => simp [Writer.nodes]
  | n :: ns =>
    rw [Template.ready_cons, Writer.nodes, succeeds_bind fun _ => succeeds_bind_pure.trans (succeeds_nodes ns),
      succeeds_node n]

end

end Writer

end Emit

/-! ## Both together -/

/-- The markup of a template can be written exactly if the check of its structure passes, which is exactly if the
template is ready; and then its markers carry the ids of the template, in their order. -/
theorem html_iff_checkStructure (file : String) (nodes : List Node) (expressions : List Expression) :
    ((∃ out, Emit.html file nodes expressions = .ok out) ↔
      Template.checkStructure file nodes expressions = .ok ()) ∧
    (Template.checkStructure file nodes expressions = .ok () ↔
      Template.Ready (expressions.map (·.id)) nodes) ∧
    ∀ out, Emit.html file nodes expressions = .ok out → out.bindings.map (·.id) = idsIn nodes := by
  refine ⟨?_, Template.checkStructure_eq_ok_iff, ?_⟩
  · rw [Template.checkStructure_eq_ok_iff]
    exact Emit.Writer.succeeds_nodes _ nodes
  · intro out hout
    exact (Emit.marks_nodes nodes hout).eq

/-- A template with a void element that has content, a loop with a key and a choice with an empty side. -/
def nestedTemplate : List Node :=
  [.element "br" [⟨"class", .expression "expr_4", {}⟩]
    [.loop "expr_0" "item" (some "i") (some "expr_2") [.choice "expr_1" [] [.expression "expr_3" {}] {}] {}] {}]

def nestedExpressions : List Expression :=
  (List.range 5).map fun n => { id := Template.expressionId n, code := "" }

/-- Its markers carry the id of the attribute first and that of the key before those of the body. -/
theorem html_iff_checkStructure_nested :
    Template.checkStructure "page.zen" nestedTemplate nestedExpressions = .ok () ∧
    ∃ out, Emit.html "page.zen" nestedTemplate nestedExpressions = .ok out ∧
      out.bindings.map (·.id) = ["expr_4", "expr_0", "expr_2", "expr_1", "expr_3"] := by
  have hcheck : Template.checkStructure "page.zen" nestedTemplate nestedExpressions = .ok () := rfl
  obtain ⟨hiff, -, hids⟩ := html_iff_checkStructure "page.zen" nestedTemplate nestedExpressions
  obtain ⟨out, hout⟩ := hiff.mpr hcheck
  exact ⟨hcheck, out, hout, hids out hout⟩

end PageCompiler
