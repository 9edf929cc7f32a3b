import Mathlib.Data.List.Count
import Mathlib.Tactic.Tauto
import PageCompiler.Component.Resolution
import PageCompiler.Proofs.Registration
import PageCompiler.Proofs.TemplateOpenings

/-!
# Ids in templates

How often ids occur in a template (`Within`), that no use of a component holds an id twice (`SingleIn`),
and what becomes of both when a template is renamed or a use in it is replaced.
-/

namespace PageCompiler.Component

open Template (Node Attribute Opening Wrapper idsIn attributeIds usagesIn usagesIn_append usagesIn_singleton
  replaceFirstIn?)

variable {l m : List String}

variable {ns : List Node} {n : Node} {u : Usage}

/-! ## Occurrences -/

/-- No id is more often in one list than in another. -/
def Within (l m : List String) : Prop :=
  ∀ id, l.count id ≤ m.count id

theorem Within.refl (l : List String) : Within l l :=
  fun _ => Nat.le_refl _

theorem Within.trans {n : List String} (h : Within l m) (h' : Within m n) : Within l n :=
  fun id => Nat.le_trans (h id) (h' id)

theorem Within.append {l' m' : List String} (h : Within l m) (h' : Within l' m') : Within (l ++ l') (m ++ m') := by
  intro id
  rw [List.count_append, List.count_append]
  exact Nat.add_le_add (h id) (h' id)

theorem Within.mem (h : Within l m) {id : String} (hid : id ∈ l) : id ∈ m := by
  have := h id
  rw [← List.count_pos_iff] at hid ⊢
  omega

theorem Within.nodup (h : Within l m) (hm : m.Nodup) : l.Nodup := by
  rw [List.nodup_iff_count_le_one] at hm ⊢
  exact fun id => Nat.le_trans (h id) (hm id)

theorem within_of_sublist (h : l.Sublist m) : Within l m :=
  fun id => h.count_le id

theorem within_of_perm (h : l.Perm m) : Within l m :=
  fun id => Nat.le_of_eq (h.count_eq id)

/-- No use of a component in the nodes holds an id twice. -/
def SingleIn (ns : List Node) : Prop :=
  ∀ u ∈ usagesIn ns, (attributeIds u.attributes).Nodup

@[simp] theorem singleIn_nil : SingleIn [] := by
  intro u hu
  cases hu

theorem singleIn_append {ms : List Node} : SingleIn (ns ++ ms) ↔ SingleIn ns ∧ SingleIn ms := by
  simp only [SingleIn, usagesIn_append, List.mem_append]
  constructor
  · intro h
    exact ⟨fun u hu => h u (.inl hu), fun u hu => h u (.inr hu)⟩
  · rintro ⟨hns, hms⟩ u (hu | hu)
    · exact hns u hu
    · exact hms u hu

theorem singleIn_cons : SingleIn (n :: ns) ↔ SingleIn [n] ∧ SingleIn ns := by
  rw [← singleIn_append, List.singleton_append]

/-- A node with the same uses as other nodes holds an id twice in a use exactly if they do. -/
theorem singleIn_of_usages_eq (h : n.usages = usagesIn ns) : SingleIn [n] ↔ SingleIn ns := by
  rw [SingleIn, SingleIn, usagesIn_singleton, h]

section Nodes
variable {children : List Node}

variable {place : Template.Place} {attributes : List Attribute} {name : String}

@[simp] theorem singleIn_element : SingleIn [.element name attributes children place] ↔ SingleIn children :=
  singleIn_of_usages_eq rfl

@[simp] theorem singleIn_component :
    SingleIn [.component name attributes children place] ↔
      (attributeIds attributes).Nodup ∧ SingleIn children := by
  rw [SingleIn, usagesIn_singleton]
  exact List.forall_mem_cons

@[simp] theorem singleIn_slot {slot : Option String} {fallback : List Node} :
    SingleIn [.slot slot fallback place] ↔ SingleIn fallback :=
  singleIn_of_usages_eq rfl

@[simp] theorem singleIn_choice {yes no : List Node} :
    SingleIn [.choice name yes no place] ↔ SingleIn yes ∧ SingleIn no := by
  rw [← singleIn_append]
  exact singleIn_of_usages_eq (usagesIn_append yes no).symm

@[simp] theorem singleIn_optional {content : List Node} :
    SingleIn [.optional name content place] ↔ SingleIn content :=
  singleIn_of_usages_eq rfl

@[simp] theorem singleIn_loop {item : String} {index key : Option String} {body : List Node} :
    SingleIn [.loop name item index key body place] ↔ SingleIn body :=
  singleIn_of_usages_eq rfl

end Nodes

/-! ## Renamed templates -/

theorem attributeIds_rebinding (b : Rebinding) (outer : Option Template.LoopScope)
    (as : List Attribute) : attributeIds (b.attributes outer as) = (attributeIds as).map b.id := by
  induction as with
  | nil => rfl
  | cons a as ih =>
    have hcons : b.attributes outer (a :: as) =
        { a with value := b.value a.value, place := b.place outer a.place } ::
          b.attributes outer as := rfl
    rw [hcons, Template.attributeIds_cons, Template.attributeIds_cons, ih, List.map_append]
    cases a.value <;> rfl

theorem idsIn_rebinding (b : Rebinding) (outer : Option Template.LoopScope) (ns : List Node) :
    idsIn (b.nodes outer ns) = (idsIn ns).map b.id := by
  induction ns using Template.nodes_induction with
  | loop source item index key body place hbody =>
    cases key <;> simp [Rebinding.nodes, Rebinding.node, Node.ids, hbody]
  | _ => simp_all [Rebinding.nodes, Rebinding.node, Node.ids, attributeIds_rebinding]

/-- The ids of a use, in its attributes and in its children, are among the ids of the nodes. -/
theorem sublist_of_mem_usagesIn (ns : List Node) (hu : u ∈ usagesIn ns) :
    (attributeIds u.attributes ++ idsIn u.children).Sublist (idsIn ns) := by
  induction ns using Template.nodes_induction with
    simp only [Template.usagesIn_singleton, Node.usages, Template.idsIn_cons, Template.idsIn_nil, List.append_nil,
      Node.ids] at *
  | cons n ns hn hns =>
    rcases List.mem_append.mp hu with hu | hu
    · exact (hn hu).trans (List.sublist_append_left _ _)
    · exact (hns hu).trans (List.sublist_append_right _ _)
  | element tag attributes children place ih => exact (ih hu).trans (List.sublist_append_right _ _)
  | component name attributes children place ih =>
    rcases List.mem_cons.mp hu with rfl | hu
    · exact .refl _
    · exact (ih hu).trans (List.sublist_append_right _ _)
  | slot name fallback place ih => exact ih hu
  | choice condition yes no place hyes hno =>
    rcases List.mem_append.mp hu with hu | hu
    · exact ((hyes hu).trans (List.sublist_append_left _ _)).cons _
    · exact ((hno hu).trans (List.sublist_append_right _ _)).cons _
  | optional condition content place ih => exact (ih hu).cons _
  | loop source item index key body place ih => exact ((ih hu).trans (List.sublist_append_right _ _)).cons _
  | _ => cases hu

theorem usagesIn_children_subset (ns : List Node) (hu : u ∈ usagesIn ns) : usagesIn u.children ⊆ usagesIn ns := by
  induction ns using Template.nodes_induction with simp only [usagesIn, Node.usages, List.append_nil] at *
  | cons n ns hn hns =>
    rcases List.mem_append.mp hu with hu | hu
    · exact List.subset_append_of_subset_left _ (hn hu)
    · exact List.subset_append_of_subset_right _ (hns hu)
  | component name attributes children place ih =>
    rcases List.mem_cons.mp hu with rfl | hu
    · exact List.subset_cons_self _ _
    · exact List.subset_cons_of_subset _ (ih hu)
  | choice condition yes no place hyes hno =>
    rcases List.mem_append.mp hu with hu | hu
    · exact List.subset_append_of_subset_left _ (hyes hu)
    · exact List.subset_append_of_subset_right _ (hno hu)
  | element _ _ _ _ ih | slot _ _ _ ih | optional _ _ _ ih | loop _ _ _ _ _ _ ih => exact ih hu
  | nil | text | expression | doctype => cases hu

/-- What holds of all uses holds of those inside of a use. -/
theorem singleIn_children_of_memIn (ns : List Node) (hu : u ∈ usagesIn ns) (h : SingleIn ns) : SingleIn u.children :=
  fun v hv => h v (usagesIn_children_subset ns hu hv)

/-- Where no id occurs twice, no use holds one twice. -/
theorem singleIn_of_nodup (h : (idsIn ns).Nodup) : SingleIn ns := by
  intro u hu
  exact h.sublist ((List.sublist_append_left _ _).trans (sublist_of_mem_usagesIn ns hu))

/-! ## Replaced uses -/

/-- Some nodes became others by putting new ones in the place of a use: the ids of the use gave way to
those of the new nodes, all others stayed. -/
structure Replaced (u : Usage) (new before after : List Node) : Prop where
  ids : ∃ rest, (idsIn before).Perm (attributeIds u.attributes ++ idsIn u.children ++ rest) ∧
    (idsIn after).Perm (idsIn new ++ rest)
  single : SingleIn before → SingleIn new → SingleIn after

theorem exists_perm_ids_around (w : Wrapper) :
    ∃ own, ∀ children, (w.around children).ids.Perm (own ++ idsIn children) := by
  cases w with
  | element tag attributes place => exact ⟨attributeIds attributes, fun _ => .refl _⟩
  | component name attributes place => exact ⟨attributeIds attributes, fun _ => .refl _⟩
  | slot name place => exact ⟨[], fun _ => .refl _⟩
  | chosen condition no place => exact ⟨condition :: idsIn no, fun _ => List.perm_append_comm.cons _⟩
  | otherwise condition yes place => exact ⟨condition :: idsIn yes, fun _ => .refl _⟩
  | optional condition place => exact ⟨[condition], fun _ => .refl _⟩
  | loop source item index key place => exact ⟨source :: key.toList, fun _ => .refl _⟩

theorem exists_perm_idsIn_put (o : Opening) :
    ∃ rest, ∀ nodes, (idsIn (o.put nodes)).Perm (idsIn nodes ++ rest) := by
  induction o with
  | here before after =>
    refine ⟨idsIn before ++ idsIn after, fun nodes => ?_⟩
    rw [List.perm_iff_count]
    simp [Opening.put, Nat.add_left_comm]
  | inside before w o after ih =>
    obtain ⟨rest, hrest⟩ := ih
    obtain ⟨own, hown⟩ := exists_perm_ids_around w
    refine ⟨idsIn before ++ own ++ rest ++ idsIn after, fun nodes => ?_⟩
    have hinside := (hown (o.put nodes)).trans ((hrest nodes).append_left own)
    rw [List.perm_iff_count] at hinside ⊢
    intro id
    have := hinside id
    simp only [Opening.put, Template.idsIn_append, Template.idsIn_cons, List.count_append] at this ⊢
    omega

theorem exists_singleIn_around (w : Wrapper) :
    ∃ own : Prop, ∀ children, SingleIn [w.around children] ↔ own ∧ SingleIn children := by
  cases w with
  | component name attributes place => exact ⟨(attributeIds attributes).Nodup, fun _ => singleIn_component⟩
  | chosen condition no place => exact ⟨SingleIn no, fun _ => singleIn_choice.trans and_comm⟩
  | otherwise condition yes place => exact ⟨SingleIn yes, fun _ => singleIn_choice⟩
  | _ => exact ⟨True, fun _ => by simp [Wrapper.around]⟩

theorem exists_singleIn_put (o : Opening) :
    ∃ own : Prop, ∀ nodes, SingleIn (o.put nodes) ↔ own ∧ SingleIn nodes := by
  induction o with
  | here before after =>
    refine ⟨SingleIn before ∧ SingleIn after, fun nodes => ?_⟩
    rw [Opening.put, singleIn_append, singleIn_append, and_right_comm]
  | inside before w o after ih =>
    obtain ⟨inner, hinner⟩ := ih
    obtain ⟨own, hown⟩ := exists_singleIn_around w
    refine ⟨(SingleIn before ∧ SingleIn after) ∧ own ∧ inner, fun nodes => ?_⟩
    rw [Opening.put, singleIn_append, singleIn_cons, hown, hinner]
    tauto

theorem replaced_of_find? {test : String → Bool} {new after : List Node}
    (hfind : (usagesIn ns).find? (test ·.name) = some u) (hreplace : replaceFirstIn? test new ns = some after) :
    Replaced u new ns after := by
  obtain ⟨o, ho⟩ := Template.exists_firstAt ns hfind
  obtain rfl : o.put new = after := Option.some.inj ((ho.replace_eq new).symm.trans hreplace)
  obtain ⟨rest, hids⟩ := exists_perm_idsIn_put o
  obtain ⟨own, hsingle⟩ := exists_singleIn_put o
  rw [ho.nodes_eq]
  refine ⟨⟨rest, ?_, hids new⟩, fun hbefore hnew => (hsingle new).mpr ⟨((hsingle _).mp hbefore).1, hnew⟩⟩
  have huse := hids [u.node]
  rwa [Template.idsIn_cons, Template.idsIn_nil, List.append_nil] at huse

end PageCompiler.Component
