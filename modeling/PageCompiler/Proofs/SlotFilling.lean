import PageCompiler.Proofs.Dictionaries
import PageCompiler.Proofs.TemplateIds

/-!
# Ids in filled slots

A filled template holds its own ids and, for each slot that is reached, those of what is passed to it.
Distinct slots hold together no more than the children of the use.
-/

namespace PageCompiler.Component

open Template (Node Attribute idsIn attributeIds)

/-! ## Filling -/

namespace SlotContent

variable {c : SlotContent} {usage : String}

def idsFor (c : SlotContent) : Option String → List String
  | some key => idsIn ((c.named.get? key).getD [])
  | none => idsIn c.unnamed

theorem idsIn_of_forSlot? {name : Option String} {nodes : List Node} (h : c.forSlot? name = some nodes) :
    idsIn nodes = c.idsFor (slotKey name) := by
  unfold forSlot? at h
  split at h
  · rename_i key hkey
    rw [hkey, idsFor, h, Option.getD_some]
  · rename_i hkey
    rw [hkey, idsFor]
    split at h
    · cases h
      rfl
    · cases h

/-- The ids in a filled template are its own and, for each slot that is reached, those passed to it. -/
theorem within_fillAll (c : SlotContent) (ns : List Node) :
    Within (idsIn (c.fillAll ns)) (idsIn ns ++ (c.reachedIn ns).flatMap c.idsFor) := by
  intro id
  induction ns using Template.nodes_induction with
    simp only [fillAll, fill, reachedIn, reached, Template.idsIn_cons, Template.idsIn_nil, Template.idsIn_append,
      Node.ids, List.append_nil, List.count_append, List.count_cons, List.flatMap_append] at *
  | slot name fallback place ih =>
    cases hslot : c.forSlot? name with
    | some nodes =>
      simp only [List.flatMap_cons, List.flatMap_nil, List.append_nil, idsIn_of_forSlot? hslot]
      omega
    | none =>
      simp only [List.flatMap_cons, List.count_append]
      omega
  | _ => omega

/-- Filling slots keeps that no use holds an id twice. -/
theorem singleIn_fillAll (c : SlotContent)
    (hc : ∀ name nodes, c.forSlot? name = some nodes → SingleIn nodes) (ns : List Node)
    (hns : SingleIn ns) : SingleIn (c.fillAll ns) := by
  induction ns using Template.nodes_induction with
  | slot name fallback place ih =>
    rw [fillAll, fill, fillAll, List.append_nil]
    cases hslot : c.forSlot? name with
    | some nodes => exact hc name nodes hslot
    | none => exact ih (singleIn_slot.mp hns)
  | cons n ns hfirst hrest =>
    obtain ⟨hn, hns⟩ := singleIn_cons.mp hns
    exact singleIn_append.mpr ⟨by simpa [fillAll] using hfirst hn, hrest hns⟩
  | _ => simp_all [fillAll, fill]

/-! ## Slots that are reached -/

theorem forSlot?_empty (name : Option String) : forSlot? {} name = none := by
  unfold forSlot?
  split <;> rfl

/-- Every slot that is reached is one of the slots of the template, which are reached when nothing is
passed. -/
theorem sublist_reachedIn (c : SlotContent) (ns : List Node) :
    (c.reachedIn ns).Sublist (reachedIn {} ns) := by
  induction ns using Template.nodes_induction with simp only [reachedIn, reached, List.append_nil] at *
  | slot name fallback place ih =>
    rw [forSlot?_empty]
    refine List.Sublist.cons_cons _ ?_
    cases c.forSlot? name with
    | some nodes => exact List.nil_sublist _
    | none => exact ih
  | cons n ns hn hns => exact hn.append hns
  | choice condition yes no place hyes hno => exact hyes.append hno
  | nil | text | expression | doctype => exact .refl _
  | _ => assumption

theorem reachedIn_rebinding (c : SlotContent) (b : Rebinding) (outer : Option Template.LoopScope)
    (ns : List Node) : c.reachedIn (b.nodes outer ns) = c.reachedIn ns := by
  induction ns using Template.nodes_induction with
  | _ => simp_all [Rebinding.nodes, Rebinding.node, reachedIn, reached]

/-! ## What is passed to slots -/

def allIds (c : SlotContent) : List String :=
  idsIn c.unnamed ++ c.named.flatMap fun entry => idsIn entry.2

theorem count_insert_append (d : Ordered (List Node)) (key : String) (nodes : List Node)
    (id : String) :
    ((d.insert key ((d.get? key).getD [] ++ nodes)).flatMap fun entry => idsIn entry.2).count id =
      (d.flatMap fun entry => idsIn entry.2).count id + (idsIn nodes).count id := by
  induction d with
  | nil => simp [Ordered.insert, Ordered.get?]
  | cons entry d ih =>
    rw [Ordered.insert, Ordered.get?, List.find?_cons]
    by_cases hkey : entry.1 = key
    · simp only [hkey, beq_self_eq_true, if_true, Option.map_some, Option.getD_some,
        List.flatMap_cons, Template.idsIn_append, List.count_append]
      omega
    · have hbeq : (entry.1 == key) = false := beq_eq_false_iff_ne.mpr hkey
      simp only [hbeq, Bool.false_eq_true, if_false, List.flatMap_cons, List.count_append]
      rw [Ordered.get?] at ih
      omega

/-- What is under distinct keys is no more than what the dictionary holds. -/
theorem within_flatMap_get? (d : Ordered (List Node)) {keys : List String} (h : keys.Nodup) :
    Within (keys.flatMap fun key => idsIn ((d.get? key).getD []))
      (d.flatMap fun entry => idsIn entry.2) := by
  induction d generalizing keys with
  | nil =>
    intro id
    simp [Ordered.get?, List.count_eq_zero]
  | cons entry d ih =>
    -- without the first key, the other keys are looked up in the rest
    have hrest : ∀ ks : List String, entry.1 ∉ ks →
        (ks.flatMap fun key => idsIn ((Ordered.get? (entry :: d) key).getD [])) =
          ks.flatMap fun key => idsIn ((Ordered.get? d key).getD []) := by
      intro ks hout
      refine List.flatMap_congr fun key hkey => ?_
      have hne : (entry.1 == key) = false := by
        rw [beq_eq_false_iff_ne]
        rintro rfl
        exact hout hkey
      simp only [Ordered.get?, List.find?_cons, hne]
    intro id
    rw [List.flatMap_cons, List.count_append]
    by_cases hmem : entry.1 ∈ keys
    · have hperm := List.perm_cons_erase hmem
      have hout : entry.1 ∉ keys.erase entry.1 := h.not_mem_erase
      have hle := ih (h.erase entry.1) id
      have hfirst : Ordered.get? (entry :: d) entry.1 = some entry.2 := by
        simp [Ordered.get?]
      rw [(hperm.flatMap_right _).count_eq, List.flatMap_cons, List.count_append, hrest _ hout,
        hfirst, Option.getD_some]
      omega
    · have hle := ih h id
      rw [hrest _ hmem]
      omega

theorem count_flatMap_idsFor (c : SlotContent) (keys : List (Option String)) (id : String) :
    (keys.flatMap c.idsFor).count id = keys.count none * (idsIn c.unnamed).count id +
      ((keys.filterMap fun key => key).flatMap fun key =>
        idsIn ((c.named.get? key).getD [])).count id := by
  induction keys with
  | nil => simp
  | cons key keys ih =>
    cases key with
    | none =>
      simp only [List.flatMap_cons, List.count_append, List.filterMap_cons, List.count_cons_self,
        idsFor, ih]
      rw [Nat.add_mul, Nat.one_mul]
      omega
    | some key =>
      simp only [List.flatMap_cons, List.count_append, List.filterMap_cons, idsFor, ih]
      rw [List.count_cons_of_ne (by simp)]
      omega

/-- Distinct slots hold together no more than what is passed. -/
theorem within_flatMap_idsFor (c : SlotContent) {keys : List (Option String)} (h : keys.Nodup) :
    Within (keys.flatMap c.idsFor) c.allIds := by
  intro id
  have hnone : keys.count none ≤ 1 := List.nodup_iff_count_le_one.mp h none
  have hsome : (keys.filterMap fun key => key).Nodup :=
    h.filterMap fun a a' b hb hb' => by rw [Option.mem_def.mp hb, Option.mem_def.mp hb']
  have hle := within_flatMap_get? c.named hsome id
  have hmul := Nat.mul_le_mul_right ((idsIn c.unnamed).count id) hnone
  rw [count_flatMap_idsFor, allIds, List.count_append]
  omega

theorem attributeIds_takeSlot (as : List Attribute) :
    attributeIds (takeSlot as).2 = attributeIds as := by
  induction as with
  | nil => rfl
  | cons a as ih =>
    unfold takeSlot
    split
    · rename_i name hslot hvalue
      rw [Template.attributeIds_cons, hvalue]
      rfl
    · rw [Template.attributeIds_cons, Template.attributeIds_cons, ih]

theorem count_allIds_add (c : SlotContent) (slot : Option String) (nodes : List Node) (id : String) :
    (c.add slot nodes).allIds.count id = c.allIds.count id + (idsIn nodes).count id := by
  unfold add allIds
  split
  · simp only [List.count_append, count_insert_append]
    omega
  · simp only [List.count_append, Template.idsIn_append]
    omega

theorem within_addChild (usage : String) (c : SlotContent) (n : Node) :
    Within (c.addChild usage n).allIds (c.allIds ++ n.ids) := by
  intro id
  rw [List.count_append]
  unfold addChild
  split
  · rename_i name attributes children place
    split
    · simp only [allIds, List.count_append, count_insert_append, Node.ids]
      omega
    · simp only [count_allIds_add, Template.idsIn_cons, Template.idsIn_nil, Node.ids,
        attributeIds_takeSlot, List.append_nil]
      omega
  · simp only [count_allIds_add, Template.idsIn_cons, Template.idsIn_nil, Node.ids,
      attributeIds_takeSlot, List.append_nil]
    omega
  · simp only [count_allIds_add, Template.idsIn_cons, Template.idsIn_nil, List.append_nil]
    omega

/-- What is passed to slots holds no more than the children of the use. -/
theorem within_slotContent (usage : String) (children : List Node) :
    Within (slotContent usage children).allIds (idsIn children) := by
  have hfold : ∀ c : SlotContent,
      Within (children.foldl (addChild usage) c).allIds (c.allIds ++ idsIn children) := by
    induction children with
    | nil =>
      intro c
      rw [Template.idsIn_nil, List.append_nil]
      exact .refl _
    | cons n children ih =>
      intro c
      rw [Template.idsIn_cons, ← List.append_assoc]
      exact (ih _).trans ((within_addChild usage c n).append (.refl _))
  exact hfold {}

/-- What is passed to each slot has a property. -/
structure Each (P : List Node → Prop) (c : SlotContent) : Prop where
  unnamed : P c.unnamed
  named : ∀ entry ∈ c.named, P entry.2

/-- The nodes that a child of a use passes to a slot: itself, or what is in it. -/
def passedNodes (usage : String) : Node → List Node
  | .component name attributes children place =>
    match compoundSlot? name usage with
    | some _ => children
    | none => [.component name (takeSlot attributes).2 children place]
  | .element tag attributes children place => [.element tag (takeSlot attributes).2 children place]
  | node => [node]

section
variable {c : SlotContent} {nodes : List Node} {usage : String}

variable {P : List Node → Prop} (hnil : P []) (happend : ∀ {ns ms : List Node}, P ns → P ms → P (ns ++ ms))

include hnil happend

theorem Each.insert (h : c.Each P) (key : String) (hnodes : P nodes) :
    Each P { c with named := c.named.insert key ((c.named.get? key).getD [] ++ nodes) } where
  unnamed := h.unnamed
  named := by
    intro entry hentry
    rcases Ordered.mem_of_mem_insert hentry with hold | rfl
    · exact h.named entry hold
    · refine happend ?_ hnodes
      cases hget : c.named.get? key with
      | none => exact hnil
      | some nodes =>
        obtain ⟨entry, hfind, rfl⟩ := Option.map_eq_some_iff.mp hget
        exact h.named entry (List.mem_of_find?_eq_some hfind)

theorem Each.add (h : c.Each P) (slot : Option String) (hnodes : P nodes) : (c.add slot nodes).Each P := by
  unfold SlotContent.add
  split
  · exact h.insert hnil happend _ hnodes
  · exact ⟨happend h.unnamed hnodes, h.named⟩

theorem Each.addChild (h : c.Each P) {n : Node} (hn : P (passedNodes usage n)) : (c.addChild usage n).Each P := by
  cases n with
  | component name attributes children place =>
    cases hslot : compoundSlot? name usage with
    | none =>
      simp only [passedNodes, hslot] at hn
      simp only [SlotContent.addChild, hslot]
      exact h.add hnil happend _ hn
    | some slot =>
      simp only [passedNodes, hslot] at hn
      simp only [SlotContent.addChild, hslot]
      exact h.insert hnil happend _ hn
  | element tag attributes children place => exact h.add hnil happend _ hn
  | _ => exact h.add hnil happend none hn

theorem each_slotContent {children : List Node} (h : ∀ n ∈ children, P (passedNodes usage n)) :
    (slotContent usage children).Each P := by
  have hfold : ∀ c : SlotContent, c.Each P → (children.foldl (SlotContent.addChild usage) c).Each P := by
    induction children with
    | nil => exact fun c hc => hc
    | cons n children ih =>
      intro c hc
      refine ih (fun m hm => h m (List.mem_cons_of_mem _ hm)) _ (hc.addChild hnil happend ?_)
      exact h n List.mem_cons_self
  exact hfold {} ⟨hnil, by simp⟩

end

theorem Each.forSlot? {P : List Node → Prop} (h : c.Each P) (name : Option String) (nodes : List Node)
    (hslot : c.forSlot? name = some nodes) : P nodes := by
  unfold SlotContent.forSlot? at hslot
  split at hslot
  · obtain ⟨entry, hfind, rfl⟩ := Option.map_eq_some_iff.mp hslot
    exact h.named entry (List.mem_of_find?_eq_some hfind)
  · split at hslot
    · cases hslot
      exact h.unnamed
    · cases hslot

theorem singleIn_passedNodes {n : Node} (h : SingleIn [n]) : SingleIn (passedNodes usage n) := by
  unfold passedNodes
  split
  · obtain ⟨hown, hchildren⟩ := singleIn_component.mp h
    split
    · exact hchildren
    · refine singleIn_component.mpr ⟨?_, hchildren⟩
      rw [attributeIds_takeSlot]
      exact hown
  · exact singleIn_element.mpr (singleIn_element.mp h)
  · exact h

/-- No use in what is passed to slots holds an id twice. -/
theorem single_slotContent {children : List Node} (h : SingleIn children) :
    (slotContent usage children).Each SingleIn := by
  refine each_slotContent singleIn_nil (fun hns hms => singleIn_append.mpr ⟨hns, hms⟩) fun n hn => ?_
  obtain ⟨before, after, rfl⟩ := List.append_of_mem hn
  rw [singleIn_append, singleIn_cons] at h
  exact singleIn_passedNodes h.2.1

end SlotContent

end PageCompiler.Component
