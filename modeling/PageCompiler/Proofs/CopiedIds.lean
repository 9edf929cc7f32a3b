import PageCompiler.Proofs.Inlining
import PageCompiler.Proofs.SlotFilling
import PageCompiler.Proofs.TemplateReading

/-!
# Ids in copies

Where the ids in a copy of a component come from: they are new ones, those of the children of the use
as often as the slots that they fill are reached, and those of the attributes that are put on the root.
-/

namespace PageCompiler.Component

open Template (Node Attribute idsIn attributeIds freshIds)

variable {ns nodes : List Node} {f : List Attribute → List Attribute} {extra : List String} {component : Component}
  {usage : Usage}

variable {copied : List Node} {role : Role} {a a' : Assembly} {b : Rebinding}

/-! ## Roots -/

theorem attributeIds_marks (marks : List (String × String)) (place : Template.Place) :
    attributeIds (marks.map fun (mark, text) => ⟨mark, .fixed text, place⟩) = [] := by
  simp [attributeIds, Template.Value.id?]

theorem sublist_markRoot (name : String) (number : Nat) (n : Node) :
    (markRoot name number n).ids.Sublist n.ids := by
  unfold markRoot
  split
  · simp only [Node.ids, Template.attributeIds_append, attributeIds_marks, List.append_nil]
    exact (List.filter_sublist.filterMap _).append (.refl _)
  · exact .refl _

theorem within_marked (role : Role) (name : String) (number : Nat) (ns : List Node) :
    Within (idsIn (marked role name number ns)) (idsIn ns) := by
  cases role with
  | layout => exact .refl _
  | component =>
    refine within_of_sublist ?_
    rw [marked]
    induction ns with
    | nil => exact .refl _
    | cons n ns ih =>
      rw [List.map_cons, Template.idsIn_cons, Template.idsIn_cons]
      exact (sublist_markRoot name number n).append ih

theorem singleIn_marked (role : Role) (name : String) (number : Nat) (h : SingleIn ns) :
    SingleIn (marked role name number ns) := by
  cases role with
  | layout => exact h
  | component =>
    rw [marked]
    induction ns with
    | nil => exact singleIn_nil
    | cons n ns ih =>
      obtain ⟨hn, hns⟩ := singleIn_cons.mp h
      refine singleIn_cons.mpr ⟨?_, ih hns⟩
      unfold markRoot
      split
      · exact singleIn_element.mpr (singleIn_element.mp hn)
      · exact hn

def keptIds (component : Component) (usage : Usage) : List String :=
  attributeIds ((passedOn usage component.props.keys).filter fun a => (givenAway? a).isNone)

theorem within_mergeAttribute (as : List Attribute) (a : Attribute) :
    Within (attributeIds (mergeAttribute as a)) (attributeIds as ++ a.value.id?.toList) := by
  intro id
  induction as with
  | nil => simp [mergeAttribute, Template.attributeIds_cons]
  | cons own rest ih =>
    rw [mergeAttribute]
    simp only [List.count_append, Template.attributeIds_cons] at ih ⊢
    split
    · split
      · rename_i current extra _ hown ha
        simp only [hown, ha, Template.attributeIds_cons, Template.Value.id?, List.count_append]
        omega
      · rw [Template.attributeIds_cons, List.count_append]
        omega
    · rw [Template.attributeIds_cons, List.count_append]
      omega

theorem within_foldl_mergeAttribute (own found : List Attribute) :
    Within (attributeIds (found.foldl mergeAttribute own)) (attributeIds own ++ attributeIds found) := by
  induction found generalizing own with
  | nil =>
    rw [Template.attributeIds_nil, List.append_nil]
    exact .refl _
  | cons a found ih =>
    rw [Template.attributeIds_cons, ← List.append_assoc]
    exact (ih _).trans ((within_mergeAttribute own a).append (.refl _))

theorem within_standsFor {attributes found : List Attribute}
    (h : List.Forall₂ StandsFor attributes found) :
    Within (attributeIds found) (attributeIds (attributes.filter fun a => (givenAway? a).isNone)) := by
  induction h with
  | nil => exact .refl _
  | @cons a b as bs hab _ ih =>
    intro id
    have hle := ih id
    rw [Template.attributeIds_cons, List.count_append, List.filter_cons]
    rcases hab with ⟨rfl, hnone⟩ | hnone
    · simp only [hnone, Option.isNone_none, if_true, Template.attributeIds_cons, List.count_append]
      omega
    · rw [hnone]
      split
      · rw [Template.attributeIds_cons, List.count_append]
        simp only [Option.toList_none, List.count_nil]
        omega
      · simp only [Option.toList_none, List.count_nil]
        omega

theorem onElement_of_isBlank {n : Node} (f : List Attribute → List Attribute)
    (h : n.isBlank = true) : onElement f n = n := by
  cases n with
  | element => cases h
  | _ => rfl

theorem within_onElement (hf : ∀ as, Within (attributeIds (f as)) (attributeIds as ++ extra)) (n : Node) :
    Within (onElement f n).ids (n.ids ++ extra) := by
  intro id
  unfold onElement
  split
  · rename_i tag attributes children place
    have hle := hf attributes id
    simp only [Node.ids, List.count_append] at hle ⊢
    omega
  · rw [List.count_append]
    omega

theorem within_map_onElement (hf : ∀ as, Within (attributeIds (f as)) (attributeIds as ++ extra))
    (hone : (ns.filter (!·.isBlank)).length ≤ 1) : Within (idsIn (ns.map (onElement f))) (idsIn ns ++ extra) := by
  induction ns with
  | nil =>
    intro id
    simp
  | cons n ns ih =>
    intro id
    rw [List.map_cons, Template.idsIn_cons, Template.idsIn_cons]
    cases hblank : n.isBlank with
    | true =>
      rw [List.filter_cons_of_neg (by simp [hblank])] at hone
      have hle := ih hone id
      rw [onElement_of_isBlank f hblank]
      simp only [List.count_append] at hle ⊢
      omega
    | false =>
      -- the other nodes are blank, so nothing else is changed
      rw [List.filter_cons_of_pos (by simp [hblank]), List.length_cons] at hone
      have hrest : ns.filter (!·.isBlank) = [] := List.eq_nil_of_length_eq_zero (by omega)
      have hsame : ns.map (onElement f) = ns := by
        refine (List.map_congr_left fun m hm => ?_).trans (List.map_id' ns)
        refine onElement_of_isBlank f ?_
        simpa using List.filter_eq_nil_iff.mp hrest m hm
      have hle := within_onElement hf n id
      rw [hsame]
      simp only [List.count_append] at hle ⊢
      omega

theorem within_onSingleRoot (hf : ∀ as, Within (attributeIds (f as)) (attributeIds as ++ extra)) (ns : List Node) :
    Within (idsIn (onSingleRoot ns f)) (idsIn ns ++ extra) := by
  unfold onSingleRoot
  split
  · rename_i heq
    exact within_map_onElement hf (by rw [heq]; exact Nat.le_refl 1)
  · exact within_of_sublist (List.sublist_append_left _ _)

theorem singleIn_map_onElement (f : List Attribute → List Attribute) (h : SingleIn ns) :
    SingleIn (ns.map (onElement f)) := by
  induction ns with
  | nil => exact singleIn_nil
  | cons n ns ih =>
    obtain ⟨hn, hns⟩ := singleIn_cons.mp h
    refine singleIn_cons.mpr ⟨?_, ih hns⟩
    cases n with
    | element => exact singleIn_element.mpr (singleIn_element.mp hn)
    | _ => exact hn

theorem RootedAs.singleIn (h : RootedAs component usage copied nodes) (hcopied : SingleIn copied) : SingleIn nodes := by
  rcases h with rfl | ⟨found, -, rfl⟩
  · exact hcopied
  · unfold onSingleRoot
    split
    · exact singleIn_map_onElement _ hcopied
    · exact hcopied

theorem RootedAs.within (h : RootedAs component usage copied nodes) :
    Within (idsIn nodes) (idsIn copied ++ keptIds component usage) := by
  rcases h with rfl | ⟨found, hfound, rfl⟩
  · exact within_of_sublist (List.sublist_append_left _ _)
  · refine within_onSingleRoot (fun as => ?_) copied
    exact (within_foldl_mergeAttribute as found).trans ((Within.refl _).append (within_standsFor hfound))

/-! ## Whole copies -/

def slotKeys (component : Component) : List (Option String) :=
  SlotContent.reachedIn {} component.page.nodes

/-- The ids in a copied template are new ids, and those of the children of the use for each slot that
is reached. -/
theorem CopyOf.within (h : CopyOf role component usage a b nodes a') (hp : component.page.Registered) :
    Within (idsIn nodes) (freshIds a.nextId component.page.expressions.length ++
      ((slotContent usage.name usage.children).reachedIn component.page.nodes).flatMap
        (slotContent usage.name usage.children).idsFor) := by
  rw [h.nodes]
  refine (within_marked _ _ _ _).trans ((SlotContent.within_fillAll _ _).trans ?_)
  rw [idsIn_rebinding, SlotContent.reachedIn_rebinding, ← h.map_id hp.nodup]
  exact (within_of_perm (hp.perm.map b.id)).append (.refl _)

theorem CopyOf.singleIn (h : CopyOf role component usage a b nodes a') (hp : component.page.Registered)
    (hchildren : SingleIn usage.children) : SingleIn nodes := by
  have htemplate : (idsIn (b.nodes usage.place.scope component.page.nodes)).Nodup := by
    rw [idsIn_rebinding]
    refine ((hp.perm.map b.id).nodup_iff).mpr ?_
    rw [h.map_id hp.nodup]
    exact Template.nodup_freshIds _ _
  rw [h.nodes]
  refine singleIn_marked _ _ _ (SlotContent.singleIn_fillAll _ ?_ _ (singleIn_of_nodup htemplate))
  exact (SlotContent.single_slotContent hchildren).forSlot?

theorem mem_children_of_mem_flatMap {name : String} {children : List Node}
    {keys : List (Option String)} {id : String}
    (h : id ∈ keys.flatMap (slotContent name children).idsFor) : id ∈ idsIn children := by
  obtain ⟨key, -, hid⟩ := List.mem_flatMap.mp h
  have hone := SlotContent.within_flatMap_idsFor (slotContent name children)
    (List.nodup_singleton key)
  rw [List.flatMap_singleton] at hone
  exact (SlotContent.within_slotContent name children).mem (hone.mem hid)

end PageCompiler.Component
