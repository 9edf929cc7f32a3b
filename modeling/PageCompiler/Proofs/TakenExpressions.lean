import PageCompiler.Proofs.CopiedIds
import PageCompiler.Proofs.ResolutionRun

/-!
# Expressions that are asked for

A use of a component takes the expressions of its props and of its event attributes out of the page.
`Sound` says what holds at every stage of a resolution: an id in the template is registered, or an
earlier use took its expression. `Exact` says what holds in addition as long as no slot is filled twice:
each id occurs once, and is registered.
-/

namespace PageCompiler.Component

open Template (Node Attribute idsIn attributeIds usagesIn expressionId freshIds)

variable {id : String} {a : Attribute} {usage : Usage} {component : Component}

variable {as : List Attribute} {role : Role} {copied : List Node}

/-! ## The ids of a use -/

theorem mem_attributeIds : id ∈ attributeIds as ↔ ∃ a ∈ as, a.value.id? = some id := by
  simp [attributeIds, List.mem_filterMap]

theorem eq_of_id? (h : (attributeIds as).Nodup) {b : Attribute} (ha : a ∈ as) (hb : b ∈ as)
    (hia : a.value.id? = some id) (hib : b.value.id? = some id) : a = b := by
  induction as with
  | nil => cases ha
  | cons c as ih =>
    rw [Template.attributeIds_cons] at h
    obtain ⟨-, hrest, hdisjoint⟩ := List.nodup_append'.mp h
    rcases List.mem_cons.mp ha with rfl | ha'
    · rcases List.mem_cons.mp hb with rfl | hb'
      · rfl
      · have hfirst : id ∈ a.value.id?.toList := by simp [hia]
        exact (hdisjoint hfirst (mem_attributeIds.mpr ⟨b, hb', hib⟩)).elim
    · rcases List.mem_cons.mp hb with rfl | hb'
      · have hfirst : id ∈ b.value.id?.toList := by simp [hib]
        exact (hdisjoint hfirst (mem_attributeIds.mpr ⟨a, ha', hia⟩)).elim
      · exact ih hrest ha' hb'

theorem boundId?_eq_some {prop : String} (h : boundId? usage prop = some id) :
    ∃ a ∈ usage.attributes, a.name = prop ∧ a.value.id? = some id := by
  obtain ⟨a, hfind, hid⟩ := Option.bind_eq_some_iff.mp h
  exact ⟨a, List.mem_of_find?_eq_some hfind, by simpa using List.find?_some hfind, hid⟩

theorem mem_boundIds {props : Ordered (Option String)} (h : id ∈ boundIds usage props) :
    ∃ a ∈ usage.attributes, a.name ∈ props.keys ∧ a.value.id? = some id := by
  obtain ⟨prop, hprop, hid⟩ := List.mem_filterMap.mp h
  obtain ⟨a, ha, hname, hvalue⟩ := boundId?_eq_some hid
  exact ⟨a, ha, hname ▸ List.mem_map_of_mem hprop, hvalue⟩

theorem mem_passedOn {props : List String} :
    a ∈ passedOn usage props ↔ a ∈ usage.attributes ∧ a.name ≠ "slot" ∧ a.name ∉ props := by
  simp [passedOn]

theorem givenAway?_eq_some (h : givenAway? a = some id) : a.value.id? = some id := by
  unfold givenAway? at h
  split at h
  · exact h
  · cases h

theorem mem_handedIds (h : id ∈ handedIds role component usage copied) :
    ∃ a ∈ passedOn usage component.props.keys, givenAway? a = some id := by
  unfold handedIds at h
  split at h
  · split at h
    · exact List.mem_filterMap.mp h
    · cases h
  · cases h

theorem boundIds_subset (usage : Usage) (props : Ordered (Option String)) :
    boundIds usage props ⊆ attributeIds usage.attributes := by
  intro id hid
  obtain ⟨a, ha, -, hvalue⟩ := mem_boundIds hid
  exact mem_attributeIds.mpr ⟨a, ha, hvalue⟩

theorem handedIds_subset (role : Role) (component : Component) (usage : Usage) (copied : List Node) :
    handedIds role component usage copied ⊆ attributeIds usage.attributes := by
  intro id hid
  obtain ⟨a, ha, haway⟩ := mem_handedIds hid
  exact mem_attributeIds.mpr ⟨a, (mem_passedOn.mp ha).1, givenAway?_eq_some haway⟩

theorem mem_keptIds (h : id ∈ keptIds component usage) :
    ∃ a ∈ passedOn usage component.props.keys, givenAway? a = none ∧ a.value.id? = some id := by
  obtain ⟨a, ha, hid⟩ := mem_attributeIds.mp h
  obtain ⟨ha, hnone⟩ := List.mem_filter.mp ha
  exact ⟨a, ha, Option.isNone_iff_eq_none.mp hnone, hid⟩

/-! ## What a step does to ids -/

variable {catalogs : Catalogs} {file : String} {s s' : Stage} {u : Use}

theorem IsNext.mem (h : IsNext catalogs file s u) : u.usage ∈ usagesIn s.nodes :=
  List.mem_of_find?_eq_some h.usage

theorem IsNext.sublist (h : IsNext catalogs file s u) :
    (attributeIds u.usage.attributes ++ idsIn u.usage.children).Sublist (idsIn s.nodes) :=
  sublist_of_mem_usagesIn s.nodes h.mem

theorem IsNext.mem_idsIn (h : IsNext catalogs file s u)
    (hid : id ∈ attributeIds u.usage.attributes) : id ∈ idsIn s.nodes :=
  h.sublist.subset (List.mem_append_left _ hid)

/-- What one replacement does to the ids of the page and of its template. -/
structure Moves (s : Stage) (u : Use) (s' : Stage) : Prop where
  steps : ∃ copied copy rest,
    (∀ id, id ∈ s'.parts.ids ↔ (id ∈ s.parts.ids ∧ id ∉ boundIds u.usage u.component.props ∨
      id ∈ freshIds s.parts.nextId u.component.page.expressions.length) ∧
      id ∉ handedIds u.role u.component u.usage copied) ∧
    (idsIn s.nodes).Perm
      (attributeIds u.usage.attributes ++ idsIn u.usage.children ++ rest) ∧
    (idsIn s'.nodes).Perm (copy ++ rest) ∧
    Within copy (freshIds s.parts.nextId u.component.page.expressions.length ++
      ((slotContent u.usage.name u.usage.children).reachedIn u.component.page.nodes).flatMap
        (slotContent u.usage.name u.usage.children).idsFor ++ keptIds u.component u.usage)
  nextId : s'.parts.nextId = s.parts.nextId + u.component.page.expressions.length
  single : SingleIn s.nodes → SingleIn s'.nodes

theorem Step.moves (hread : catalogs.AreRead) (h : Step catalogs file s u s') : Moves s u s' := by
  have hp := hread.registered (knows_of_nextTarget h.next.target)
  obtain ⟨copy, hinline, hreplace⟩ := h.replaced
  obtain ⟨b, copied, a₁, hcopy, htakes, hrooted, -⟩ := (builds_inline hinline).steps
  have hreplaced := replaced_of_find? h.next.usage hreplace
  obtain ⟨rest, hold, hnew⟩ := hreplaced.ids
  refine ⟨⟨copied, idsIn copy, rest, ?_, hold, hnew, ?_⟩, ?_, ?_⟩
  · intro id
    rw [htakes.mem_ids, hcopy.ids_eq hp.nodup, List.mem_append, List.mem_filter]
    simp only [List.contains_eq_mem, Bool.not_eq_true', decide_eq_false_iff_not]
  · exact hrooted.within.trans ((hcopy.within hp).append (.refl _))
  · rw [htakes.nextId, hcopy.nextId]
  · intro hs
    have hchildren := singleIn_children_of_memIn s.nodes h.next.mem hs
    exact hreplaced.single hs (hrooted.singleIn (hcopy.singleIn hp hchildren))

/-! ## Every stage -/

/-- What holds at a stage, when the expressions with the ids in `taken` were taken before. -/
structure Sound (taken : List String) (s : Stage) : Prop where
  distinct : s.parts.Distinct
  /-- An id in the template is registered, or its expression was taken. -/
  covered : ∀ id ∈ idsIn s.nodes, id ∈ s.parts.ids ∨ id ∈ taken
  /-- What was taken never comes back. -/
  gone : ∀ id ∈ taken, id ∉ s.parts.ids
  below : ∀ id ∈ taken, ∃ i, i < s.parts.nextId ∧ id = expressionId i
  single : SingleIn s.nodes

variable {taken : List String}

theorem Sound.lt (h : Sound taken s) (hid : id ∈ idsIn s.nodes) :
    ∃ i, i < s.parts.nextId ∧ id = expressionId i := by
  rcases h.covered id hid with hid | hid
  · exact h.distinct.below id hid
  · exact h.below id hid

theorem Sound.notMem_freshIds (h : Sound taken s) (hid : id ∈ idsIn s.nodes) (k : Nat) :
    id ∉ freshIds s.parts.nextId k := by
  intro hfresh
  obtain ⟨i, hi, rfl⟩ := h.lt hid
  obtain ⟨j, hj, -, heq⟩ := Template.mem_freshIds.mp hfresh
  have := Template.expressionId_injective heq
  omega

theorem mem_lost : id ∈ s.lost s' ↔ id ∈ s.parts.ids ∧ id ∉ s'.parts.ids := by
  simp [Stage.lost]

theorem Moves.mem_idsIn (h : Moves s u s') (hid : id ∈ idsIn s'.nodes) :
    id ∈ freshIds s.parts.nextId u.component.page.expressions.length ∨ id ∈ idsIn s.nodes := by
  obtain ⟨copied, copy, rest, -, hold, hnew, hwithin⟩ := h.steps
  rcases List.mem_append.mp (hnew.subset hid) with hid | hid
  · rcases List.mem_append.mp (hwithin.mem hid) with hid | hid
    · rcases List.mem_append.mp hid with hid | hid
      · exact .inl hid
      · refine .inr (hold.symm.subset ?_)
        simp [mem_children_of_mem_flatMap hid]
    · obtain ⟨a, ha, -, hvalue⟩ := mem_keptIds hid
      refine .inr (hold.symm.subset ?_)
      simp [mem_attributeIds.mpr ⟨a, (mem_passedOn.mp ha).1, hvalue⟩]
  · refine .inr (hold.symm.subset ?_)
    simp [hid]

theorem Step.sound (hread : catalogs.AreRead) (h : Step catalogs file s u s') (hs : Sound taken s) :
    Sound (taken ++ s.lost s') s' := by
  have hmoves := h.moves hread
  obtain ⟨copied, copy, rest, hmem, -, -, -⟩ := hmoves.steps
  have hhanded : ∀ id ∈ handedIds u.role u.component u.usage copied, id ∈ idsIn s.nodes :=
    fun id hid => h.next.mem_idsIn (handedIds_subset _ _ _ _ hid)
  refine ⟨h.distinct hread hs.distinct, ?_, ?_, ?_, hmoves.single hs.single⟩
  · intro id hid
    rcases hmoves.mem_idsIn hid with hfresh | hold
    · refine .inl ((hmem id).mpr ⟨.inr hfresh, fun hhand => ?_⟩)
      exact hs.notMem_freshIds (hhanded id hhand) _ hfresh
    · by_cases hthere : id ∈ s'.parts.ids
      · exact .inl hthere
      · rcases hs.covered id hold with hid | hid
        · exact .inr (List.mem_append_right _ (mem_lost.mpr ⟨hid, hthere⟩))
        · exact .inr (List.mem_append_left _ hid)
  · intro id hid hthere
    rcases List.mem_append.mp hid with hid | hid
    · rcases (hmem id).mp hthere with ⟨⟨hold, -⟩ | hfresh, -⟩
      · exact hs.gone id hid hold
      · obtain ⟨i, hi, rfl⟩ := hs.below id hid
        obtain ⟨j, hj, -, heq⟩ := Template.mem_freshIds.mp hfresh
        have := Template.expressionId_injective heq
        omega
    · exact (mem_lost.mp hid).2 hthere
  · intro id hid
    rw [hmoves.nextId]
    rcases List.mem_append.mp hid with hid | hid
    · obtain ⟨i, hi, rfl⟩ := hs.below id hid
      exact ⟨i, by omega, rfl⟩
    · obtain ⟨i, hi, rfl⟩ := hs.distinct.below id (mem_lost.mp hid).1
      exact ⟨i, by omega, rfl⟩

theorem Run.sound (hread : catalogs.AreRead) {n : Nat} {later : List String}
    (h : Run catalogs file s n later s') (hs : Sound taken s) : Sound (taken ++ later) s' := by
  induction h generalizing taken with
  | done s =>
    rw [List.append_nil]
    exact hs
  | step hstep _ ih =>
    rw [← List.append_assoc]
    exact ih (hstep.sound hread hs)

theorem sound_ofPage {p : Page} (h : p.Registered) : Sound [] (.ofPage p) where
  distinct := distinct_ofPage h
  covered := fun _ hid => .inl (h.perm.subset hid)
  gone := by simp
  below := by simp
  single := singleIn_of_nodup (h.perm.nodup_iff.mpr h.nodup)

/-! ## Stages without copies -/

/-- Each id in the template occurs once and is registered. -/
structure Exact (s : Stage) : Prop where
  nodup : (idsIn s.nodes).Nodup
  covered : ∀ id ∈ idsIn s.nodes, id ∈ s.parts.ids

theorem sublist_keptIds (component : Component) (usage : Usage) :
    (keptIds component usage).Sublist (attributeIds usage.attributes) :=
  (List.filter_sublist.trans List.filter_sublist).filterMap _

theorem notMem_of_mem_keptIds (h : (attributeIds usage.attributes).Nodup)
    (hid : id ∈ keptIds component usage) :
    id ∉ boundIds usage component.props ∧ id ∉ handedIds role component usage copied := by
  obtain ⟨a, ha, hnone, hvalue⟩ := mem_keptIds hid
  obtain ⟨hmem, -, hname⟩ := mem_passedOn.mp ha
  constructor
  · intro hbound
    obtain ⟨b, hb, hprop, hvalue'⟩ := mem_boundIds hbound
    obtain rfl := eq_of_id? h hmem hb hvalue hvalue'
    exact hname hprop
  · intro hhanded
    obtain ⟨b, hb, haway⟩ := mem_handedIds hhanded
    obtain rfl := eq_of_id? h hmem (mem_passedOn.mp hb).1 hvalue (givenAway?_eq_some haway)
    rw [hnone] at haway
    cases haway

/-- A replacement by a component whose slots are distinct keeps a stage exact. -/
theorem Step.exact (hread : catalogs.AreRead) (h : Step catalogs file s u s') (hs : Sound taken s)
    (hslots : (slotKeys u.component).Nodup) (hexact : Exact s) : Exact s' := by
  have hmoves := h.moves hread
  obtain ⟨copied, copy, rest, hmem, hold, hnew, hwithin⟩ := hmoves.steps
  -- the children of the use are copied once
  have hreached : ((slotContent u.usage.name u.usage.children).reachedIn
      u.component.page.nodes).Nodup := hslots.sublist (SlotContent.sublist_reachedIn _ _)
  have hchildren := (SlotContent.within_flatMap_idsFor
    (slotContent u.usage.name u.usage.children) hreached).trans
    (SlotContent.within_slotContent u.usage.name u.usage.children)
  have hcopy := hwithin.trans (((Within.refl _).append hchildren).append (.refl _))
  have hnodup := hold.nodup_iff.mp hexact.nodup
  have hown : (attributeIds u.usage.attributes).Nodup :=
    (List.nodup_append'.mp (List.nodup_append'.mp hnodup).1).1
  have hall : Within (idsIn s'.nodes)
      (freshIds s.parts.nextId u.component.page.expressions.length ++
        (keptIds u.component u.usage ++ idsIn u.usage.children ++ rest)) := by
    intro id
    have hle := hcopy id
    have heq := hnew.count_eq id
    simp only [List.count_append] at hle heq ⊢
    omega
  have hkept : (keptIds u.component u.usage ++ idsIn u.usage.children ++ rest).Sublist
      (attributeIds u.usage.attributes ++ idsIn u.usage.children ++ rest) :=
    ((sublist_keptIds _ _).append (.refl _)).append (.refl _)
  have hthere : ∀ id ∈ keptIds u.component u.usage ++ idsIn u.usage.children ++ rest,
      id ∈ idsIn s.nodes := fun id hid => hold.symm.subset (hkept.subset hid)
  refine ⟨hall.nodup ?_, ?_⟩
  · refine (Template.nodup_freshIds _ _).append (hnodup.sublist hkept) ?_
    intro id hfresh hid
    exact hs.notMem_freshIds (hthere id hid) _ hfresh
  · intro id hid
    rw [hmem]
    rcases List.mem_append.mp (hall.mem hid) with hfresh | hid
    · refine ⟨.inr hfresh, fun hhanded => ?_⟩
      have hattr := handedIds_subset _ _ _ _ hhanded
      exact hs.notMem_freshIds (hold.symm.subset (by simp [hattr])) _ hfresh
    · have hregistered := hexact.covered id (hthere id hid)
      have hfree : id ∉ boundIds u.usage u.component.props ∧
          id ∉ handedIds u.role u.component u.usage copied := by
        rw [List.append_assoc] at hid
        rcases List.mem_append.mp hid with hid | hid
        · exact notMem_of_mem_keptIds hown hid
        · rw [List.append_assoc] at hnodup
          have hdisjoint := (List.nodup_append'.mp hnodup).2.2
          exact ⟨fun hbound => hdisjoint (boundIds_subset _ _ hbound) hid,
            fun hhanded => hdisjoint (handedIds_subset _ _ _ _ hhanded) hid⟩
      exact ⟨.inl ⟨hregistered, hfree.1⟩, hfree.2⟩

end PageCompiler.Component
