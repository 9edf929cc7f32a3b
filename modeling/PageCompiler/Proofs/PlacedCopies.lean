import PageCompiler.Proofs.CopiedIds
import PageCompiler.Proofs.Mentions
import PageCompiler.Proofs.PropBinding

/-!
# Templates that are placed, and copies of them

A template that is placed stays so when it is renamed for a use (`placed_rebinding`), when its slots are filled with
nodes that are placed at the use (`placed_fillAll`), when its roots get attributes of the use, and when it is put in
the place of the use (`exists_room`).
-/

namespace PageCompiler.Component

open Template

variable {known known' : List Expression} {around around' : List String}

variable {outer : Option LoopScope} {usage : String} {children ns : List Node}

/-! ## Renamed templates -/

theorem variablesOf_place_subset (b : Rebinding) {p : Place} (houter : LoopScope.variablesOf outer ⊆ around)
    (hp : LoopScope.variablesOf p.scope ⊆ around) : LoopScope.variablesOf (b.place outer p).scope ⊆ around := by
  have hvars : LoopScope.variablesOf (p.scope.map fun s => { s with source := s.source.map b.id }) =
      LoopScope.variablesOf p.scope := by
    cases p.scope <;> rfl
  intro name hname
  rw [Rebinding.place, Rebinding.scope, LoopScope.mem_variablesOf_nest, hvars] at hname
  rcases hname with hname | hname
  · exact houter hname
  · exact hp hname

/-- What becomes of known expressions at a use is among the copies, and no handler becomes `undefined`. -/
structure Rebinding.Carries (b : Rebinding) (outer : Option LoopScope) (known copies : List Expression) : Prop where
  copied : ∀ e ∈ known, ∃ copy ∈ copies, copy.id = b.id e.id ∧ copy.place = b.place outer e.place
  handlers : ∀ name, name ≠ "undefined" → b.handler name ≠ "undefined"

section

variable {b : Rebinding} {outer : Option LoopScope} (hb : b.Carries outer known known')

include hb

theorem Rebinding.Carries.holds {id : String} (houter : LoopScope.variablesOf outer ⊆ around')
    (haround : around ⊆ around') (h : (Mention.id around id).Holds known) :
    (Mention.id around' (b.id id)).Holds known' := by
  obtain ⟨e, he, rfl, hvars⟩ := h
  obtain ⟨copy, hcopy, hid, hplace⟩ := hb.copied e he
  refine ⟨copy, hcopy, hid, ?_⟩
  rw [hplace]
  exact variablesOf_place_subset b houter (List.Subset.trans hvars haround)

theorem Rebinding.Carries.attributes (houter : LoopScope.variablesOf outer ⊆ around') (haround : around ⊆ around')
    {as : List Attribute} (h : AttributesPlaced known around as) :
    AttributesPlaced known' around' (b.attributes outer as) := by
  intro a' ha'
  obtain ⟨a, ha, rfl⟩ := List.mem_map.mp ha'
  have hvalue := h a ha
  simp only
  cases hv : a.value with
  | fixed text => exact placed_fixed
  | expression id =>
    rw [hv] at hvalue
    exact placed_value.mpr (hb.holds houter haround (placed_value.mp hvalue))
  | handler name =>
    rw [hv] at hvalue
    exact placed_handler.mpr (hb.handlers name (placed_handler.mp hvalue))

end

variable {as : List Attribute}

/-- The renamed copy of a template is placed inside of all the loops that the use is noted to be in. -/
theorem placed_rebinding {b : Rebinding} (hb : b.Carries outer known known')
    (houter : LoopScope.variablesOf outer ⊆ around') (haround : around ⊆ around') (ns : List Node)
    (h : Placed known around ns) : Placed known' around' (b.nodes outer ns) := by
  induction ns using nodes_induction generalizing around around' with
  | nil => exact placed_nil
  | cons n ns hn hns =>
    obtain ⟨hfirst, hrest⟩ := placed_cons.mp h
    exact placed_cons.mpr ⟨hn houter haround hfirst, hns houter haround hrest⟩
  | element tag attributes children place ih =>
    obtain ⟨hattributes, hchildren⟩ := placed_element.mp h
    exact placed_element.mpr ⟨hb.attributes houter haround hattributes, ih houter haround hchildren⟩
  | text value place => exact placed_text
  | expression id place =>
    obtain ⟨hid, hplace⟩ := placed_expression.mp h
    exact placed_expression.mpr ⟨hb.holds houter haround hid,
      variablesOf_place_subset b houter (List.Subset.trans hplace haround)⟩
  | component name attributes children place ih =>
    obtain ⟨hplace, hattributes, hchildren⟩ := placed_component.mp h
    exact placed_component.mpr ⟨variablesOf_place_subset b houter (List.Subset.trans hplace haround),
      hb.attributes houter haround hattributes, ih houter haround hchildren⟩
  | slot name fallback place ih => exact placed_slot.mpr (ih houter haround (placed_slot.mp h))
  | choice condition yes no place hyes hno =>
    obtain ⟨hid, hinYes, hinNo⟩ := placed_choice.mp h
    exact placed_choice.mpr ⟨hb.holds houter haround hid, hyes houter haround hinYes, hno houter haround hinNo⟩
  | optional condition content place ih =>
    obtain ⟨hid, hcontent⟩ := placed_optional.mp h
    exact placed_optional.mpr ⟨hb.holds houter haround hid, ih houter haround hcontent⟩
  | loop source item index key body place ih =>
    obtain ⟨hid, hkey, hbody⟩ := placed_loop.mp h
    have hinside := inside_subset item index haround
    have houter' := List.Subset.trans houter (subset_inside item index)
    refine placed_loop.mpr ⟨hb.holds houter haround hid, ?_, ih houter' hinside hbody⟩
    intro id' hid'
    obtain ⟨id, hmem, rfl⟩ := Option.map_eq_some_iff.mp hid'
    exact hb.holds houter' hinside (hkey id hmem)
  | doctype name position => exact placed_doctype

/-! ## Slots -/

theorem attributesPlaced_takeSlot (h : AttributesPlaced known around as) :
    AttributesPlaced known around (takeSlot as).2 := by
  induction as with
  | nil => exact h
  | cons a as ih =>
    obtain ⟨ha, has⟩ := attributesPlaced_cons.mp h
    unfold takeSlot
    split
    · exact has
    · exact attributesPlaced_cons.mpr ⟨ha, ih has⟩

theorem placed_passedNodes {n : Node} (h : Placed known around [n]) :
    Placed known around (SlotContent.passedNodes usage n) := by
  unfold SlotContent.passedNodes
  split
  · obtain ⟨hplace, hattributes, hchildren⟩ := placed_component.mp h
    split
    · exact hchildren
    · exact placed_component.mpr ⟨hplace, attributesPlaced_takeSlot hattributes, hchildren⟩
  · obtain ⟨hattributes, hchildren⟩ := placed_element.mp h
    exact placed_element.mpr ⟨attributesPlaced_takeSlot hattributes, hchildren⟩
  · exact h

theorem placed_slotContent (h : Placed known around children) :
    (slotContent usage children).Each (Placed known around) := by
  refine SlotContent.each_slotContent placed_nil (fun hns hms => placed_append.mpr ⟨hns, hms⟩) fun n hn => ?_
  obtain ⟨before, after, rfl⟩ := List.append_of_mem hn
  rw [placed_append, placed_cons] at h
  exact placed_passedNodes h.2.1

/-- What is passed to slots stays placed in the slots, which may be inside of more loops than the use. -/
theorem placed_fillAll {c : SlotContent} (hc : c.Each (Placed known around))
    (haround : around ⊆ around') (ns : List Node) (h : Placed known around' ns) :
    Placed known around' (c.fillAll ns) := by
  induction ns using nodes_induction generalizing around' with
    simp only [SlotContent.fillAll, SlotContent.fill, List.append_nil] at *
  | slot name fallback place ih =>
    cases hslot : c.forSlot? name with
    | some nodes => exact placed_mono (.refl _) haround nodes (hc.forSlot? name nodes hslot)
    | none => exact ih haround (placed_slot.mp h)
  | cons n ns hn hns =>
    obtain ⟨hfirst, hrest⟩ := placed_cons.mp h
    exact placed_append.mpr ⟨hn haround hfirst, hns haround hrest⟩
  | element tag attributes children place ih =>
    obtain ⟨hattributes, hchildren⟩ := placed_element.mp h
    exact placed_element.mpr ⟨hattributes, ih haround hchildren⟩
  | component name attributes children place ih =>
    obtain ⟨hplace, hattributes, hchildren⟩ := placed_component.mp h
    exact placed_component.mpr ⟨hplace, hattributes, ih haround hchildren⟩
  | choice condition yes no place hyes hno =>
    obtain ⟨hid, hinYes, hinNo⟩ := placed_choice.mp h
    exact placed_choice.mpr ⟨hid, hyes haround hinYes, hno haround hinNo⟩
  | optional condition content place ih =>
    obtain ⟨hid, hcontent⟩ := placed_optional.mp h
    exact placed_optional.mpr ⟨hid, ih haround hcontent⟩
  | loop source item index key body place ih =>
    obtain ⟨hid, hkey, hbody⟩ := placed_loop.mp h
    exact placed_loop.mpr ⟨hid, hkey, ih (List.Subset.trans haround (subset_inside item index)) hbody⟩
  | _ => exact h

/-! ## Roots -/

theorem placed_map {f : Node → Node} (hf : ∀ n, Placed known around [n] → Placed known around [f n])
    (h : Placed known around ns) : Placed known around (ns.map f) := by
  induction ns with
  | nil => exact placed_nil
  | cons n ns ih =>
    obtain ⟨hn, hns⟩ := placed_cons.mp h
    exact placed_cons.mpr ⟨hf n hn, ih hns⟩

theorem placed_markRoot (name : String) (number : Nat) (n : Node) (h : Placed known around [n]) :
    Placed known around [markRoot name number n] := by
  unfold markRoot
  split
  · obtain ⟨hattributes, hchildren⟩ := placed_element.mp h
    refine placed_element.mpr ⟨?_, hchildren⟩
    intro a ha
    rcases List.mem_append.mp ha with hold | hmark
    · exact hattributes a (List.mem_filter.mp hold).1
    · obtain ⟨mark, -, rfl⟩ := List.mem_map.mp hmark
      exact placed_fixed
  · exact h

theorem placed_marked (role : Role) (name : String) (number : Nat) (h : Placed known around ns) :
    Placed known around (marked role name number ns) := by
  cases role with
  | component => exact placed_map (placed_markRoot name number) h
  | layout => exact h

theorem attributesPlaced_mergeAttribute {a : Attribute} (h : AttributesPlaced known around as)
    (ha : a.value.Placed known around) : AttributesPlaced known around (mergeAttribute as a) := by
  induction as with
  | nil => exact attributesPlaced_cons.mpr ⟨ha, h⟩
  | cons own rest ih =>
    obtain ⟨hown, hrest⟩ := attributesPlaced_cons.mp h
    rw [mergeAttribute]
    split
    · split
      · exact attributesPlaced_cons.mpr ⟨placed_fixed, hrest⟩
      · exact attributesPlaced_cons.mpr ⟨ha, hrest⟩
    · exact attributesPlaced_cons.mpr ⟨hown, ih hrest⟩

theorem attributesPlaced_foldl_mergeAttribute {found : List Attribute} (h : AttributesPlaced known around as)
    (hfound : AttributesPlaced known around found) : AttributesPlaced known around (found.foldl mergeAttribute as) := by
  induction found generalizing as with
  | nil => exact h
  | cons a found ih =>
    obtain ⟨ha, hrest⟩ := attributesPlaced_cons.mp hfound
    exact ih (attributesPlaced_mergeAttribute h ha) hrest

theorem placed_onSingleRoot {f : List Attribute → List Attribute}
    (hf : ∀ as, AttributesPlaced known around as → AttributesPlaced known around (f as)) (h : Placed known around ns) :
    Placed known around (onSingleRoot ns f) := by
  unfold onSingleRoot
  split
  · refine placed_map (fun n hn => ?_) h
    cases n with
    | element =>
      obtain ⟨hattributes, hchildren⟩ := placed_element.mp hn
      exact placed_element.mpr ⟨hf _ hattributes, hchildren⟩
    | _ => exact hn
  · exact h

/-! ## Replaced uses -/

/-- The nodes are placed inside of loops with the variables `inner`, and what is placed there can stand for them: the
result is then placed, whatever was added to the known expressions. -/
structure Room (known : List Expression) (around : List String) (put : List Node → List Node) (nodes : List Node)
    (inner : List String) : Prop where
  here : Placed known inner nodes
  put : ∀ {known' new}, known ⊆ known' → Placed known' inner new → Placed known' around (put new)

theorem exists_room_around (w : Wrapper) (h : Placed known around [w.around children]) :
    ∃ inner, Room known around (fun new => [w.around new]) children inner := by
  cases w with
  | element tag attributes place =>
    obtain ⟨hattributes, hchildren⟩ := placed_element.mp h
    exact ⟨around, hchildren, fun hknown hnew => placed_element.mpr ⟨hattributes.mono hknown (.refl _), hnew⟩⟩
  | component name attributes place =>
    obtain ⟨hplace, hattributes, hchildren⟩ := placed_component.mp h
    exact ⟨around, hchildren,
      fun hknown hnew => placed_component.mpr ⟨hplace, hattributes.mono hknown (.refl _), hnew⟩⟩
  | slot name place => exact ⟨around, placed_slot.mp h, fun _ hnew => placed_slot.mpr hnew⟩
  | chosen condition no place =>
    obtain ⟨hid, hyes, hno⟩ := placed_choice.mp h
    exact ⟨around, hyes, fun hknown hnew =>
      placed_choice.mpr ⟨holds_mono hknown (.refl _) hid, hnew, placed_mono hknown (.refl _) no hno⟩⟩
  | otherwise condition yes place =>
    obtain ⟨hid, hyes, hno⟩ := placed_choice.mp h
    exact ⟨around, hno, fun hknown hnew =>
      placed_choice.mpr ⟨holds_mono hknown (.refl _) hid, placed_mono hknown (.refl _) yes hyes, hnew⟩⟩
  | optional condition place =>
    obtain ⟨hid, hcontent⟩ := placed_optional.mp h
    exact ⟨around, hcontent, fun hknown hnew => placed_optional.mpr ⟨holds_mono hknown (.refl _) hid, hnew⟩⟩
  | loop source item index key place =>
    obtain ⟨hid, hkey, hbody⟩ := placed_loop.mp h
    exact ⟨inside item index around, hbody, fun hknown hnew => placed_loop.mpr ⟨holds_mono hknown (.refl _) hid,
      fun id hid => holds_mono hknown (.refl _) (hkey id hid), hnew⟩⟩

/-- What stands in the open place of a template that is placed has room for what replaces it. -/
theorem exists_room (o : Opening) {nodes : List Node} (h : Placed known around (o.put nodes)) :
    ∃ inner, Room known around (o.put ·) nodes inner := by
  induction o generalizing around with
  | here before after =>
    obtain ⟨hrest, hafter⟩ := placed_append.mp h
    obtain ⟨hbefore, hnodes⟩ := placed_append.mp hrest
    exact ⟨around, hnodes, fun hknown hnew => placed_append.mpr ⟨placed_append.mpr
      ⟨placed_mono hknown (.refl _) before hbefore, hnew⟩, placed_mono hknown (.refl _) after hafter⟩⟩
  | inside before w o after ih =>
    obtain ⟨hbefore, hrest⟩ := placed_append.mp h
    obtain ⟨hw, hafter⟩ := placed_cons.mp hrest
    obtain ⟨outer, houter⟩ := exists_room_around w hw
    obtain ⟨inner, hinner⟩ := ih houter.here
    exact ⟨inner, hinner.here, fun hknown hnew => placed_append.mpr ⟨placed_mono hknown (.refl _) before hbefore,
      placed_cons.mpr ⟨houter.put hknown (hinner.put hknown hnew), placed_mono hknown (.refl _) after hafter⟩⟩⟩

end PageCompiler.Component
