import Mathlib.Data.Option.Basic
import PageCompiler.Proofs.BlockOffsets
import PageCompiler.Proofs.SlotFilling

/-!
# What slots show

Each child of a use passes nodes to a slot: itself, or, if its name makes it a part of the used component, what is inside
of it (`Passes`). Filling a template replaces each slot by what is passed to it or by its fallback, filled in turn, and
keeps every other node (`FilledAs`). If no slot is missing, nothing is lost: what a child passes stands, whole and in the
order of the children, at every slot of its name that is reached, and there is such a slot (`filled_loses_nothing`).
-/

namespace PageCompiler

namespace Component

open Template (Node Attribute Place Wrapper Opening hasSlotIn)
open SlotContent (slotKey)

variable {ps : List Passing} {slot : Option String} {nodes : List Node}

/-! ## Where children go -/

/-- By its name, in any case of letters, the child is a part of its parent: `Card.Header` is the part `header` of a
`Card`. -/
def IsPart (child parent slot : String) : Prop :=
  ∃ lead part, child.toList = lead ++ '.' :: part ∧ part ≠ [] ∧
    lead.map Char.toLower = parent.toList.map Char.toLower ∧ slot = String.ofList (Text.lower part)

theorem compoundSlot?_eq_some_iff {child parent slot : String} :
    compoundSlot? child parent = some slot ↔ IsPart child parent slot := by
  constructor
  · intro h
    obtain ⟨_, hboundary, h⟩ := Option.bind_eq_some_iff.mp h
    obtain ⟨_, hsame, h⟩ := Option.bind_eq_some_iff.mp h
    obtain ⟨lead, rest, hchild, hsize⟩ := Text.isBoundary_iff.mp ((Option.guard_eq_some' _).mp hboundary)
    have hlower := beq_iff_eq.mp ((Option.guard_eq_some' _).mp hsame)
    rw [hchild, ← hsize, Text.takeBytes_append, lowerAscii, lowerAscii, String.ofList_inj, String.toList_ofList] at hlower
    rw [hchild, ← hsize, Text.dropBytes_append] at h
    split at h
    · rename_i c part
      cases h
      exact ⟨lead, c :: part, hchild, List.cons_ne_nil _ _, hlower, rfl⟩
    · cases h
  · rintro ⟨lead, part, hchild, hpart, hlower, rfl⟩
    obtain ⟨c, part, rfl⟩ := List.exists_cons_of_ne_nil hpart
    -- letters keep their size in lower case
    have hsize : parent.utf8ByteSize = Text.byteLength lead := by
      rw [← Text.byteLength_toList, ← Markup.byteLength_map_toLower, ← hlower, Markup.byteLength_map_toLower]
    have hboundary : Text.isBoundary (Text.byteLength lead) (lead ++ '.' :: c :: part) = true :=
      Text.isBoundary_iff.mpr ⟨lead, _, rfl, rfl⟩
    have hsame : lowerAscii (String.ofList lead) = lowerAscii parent := by
      rw [lowerAscii, lowerAscii, String.toList_ofList, hlower]
    unfold compoundSlot?
    simp only [hchild, hsize, Text.takeBytes_append, Text.dropBytes_append]
    rw [(Option.guard_eq_some' ()).mpr hboundary, (Option.guard_eq_some' ()).mpr (beq_iff_eq.mpr hsame)]
    rfl

def slotText? (a : Attribute) : Option String :=
  match a.value with
  | .fixed text => if a.name = "slot" then some text else none
  | _ => none

def withoutSlot (attributes : List Attribute) : List Attribute :=
  attributes.eraseP fun a => (slotText? a).isSome

theorem takeSlot_eq (attributes : List Attribute) :
    takeSlot attributes = ((attributes.findSome? slotText?).map lowerString, withoutSlot attributes) := by
  induction attributes with
  | nil => rfl
  | cons a attributes ih =>
    rw [takeSlot, List.findSome?_cons, withoutSlot, List.eraseP_cons]
    split
    · rename_i name hname hvalue
      have htext : slotText? a = some name := by
        rw [slotText?, hvalue]
        exact if_pos (by simpa using hname)
      simp [htext]
    · rename_i hother
      have htext : slotText? a = none := by
        unfold slotText?
        split
        · rename_i text hvalue
          exact if_neg fun hname => hother text (by simpa using hname) hvalue
        · rfl
      simp [htext, ih, withoutSlot]

/-- What one child of a use passes: nodes, and the slot to which they go. The default slot has no name. -/
structure Passing where
  slot : Option String
  nodes : List Node

def hasAttributes : Node → Bool
  | .element .. => true
  | .component .. => true
  | _ => false

/-- What a child passes to which slot, in the use of a component with the given name. -/
inductive Passes (usage : String) : Node → Passing → Prop
  | part {name slot : String} {attributes : List Attribute} {children : List Node} {place : Place} :
      IsPart name usage slot → Passes usage (.component name attributes children place) ⟨some slot, children⟩
  | component {name : String} {attributes : List Attribute} {children : List Node} {place : Place} :
      (∀ slot, ¬ IsPart name usage slot) →
      Passes usage (.component name attributes children place)
        ⟨slotKey (attributes.findSome? slotText?), [.component name (withoutSlot attributes) children place]⟩
  | element {tag : String} {attributes : List Attribute} {children : List Node} {place : Place} :
      Passes usage (.element tag attributes children place)
        ⟨slotKey (attributes.findSome? slotText?), [.element tag (withoutSlot attributes) children place]⟩
  | other {n : Node} : hasAttributes n = false → Passes usage n ⟨none, [n]⟩

theorem exists_passes (usage : String) (n : Node) : ∃ p, Passes usage n p := by
  cases n with
  | component name attributes children place =>
    by_cases hpart : ∃ slot, IsPart name usage slot
    · obtain ⟨slot, hslot⟩ := hpart
      exact ⟨_, .part hslot⟩
    · exact ⟨_, .component fun slot hslot => hpart ⟨slot, hslot⟩⟩
  | element tag attributes children place => exact ⟨_, .element⟩
  | _ => exact ⟨_, .other rfl⟩

/-- What goes to a slot, in the order of the children. -/
def contentFor (ps : List Passing) (slot : Option String) : List Node :=
  ps.flatMap fun p => if p.slot = slot then p.nodes else []

/-- What a slot shows in the place of its fallback. To the default slot something must be passed that is not blank. -/
def shownIn (ps : List Passing) : Option String → Option (List Node)
  | some slot => if some slot ∈ ps.map (·.slot) then some (contentFor ps (some slot)) else none
  | none => if (contentFor ps none).any (!·.isBlank) then some (contentFor ps none) else none

theorem contentFor_append (ps qs : List Passing) (slot : Option String) :
    contentFor (ps ++ qs) slot = contentFor ps slot ++ contentFor qs slot :=
  List.flatMap_append

theorem contentFor_singleton (p : Passing) (slot : Option String) :
    contentFor [p] slot = if p.slot = slot then p.nodes else [] := by
  simp [contentFor]

theorem contentFor_eq_nil (h : slot ∉ ps.map (·.slot)) : contentFor ps slot = [] := by
  rw [contentFor, List.flatMap_eq_nil_iff]
  intro p hp
  exact if_neg fun heq => h (List.mem_map.mpr ⟨p, hp, heq⟩)

namespace SlotContent

/-- The content of the slots is what the children pass. -/
structure Holds (c : SlotContent) (ps : List Passing) : Prop where
  unnamed : c.unnamed = contentFor ps none
  named : ∀ slot, c.named.get? slot =
    if some slot ∈ ps.map (·.slot) then some (contentFor ps (some slot)) else none

variable {c : SlotContent} {ps : List Passing} {usage : String}

theorem Holds.getD (h : c.Holds ps) (slot : String) : (c.named.get? slot).getD [] = contentFor ps (some slot) := by
  rw [h.named]
  split
  · rfl
  · rename_i hout
    rw [contentFor_eq_nil hout]
    rfl

theorem Holds.insert (h : c.Holds ps) (slot : String) (nodes : List Node) :
    Holds { c with named := c.named.insert slot ((c.named.get? slot).getD [] ++ nodes) } (ps ++ [⟨some slot, nodes⟩]) where
  unnamed := by rw [contentFor_append, contentFor_singleton, if_neg nofun, List.append_nil, h.unnamed]
  named := by
    intro other
    simp only [List.map_append, List.mem_append, contentFor_append, contentFor_singleton, List.map_singleton,
      List.mem_singleton, Option.some.injEq]
    by_cases hother : other = slot
    · subst hother
      rw [Ordered.get?_insert_self, h.getD, if_pos (.inr rfl), if_pos rfl]
    · rw [Ordered.get?_insert_of_ne hother, h.named, if_neg (Ne.symm hother), List.append_nil]
      simp only [hother, or_false]

theorem Holds.add (h : c.Holds ps) (slot : Option String) (nodes : List Node) :
    (c.add slot nodes).Holds (ps ++ [⟨slot.filter (· != "default"), nodes⟩]) := by
  unfold SlotContent.add
  split
  · rename_i name hname
    rw [hname]
    exact h.insert name nodes
  · rename_i hname
    rw [hname]
    refine ⟨?_, fun other => ?_⟩
    · rw [contentFor_append, contentFor_singleton, if_pos rfl, ← h.unnamed]
    · rw [h.named, contentFor_append, contentFor_singleton]
      simp

theorem Holds.addChild (h : c.Holds ps) {n : Node} {p : Passing} (hp : Passes usage n p) :
    (c.addChild usage n).Holds (ps ++ [p]) := by
  cases hp with
  | part hpart =>
    rw [SlotContent.addChild, compoundSlot?_eq_some_iff.mpr hpart]
    exact h.insert _ _
  | @component name attributes children place hpart =>
    have hnone : compoundSlot? name usage = none := by
      rw [Option.eq_none_iff_forall_ne_some]
      exact fun slot hslot => hpart slot (compoundSlot?_eq_some_iff.mp hslot)
    rw [SlotContent.addChild, hnone, takeSlot_eq]
    exact h.add _ _
  | element =>
    rw [SlotContent.addChild, takeSlot_eq]
    exact h.add _ _
  | @other n hn =>
    cases n with
    | element | component => cases hn
    | _ => exact h.add none _

theorem holds_slotContent {children : List Node} (hps : List.Forall₂ (Passes usage) children ps) :
    (slotContent usage children).Holds ps := by
  have hfold : ∀ (c : SlotContent) (earlier : List Passing), c.Holds earlier →
      (children.foldl (SlotContent.addChild usage) c).Holds (earlier ++ ps) := by
    induction hps with
    | nil =>
      intro c earlier hc
      rwa [List.append_nil]
    | @cons n p children ps hp _ ih =>
      intro c earlier hc
      rw [List.foldl_cons, List.append_cons]
      exact ih _ _ (hc.addChild hp)
  exact hfold {} [] ⟨rfl, fun _ => rfl⟩

/-- What a slot shows in the place of its fallback. -/
def given (c : SlotContent) : Option String → Option (List Node)
  | some key => c.named.get? key
  | none => if c.hasUnnamed then some c.unnamed else none

theorem forSlot?_eq (c : SlotContent) (name : Option String) : c.forSlot? name = c.given (slotKey name) := by
  rw [forSlot?]
  cases slotKey name <;> rfl

theorem Holds.given_eq (h : c.Holds ps) : c.given = shownIn ps := by
  funext slot
  cases slot with
  | some slot => exact h.named slot
  | none => rw [given, shownIn, hasUnnamed, h.unnamed]

end SlotContent

/-! ## Filled templates -/

/-- The nodes are the template with its slots filled. A slot to which something is given is replaced by that, any other
slot by its fallback, filled in turn; every other node stays, and what is inside of it is filled. -/
inductive FilledAs (given : Option String → Option (List Node)) : List Node → List Node → Prop
  | nil : FilledAs given [] []
  | passed {name : Option String} {fallback nodes rest out : List Node} {place : Place} :
      given (slotKey name) = some nodes → FilledAs given rest out →
      FilledAs given (.slot name fallback place :: rest) (nodes ++ out)
  | fallback {name : Option String} {fallback shown rest out : List Node} {place : Place} :
      given (slotKey name) = none → FilledAs given fallback shown → FilledAs given rest out →
      FilledAs given (.slot name fallback place :: rest) (shown ++ out)
  | element {tag : String} {attributes : List Attribute} {children filled rest out : List Node} {place : Place} :
      FilledAs given children filled → FilledAs given rest out →
      FilledAs given (.element tag attributes children place :: rest) (.element tag attributes filled place :: out)
  | component {name : String} {attributes : List Attribute} {children filled rest out : List Node} {place : Place} :
      FilledAs given children filled → FilledAs given rest out →
      FilledAs given (.component name attributes children place :: rest) (.component name attributes filled place :: out)
  | choice {condition : String} {yes no filledYes filledNo rest out : List Node} {place : Place} :
      FilledAs given yes filledYes → FilledAs given no filledNo → FilledAs given rest out →
      FilledAs given (.choice condition yes no place :: rest) (.choice condition filledYes filledNo place :: out)
  | optional {condition : String} {content filled rest out : List Node} {place : Place} :
      FilledAs given content filled → FilledAs given rest out →
      FilledAs given (.optional condition content place :: rest) (.optional condition filled place :: out)
  | loop {source item : String} {index key : Option String} {body filled rest out : List Node} {place : Place} :
      FilledAs given body filled → FilledAs given rest out →
      FilledAs given (.loop source item index key body place :: rest) (.loop source item index key filled place :: out)
  | text {value : String} {place : Place} {rest out : List Node} :
      FilledAs given rest out → FilledAs given (.text value place :: rest) (.text value place :: out)
  | expression {id : String} {place : Place} {rest out : List Node} :
      FilledAs given rest out → FilledAs given (.expression id place :: rest) (.expression id place :: out)
  | doctype {name : String} {position : Position} {rest out : List Node} :
      FilledAs given rest out → FilledAs given (.doctype name position :: rest) (.doctype name position :: out)

namespace FilledAs

variable {given : Option String → Option (List Node)} {ns ms out out' : List Node}

theorem append (h : FilledAs given ns out) (h' : FilledAs given ms out') :
    FilledAs given (ns ++ ms) (out ++ out') := by
  induction h with
  | nil => exact h'
  | passed hgiven _ ih =>
    rw [List.append_assoc]
    exact .passed hgiven ih
  | fallback hgiven hfallback _ _ ih =>
    rw [List.append_assoc]
    exact .fallback hgiven hfallback ih
  | element hchildren _ _ ih => exact .element hchildren ih
  | component hchildren _ _ ih => exact .component hchildren ih
  | choice hyes hno _ _ _ ih => exact .choice hyes hno ih
  | optional hcontent _ _ ih => exact .optional hcontent ih
  | loop hbody _ _ ih => exact .loop hbody ih
  | text _ ih => exact .text ih
  | expression _ ih => exact .expression ih
  | doctype _ ih => exact .doctype ih

theorem fillAll (c : SlotContent) (ns : List Node) : FilledAs c.given ns (c.fillAll ns) := by
  induction ns using Template.nodes_induction with
    simp only [SlotContent.fillAll, SlotContent.fill, List.append_nil] at *
  | nil => exact .nil
  | cons n ns hn hns => exact hn.append hns
  | slot name inside place ih =>
    rw [SlotContent.forSlot?_eq]
    cases hgiven : c.given (slotKey name) with
    | some nodes => simpa using FilledAs.passed hgiven .nil
    | none => simpa using FilledAs.fallback hgiven ih .nil
  | element tag attributes children place ih => exact .element ih .nil
  | component name attributes children place ih => exact .component ih .nil
  | choice condition yes no place hyes hno => exact .choice hyes hno .nil
  | optional condition inside place ih => exact .optional ih .nil
  | loop source item index key body place ih => exact .loop ih .nil
  | text value place => exact .text .nil
  | expression id place => exact .expression .nil
  | doctype name position => exact .doctype .nil

theorem eq_fillAll {c : SlotContent} (h : FilledAs c.given ns out) : out = c.fillAll ns := by
  induction h with
  | _ => simp_all [SlotContent.fillAll, SlotContent.fill, SlotContent.forSlot?_eq]

end FilledAs

/-! ## Slots that are reached -/

def Reached (given : Option String → Option (List Node)) : Opening → Prop
  | .here _ _ => True
  | .inside _ wrapper opening _ =>
    (∀ name place, wrapper = .slot name place → given (slotKey name) = none) ∧ Reached given opening

/-- A slot with that key stands at the opening of the template, and is reached. -/
def MarkerAt (given : Option String → Option (List Node)) (template : List Node) (key : Option String) (o : Opening) :
    Prop :=
  Reached given o ∧ ∃ name fallback place, slotKey name = key ∧ template = o.put [.slot name fallback place]

/-- The second opening is the first one with everything around it filled. -/
def FilledAround (given : Option String → Option (List Node)) (o o' : Opening) : Prop :=
  ∀ inner inner', FilledAs given inner inner' → FilledAs given (o.put inner) (o'.put inner')

section

variable {given : Option String → Option (List Node)} {template : List Node} {key : Option String} {o : Opening}

theorem MarkerAt.inside (h : MarkerAt given template key o) (w : Wrapper)
    (hw : ∀ name place, w = .slot name place → given (slotKey name) = none) :
    MarkerAt given [w.around template] key (.inside [] w o []) := by
  obtain ⟨hreached, name, fallback, place, hkey, rfl⟩ := h
  exact ⟨⟨hw, hreached⟩, name, fallback, place, hkey, rfl⟩

theorem MarkerAt.widen (h : MarkerAt given template key o) (first last : List Node) :
    MarkerAt given (first ++ template ++ last) key (o.widen first last) := by
  obtain ⟨hreached, name, fallback, place, hkey, rfl⟩ := h
  refine ⟨?_, name, fallback, place, hkey, (Opening.put_widen ..).symm⟩
  cases o with
  | here => trivial
  | inside => exact hreached

theorem exists_markerAt (c : SlotContent) (ns : List Node) (h : key ∈ c.reachedIn ns) :
    ∃ o, MarkerAt c.given ns key o := by
  induction ns using Template.nodes_induction with
    simp only [SlotContent.reachedIn, SlotContent.reached, List.append_nil] at *
  | cons n ns hn hns =>
    rcases List.mem_append.mp h with h | h
    · obtain ⟨o, ho⟩ := hn h
      exact ⟨_, ho.widen [] ns⟩
    · obtain ⟨o, ho⟩ := hns h
      have hwide := ho.widen [n] []
      rw [List.append_nil, List.singleton_append] at hwide
      exact ⟨_, hwide⟩
  | slot name fallback place ih =>
    rw [SlotContent.forSlot?_eq] at h
    rcases List.mem_cons.mp h with hkey | h
    · exact ⟨.here [] [], trivial, name, fallback, place, hkey.symm, rfl⟩
    · cases hgiven : c.given (slotKey name) with rw [hgiven] at h
      | some nodes => cases h
      | none =>
        obtain ⟨o, ho⟩ := ih h
        refine ⟨_, ho.inside (.slot name place) ?_⟩
        rintro name' place' ⟨⟩
        exact hgiven
  | element tag attributes children place ih =>
    obtain ⟨o, ho⟩ := ih h
    exact ⟨_, ho.inside (.element tag attributes place) (by simp)⟩
  | component name attributes children place ih =>
    obtain ⟨o, ho⟩ := ih h
    exact ⟨_, ho.inside (.component name attributes place) (by simp)⟩
  | choice condition yes no place hyes hno =>
    rcases List.mem_append.mp h with h | h
    · obtain ⟨o, ho⟩ := hyes h
      exact ⟨_, ho.inside (.chosen condition no place) (by simp)⟩
    · obtain ⟨o, ho⟩ := hno h
      exact ⟨_, ho.inside (.otherwise condition yes place) (by simp)⟩
  | optional condition inside place ih =>
    obtain ⟨o, ho⟩ := ih h
    exact ⟨_, ho.inside (.optional condition place) (by simp)⟩
  | loop source item index key body place ih =>
    obtain ⟨o, ho⟩ := ih h
    exact ⟨_, ho.inside (.loop source item index key place) (by simp)⟩
  | _ => cases h

theorem exists_filledAround (hfill : ∀ ns, ∃ out, FilledAs given ns out) (h : Reached given o) :
    ∃ o', FilledAround given o o' := by
  induction o with
  | here before after =>
    obtain ⟨before', hbefore⟩ := hfill before
    obtain ⟨after', hafter⟩ := hfill after
    exact ⟨.here before' after', fun inner inner' hinner => (hbefore.append hinner).append hafter⟩
  | inside before wrapper opening after ih =>
    obtain ⟨hslot, hreached⟩ := h
    obtain ⟨o', ho'⟩ := ih hreached
    obtain ⟨before', hbefore⟩ := hfill before
    obtain ⟨after', hafter⟩ := hfill after
    -- any other node stays around the opening; a slot gives way to its fallback
    have hstays : ∀ w' : Wrapper, (∀ ns ns' rest out, FilledAs given ns ns' → FilledAs given rest out →
        FilledAs given (wrapper.around ns :: rest) (w'.around ns' :: out)) →
        ∃ o', FilledAround given (.inside before wrapper opening after) o' := fun w' hw' =>
      ⟨.inside before' w' o' after', fun inner inner' hinner =>
        hbefore.append (hw' _ _ _ _ (ho' inner inner' hinner) hafter)⟩
    cases wrapper with
    | element tag attributes place => exact hstays (.element tag attributes place) fun _ _ _ _ => .element
    | component name attributes place => exact hstays (.component name attributes place) fun _ _ _ _ => .component
    | chosen condition no place =>
      obtain ⟨no', hno⟩ := hfill no
      exact hstays (.chosen condition no' place) fun _ _ _ _ hyes => .choice hyes hno
    | otherwise condition yes place =>
      obtain ⟨yes', hyes⟩ := hfill yes
      exact hstays (.otherwise condition yes' place) fun _ _ _ _ => .choice hyes
    | optional condition place => exact hstays (.optional condition place) fun _ _ _ _ => .optional
    | loop source item index key place => exact hstays (.loop source item index key place) fun _ _ _ _ => .loop
    | slot name place =>
      refine ⟨o'.widen before' after', fun inner inner' hinner => ?_⟩
      rw [Opening.put_widen, List.append_assoc]
      exact hbefore.append (.fallback (hslot name place rfl) (ho' inner inner' hinner) hafter)

end

/-! ## Nothing is lost -/

theorem exists_markerAt_of_unmatched? {c : SlotContent} {template : List Node} (h : c.unmatched? template = none)
    {key : Option String} (hgiven : c.given key = some nodes) : ∃ o, MarkerAt c.given template key o := by
  refine exists_markerAt c template ?_
  simp only [SlotContent.unmatched?] at h
  split at h
  · cases h
  · rename_i hnamed
    cases key with
    | some key =>
      have hkey : key ∈ c.named.keys := by
        by_contra hout
        rw [SlotContent.given, Ordered.get?_eq_none_iff.mpr hout] at hgiven
        cases hgiven
      simpa using List.find?_eq_none.mp hnamed key hkey
    | none =>
      rw [SlotContent.given] at hgiven
      split at hgiven
      · rename_i hunnamed
        simpa [hunnamed] using h
      · cases hgiven

theorem shownIn_eq {before after : List Passing} {p : Passing}
    (h : ¬ (p.slot = none ∧ ∀ n ∈ p.nodes, n.isBlank = true)) :
    shownIn (before ++ p :: after) p.slot =
      some (contentFor before p.slot ++ p.nodes ++ contentFor after p.slot) := by
  have hcontent : contentFor (before ++ p :: after) p.slot =
      contentFor before p.slot ++ p.nodes ++ contentFor after p.slot := by
    rw [List.append_cons, contentFor_append, contentFor_append, contentFor_singleton, if_pos rfl]
  obtain ⟨slot, nodes⟩ := p
  cases slot with
  | some slot => rw [shownIn, if_pos (by simp), hcontent]
  | none =>
    simp only [true_and, not_forall] at h
    obtain ⟨n, hn, hblank⟩ := h
    have hany : (contentFor (before ++ ⟨none, nodes⟩ :: after) none).any (!·.isBlank) = true := by
      rw [List.any_eq_true]
      refine ⟨n, ?_, by simpa using hblank⟩
      rw [hcontent]
      exact List.mem_append_left _ (List.mem_append_right _ hn)
    rw [shownIn, if_pos hany, hcontent]

theorem hasSlotIn_append (ns ms : List Node) : hasSlotIn (ns ++ ms) = (hasSlotIn ns || hasSlotIn ms) := by
  induction ns with
  | nil => rfl
  | cons n ns ih => rw [List.cons_append, hasSlotIn, hasSlotIn, ih, Bool.or_assoc]

theorem FilledAs.hasSlotIn_eq_false {given : Option String → Option (List Node)} {ns out : List Node}
    (h : FilledAs given ns out) (hgiven : ∀ key nodes, given key = some nodes → hasSlotIn nodes = false) :
    hasSlotIn out = false := by
  induction h with
  | nil => rfl
  | passed hnodes _ ih => rw [hasSlotIn_append, hgiven _ _ hnodes, ih, Bool.or_false]
  | fallback _ _ _ hfallback ih => rw [hasSlotIn_append, hfallback, ih, Bool.or_false]
  | element _ _ hinside ih | component _ _ hinside ih | optional _ _ hinside ih | loop _ _ hinside ih =>
    rw [hasSlotIn, Node.hasSlot, hinside, ih, Bool.or_false]
  | choice _ _ _ hyes hno ih => rw [hasSlotIn, Node.hasSlot, hyes, hno, ih, Bool.or_false, Bool.or_false]
  | text _ ih | expression _ ih | doctype _ ih => rw [hasSlotIn, Node.hasSlot, ih, Bool.or_false]

theorem hasSlotIn_contentFor (h : ∀ p ∈ ps, hasSlotIn p.nodes = false) (slot : Option String) :
    hasSlotIn (contentFor ps slot) = false := by
  induction ps with
  | nil => rfl
  | cons p ps ih =>
    rw [← List.singleton_append, contentFor_append, hasSlotIn_append, contentFor_singleton,
      ih fun q hq => h q (List.mem_cons_of_mem p hq), Bool.or_false]
    split
    · exact h p List.mem_cons_self
    · rfl

theorem hasSlotIn_of_shownIn (h : ∀ p ∈ ps, hasSlotIn p.nodes = false) (hnodes : shownIn ps slot = some nodes) :
    hasSlotIn nodes = false := by
  have heq : nodes = contentFor ps slot := by
    cases slot with
    | some | none =>
      rw [shownIn] at hnodes
      split at hnodes
      · exact (Option.some.inj hnodes).symm
      · cases hnodes
  rw [heq]
  exact hasSlotIn_contentFor h slot

theorem exists_forall₂_passes (usage : String) (children : List Node) :
    ∃ passed, List.Forall₂ (Passes usage) children passed := by
  induction children with
  | nil => exact ⟨[], .nil⟩
  | cons n children ih =>
    obtain ⟨p, hp⟩ := exists_passes usage n
    obtain ⟨passed, hpassed⟩ := ih
    exact ⟨p :: passed, .cons hp hpassed⟩

/-- Filling loses nothing. The result is the template with each slot replaced by what is passed to it, or by its filled
fallback, and no slot is left unless a child brought it. What a child passes, blank text of the default slot excepted, has
a slot that is reached, and at each such slot stands between what the children before and after it pass there. -/
theorem filled_loses_nothing {usage : String} {children template : List Node}
    (h : (slotContent usage children).unmatched? template = none) :
    (∃ passed, List.Forall₂ (Passes usage) children passed) ∧
    ∀ passed, List.Forall₂ (Passes usage) children passed →
      FilledAs (shownIn passed) template ((slotContent usage children).fillAll template) ∧
      ((∀ p ∈ passed, hasSlotIn p.nodes = false) →
        hasSlotIn ((slotContent usage children).fillAll template) = false) ∧
      ∀ before p after, passed = before ++ p :: after → ¬ (p.slot = none ∧ ∀ n ∈ p.nodes, n.isBlank = true) →
        (∃ o, MarkerAt (shownIn passed) template p.slot o) ∧
        ∀ o, MarkerAt (shownIn passed) template p.slot o → ∃ o', FilledAround (shownIn passed) o o' ∧
          (slotContent usage children).fillAll template =
            o'.put (contentFor before p.slot ++ p.nodes ++ contentFor after p.slot) := by
  refine ⟨exists_forall₂_passes usage children, fun passed hpassed => ?_⟩
  have hgiven := (SlotContent.holds_slotContent hpassed).given_eq
  have hfilled : FilledAs (shownIn passed) template ((slotContent usage children).fillAll template) :=
    hgiven ▸ FilledAs.fillAll _ template
  refine ⟨hfilled, fun hnone => ?_, ?_⟩
  · exact hfilled.hasSlotIn_eq_false fun key nodes hnodes => hasSlotIn_of_shownIn hnone hnodes
  · intro before p after hsplit hp
    have hshown : shownIn passed p.slot = some (contentFor before p.slot ++ p.nodes ++ contentFor after p.slot) := by
      rw [hsplit]
      exact shownIn_eq hp
    refine ⟨hgiven ▸ exists_markerAt_of_unmatched? h (hgiven ▸ hshown), fun o ho => ?_⟩
    obtain ⟨hreached, name, fallback, place, hkey, hput⟩ := ho
    have hfill : ∀ ns, ∃ out, FilledAs (shownIn passed) ns out := fun ns => ⟨_, hgiven ▸ FilledAs.fillAll _ ns⟩
    obtain ⟨o', ho'⟩ := exists_filledAround hfill hreached
    have hmarker : FilledAs (shownIn passed) [.slot name fallback place]
        (contentFor before p.slot ++ p.nodes ++ contentFor after p.slot ++ []) := .passed (hkey ▸ hshown) .nil
    have hwhole := ho' _ _ hmarker
    rw [List.append_nil, ← hput, ← hgiven] at hwhole
    exact ⟨o', ho', hwhole.eq_fillAll.symm⟩

/-- A card that shows its header, and after that its body, or else its footer. -/
def cardTemplate : List Node :=
  [.element "b" [] [.slot (some "Header") [] {}] {}, .slot (some "body") [.slot (some "foot") [.text "-" {}] {}] {}]

/-- A header as a part of the card, and a footer that names its slot. -/
def cardChildren : List Node :=
  [.component "card.HEADER" [] [.text "x" {}, .text "y" {}] {}, .text " " {},
    .element "i" [⟨"id", .fixed "z", {}⟩, ⟨"slot", .fixed "Foot", {}⟩] [] {}]

def cardPassed : List Passing :=
  [⟨some "header", [.text "x" {}, .text "y" {}]⟩, ⟨none, [.text " " {}]⟩,
    ⟨some "foot", [.element "i" [⟨"id", .fixed "z", {}⟩] [] {}]⟩]

/-- The footer of the card takes the place of a slot inside of the fallback of another. -/
theorem filled_loses_nothing_card :
    (slotContent "Card" cardChildren).unmatched? cardTemplate = none ∧
    List.Forall₂ (Passes "Card") cardChildren cardPassed ∧
    hasSlotIn ((slotContent "Card" cardChildren).fillAll cardTemplate) = false ∧
    ∃ o o', MarkerAt (shownIn cardPassed) cardTemplate (some "foot") o ∧ FilledAround (shownIn cardPassed) o o' ∧
      (slotContent "Card" cardChildren).fillAll cardTemplate = o'.put [.element "i" [⟨"id", .fixed "z", {}⟩] [] {}] := by
  have hnone : (slotContent "Card" cardChildren).unmatched? cardTemplate = none := by decide
  have hpart : IsPart "card.HEADER" "Card" "header" := compoundSlot?_eq_some_iff.mp (by decide)
  have hpassed : List.Forall₂ (Passes "Card") cardChildren cardPassed :=
    .cons (.part hpart) (.cons (.other rfl) (.cons .element .nil))
  obtain ⟨-, hslots, hshown⟩ := (filled_loses_nothing hnone).2 cardPassed hpassed
  obtain ⟨⟨o, ho⟩, hall⟩ := hshown (cardPassed.take 2) _ [] rfl (fun h => absurd h.1 (by decide))
  obtain ⟨o', ho', heq⟩ := hall o ho
  exact ⟨hnone, hpassed, hslots (by decide), o, o', ho, ho', heq⟩

end Component

end PageCompiler
