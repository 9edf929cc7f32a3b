import Mathlib.Data.List.Basic
import PageCompiler.Proofs.TagScan

/-!
# Balanced tags

A markup is prepared if its tags are balanced: they derive from a grammar in which the end tags of some elements may be
left out (`Content`). The check keeps the elements that are open on a stack, and lets an end tag close the nearest one
with its name (`Leads`). It leads through exactly the tags of the grammar, whatever elements are left open on the way
(`content_iff_leads`), so that a markup is prepared exactly if each tag that its scan meets is complete and the tags
together are in the grammar (`prepared_iff_content`).
-/

namespace PageCompiler.Markup

variable {last : List String} {stack : List OpenTag}

/-! ## The grammar -/

/-- A tag that starts or ends an element, by its name in lower case. -/
inductive TagEvent where
  | start (name : String)
  | stop (name : String)
deriving DecidableEq

variable {w : List TagEvent}

/-- The start or the end of an element that a tag is. Void tags, and start tags that close themselves, are neither. -/
def Tag.event? (t : Tag) : Option TagEvent :=
  if t.closes then if Template.isVoid t.lowerName then none else some (.stop t.lowerName)
  else if isSelfClosing t.rest || Template.isVoid t.lowerName then none else some (.start t.lowerName)

/-- Balanced tags: elements one after the other, each with its end tag after its content, or, if its end tag may be left
out, without. -/
inductive Content : List TagEvent → Prop
  | nil : Content []
  | append {v w : List TagEvent} : Content v → Content w → Content (v ++ w)
  | element {w : List TagEvent} (name : String) : Content w → Content (.start name :: w ++ [.stop name])
  | unended {w : List TagEvent} {name : String} :
      name ∈ Template.optionalEnds → Content w → Content (.start name :: w)

/-! ## The stack -/

/-- The tags lead from one stack of open elements to another. An end tag closes the nearest element with its name; those
inside of it must be such that their end tags may be left out. -/
inductive Leads : List String → List TagEvent → List String → Prop
  | nil {stack : List String} : Leads stack [] stack
  | start {name : String} {stack last : List String} {w : List TagEvent} :
      Leads (name :: stack) w last → Leads stack (.start name :: w) last
  | stop {name : String} {inner outer last : List String} {w : List TagEvent} :
      name ∉ inner → (∀ other ∈ inner, other ∈ Template.optionalEnds) → Leads outer w last →
      Leads (inner ++ name :: outer) (.stop name :: w) last

theorem Leads.trans {first next : List String} {v : List TagEvent} (hv : Leads first v next) (hw : Leads next w last) :
    Leads first (v ++ w) last := by
  induction hv with
  | nil => exact hw
  | start _ ih => exact .start (ih hw)
  | stop hname hinner _ ih => exact .stop hname hinner (ih hw)

/-- Tags of the grammar lead from every stack to one that has more elements only whose end tags may be left out. -/
theorem Content.leads (h : Content w) (stack : List String) :
    ∃ left, (∀ name ∈ left, name ∈ Template.optionalEnds) ∧ Leads stack w (left ++ stack) := by
  induction h generalizing stack with
  | nil => exact ⟨[], nofun, .nil⟩
  | append _ _ ihv ihw =>
    obtain ⟨left, hleft, hv⟩ := ihv stack
    obtain ⟨more, hmore, hw⟩ := ihw (left ++ stack)
    refine ⟨more ++ left, fun name hname => ?_, ?_⟩
    · exact (List.mem_append.mp hname).elim (hmore name) (hleft name)
    · rw [List.append_assoc]
      exact hv.trans hw
  | @element w name _ ih =>
    obtain ⟨left, hleft, hw⟩ := ih (name :: stack)
    by_cases hname : name ∈ left
    · -- The end tag closes an element inside. The one that it is for stays open, and may, having the same name.
      obtain ⟨inner, outer, rfl, hinner⟩ := List.eq_append_cons_of_mem hname
      refine ⟨outer ++ [name], fun other hother => ?_, ?_⟩
      · rcases List.mem_append.mp hother with hother | hother
        · exact hleft other (List.mem_append_right _ (List.mem_cons_of_mem _ hother))
        · rw [List.mem_singleton.mp hother]
          exact hleft name hname
      · have hstop : Leads (inner ++ name :: (outer ++ name :: stack)) [.stop name] (outer ++ name :: stack) :=
          .stop hinner (fun other hother => hleft other (List.mem_append_left _ hother)) .nil
        rw [List.append_assoc, List.cons_append] at hw
        rw [List.append_assoc]
        exact .start (hw.trans hstop)
    · have hstop : Leads (left ++ name :: stack) [.stop name] stack := .stop hname hleft .nil
      exact ⟨[], nofun, .start (hw.trans hstop)⟩
  | @unended w name hname _ ih =>
    obtain ⟨left, hleft, hw⟩ := ih (name :: stack)
    refine ⟨left ++ [name], fun other hother => ?_, ?_⟩
    · rcases List.mem_append.mp hother with hother | hother
      · exact hleft other hother
      · rwa [List.mem_singleton.mp hother]
    · rw [List.append_assoc]
      exact .start hw

/-- Tags after which the elements of the stack are open: what comes before an element, between two of them and after the
last is balanced. -/
inductive LeavesOpen : List String → List TagEvent → Prop
  | nil {w : List TagEvent} : Content w → LeavesOpen [] w
  | cons {name : String} {stack : List String} {v w : List TagEvent} :
      LeavesOpen stack v → Content w → LeavesOpen (name :: stack) (v ++ .start name :: w)

namespace LeavesOpen

variable {stack inner outer : List String} {v w : List TagEvent}

theorem append (h : LeavesOpen stack v) (hw : Content w) : LeavesOpen stack (v ++ w) := by
  cases h with
  | nil hv => exact .nil (hv.append hw)
  | cons hstack hv =>
    rw [List.append_assoc, List.cons_append]
    exact .cons hstack (hv.append hw)

/-- Elements whose end tags may be left out need not be kept open. -/
theorem drop (h : LeavesOpen (inner ++ stack) v) (hinner : ∀ name ∈ inner, name ∈ Template.optionalEnds) :
    LeavesOpen stack v := by
  induction inner generalizing v with
  | nil => exact h
  | cons name inner ih =>
    cases h with
    | cons hstack hw =>
      have hinside := ih hstack fun other hother => hinner other (List.mem_cons_of_mem _ hother)
      exact hinside.append (.unended (hinner name List.mem_cons_self) hw)

theorem close {name : String} (h : LeavesOpen (name :: stack) v) : LeavesOpen stack (v ++ [.stop name]) := by
  cases h with
  | cons hstack hw =>
    rw [List.append_assoc]
    exact hstack.append (.element name hw)

end LeavesOpen

theorem Leads.leavesOpen {stack : List String} {v : List TagEvent} (h : Leads stack w last) (hv : LeavesOpen stack v) :
    LeavesOpen last (v ++ w) := by
  induction h generalizing v with
  | nil => rwa [List.append_nil]
  | @start name stack last w _ ih =>
    rw [List.append_cons]
    exact ih (.cons hv .nil)
  | @stop name inner outer last w _ hinner _ ih =>
    rw [List.append_cons]
    exact ih (hv.drop hinner).close

/-- Tags are in the grammar exactly if they lead from no open element to such whose end tags may be left out. -/
theorem content_iff_leads : Content w ↔ ∃ last, Leads [] w last ∧ ∀ name ∈ last, name ∈ Template.optionalEnds := by
  constructor
  · intro h
    obtain ⟨left, hleft, hw⟩ := h.leads []
    rw [List.append_nil] at hw
    exact ⟨left, hw, hleft⟩
  · rintro ⟨last, hw, hlast⟩
    have hopen : LeavesOpen (last ++ []) w := by
      rw [List.append_nil]
      exact hw.leavesOpen (.nil .nil)
    cases hopen.drop hlast with
    | nil h => exact h

/-! ## The check -/

theorem find?_mayStay_eq_none_iff :
    stack.reverse.find? (!·.mayStay) = none ↔ ∀ name ∈ stack.map (·.name), name ∈ Template.optionalEnds := by
  simp [List.find?_eq_none, OpenTag.mayStay]

/-- The start or the end of an element in a piece. -/
def TagPiece.event? (p : TagPiece) : Option TagEvent :=
  p.tag?.bind Tag.event?

theorem leads_nil_iff {stack : List String} : Leads stack [] last ↔ stack = last := by
  constructor
  · intro h
    cases h with
    | nil => rfl
  · rintro rfl
    exact .nil

theorem leads_start_iff {name : String} {stack : List String} :
    Leads stack (.start name :: w) last ↔ Leads (name :: stack) w last := by
  constructor
  · intro h
    cases h with
    | start h => exact h
  · exact .start

/-- An end tag is accepted exactly if it closes the nearest element with its name. -/
theorem exists_afterPiece_closing_iff {name rest : List Char}
    (hvoid : Template.isVoid (lowerAscii (String.ofList name)) = false) {offset : Nat} :
    (∃ next, afterPiece stack (.closing name rest offset) = .ok next ∧ Leads (next.map (·.name)) w last) ↔
      Leads (stack.map (·.name)) (.stop (lowerAscii (String.ofList name)) :: w) last := by
  generalize hlower : lowerAscii (String.ofList name) = lower at hvoid ⊢
  constructor
  · rintro ⟨next, hafter, hnext⟩
    simp only [afterPiece, hlower, hvoid, Bool.false_eq_true, if_false] at hafter
    split at hafter
    · cases hafter
    · rename_i t outer hdrop
      split at hafter
      · cases hafter
      · rename_i hinner
        cases hafter
        have hfirst := List.head?_dropWhile_not (fun t : OpenTag => decide (t.name ≠ lower)) stack
        rw [hdrop] at hfirst
        have hname : t.name = lower := by simpa using hfirst
        have hnot : lower ∉ (stack.takeWhile fun t => decide (t.name ≠ lower)).map (·.name) := by
          intro hmem
          obtain ⟨u, hu, hulower⟩ := List.mem_map.mp hmem
          exact of_decide_eq_true (List.all_eq_true.mp List.all_takeWhile u hu) hulower
        rw [← stack.takeWhile_append_dropWhile, hdrop, List.map_append, List.map_cons, hname]
        exact .stop hnot (find?_mayStay_eq_none_iff.mp hinner) hnext
  · intro h
    generalize hnames : stack.map (·.name) = names at h
    cases h with
    | @stop _ inner outer _ _ hnot hinner hw =>
      obtain ⟨inside, around, rfl, rfl, haround⟩ := List.map_eq_append_iff.mp hnames
      obtain ⟨t, next, rfl, hname, rfl⟩ := List.map_eq_cons_iff.mp haround
      have hother : ∀ u ∈ inside, decide (u.name ≠ lower) = true := fun u hu =>
        decide_eq_true fun hulower => hnot (List.mem_map.mpr ⟨u, hu, hulower⟩)
      refine ⟨next, ?_, hw⟩
      simp only [afterPiece, hlower, hvoid, Bool.false_eq_true, if_false]
      rw [List.takeWhile_append_of_pos hother, List.dropWhile_append_of_pos hother,
        List.takeWhile_cons_of_neg (by simp [hname]), List.dropWhile_cons_of_neg (by simp [hname]), List.append_nil]
      simp only [find?_mayStay_eq_none_iff.mpr hinner]

theorem exists_afterPiece_iff {p : TagPiece} :
    (∃ next, afterPiece stack p = .ok next ∧ Leads (next.map (·.name)) w last) ↔
      Leads (stack.map (·.name)) (p.event?.toList ++ w) last := by
  cases p with
  | text => simp [afterPiece, TagPiece.event?, TagPiece.tag?]
  | opening name rest offset =>
    by_cases hnone : (isSelfClosing rest || Template.isVoid (lowerAscii (String.ofList name))) = true
    · simp [afterPiece, TagPiece.event?, TagPiece.tag?, Tag.event?, Tag.lowerName, hnone]
    · simp [afterPiece, TagPiece.event?, TagPiece.tag?, Tag.event?, Tag.lowerName, hnone, leads_start_iff]
  | closing name rest offset =>
    cases hvoid : Template.isVoid (lowerAscii (String.ofList name)) with
    | true => simp [afterPiece, TagPiece.event?, TagPiece.tag?, Tag.event?, Tag.lowerName, hvoid]
    | false =>
      rw [exists_afterPiece_closing_iff hvoid]
      simp [TagPiece.event?, TagPiece.tag?, Tag.event?, Tag.lowerName, hvoid]

theorem exists_foldlM_iff {pieces : List TagPiece} :
    (∃ rest, pieces.foldlM afterPiece stack = .ok rest ∧ rest.map (·.name) = last) ↔
      Leads (stack.map (·.name)) (pieces.filterMap TagPiece.event?) last := by
  induction pieces generalizing stack with
  | nil =>
    rw [List.filterMap_nil, leads_nil_iff]
    constructor
    · rintro ⟨_, ⟨⟩, rfl⟩
      rfl
    · rintro rfl
      exact ⟨stack, rfl, rfl⟩
  | cons p pieces ih =>
    have hevents : (p :: pieces).filterMap TagPiece.event? = p.event?.toList ++ pieces.filterMap TagPiece.event? := by
      simp only [List.filterMap_eq_flatMap_toList, List.flatMap_cons]
    rw [hevents, ← exists_afterPiece_iff, List.foldlM_cons]
    cases afterPiece stack p with
    | error fault =>
      constructor
      · rintro ⟨_, ⟨⟩, -⟩
      · rintro ⟨_, ⟨⟩, -⟩
    | ok next =>
      refine ih.trans ⟨fun h => ⟨next, rfl, h⟩, ?_⟩
      rintro ⟨_, ⟨⟩, h⟩
      exact h

theorem check_eq_ok_iff {c : Cut} :
    c.check = .ok () ↔ c.fault = none ∧ Content (c.pieces.filterMap TagPiece.event?) := by
  have hstacks : ∀ stack, c.pieces.foldlM afterPiece [] = .ok stack →
      (c.check = .ok () ↔ c.fault = none ∧ stack.reverse.find? (!·.mayStay) = none) := by
    intro stack hstack
    simp only [Cut.check, hstack, bind, Except.bind]
    cases c.fault with
    | some fault => exact ⟨nofun, nofun⟩
    | none =>
      cases hfind : stack.reverse.find? (!·.mayStay) with
      | some t => exact ⟨nofun, nofun⟩
      | none => exact ⟨fun _ => ⟨rfl, rfl⟩, fun _ => rfl⟩
  rw [content_iff_leads]
  constructor
  · intro h
    cases hstack : c.pieces.foldlM afterPiece [] with
    | error fault =>
      rw [Cut.check, hstack] at h
      cases h
    | ok stack =>
      obtain ⟨hfault, hfind⟩ := (hstacks stack hstack).mp h
      exact ⟨hfault, _, exists_foldlM_iff.mp ⟨stack, hstack, rfl⟩, find?_mayStay_eq_none_iff.mp hfind⟩
  · rintro ⟨hfault, last, hlast, hoptional⟩
    have hfold : ∃ rest, c.pieces.foldlM afterPiece [] = .ok rest ∧ rest.map (·.name) = last :=
      exists_foldlM_iff.mpr hlast
    obtain ⟨stack, hstack, rfl⟩ := hfold
    exact (hstacks stack hstack).mpr ⟨hfault, find?_mayStay_eq_none_iff.mpr hoptional⟩

/-- A markup is prepared exactly if each tag that its scan meets is complete, and the starts and ends of elements among
them are balanced. -/
theorem prepared_iff_content (file : Source.File) (m : Marked) :
    (∃ items, Scans m.text items) ∧
    ∀ items, Scans m.text items →
      ((∃ p, prepared file m = .ok p) ↔
        (∀ i ∈ items, i.IsComplete) ∧ Content ((items.filterMap Scanned.tag?).filterMap Tag.event?)) := by
  refine ⟨exists_scans m.text, fun items hitems => ?_⟩
  have hagrees : (cut 0 m.text).Agrees items := agrees_of_scans hitems List.not_mem_nil 0
  have hevents : (cut 0 m.text).pieces.filterMap TagPiece.event? =
      (items.filterMap Scanned.tag?).filterMap Tag.event? := by
    rw [← hagrees.tags, List.filterMap_filterMap]
    rfl
  have hprepared : (∃ p, prepared file m = .ok p) ↔ (cut 0 m.text).check = .ok () := by
    constructor
    · rintro ⟨p, hp⟩
      simp only [prepared] at hp
      split at hp
      · cases hp
      · assumption
    · intro hcheck
      simp only [prepared, hcheck]
      exact ⟨_, rfl⟩
  rw [hprepared, check_eq_ok_iff, hagrees.fault, hevents]

end PageCompiler.Markup
