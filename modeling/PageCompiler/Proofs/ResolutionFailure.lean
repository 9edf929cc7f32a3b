import PageCompiler.Proofs.InliningFaults
import PageCompiler.Proofs.TakenExpressions

/-!
# Failures of the resolution

A resolution stops at an internal fault exactly when a use asks for an expression that an earlier use
took (`resolve_internal_iff`). All other faults are ones of the sources. Since only a slot that is
filled twice makes a second use with the same ids, no internal fault arises with components whose slots
are distinct.
-/

namespace PageCompiler

namespace Component

open Template (Node Attribute idsIn attributeIds)

variable {role : Role} {a : Assembly} {d : Diagnostic} {component : Component} {usage : Usage} {file id : String}

variable {props : Ordered (Option String)} {nodes : List Node}

/-! ## Parts of an inlining -/

theorem not_stops_copyNames {script : Option Script} : ¬ Stops (copyNames role script) a d := by
  simp only [copyNames, stops_bind, stops_get, false_or, builds_get]
  rintro ⟨_, _, ⟨rfl, rfl⟩, h⟩
  split at h
  all_goals simp only [stops_bind, stops_modify, stops_pure, and_false, exists_false, or_false] at h

theorem not_stops_newIds {expressions : List Template.Expression} :
    ¬ Stops (newIds expressions) a d := by
  simp only [newIds, stops_bind, stops_get, stops_modify, stops_pure, and_false, exists_false,
    or_false, not_false_eq_true]

theorem not_stops_addStyles : ¬ Stops (addStyles role component) a d := by
  simp only [addStyles, stops_bind, stops_get, false_or, builds_get]
  rintro ⟨_, _, ⟨rfl, rfl⟩, h⟩
  split at h
  · simp at h
  · simp at h

section
variable {b : Rebinding}

theorem notInternal_addExpressions {expressions : List Template.Expression} :
    StopsOnly (·.kind ≠ .internal) (expressions.forM (addExpression component b usage)) := by
  refine .forM (fun _ => stopsOnly_addExpression fun cause hkind => ?_) expressions
  cases hkind

theorem notInternal_addBlocks {blocks : List Script.Block} :
    StopsOnly (·.kind ≠ .internal) (blocks.forM (addBlock component b)) :=
  .forM (fun _ => stopsOnly_addBlock Fault.OfScript.not_internal) blocks

theorem notInternal_liftForwarded {code : String} {position : Position} :
    StopsOnly (·.kind ≠ .internal) (liftForwarded file usage position code) :=
  stopsOnly_liftForwarded Fault.OfScript.not_internal

end

/-! ## Expressions that are asked for -/

theorem stops_propCode {name : String} {scope : Scope} {fallback : Option String} :
    Stops (propCode file scope usage name fallback) a d ↔
      ∃ id, boundId? usage name = some id ∧ id ∉ a.ids ∧
        d = { fault := .danglingAttribute id, file } := by
  unfold propCode boundId?
  split
  · rename_i hfind
    simp [hfind, Template.Value.id?]
  · rename_i hfind
    simp [hfind, Template.Value.id?]
  · rename_i id place hfind
    simp only [stops_bind, stops_takeExpression, stops_pure, and_false, exists_false, or_false]
    simp [hfind, Template.Value.id?]
  · rename_i hfind
    simp [hfind]

/-- Props whose expressions differ cannot be bound only because one of these is not there. -/
theorem stops_propCodes (h : Stops (propCodes file usage props) a d) (hnodup : (boundIds usage props).Nodup) :
    ∃ id ∈ boundIds usage props, id ∉ a.ids ∧ d = { fault := .danglingAttribute id, file } := by
  simp only [propCodes, stops_bind, stops_get, false_or, builds_get] at h
  obtain ⟨_, _, ⟨rfl, rfl⟩, h⟩ := h
  rename_i a
  generalize Scope.ofScript a.script = scope at h
  induction props generalizing a with
  | nil => exact absurd h stops_pure
  | cons p props ih =>
    rw [boundIds_cons] at hnodup ⊢
    obtain ⟨-, hrest, hdisjoint⟩ := List.nodup_append'.mp hnodup
    simp only [List.mapM_cons, stops_bind, stops_pure, and_false, exists_false, or_false,
      builds_bind, builds_pure] at h
    rcases h with h | ⟨_, a₁, ⟨code, a₂, hcode, -, rfl⟩, h⟩
    · obtain ⟨id, hid, hout, rfl⟩ := stops_propCode.mp h
      exact ⟨id, List.mem_append_left _ (by simp [hid]), hout, rfl⟩
    · obtain ⟨id, hid, hout, rfl⟩ := ih hrest _ h
      refine ⟨id, List.mem_append_right _ hid, fun hin => ?_, rfl⟩
      refine hout ((builds_propCode hcode).2.mem_ids.mpr ⟨hin, fun hfirst => ?_⟩)
      exact hdisjoint hfirst hid

/-- An attribute whose expression is not there cannot become a handler; nothing else about it is
internal. -/
theorem stops_forwarded {attr : Attribute} (hd : d.IsInternal) :
    Stops (forwarded file usage attr) a d ↔
      ∃ id, givenAway? attr = some id ∧ id ∉ a.ids ∧
        d = { fault := .danglingAttribute id, file } := by
  have hlift : ∀ code a', ¬ Stops (liftForwarded file usage attr.place.position code) a' d :=
    fun _ _ h => notInternal_liftForwarded.fault h hd
  unfold forwarded givenAway?
  split
  · rename_i event hevent
    simp only [stops_bind, stops_pure, and_false, exists_false, or_false, hevent,
      Option.isSome_some, if_true]
    unfold forwardedHandler
    split
    · rename_i hvalue
      simp [hvalue, Template.Value.id?]
    · rename_i hvalue
      simp [hvalue, Template.Value.id?, hlift]
    · rename_i id hvalue
      simp only [stops_bind, stops_takeExpression, hlift, and_false, exists_false, or_false]
      simp [hvalue, Template.Value.id?]
  · rename_i hevent
    simp [hevent]

/-- With the assembly `a`, the use gets so far as to ask for an expression: one that is bound to a prop,
or, when the template is copied and has a single root, one that becomes a handler after the attributes
before it are put there. -/
inductive Asks (file : String) (u : Use) (a : Assembly) : String → Prop
  | prop {id : String} : id ∈ boundIds u.usage u.component.props → Asks file u a id
  | event {id : String} {b : Rebinding} {copied : List Node} {a₁ a₂ : Assembly}
      {before after found : List Attribute} {attr : Attribute} :
      u.role = .component →
      Builds (copyTemplate file u.role u.component u.usage) a (b, copied) a₁ →
      hasSingleRoot copied = true →
      passedOn u.usage u.component.props.keys = before ++ attr :: after →
      Builds (before.mapM (forwarded file u.usage)) a₁ found a₂ →
      givenAway? attr = some id → Asks file u a id

/-! ## Failures of one inlining -/

/-- Copying a template fails internally only if a prop asks for an expression that is not there. -/
theorem stops_copyTemplate (h : Stops (copyTemplate file role component usage) a d)
    (hd : d.IsInternal) :
    ∃ a₁, Takes [] a a₁ ∧ Stops (propCodes file usage component.props) a₁ d := by
  simp only [copyTemplate, stops_bind, stops_get, false_or, builds_get, not_stops_copyNames,
    not_stops_newIds] at h
  obtain ⟨_, _, ⟨rfl, rfl⟩, ⟨renames, shared⟩, a₁, hnames, h⟩ := h
  rcases h with h | ⟨props, a₂, -, ids, a₃, -, h⟩
  · exact ⟨a₁, takes_of_copyNames hnames, h⟩
  · rcases h with h | ⟨_, a₄, -, h⟩
    · exact absurd hd (notInternal_addExpressions.fault h)
    · split at h
      · rw [stops_throw] at h
        subst h
        cases hd
      · exact absurd h stops_pure

/-- After the copy of the template, an inlining fails internally only while attributes are put on the
root. -/
theorem stops_inline (h : Stops (inline file role component usage) a d) (hd : d.IsInternal) :
    Stops (copyTemplate file role component usage) a d ∨
      role = .component ∧ ∃ b copied a₁,
        Builds (copyTemplate file role component usage) a (b, copied) a₁ ∧
          Stops (forwardAttributes file usage component.props.keys copied) a₁ d := by
  simp only [inline, stops_bind] at h
  rcases h with h | ⟨⟨b, copied⟩, a₁, hcopy, h⟩
  · exact .inl h
  · have hrest : ∀ a', ¬ (Stops (((component.page.script.map (·.blocks)).getD []).forM
        (addBlock component b)) a' d) := fun a' h => notInternal_addBlocks.fault h hd
    cases role with
    | component =>
      simp only [stops_bind, hrest, not_stops_addStyles, stops_pure, and_false, exists_false,
        or_false] at h
      exact .inr ⟨rfl, b, copied, a₁, hcopy, h⟩
    | layout =>
      simp only [stops_bind, hrest, not_stops_addStyles, stops_pure, and_false, exists_false,
        or_false] at h

theorem sublist_filterMap_givenAway? (as : List Attribute) :
    (as.filterMap givenAway?).Sublist (attributeIds as) := by
  induction as with
  | nil => exact .refl _
  | cons a as ih =>
    rw [Template.attributeIds_cons]
    cases haway : givenAway? a with
    | none =>
      rw [List.filterMap_cons_none haway]
      exact ih.trans (List.sublist_append_right _ _)
    | some id =>
      rw [List.filterMap_cons_some haway, givenAway?_eq_some haway]
      exact ih.cons_cons id

/-- If no id occurs twice and no prop is declared twice, no expression is bound twice. -/
theorem nodup_boundIds (hids : (attributeIds usage.attributes).Nodup) (hkeys : props.keys.Nodup) :
    (boundIds usage props).Nodup := by
  induction props with
  | nil => exact List.nodup_nil
  | cons p props ih =>
    obtain ⟨hout, hrest⟩ := List.nodup_cons.mp hkeys
    rw [boundIds_cons]
    refine List.Nodup.append ?_ (ih hrest) ?_
    · cases boundId? usage p.1 <;> simp
    · intro id hfirst hlater
      obtain ⟨a, ha, hname, hvalue⟩ := boundId?_eq_some (Option.mem_toList.mp hfirst)
      obtain ⟨b, hb, hprop, hvalue'⟩ := mem_boundIds hlater
      obtain rfl := eq_of_id? hids ha hb hvalue hvalue'
      rw [hname] at hprop
      exact hout hprop

/-- A use that binds an expression that is not there cannot be copied. -/
theorem exists_stops_copyTemplate (hnodup : (boundIds usage component.props).Nodup)
    (hid : id ∈ boundIds usage component.props) (hout : id ∉ a.ids) :
    ∃ d, d.IsInternal ∧ Stops (copyTemplate file role component usage) a d := by
  obtain ⟨names, a₁, hnames⟩ : ∃ x a', Builds (copyNames role component.page.script) a x a' :=
    (builds_or_stops _ a).resolve_right fun ⟨_, h⟩ => not_stops_copyNames h
  have hout₁ : id ∉ a₁.ids := fun hin => hout ((takes_of_copyNames hnames).mem_ids.mp hin).1
  rcases builds_or_stops (propCodes file usage component.props) a₁ with ⟨_, _, h⟩ | ⟨d, h⟩
  · exact absurd ((builds_propCodes h).2.present id hid) hout₁
  · obtain ⟨missing, -, -, rfl⟩ := stops_propCodes h hnodup
    refine ⟨{ fault := .danglingAttribute missing, file }, rfl, ?_⟩
    simp only [copyTemplate, stops_bind]
    exact .inr ⟨a, a, builds_get.mpr ⟨rfl, rfl⟩, .inr ⟨names, a₁, hnames, .inl h⟩⟩

variable {catalogs : Catalogs} {file : String} {taken : List String} {s : Stage} {u : Use}

theorem Sound.mem_taken (hs : Sound taken s) (hnext : IsNext catalogs file s u)
    (hid : id ∈ attributeIds u.usage.attributes) (hout : id ∉ s.parts.ids) : id ∈ taken :=
  (hs.covered id (hnext.mem_idsIn hid)).resolve_left hout

/-- The next use fails internally exactly if it asks for an expression that was taken before. -/
theorem Sound.stops_inline_iff (hread : catalogs.AreRead) (hs : Sound taken s)
    (hnext : IsNext catalogs file s u) (hkeys : u.component.props.keys.Nodup) :
    (∃ d, d.IsInternal ∧ Stops (inline file u.role u.component u.usage) s.parts d) ↔
      ∃ id ∈ taken, Asks file u s.parts id := by
  have hown : (attributeIds u.usage.attributes).Nodup := hs.single u.usage hnext.mem
  have hbound := nodup_boundIds hown hkeys
  have hp := hread.registered (knows_of_nextTarget hnext.target)
  constructor
  · rintro ⟨d, hd, hstops⟩
    rcases stops_inline hstops hd with hcopy | ⟨hrole, b, copied, a₁, hcopy, hforward⟩
    · obtain ⟨a₁, htakes, hprops⟩ := stops_copyTemplate hcopy hd
      obtain ⟨id, hid, hout, -⟩ := stops_propCodes hprops hbound
      have hout' : id ∉ s.parts.ids := fun hin => hout (htakes.mem_ids.mpr ⟨hin, by simp⟩)
      exact ⟨id, hs.mem_taken hnext (boundIds_subset _ _ hid) hout', .prop hid⟩
    · unfold forwardAttributes at hforward
      by_cases hroot : hasSingleRoot copied = true
      · simp only [hroot, Bool.not_true, Bool.false_eq_true, if_false, stops_bind, stops_pure,
          and_false, exists_false, or_false] at hforward
        obtain ⟨before, attr, after, found, a₂, hsplit, hbefore, hstop⟩ := stops_mapM.mp hforward
        obtain ⟨id, haway, hout, -⟩ := (stops_forwarded hd).mp hstop
        have hattr : attr ∈ passedOn u.usage u.component.props.keys := by
          rw [hsplit]
          exact List.mem_append_right _ List.mem_cons_self
        obtain ⟨hmem, -, hname⟩ := mem_passedOn.mp hattr
        have hid := mem_attributeIds.mpr ⟨attr, hmem, givenAway?_eq_some haway⟩
        -- neither a prop nor an attribute before it asked for the same expression
        have hprop : id ∉ boundIds u.usage u.component.props := by
          intro hin
          obtain ⟨c, hc, hcname, hcvalue⟩ := mem_boundIds hin
          obtain rfl := eq_of_id? hown hmem hc (givenAway?_eq_some haway) hcvalue
          exact hname hcname
        have hfirst : id ∉ before.filterMap givenAway? := by
          have hsub := (sublist_filterMap_givenAway? (passedOn u.usage u.component.props.keys)).trans
            (List.filter_sublist.filterMap _)
          have hnodup := hown.sublist hsub
          rw [hsplit, List.filterMap_append, List.filterMap_cons_some haway] at hnodup
          intro hin
          exact (List.nodup_append'.mp hnodup).2.2 hin List.mem_cons_self
        refine ⟨id, hs.mem_taken hnext hid ?_, .event hrole hcopy hroot hsplit hbefore haway⟩
        intro hin
        refine hout ((builds_mapM_forwarded hbefore).2.mem_ids.mpr ⟨?_, hfirst⟩)
        rw [(builds_copyTemplate hcopy).ids_eq hp.nodup, List.mem_append, List.mem_filter]
        exact .inl ⟨hin, by simpa using hprop⟩
      · simp [hroot] at hforward
  · rintro ⟨id, hid, hasks⟩
    have hout := hs.gone id hid
    cases hasks with
    | prop hprop =>
      obtain ⟨d, hd, hstops⟩ := exists_stops_copyTemplate hbound hprop hout
      refine ⟨d, hd, ?_⟩
      simp only [inline, stops_bind]
      exact .inl hstops
    | @event b copied a₁ a₂ before after found attr hrole hcopy hroot hsplit hbefore haway =>
      have hout₂ : id ∉ a₂.ids := by
        intro hin
        have hin₁ := ((builds_mapM_forwarded hbefore).2.mem_ids.mp hin).1
        rw [(builds_copyTemplate hcopy).ids_eq hp.nodup, List.mem_append, List.mem_filter] at hin₁
        rcases hin₁ with ⟨hin₁, -⟩ | hfresh
        · exact hout hin₁
        · obtain ⟨i, hi, rfl⟩ := hs.below id hid
          obtain ⟨j, hj, -, heq⟩ := Template.mem_freshIds.mp hfresh
          have := Template.expressionId_injective heq
          omega
      have hd : Diagnostic.IsInternal { fault := .danglingAttribute id, file } := rfl
      refine ⟨_, hd, ?_⟩
      simp only [inline, stops_bind]
      refine .inr ⟨(b, copied), a₁, hcopy, ?_⟩
      rw [hrole]
      simp only [stops_bind]
      refine .inl ?_
      unfold forwardAttributes
      simp only [hroot, Bool.not_true, Bool.false_eq_true, if_false, stops_bind]
      exact .inl (stops_mapM.mpr ⟨before, attr, after, found, a₂, hsplit, hbefore,
        (stops_forwarded hd).mpr ⟨id, haway, hout₂, rfl⟩⟩)

theorem Catalogs.AreRead.nodup_props (hread : catalogs.AreRead) (h : catalogs.Knows component) :
    component.props.keys.Nodup := by
  obtain ⟨source, path, hsource⟩ := hread component h
  have hnamed := Page.propsNamed_of_read (page_of_read hsource)
  have hprops : component.props =
      (component.page.script.getD {}).props.map fun entry => (entry.2.name, entry.2.fallback) := by
    unfold Component.read at hsource
    split at hsource
    · obtain ⟨page, -, hsource⟩ := Compiled.bind_eq_ok.mp hsource
      obtain ⟨blocks, -, hsource⟩ := Compiled.bind_eq_ok.mp hsource
      cases hsource
      rfl
    · cases hsource
  have hkeys : component.props.keys = (component.page.script.getD {}).props.keys := by
    rw [hprops, Ordered.keys, Ordered.keys, List.map_map]
    exact List.map_congr_left fun entry hentry => (hnamed.named entry hentry).symm
  rw [hkeys]
  exact hnamed.nodup

/-! ## Failures of the resolution -/

theorem not_isInternal_of_nextTarget (hl : catalogs.layouts.failures = []) (hc : catalogs.components.failures = [])
    (h : nextTarget catalogs file nodes = .error d) : ¬ d.IsInternal := by
  rcases mem_failures_of_nextTarget h with ⟨key, hmem⟩ | ⟨key, hmem⟩ | ⟨name, hunknown⟩
  · rw [hl] at hmem
    cases hmem
  · rw [hc] at hmem
    cases hmem
  · rw [Diagnostic.IsInternal, hunknown]
    nofun

/-- The replacement of a use fails internally only when the component is put into the page. -/
theorem stops_replaceUse (hd : d.IsInternal) :
    Stops (replaceUse file role component nodes) a d ↔
      ∃ usage, (Template.usagesIn nodes).find? (isUseOf component ·.name) = some usage ∧
        Stops (inline file role component usage) a d := by
  unfold replaceUse
  split
  · rename_i hfind
    constructor
    · intro h
      rw [stops_throw] at h
      subst h
      cases hd
    · rintro ⟨usage, hsome, -⟩
      rw [hfind] at hsome
      cases hsome
  · rename_i usage hfind
    constructor
    · intro h
      rw [stops_bind] at h
      rcases h with h | ⟨copy, a₁, -, h⟩
      · exact ⟨usage, hfind, h⟩
      · split at h
        · exact absurd h stops_pure
        · rw [stops_throw] at h
          subst h
          cases hd
    · rintro ⟨usage', hsome, h⟩
      rw [hfind] at hsome
      cases hsome
      exact stops_bind.mpr (.inl h)

theorem Asks.mem_attributeIds (h : Asks file u a id) : id ∈ attributeIds u.usage.attributes := by
  cases h with
  | prop hid => exact boundIds_subset _ _ hid
  | @event b copied a₁ a₂ before after found attr _ _ _ hsplit _ haway =>
    have hattr : attr ∈ passedOn u.usage u.component.props.keys := by
      rw [hsplit]
      exact List.mem_append_right _ List.mem_cons_self
    exact Component.mem_attributeIds.mpr
      ⟨attr, (mem_passedOn.mp hattr).1, givenAway?_eq_some haway⟩

theorem Run.exact (hread : catalogs.AreRead)
    (hslots : ∀ component, catalogs.Knows component → (slotKeys component).Nodup) {s' : Stage}
    {n : Nat} {later : List String} (h : Run catalogs file s n later s') (hs : Sound taken s)
    (hexact : Exact s) : Exact s' := by
  induction h generalizing taken with
  | done s => exact hexact
  | step hstep _ ih =>
    have hdistinct := hslots _ (knows_of_nextTarget hstep.next.target)
    exact ih (hstep.sound hread hs) (hstep.exact hread hs hdistinct hexact)

/-- The resolution of a page fails internally exactly if, in the course of it, a use asks for an
expression that an earlier use took. With components whose slots are distinct this does not happen. -/
theorem resolve_internal_iff {source path : String} {p : Page} (options : Options)
    (hp : Page.read source path = .ok p) (hread : catalogs.AreRead)
    (hl : catalogs.layouts.failures = []) (hc : catalogs.components.failures = []) :
    ((∃ d, resolve catalogs options p = .error d ∧ d.IsInternal) ↔
      ∃ n taken s u id, Run catalogs p.file (.ofPage p) n taken s ∧ n < options.maxReplacements ∧
        IsNext catalogs p.file s u ∧ Asks p.file u s.parts id ∧ id ∈ taken) ∧
    ((∀ component, catalogs.Knows component → (slotKeys component).Nodup) →
      ∀ d, resolve catalogs options p = .error d → ¬ d.IsInternal) := by
  have hstart := sound_ofPage (Page.registered_of_read hp)
  have hiff : (∃ d, resolve catalogs options p = .error d ∧ d.IsInternal) ↔
      ∃ n taken s u id, Run catalogs p.file (.ofPage p) n taken s ∧ n < options.maxReplacements ∧
        IsNext catalogs p.file s u ∧ Asks p.file u s.parts id ∧ id ∈ taken := by
    constructor
    · rintro ⟨d, herror, hd⟩
      obtain ⟨n, taken, s, hrun, -, hfails⟩ :=
        run_of_stops (s := .ofPage p) (resolve_eq_error.mp herror)
      have hs := hrun.sound hread hstart
      cases hfails with
      | target h => exact absurd hd (not_isInternal_of_nextTarget hl hc h)
      | limit h heq => cases hd
      | @use role component _ htarget hlt hstops =>
        obtain ⟨usage, hfind, hinline⟩ := (stops_replaceUse hd).mp hstops
        have hnext : IsNext catalogs p.file s ⟨role, component, usage⟩ := ⟨htarget, hfind⟩
        have hkeys := hread.nodup_props (knows_of_nextTarget htarget)
        obtain ⟨id, hid, hasks⟩ := (hs.stops_inline_iff hread hnext hkeys).mp ⟨d, hd, hinline⟩
        exact ⟨n, taken, s, _, id, hrun, hlt, hnext, hasks, hid⟩
    · rintro ⟨n, taken, s, u, id, hrun, hlt, hnext, hasks, hid⟩
      have hs := hrun.sound hread hstart
      have hkeys := hread.nodup_props (knows_of_nextTarget hnext.target)
      obtain ⟨d, hd, hinline⟩ := (hs.stops_inline_iff hread hnext hkeys).mpr ⟨id, hid, hasks⟩
      have huse := (stops_replaceUse hd).mpr ⟨u.usage, hnext.usage, hinline⟩
      exact ⟨d, resolve_eq_error.mpr
        (stops_of_run hrun (Nat.le_of_lt hlt) (.use hnext.target hlt huse)), hd⟩
  refine ⟨hiff, ?_⟩
  intro hslots d herror hd
  obtain ⟨n, taken, s, u, id, hrun, -, hnext, hasks, hid⟩ := hiff.mp ⟨d, herror, hd⟩
  have hregistered := Page.registered_of_read hp
  have hexact : Exact (.ofPage p) :=
    ⟨hregistered.perm.nodup_iff.mpr hregistered.nodup, fun _ hid => hregistered.perm.subset hid⟩
  have hs := hrun.exact hread hslots hstart hexact
  exact (hrun.sound hread hstart).gone id hid (hs.covered id (hnext.mem_idsIn hasks.mem_attributeIds))

/-! ## A slot that is filled twice -/

/-- A component that shows its content twice, and one with a prop. -/
def twiceSources : List (String × String) :=
  [("Wrap.zen", "<div><Slot /><Slot /></div>"),
    ("Inner.zen", "<script>prop label</script><p>\x7blabel\x7d</p>")]

def twiceCatalogs : Catalogs where
  components := (Catalog.ofSources twiceSources).toOption.getD {}

theorem ofSources_twice : Catalog.ofSources twiceSources = .ok twiceCatalogs.components := by
  have hparses : (Catalog.ofSources twiceSources).toOption.isSome = true := by decide +kernel
  rw [twiceCatalogs]
  exact Compiled.eq_ok_getD hparses {}

theorem areRead_twice : twiceCatalogs.AreRead :=
  @areRead_of_ofSources [] twiceSources twiceCatalogs rfl ofSources_twice

/-- A page with an expression inside of the content that is shown twice. -/
def twicePage : String :=
  "<Wrap><Inner label=\x7b1\x7d /></Wrap>"

theorem exists_resolve_twice : ∃ p d, Page.read twicePage "page.zen" = .ok p ∧
    resolve twiceCatalogs {} p = .error d ∧ d.IsInternal := by
  have hfault : (match Page.read twicePage "page.zen" with
      | .error _ => none
      | .ok p => match resolve twiceCatalogs {} p with
        | .error d => some d.fault.kind
        | .ok _ => none) = some .internal := by
    decide +kernel
  split at hfault
  · cases hfault
  · rename_i p hp
    split at hfault
    · rename_i d hd
      exact ⟨p, d, hp, hd, Option.some.inj hfault⟩
    · cases hfault

/-- In a page that was read, with components that were read, the second copy of the inner use asks for
the expression that the first one took, and the resolution fails internally. -/
theorem resolve_internal_of_twice :
    (∃ components, Catalog.ofSources twiceSources = .ok components ∧
      twiceCatalogs = { components }) ∧
    ∃ p d, Page.read twicePage "page.zen" = .ok p ∧ resolve twiceCatalogs {} p = .error d ∧
      d.IsInternal :=
  ⟨⟨twiceCatalogs.components, ofSources_twice, rfl⟩, exists_resolve_twice⟩

/-- The run to the second copy, in which the expression was taken before. -/
theorem resolve_internal_iff_twice :
    ∃ p, Page.read twicePage "page.zen" = .ok p ∧
      ∃ n taken s u id, Run twiceCatalogs p.file (.ofPage p) n taken s ∧
        n < Options.maxReplacements {} ∧ IsNext twiceCatalogs p.file s u ∧
        Asks p.file u s.parts id ∧ id ∈ taken := by
  obtain ⟨p, d, hp, herror, hd⟩ := exists_resolve_twice
  have hiff := resolve_internal_iff {} hp areRead_twice rfl (failures_of_ofSources ofSources_twice)
  exact ⟨p, hp, hiff.1.mp ⟨d, herror, hd⟩⟩

end Component

end PageCompiler
