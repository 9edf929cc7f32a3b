import PageCompiler.Proofs.InliningFaults
import PageCompiler.Proofs.InstanceNames
import PageCompiler.Proofs.PlacedCopies

/-!
# Exact replacements

One step of a resolution looks for its target with the catalogs and replaces the first use with the target's name. In
catalogs that are filled by inserting components both find the same use (`Step.replacesFirst`): the first use of a
layout, or, where no layout is used, the first use of all. The template around that use stays as it is, which is said
by one `Template.Opening` for both templates. So a resolution is a sequence of such replacements
(`replacements_of_resolve`); it never stalls, and where it ends well no use is left anywhere.
-/

namespace PageCompiler

open Template (Node Wrapper Opening usagesIn namesIn replaceFirstIn?)

/-! ## Catalogs that are filled -/

namespace Catalog

/-- A catalog that is filled by inserting components, and failures of files that could not be read as such; no file
fails by a resolution that stalled. -/
inductive Filled : Catalog → Prop
  | empty : Filled {}
  | insert {c : Catalog} (component : Component) : Filled c → Filled (c.insert component)
  | insertFailure {c : Catalog} (name : String) {d : Diagnostic} :
      Filled c → d.fault.kind ≠ .resolutionStalled → Filled (c.insertFailure name d)

variable {c : Catalog} {component : Component} {name other : String} {d : Diagnostic}

theorem Filled.key_eq (h : c.Filled) : ∀ entry ∈ c.components, entry.1 = lowerString entry.2.name := by
  induction h with
  | empty => nofun
  | insert component _ ih =>
    intro entry hentry
    rcases Ordered.mem_of_mem_insertNew hentry with hold | rfl
    · exact ih entry hold
    · rfl
  | insertFailure name _ _ ih => exact ih

theorem Filled.not_stalled (h : c.Filled) : ∀ entry ∈ c.failures, entry.2.fault.kind ≠ .resolutionStalled := by
  induction h with
  | empty => nofun
  | insert component _ ih => exact ih
  | insertFailure name _ hd ih =>
    intro entry hentry
    rcases Ordered.mem_of_mem_insertNew hentry with hold | rfl
    · exact ih entry hold
    · exact hd

/-- The component that is found has the name that was looked up, but for the case of letters. -/
theorem Filled.lower_of_lookup (h : c.Filled) (hfound : c.lookup name = .ok (some component)) :
    lowerString component.name = lowerString name := by
  simp only [lookup] at hfound
  split at hfound
  · rename_i found hget
    cases hfound
    exact (h.key_eq _ (Ordered.mem_of_get? hget)).symm
  · split at hfound <;> cases hfound

/-- Names are looked up without regard to case. -/
theorem lookup_congr (h : lowerString name = lowerString other) : c.lookup name = c.lookup other := by
  simp only [lookup, h]

end Catalog

namespace Component

variable {catalog : Catalog} {usages : List Usage} {component : Component} {d : Diagnostic}

variable {catalogs : Catalogs} {file : String} {nodes : List Node}

theorem usagesIn_of_nextTarget_eq_none (h : nextTarget catalogs file nodes = .ok none) : usagesIn nodes = [] := by
  rw [nextTarget] at h
  obtain ⟨layout, hlayout, h⟩ := Compiled.bind_eq_ok.mp h
  cases layout with
  | some layout => cases h
  | none =>
    dsimp only at h
    split at h
    · rename_i husages
      exact husages
    · obtain ⟨found, hlookup, h⟩ := Compiled.bind_eq_ok.mp h
      cases found <;> cases h

theorem not_stalled_of_nextTarget (hl : catalogs.layouts.Filled) (hc : catalogs.components.Filled)
    (h : nextTarget catalogs file nodes = .error d) : d.fault.kind ≠ .resolutionStalled := by
  rcases mem_failures_of_nextTarget h with ⟨key, hmem⟩ | ⟨key, hmem⟩ | ⟨name, hunknown⟩
  · exact hl.not_stalled _ hmem
  · exact hc.not_stalled _ hmem
  · rw [hunknown]
    nofun

theorem isUseOf_iff {name : String} :
    isUseOf component name = true ↔ lowerString name = lowerString component.name := by
  rw [isUseOf, beq_iff_eq]

/-- The first use with the name of the target is the target: an earlier use with its name would be known too. -/
theorem Targets.find?_eq (hl : catalogs.layouts.Filled) (hc : catalogs.components.Filled) {t : Use}
    (h : Targets catalogs usages t) :
    usages.find? (isUseOf t.component ·.name) = some t.usage ∧ isUseOf t.component t.usage.name = true := by
  cases h with
  | layout husages hbefore hu =>
    have htest := isUseOf_iff.mpr (hl.lower_of_lookup hu).symm
    refine ⟨?_, htest⟩
    rw [husages, List.find?_append, List.find?_eq_none.mpr ?_, Option.none_or]
    · exact List.find?_cons_of_pos htest
    · -- an earlier use with the name of the target would have been the target
      intro v hv hsame
      have hfound := hbefore v hv
      rw [Catalog.lookup_congr ((isUseOf_iff.mp hsame).trans (hl.lower_of_lookup hu)), hu] at hfound
      cases hfound
  | component husages hnone hu =>
    have htest := isUseOf_iff.mpr (hc.lower_of_lookup hu).symm
    refine ⟨?_, htest⟩
    rw [husages]
    exact List.find?_cons_of_pos htest

/-! ## Steps -/

/-- The use at the opening is the one to be replaced: the first use of a layout in document order, or, where no layout is
used, the first use of all. -/
inductive ComesFirst (catalogs : Catalogs) (o : Opening) : Use → Prop
  | layout {component : Component} {u : Usage} : catalogs.layouts.lookup u.name = .ok (some component) →
      (∀ name ∈ o.namesBefore, catalogs.layouts.lookup name = .ok none) → ComesFirst catalogs o ⟨.layout, component, u⟩
  | component {component : Component} {u : Usage} : catalogs.components.lookup u.name = .ok (some component) →
      o.namesBefore = [] → (∀ name ∈ namesIn (o.put [u.node]), catalogs.layouts.lookup name = .ok none) →
      ComesFirst catalogs o ⟨.component, component, u⟩

/-- The use that comes first gives way to the nodes of its inlining; the template around it stays as it is. -/
def ReplacesFirst (catalogs : Catalogs) (file : String) (s : Stage) (u : Use) (s' : Stage) : Prop :=
  ∃ o copy, s.nodes = Opening.put [u.usage.node] o ∧ ComesFirst catalogs o u ∧
    Builds (inline file u.role u.component u.usage) s.parts copy s'.parts ∧ s'.nodes = o.put copy

/-- Up to an item that fails a test, only items before it pass. -/
theorem takeWhile_append_cons_subset {α : Type} {p : α → Bool} {before after : List α} {x : α} (hx : p x = false) :
    (before ++ x :: after).takeWhile p ⊆ before := by
  rw [List.takeWhile_append]
  split
  · rw [List.takeWhile_cons_of_neg (by simp [hx]), List.append_nil]
    exact List.Subset.refl _
  · exact (List.takeWhile_sublist p).subset

theorem Targets.comesFirst (hl : catalogs.layouts.Filled) (hc : catalogs.components.Filled) {t : Use}
    (h : Targets catalogs (usagesIn nodes) t) {replace : List Node → Option (List Node)} {o : Opening}
    (ho : Template.FirstAt (isUseOf t.component) t.usage nodes replace o) : ComesFirst catalogs o t := by
  have htest := (h.find?_eq hl hc).2
  have hbefore := ho.namesBefore_eq htest
  cases h with
  | @layout component before after u husages hunknown hu =>
    refine .layout hu fun name hname => ?_
    have hnames : namesIn nodes = before.map (·.name) ++ u.name :: after.map (·.name) := by
      rw [namesIn, husages, List.map_append, List.map_cons]
    rw [hbefore, hnames] at hname
    obtain ⟨v, hv, rfl⟩ := List.mem_map.mp (takeWhile_append_cons_subset (by simp [htest]) hname)
    exact hunknown v hv
  | @component component after u husages hunknown hu =>
    refine .component hu ?_ fun name hname => ?_
    · rw [hbefore, namesIn, husages, List.map_cons, List.takeWhile_cons_of_neg (by simp [htest])]
    · rw [← ho.nodes_eq] at hname
      obtain ⟨v, hv, rfl⟩ := List.mem_map.mp hname
      exact hunknown v hv

/-- A step replaces the use that comes first, and nothing else. -/
theorem Step.replacesFirst (hl : catalogs.layouts.Filled) (hc : catalogs.components.Filled) {s s' : Stage} {u : Use}
    (h : Step catalogs file s u s') : ReplacesFirst catalogs file s u s' := by
  obtain ⟨v, htargets⟩ := exists_targets_of_nextTarget h.next.target
  -- the search by catalogs and the search by name find the same use
  have hsame : v = u.usage := Option.some.inj ((htargets.find?_eq hl hc).1.symm.trans h.next.usage)
  subst hsame
  obtain ⟨copy, hinline, hreplace⟩ := h.replaced
  obtain ⟨o, ho⟩ := Template.exists_firstAt s.nodes h.next.usage
  have hnodes : o.put copy = s'.nodes := Option.some.inj ((ho.replace_eq copy).symm.trans hreplace)
  exact ⟨o, copy, ho.nodes_eq, htargets.comesFirst hl hc ho, hinline, hnodes.symm⟩

theorem not_stalled_of_replaceUse (hl : catalogs.layouts.Filled) (hc : catalogs.components.Filled) {role : Role}
    (htarget : nextTarget catalogs file nodes = .ok (some (role, component))) {a : Assembly}
    (h : Stops (replaceUse file role component nodes) a d) : d.fault.kind ≠ .resolutionStalled := by
  obtain ⟨u, htargets⟩ := exists_targets_of_nextTarget htarget
  have hfind := (htargets.find?_eq hl hc).1
  obtain ⟨o, ho⟩ := Template.exists_firstAt nodes hfind
  unfold replaceUse at h
  rw [hfind] at h
  rcases stops_bind.mp h with h | ⟨copy, a', -, h⟩
  · exact ((inlinesOnly_inline ..).fault h).not_stalled
  · rw [ho.replace_eq] at h
    exact absurd h stops_pure

theorem Fails.not_stalled (hl : catalogs.layouts.Filled) (hc : catalogs.components.Filled) {limit left n : Nat}
    {s : Stage} (h : Fails catalogs file limit left n s d) : d.fault.kind ≠ .resolutionStalled := by
  cases h with
  | target h => exact not_stalled_of_nextTarget hl hc h
  | limit => nofun
  | use htarget _ hstops => exact not_stalled_of_replaceUse hl hc htarget hstops

/-! ## The whole resolution -/

theorem ne_put_of_usagesIn_eq_nil (h : usagesIn nodes = []) (o : Opening) (u : Usage) : nodes ≠ o.put [u.node] := by
  rintro rfl
  have hnames := o.names_put [u.node]
  rw [namesIn, h] at hnames
  simp [namesIn, Usage.node, usagesIn, Template.Node.usages] at hnames

/-- With catalogs that are filled, every step of a resolution replaces the first use of a layout, or, where there is none,
the first use, by the nodes of its inlining, and leaves the rest of the template as it is. A resolution is a run of such
steps, of no more than the limit allows. If it ends well, no use is left anywhere; if it fails, it did not stall. -/
theorem resolve_replaces_first (hl : catalogs.layouts.Filled) (hc : catalogs.components.Filled) (options : Options)
    (p : Page) :
    (∀ s u s', Step catalogs p.file s u s' → ReplacesFirst catalogs p.file s u s') ∧
    (∀ count page, resolve catalogs options p = .ok (count, page) →
      (∃ taken a, Run catalogs p.file (.ofPage p) count taken ⟨page.nodes, a⟩) ∧ count ≤ options.maxReplacements ∧
        ∀ o u, page.nodes ≠ Opening.put [Usage.node u] o) ∧
    ∀ d, resolve catalogs options p = .error d → d.fault.kind ≠ .resolutionStalled ∧
      ∃ n taken s, Run catalogs p.file (.ofPage p) n taken s ∧ n ≤ options.maxReplacements ∧
        Fails catalogs p.file options.maxReplacements options.maxReplacements n s d := by
  refine ⟨fun s u s' hstep => hstep.replacesFirst hl hc, ?_, ?_⟩
  · intro count page hresolve
    obtain ⟨taken, a, hrun, hlast, -⟩ := run_of_resolve hresolve
    obtain ⟨⟨⟨count', nodes⟩, a'⟩, hnodes, hpage⟩ := Compiled.bind_eq_ok.mp hresolve
    cases hpage
    exact ⟨⟨taken, a, hrun⟩, count_le_of_resolveNodes hnodes,
      ne_put_of_usagesIn_eq_nil (usagesIn_of_nextTarget_eq_none hlast)⟩
  · intro d herror
    obtain ⟨n, taken, s, hrun, hle, hfails⟩ :=
      run_of_stops (s := .ofPage p) (resolve_eq_error.mp herror)
    exact ⟨hfails.not_stalled hl hc, n, taken, s, hrun, hle, hfails⟩

/-! ## A layout inside of a component -/

theorem filled_of_ofSources {sources : List (String × String)} (h : Catalog.ofSources sources = .ok catalog) :
    catalog.Filled :=
  ofSources_induction Catalog.Filled .empty (fun _ _ _ component hcatalog _ => hcatalog.insert component) h

/-- A layout and a component that show what is passed to them. -/
def nestedCatalogs : Catalogs where
  layouts := (Catalog.ofSources [("Top.zen", "<Slot />")]).toOption.getD {}
  components := (Catalog.ofSources [("Card.zen", "<Slot />")]).toOption.getD {}

theorem filled_nestedCatalogs : nestedCatalogs.layouts.Filled ∧ nestedCatalogs.components.Filled := by
  have hlayouts : (Catalog.ofSources [("Top.zen", "<Slot />")]).toOption.isSome = true := by decide +kernel
  have hcomponents : (Catalog.ofSources [("Card.zen", "<Slot />")]).toOption.isSome = true := by decide +kernel
  exact ⟨filled_of_ofSources (Compiled.eq_ok_getD hlayouts {}),
    filled_of_ofSources (Compiled.eq_ok_getD hcomponents {})⟩

/-- A page that uses the layout inside of the component, spelled in capitals, takes two replacements. -/
theorem resolve_replaces_first_nested :
    ∃ p page, Page.read "<Card><TOP>x</TOP></Card>" "page.zen" = .ok p ∧
      resolve nestedCatalogs {} p = .ok (2, page) ∧
      (∃ taken a, Run nestedCatalogs p.file (.ofPage p) 2 taken ⟨page.nodes, a⟩) ∧
      ∀ o u, page.nodes ≠ Opening.put [Usage.node u] o := by
  obtain ⟨p, hp, htest⟩ := exists_eq_ok_of_any (show (Page.read "<Card><TOP>x</TOP></Card>" "page.zen").toOption.any
    (fun p => (resolve nestedCatalogs {} p).toOption.any (·.1 == 2)) = true by decide +kernel)
  obtain ⟨⟨count, page⟩, hresolve, hcount⟩ := exists_eq_ok_of_any htest
  obtain rfl : count = 2 := by simpa using hcount
  obtain ⟨hl, hc⟩ := filled_nestedCatalogs
  obtain ⟨hrun, -, hnone⟩ := (resolve_replaces_first hl hc {} p).2.1 2 page hresolve
  exact ⟨p, page, hp, hresolve, hrun, hnone⟩

end Component

end PageCompiler
