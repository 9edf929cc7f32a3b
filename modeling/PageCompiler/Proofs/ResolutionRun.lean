import PageCompiler.Component.Resolution
import PageCompiler.Proofs.Inlining
import PageCompiler.Proofs.TemplateReading

/-!
# Runs of the resolution

Resolution replaces one use after another. A `Stage` is what there is between two replacements, a
`Step` is one replacement, and a `Run` is a sequence of them together with the ids of the expressions
that they took out of the page. `run_of_resolveNodes`, `run_of_stops` and `stops_of_run` say that
resolving a page is such a run: up to a stage without uses, or up to a stage at which it fails.
-/

namespace PageCompiler.Component

open Template (Node usagesIn replaceFirstIn? expressionId freshIds)

variable {sources : List (String × String)} {catalog : Catalog} {component : Component} {nodes : List Node}
  {role : Role} {a a' : Assembly} {limit left count n : Nat} {d : Diagnostic} {taken : List String} {options : Options}
  {p : Page}

variable {name source path : String} {nodes' : List Node} {page : Page}

/-! ## Components that are read from sources -/

/-- One of the catalogs holds the component. -/
def Catalogs.Knows (catalogs : Catalogs) (component : Component) : Prop :=
  ∃ key, (key, component) ∈ catalogs.layouts.components ∨
    (key, component) ∈ catalogs.components.components

/-- All layouts and components of the catalogs were read from sources. -/
def Catalogs.AreRead (catalogs : Catalogs) : Prop :=
  ∀ component, catalogs.Knows component → ∃ source file, Component.read source file = .ok component

/-- What holds of the empty catalog and is kept by each component holds of a catalog of sources. -/
theorem ofSources_induction (motive : Catalog → Prop) (hempty : motive {})
    (hinsert : ∀ catalog source path component, motive catalog →
      Component.read source path = .ok component → motive (catalog.insert component))
    (h : Catalog.ofSources sources = .ok catalog) : motive catalog := by
  have hfold : ∀ start : Catalog, motive start →
      sources.foldlM (fun (c : Catalog) (entry : String × String) => do
        return c.insert (← Component.read entry.2 entry.1)) start = .ok catalog → motive catalog := by
    clear h
    induction sources with
    | nil =>
      intro start hstart h
      cases h
      exact hstart
    | cons pair sources ih =>
      intro start hstart h
      rw [List.foldlM_cons] at h
      obtain ⟨next, hnext, hrest⟩ := Compiled.bind_eq_ok.mp h
      obtain ⟨component, hread, hnext⟩ := Compiled.bind_eq_ok.mp hnext
      cases hnext
      exact ih _ (hinsert start pair.2 pair.1 component hstart hread) hrest
  exact hfold {} hempty h

theorem read_of_ofSources (h : Catalog.ofSources sources = .ok catalog) :
    ∀ entry ∈ catalog.components, ∃ source file, Component.read source file = .ok entry.2 := by
  refine ofSources_induction (fun c => ∀ entry ∈ c.components,
    ∃ source file, Component.read source file = .ok entry.2) (by simp) ?_ h
  intro catalog source path component hcatalog hread entry hentry
  simp only [Catalog.insert, Ordered.insertNew] at hentry
  split at hentry
  · exact hcatalog entry hentry
  · rcases List.mem_append.mp hentry with hold | hnew
    · exact hcatalog entry hold
    · rw [List.mem_singleton] at hnew
      exact ⟨source, path, by rw [hnew, hread]⟩

theorem failures_of_ofSources (h : Catalog.ofSources sources = .ok catalog) : catalog.failures = [] :=
  ofSources_induction (·.failures = []) rfl (fun _ _ _ _ hcatalog _ => hcatalog) h

theorem areRead_of_ofSources {layouts components : List (String × String)} {catalogs : Catalogs}
    (hl : Catalog.ofSources layouts = .ok catalogs.layouts)
    (hc : Catalog.ofSources components = .ok catalogs.components) : catalogs.AreRead := by
  rintro component ⟨key, hmem | hmem⟩
  · exact read_of_ofSources hl _ hmem
  · exact read_of_ofSources hc _ hmem

theorem mem_of_lookup (h : catalog.lookup name = .ok (some component)) :
    ∃ key, (key, component) ∈ catalog.components := by
  simp only [Catalog.lookup] at h
  split at h
  · rename_i found hget
    cases h
    exact ⟨_, Ordered.mem_of_get? hget⟩
  · split at h
    · cases h
    · cases h

theorem mem_failures_of_lookup (h : catalog.lookup name = .error d) : ∃ key, (key, d) ∈ catalog.failures := by
  simp only [Catalog.lookup] at h
  split at h
  · cases h
  · split at h
    · rename_i failure hget
      cases h
      exact ⟨_, Ordered.mem_of_get? hget⟩
    · cases h

section
variable {usages : List Usage}

theorem exists_of_firstKnown (h : firstKnown catalog usages = .ok (some component)) :
    ∃ before u after, usages = before ++ u :: after ∧ (∀ v ∈ before, catalog.lookup v.name = .ok none) ∧
      catalog.lookup u.name = .ok (some component) := by
  induction usages with
  | nil => cases h
  | cons u us ih =>
    rw [firstKnown] at h
    obtain ⟨found, hlookup, h⟩ := Compiled.bind_eq_ok.mp h
    cases found with
    | none =>
      obtain ⟨before, v, after, rfl, hbefore, hv⟩ := ih h
      refine ⟨u :: before, v, after, rfl, ?_, hv⟩
      exact List.forall_mem_cons.mpr ⟨hlookup, hbefore⟩
    | some found =>
      cases h
      exact ⟨[], u, us, rfl, List.forall_mem_nil _, hlookup⟩

theorem lookup_of_firstKnown_eq_none (h : firstKnown catalog usages = .ok none) :
    ∀ v ∈ usages, catalog.lookup v.name = .ok none := by
  induction usages with
  | nil => exact List.forall_mem_nil _
  | cons u us ih =>
    rw [firstKnown] at h
    obtain ⟨found, hlookup, h⟩ := Compiled.bind_eq_ok.mp h
    cases found with
    | none => exact List.forall_mem_cons.mpr ⟨hlookup, ih h⟩
    | some found => cases h

theorem mem_failures_of_firstKnown (h : firstKnown catalog usages = .error d) :
    ∃ key, (key, d) ∈ catalog.failures := by
  induction usages with
  | nil => cases h
  | cons u us ih =>
    rw [firstKnown] at h
    rcases Compiled.bind_eq_error.mp h with h | ⟨found, -, h⟩
    · exact mem_failures_of_lookup h
    · cases found with
      | none => exact ih h
      | some found => cases h

end

/-! ## Steps and runs -/

/-- What there is between two replacements: the nodes of the page and its other parts. -/
structure Stage where
  nodes : List Node
  parts : Assembly

/-- A use that is replaced, and what replaces it. -/
structure Use where
  role : Role
  component : Component
  usage : Usage

variable {s s' : Stage} {u : Use}

section
variable {catalogs : Catalogs} {file : String}

/-- The target of a step is what the first use of a layout uses, or, where no layout is used, the first use. -/
inductive Targets (catalogs : Catalogs) (usages : List Usage) : Use → Prop
  | layout {component : Component} {before after : List Usage} {u : Usage} : usages = before ++ u :: after →
      (∀ v ∈ before, catalogs.layouts.lookup v.name = .ok none) →
      catalogs.layouts.lookup u.name = .ok (some component) → Targets catalogs usages ⟨.layout, component, u⟩
  | component {component : Component} {after : List Usage} {u : Usage} : usages = u :: after →
      (∀ v ∈ usages, catalogs.layouts.lookup v.name = .ok none) →
      catalogs.components.lookup u.name = .ok (some component) → Targets catalogs usages ⟨.component, component, u⟩

theorem exists_targets_of_nextTarget (h : nextTarget catalogs file nodes = .ok (some (role, component))) :
    ∃ u, Targets catalogs (usagesIn nodes) ⟨role, component, u⟩ := by
  rw [nextTarget] at h
  obtain ⟨layout, hlayout, h⟩ := Compiled.bind_eq_ok.mp h
  cases layout with
  | some layout =>
    cases h
    obtain ⟨before, u, after, husages, hbefore, hu⟩ := exists_of_firstKnown hlayout
    exact ⟨u, .layout husages hbefore hu⟩
  | none =>
    have hnone := lookup_of_firstKnown_eq_none hlayout
    dsimp only at h
    split at h
    · cases h
    · rename_i u after husages
      obtain ⟨found, hlookup, h⟩ := Compiled.bind_eq_ok.mp h
      cases found with
      | none => cases h
      | some found =>
        cases h
        exact ⟨u, .component husages hnone hlookup⟩

/-- There is no answer if a file of a catalog failed, or if the first use is one of nothing known. -/
theorem mem_failures_of_nextTarget (h : nextTarget catalogs file nodes = .error d) :
    (∃ key, (key, d) ∈ catalogs.layouts.failures) ∨ (∃ key, (key, d) ∈ catalogs.components.failures) ∨
      ∃ name, d.fault = .unknownComponent name := by
  rw [nextTarget] at h
  rcases Compiled.bind_eq_error.mp h with h | ⟨layout, -, h⟩
  · exact .inl (mem_failures_of_firstKnown h)
  · cases layout with
    | some layout => cases h
    | none =>
      dsimp only at h
      split at h
      · cases h
      · rcases Compiled.bind_eq_error.mp h with h | ⟨found, -, h⟩
        · exact .inr (.inl (mem_failures_of_lookup h))
        · cases found with
          | none =>
            cases h
            exact .inr (.inr ⟨_, rfl⟩)
          | some found => cases h

theorem knows_of_nextTarget (h : nextTarget catalogs file nodes = .ok (some (role, component))) :
    catalogs.Knows component := by
  obtain ⟨u, htarget⟩ := exists_targets_of_nextTarget h
  cases htarget with
  | layout _ _ hu =>
    obtain ⟨key, hmem⟩ := mem_of_lookup hu
    exact ⟨key, .inl hmem⟩
  | component _ _ hu =>
    obtain ⟨key, hmem⟩ := mem_of_lookup hu
    exact ⟨key, .inr hmem⟩

end

/-- The use is the one that is replaced next. -/
structure IsNext (catalogs : Catalogs) (file : String) (s : Stage) (u : Use) : Prop where
  target : nextTarget catalogs file s.nodes = .ok (some (u.role, u.component))
  usage : (usagesIn s.nodes).find? (isUseOf u.component ·.name) = some u.usage

/-- One replacement. -/
structure Step (catalogs : Catalogs) (file : String) (s : Stage) (u : Use) (s' : Stage) : Prop where
  next : IsNext catalogs file s u
  replaced : ∃ copy, Builds (inline file u.role u.component u.usage) s.parts copy s'.parts ∧
    replaceFirstIn? (isUseOf u.component) copy s.nodes = some s'.nodes

def Stage.lost (s s' : Stage) : List String :=
  s.parts.ids.filter fun id => !s'.parts.ids.contains id

/-- So many replacements lead from one stage to another, and take out the expressions with the given
ids on the way. -/
inductive Run (catalogs : Catalogs) (file : String) : Stage → Nat → List String → Stage → Prop
  | done (s : Stage) : Run catalogs file s 0 [] s
  | step {s s' s'' : Stage} {u : Use} {n : Nat} {taken : List String} :
      Step catalogs file s u s' → Run catalogs file s' n taken s'' →
      Run catalogs file s (n + 1) (s.lost s' ++ taken) s''

variable {catalogs : Catalogs} {file : String}

theorem builds_replaceUse (h : Builds (replaceUse file role component nodes) a nodes' a') :
    ∃ usage copy, (usagesIn nodes).find? (isUseOf component ·.name) = some usage ∧
      Builds (inline file role component usage) a copy a' ∧
      replaceFirstIn? (isUseOf component) copy nodes = some nodes' := by
  unfold replaceUse at h
  split at h
  · simp at h
  · rename_i usage hfind
    rw [builds_bind] at h
    obtain ⟨copy, a₁, hinline, h⟩ := h
    split at h
    · rename_i replaced hreplace
      obtain ⟨rfl, rfl⟩ := builds_pure.mp h
      exact ⟨usage, copy, hfind, hinline, hreplace⟩
    · simp at h

theorem Step.builds (h : Step catalogs file s u s') :
    Builds (replaceUse file u.role u.component s.nodes) s.parts s'.nodes s'.parts := by
  obtain ⟨copy, hinline, hreplace⟩ := h.replaced
  unfold replaceUse
  rw [h.next.usage]
  simp only [builds_bind]
  refine ⟨copy, s'.parts, hinline, ?_⟩
  rw [hreplace]
  exact builds_pure.mpr ⟨rfl, rfl⟩

/-- A resolution that ends well is a run to a stage without uses. -/
theorem run_of_resolveNodes (h : Builds (resolveNodes catalogs file limit left nodes) a (count, nodes') a') :
    ∃ taken, Run catalogs file ⟨nodes, a⟩ count taken ⟨nodes', a'⟩ ∧
      nextTarget catalogs file nodes' = .ok none := by
  induction left generalizing nodes a count with
  | zero =>
    rw [resolveNodes, builds_bind] at h
    obtain ⟨target, a₀, hlift, h⟩ := h
    obtain ⟨hnext, rfl⟩ := builds_lift.mp hlift
    cases target with
    | none =>
      obtain ⟨hpair, rfl⟩ := builds_pure.mp h
      cases hpair
      exact ⟨[], .done _, hnext⟩
    | some target => simp at h
  | succ left ih =>
    rw [resolveNodes, builds_bind] at h
    obtain ⟨target, a₀, hlift, h⟩ := h
    obtain ⟨hnext, rfl⟩ := builds_lift.mp hlift
    cases target with
    | none =>
      obtain ⟨hpair, rfl⟩ := builds_pure.mp h
      cases hpair
      exact ⟨[], .done _, hnext⟩
    | some target =>
      obtain ⟨role, component⟩ := target
      simp only [builds_bind, builds_pure] at h
      obtain ⟨nodes₁, a₁, huse, ⟨count', nodes₂⟩, a₂, hrest, hpair, rfl⟩ := h
      cases hpair
      obtain ⟨usage, copy, hfind, hinline, hreplace⟩ := builds_replaceUse huse
      obtain ⟨taken, hrun, hlast⟩ := ih hrest
      have hstep : Step catalogs file ⟨nodes, a₀⟩ ⟨role, component, usage⟩ ⟨nodes₁, a₁⟩ :=
        ⟨⟨hnext, hfind⟩, copy, hinline, hreplace⟩
      exact ⟨_, .step hstep hrun, hlast⟩

/-- What can stop a resolution at a stage, after `n` replacements of `left`. -/
inductive Fails (catalogs : Catalogs) (file : String) (limit left n : Nat) (s : Stage) :
    Diagnostic → Prop
  | target {d : Diagnostic} : nextTarget catalogs file s.nodes = .error d →
      Fails catalogs file limit left n s d
  | limit {role : Role} {component : Component} :
      nextTarget catalogs file s.nodes = .ok (some (role, component)) → n = left →
      Fails catalogs file limit left n s { fault := .resolutionLimit limit component.name, file }
  | use {role : Role} {component : Component} {d : Diagnostic} :
      nextTarget catalogs file s.nodes = .ok (some (role, component)) → n < left →
      Stops (replaceUse file role component s.nodes) s.parts d → Fails catalogs file limit left n s d

theorem Fails.succ : Fails catalogs file limit (left + 1) (n + 1) s d ↔ Fails catalogs file limit left n s d := by
  constructor
  · intro h
    cases h with
    | target h => exact .target h
    | limit h heq => exact .limit h (by omega)
    | use h hlt hstops => exact .use h (by omega) hstops
  · intro h
    cases h with
    | target h => exact .target h
    | limit h heq => exact .limit h (by omega)
    | use h hlt hstops => exact .use h (by omega) hstops

theorem run_of_stops (h : Stops (resolveNodes catalogs file limit left s.nodes) s.parts d) :
    ∃ n taken s', Run catalogs file s n taken s' ∧ n ≤ left ∧
      Fails catalogs file limit left n s' d := by
  induction left generalizing s with
  | zero =>
    rw [resolveNodes, stops_bind, stops_lift] at h
    rcases h with h | ⟨target, a₀, hlift, h⟩
    · exact ⟨0, [], s, .done s, Nat.zero_le _, .target h⟩
    · obtain ⟨htarget, rfl⟩ := builds_lift.mp hlift
      cases target with
      | none => exact absurd h stops_pure
      | some target =>
        obtain ⟨role, component⟩ := target
        rw [← stops_throw.mp h]
        exact ⟨0, [], s, .done s, Nat.zero_le _, .limit htarget rfl⟩
  | succ left ih =>
    rw [resolveNodes, stops_bind, stops_lift] at h
    rcases h with h | ⟨target, a₀, hlift, h⟩
    · exact ⟨0, [], s, .done s, Nat.zero_le _, .target h⟩
    · obtain ⟨htarget, rfl⟩ := builds_lift.mp hlift
      cases target with
      | none => exact absurd h stops_pure
      | some target =>
        obtain ⟨role, component⟩ := target
        simp only [stops_bind, stops_pure, and_false, exists_false, or_false] at h
        rcases h with h | ⟨nodes₁, a₁, huse, h⟩
        · exact ⟨0, [], s, .done s, Nat.zero_le _, .use htarget (Nat.succ_pos left) h⟩
        · obtain ⟨usage, copy, hfind, hinline, hreplace⟩ := builds_replaceUse huse
          obtain ⟨n, taken, s', hrun, hle, hfails⟩ := @ih ⟨nodes₁, a₁⟩ h
          have hstep : Step catalogs file s ⟨role, component, usage⟩ ⟨nodes₁, a₁⟩ :=
            ⟨⟨htarget, hfind⟩, copy, hinline, hreplace⟩
          exact ⟨n + 1, _, s', .step hstep hrun, Nat.succ_le_succ hle, Fails.succ.mpr hfails⟩

/-- A stage at which the resolution fails makes it fail from where the run to that stage began. -/
theorem stops_of_run (h : Run catalogs file s n taken s') (hle : n ≤ left)
    (hfails : Fails catalogs file limit left n s' d) :
    Stops (resolveNodes catalogs file limit left s.nodes) s.parts d := by
  induction h generalizing left with
  | done s =>
    rw [resolveNodes.eq_def, stops_bind, stops_lift]
    cases hfails with
    | target h => exact .inl h
    | limit h heq =>
      refine .inr ⟨_, s.parts, builds_lift.mpr ⟨h, rfl⟩, ?_⟩
      subst heq
      exact stops_throw.mpr rfl
    | use h hlt hstops =>
      refine .inr ⟨_, s.parts, builds_lift.mpr ⟨h, rfl⟩, ?_⟩
      obtain ⟨k, rfl⟩ : ∃ k, left = k + 1 := ⟨left - 1, by omega⟩
      exact stops_bind.mpr (.inl hstops)
  | step hstep _ ih =>
    obtain ⟨k, rfl⟩ : ∃ k, left = k + 1 := ⟨left - 1, by omega⟩
    rw [resolveNodes.eq_def, stops_bind]
    refine .inr ⟨_, _, builds_lift.mpr ⟨hstep.next.target, rfl⟩, stops_bind.mpr (.inr ?_)⟩
    refine ⟨_, _, hstep.builds, stops_bind.mpr (.inl ?_)⟩
    exact ih (Nat.le_of_succ_le_succ hle) (Fails.succ.mp hfails)

/-- The stage at which the resolution of a page starts. -/
def Stage.ofPage (p : Page) : Stage :=
  ⟨p.nodes, .ofPage p⟩

theorem run_of_resolve (h : resolve catalogs options p = .ok (count, page)) :
    ∃ taken a, Run catalogs p.file (.ofPage p) count taken ⟨page.nodes, a⟩ ∧
      nextTarget catalogs p.file page.nodes = .ok none ∧
      page = { p with
        nodes := page.nodes, expressions := a.expressions, script := a.script, styles := a.styles } := by
  obtain ⟨⟨⟨count', nodes⟩, a⟩, hresolve, h⟩ := Compiled.bind_eq_ok.mp h
  cases h
  obtain ⟨taken, hrun, hlast⟩ := run_of_resolveNodes hresolve
  exact ⟨taken, a, hrun, hlast, rfl⟩

theorem resolve_eq_error :
    resolve catalogs options p = .error d ↔
      Stops (resolveNodes catalogs p.file options.maxReplacements options.maxReplacements p.nodes)
        (.ofPage p) d := by
  constructor
  · intro h
    rcases Compiled.bind_eq_error.mp h with h | ⟨⟨⟨count, nodes⟩, a⟩, -, h⟩
    · exact h
    · cases h
  · intro h
    exact Compiled.bind_eq_error.mpr (.inl h)

/-! ## Blocks -/

theorem Step.joins (h : Step catalogs file s u s') : Joins s.parts s'.parts := by
  obtain ⟨copy, hinline, -⟩ := h.replaced
  obtain ⟨b, copied, a₁, hcopy, htakes, -, -⟩ := (builds_inline hinline).steps
  exact hcopy.joins.trans htakes.joins

/-- Only blocks that are read join the script of a page. -/
theorem Run.joins (h : Run catalogs file s n taken s') : Joins s.parts s'.parts := by
  induction h with
  | done s => exact .nothing rfl
  | step hstep _ ih => exact hstep.joins.trans ih

theorem isRead_of_resolve (hp : Page.read source path = .ok p) (h : resolve catalogs options p = .ok (count, page)) :
    ∀ block ∈ (page.script.getD {}).blocks, block.IsRead := by
  obtain ⟨taken, a, hrun, -, hpage⟩ := run_of_resolve h
  rw [hpage]
  exact hrun.joins.isRead (Page.isRead_of_read hp)

/-! ## Distinct ids -/

/-- The ids of the expressions are distinct, and all are given out already. -/
structure Assembly.Distinct (a : Assembly) : Prop where
  nodup : a.ids.Nodup
  below : ∀ id ∈ a.ids, ∃ i, i < a.nextId ∧ id = expressionId i

theorem Takes.distinct {ids : List String} (h : Takes ids a a') (ha : a.Distinct) : a'.Distinct where
  nodup := by
    have hsub : a'.ids.Sublist a.ids := by
      rw [Assembly.ids, h.left]
      exact List.filter_sublist.map _
    exact ha.nodup.sublist hsub
  below := by
    intro id hid
    rw [h.nextId]
    exact ha.below id (h.mem_ids.mp hid).1

theorem CopyOf.distinct {usage : Usage} {b : Rebinding} (h : CopyOf role component usage a b nodes a')
    (hids : (component.page.expressions.map (·.id)).Nodup) (ha : a.Distinct) : a'.Distinct where
  nodup := by
    rw [h.ids_eq hids]
    refine (ha.nodup.filter _).append (Template.nodup_freshIds _ _) ?_
    intro id hold hnew
    obtain ⟨i, hi, rfl⟩ := ha.below id (List.mem_filter.mp hold).1
    obtain ⟨j, hj, -, heq⟩ := Template.mem_freshIds.mp hnew
    have := Template.expressionId_injective heq
    omega
  below := by
    intro id hid
    rw [h.ids_eq hids, List.mem_append] at hid
    rw [h.nextId]
    rcases hid with hold | hnew
    · obtain ⟨i, hi, rfl⟩ := ha.below id (List.mem_filter.mp hold).1
      exact ⟨i, by omega, rfl⟩
    · obtain ⟨j, -, hj, rfl⟩ := Template.mem_freshIds.mp hnew
      exact ⟨j, hj, rfl⟩

theorem page_of_read (h : Component.read source path = .ok component) : Page.read source path = .ok component.page := by
  unfold Component.read at h
  split at h
  · obtain ⟨page, hpage, h⟩ := Compiled.bind_eq_ok.mp h
    obtain ⟨blocks, -, h⟩ := Compiled.bind_eq_ok.mp h
    cases h
    exact hpage
  · cases h

theorem Catalogs.AreRead.registered (hread : catalogs.AreRead) (h : catalogs.Knows component) :
    component.page.Registered := by
  obtain ⟨source, path, hsource⟩ := hread component h
  exact Page.registered_of_read (page_of_read hsource)

theorem Step.distinct (hread : catalogs.AreRead) (h : Step catalogs file s u s') (hs : s.parts.Distinct) :
    s'.parts.Distinct := by
  obtain ⟨copy, hinline, -⟩ := h.replaced
  obtain ⟨b, copied, a₁, hcopy, htakes, -, -⟩ := (builds_inline hinline).steps
  have hids := (hread.registered (knows_of_nextTarget h.next.target)).nodup
  exact htakes.distinct (hcopy.distinct hids hs)

/-- Any number of replacements keep the ids distinct. -/
theorem Run.distinct (hread : catalogs.AreRead) (h : Run catalogs file s n taken s') (hs : s.parts.Distinct) :
    s'.parts.Distinct := by
  induction h with
  | done s => exact hs
  | step hstep _ ih => exact ih (hstep.distinct hread hs)

theorem lt_firstFree {expressions : List Template.Expression} {e : Template.Expression} {i : Nat}
    (he : e ∈ expressions) (hi : e.id = expressionId i) : i < firstFree expressions := by
  have hmem : i ∈ expressions.filterMap fun e => idNumber? e.id :=
    List.mem_filterMap.mpr ⟨e, he, by rw [hi, Template.idNumber?_expressionId]⟩
  have hfold : ∀ (numbers : List Nat) (start : Nat),
      start ≤ numbers.foldl (fun n m => max n (m + 1)) start ∧
        ∀ m ∈ numbers, m < numbers.foldl (fun n m => max n (m + 1)) start := by
    intro numbers
    induction numbers with
    | nil => simp
    | cons m numbers ih =>
      intro start
      obtain ⟨hstart, hall⟩ := ih (max start (m + 1))
      rw [List.foldl_cons]
      refine ⟨by omega, ?_⟩
      intro k hk
      rcases List.mem_cons.mp hk with rfl | hk
      · omega
      · exact hall k hk
  exact (hfold _ 0).2 i hmem

theorem distinct_ofPage (h : p.Registered) : (Assembly.ofPage p).Distinct where
  nodup := h.nodup
  below := by
    intro id hid
    obtain ⟨e, he, rfl⟩ := List.mem_map.mp hid
    obtain ⟨n, hsub⟩ := h.inOrder
    obtain ⟨i, -, -, hi⟩ := Template.mem_freshIds.mp (hsub.subset (List.mem_map_of_mem he))
    exact ⟨i, lt_firstFree he hi, hi⟩

end PageCompiler.Component
