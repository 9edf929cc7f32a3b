import PageCompiler.Proofs.RouteChoice

/-!
# The order of routes

Routes with distinct paths have one manifest, whatever order they come in: `before` orders them strictly, and a list
that is sorted by it is determined by its members. Of two routes with as many segments, the one whose segments weigh
at least as much, and somewhere more, has the higher score and comes first. So a path never belongs to a route if a
more specific one matches it (`manifest_specific`).
-/

namespace PageCompiler.Route

variable {routes : List Route} {segments others : List Segment}

/-! ## One manifest for all orders -/

theorem firstByPath_eq_self (h : (routes.map (·.path)).Nodup) : firstByPath routes = routes := by
  -- The loop adds each route to those that it has found, which have other paths.
  have hfold : ∀ (routes found : List Route), ((found ++ routes).map (·.path)).Nodup →
      routes.foldl (fun found r => if found.any (·.path == r.path) then found else found ++ [r]) found =
        found ++ routes := by
    intro routes
    induction routes with
    | nil => simp
    | cons r routes ih =>
      intro found hpaths
      have hnew : found.any (·.path == r.path) = false := by
        rw [List.map_append, List.nodup_append'] at hpaths
        have hout : r.path ∉ found.map (·.path) := fun hin => hpaths.2.2 hin (by simp)
        simpa [List.any_eq_false] using hout
      rw [List.foldl_cons, hnew]
      simpa using ih (found ++ [r]) (by simpa using hpaths)
  simpa [firstByPath] using hfold routes [] (by simpa using h)

theorem manifest_perm (h : (routes.map (·.path)).Nodup) : (manifest routes).Perm routes := by
  rw [manifest, firstByPath_eq_self h]
  exact List.mergeSort_perm routes before

theorem manifest_eq_of_perm {others : List Route} (h : (routes.map (·.path)).Nodup) (hperm : others.Perm routes) :
    manifest others = manifest routes := by
  have hothers : (others.map (·.path)).Nodup := (hperm.map _).nodup_iff.mpr h
  refine List.Perm.eq_of_pairwise ?_ (pairwise_manifest others) (pairwise_manifest routes) ?_
  · intro a b ha hb hab hba
    have ha : a ∈ routes := hperm.mem_iff.mp (mem_of_mem_manifest ha)
    exact List.inj_on_of_nodup_map h ha (mem_of_mem_manifest hb) (path_eq_of_before hab hba)
  · exact (manifest_perm hothers).trans (hperm.trans (manifest_perm h).symm)

/-! ## More specific routes -/

/-- There are as many segments, each weighs at least as much as the other one at its place, and one weighs more. -/
def MoreSpecific (segments others : List Segment) : Prop :=
  List.Forall₂ (fun s t => t.kind.weight ≤ s.kind.weight) segments others ∧
    ∃ s t, (s, t) ∈ segments.zip others ∧ t.kind.weight < s.kind.weight

theorem weightOf_le (h : List.Forall₂ (fun s t => t.kind.weight ≤ s.kind.weight) segments others) :
    weightOf others ≤ weightOf segments := by
  induction h with
  | nil => exact Nat.le_refl _
  | cons hfirst _ ih => exact Nat.add_le_add hfirst ih

theorem MoreSpecific.weightOf_lt (h : MoreSpecific segments others) : weightOf others < weightOf segments := by
  obtain ⟨hall, s, t, hmem, hlt⟩ := h
  induction hall with
  | nil => cases hmem
  | @cons a b segments others hfirst hrest ih =>
    rw [weightOf, weightOf]
    rcases List.mem_cons.mp hmem with heq | hmem
    · obtain ⟨rfl, rfl⟩ := Prod.mk.inj heq
      exact Nat.add_lt_add_of_lt_of_le hlt (weightOf_le hrest)
    · exact Nat.add_lt_add_of_le_of_lt hfirst (ih hmem)

theorem MoreSpecific.score_lt {q r : Route} (h : MoreSpecific q.segments r.segments) (hq : q.Proper)
    (hr : r.Proper) : r.score < q.score := by
  have hne : q.segments ≠ [] ∧ r.segments ≠ [] := by
    obtain ⟨-, s, t, hmem, -⟩ := h
    obtain ⟨hs, ht⟩ := List.of_mem_zip hmem
    exact ⟨List.ne_nil_of_mem hs, List.ne_nil_of_mem ht⟩
  rw [hq.score, hr.score, scoreOf_eq hne.1, scoreOf_eq hne.2]
  exact h.weightOf_lt

/-- Routes of pages with distinct paths have one manifest, which holds them all. No route of it that matches a path
is more specific than the one to which the path belongs. -/
theorem manifest_specific {pages : List (String × String)} (hpaths : ((ofPages pages).map (·.path)).Nodup) :
    (manifest (ofPages pages)).Perm (ofPages pages) ∧
    (∀ routes, routes.Perm (ofPages pages) → manifest routes = manifest (ofPages pages)) ∧
    ∀ path m, find? (manifest (ofPages pages)) path = some m → m.route ∈ manifest (ofPages pages) ∧
      ∀ q ∈ manifest (ofPages pages), (q.paramsFor? path).isSome → ¬ MoreSpecific q.segments m.route.segments := by
  refine ⟨manifest_perm hpaths, fun routes hperm => manifest_eq_of_perm hpaths hperm, ?_⟩
  intro path m hfind
  obtain ⟨r, hr, hmatch⟩ := List.exists_of_findSome?_eq_some hfind
  obtain ⟨params, -, rfl⟩ := Option.map_eq_some_iff.mp hmatch
  refine ⟨hr, fun q hq hmatches hspecific => ?_⟩
  have hfirst := ((selects_iff hr).mp ⟨params, hfind⟩).2 q hq (isSome_paramsFor?.mp hmatches)
  have hlt : r.score < q.score := hspecific.score_lt (proper_of_mem_manifest hq) (proper_of_mem_manifest hr)
  rcases before_iff.mp hfirst with hscore | ⟨hscore, -⟩
  · omega
  · omega

/-- The pages of the archive in reverse order have the same manifest, and the page with a param, which also matches
the path of the archive, is not more specific than the archive. -/
theorem manifest_specific_archive :
    let r := ofFile "blog/archive.zen" "pages/blog/archive.zen"
    let q := ofFile "blog/[id].zen" "pages/blog/[id].zen"
    ((ofPages archivePages).map (·.path)).Nodup ∧
      manifest (ofPages archivePages).reverse = manifest (ofPages archivePages) ∧
      ∃ params, find? (manifest (ofPages archivePages)) r.path = some { route := r, params } ∧
        (q.paramsFor? r.path).isSome ∧ ¬ MoreSpecific q.segments r.segments := by
  intro r q
  have hpaths : ((ofPages archivePages).map (·.path)).Nodup := by decide +kernel
  have hfacts : r ∈ ofPages archivePages ∧ q ∈ ofPages archivePages ∧ (r.paramsFor? r.path).isSome ∧
      (q.paramsFor? r.path).isSome ∧ ∀ p ∈ ofPages archivePages, (p.paramsFor? r.path).isSome → before r p := by
    decide +kernel
  obtain ⟨hr, hq, hown, hother, hbefore⟩ := hfacts
  obtain ⟨hperm, hsame, hspecific⟩ := manifest_specific hpaths
  have hselects : Selects (manifest (ofPages archivePages)) r.path r := by
    refine (selects_iff (hperm.mem_iff.mpr hr)).mpr ⟨isSome_paramsFor?.mp hown, fun p hp hmatches => ?_⟩
    exact hbefore p (hperm.mem_iff.mp hp) (isSome_paramsFor?.mpr hmatches)
  obtain ⟨params, hfind⟩ := hselects
  refine ⟨hpaths, hsame _ (List.reverse_perm _), params, hfind, hother, ?_⟩
  exact (hspecific r.path _ hfind).2 q (hperm.mem_iff.mpr hq) hother

end PageCompiler.Route
