import Mathlib.Data.List.Nodup
import PageCompiler.Proofs.RouteMatching

/-!
# The page that a path belongs to

A manifest is in the order of `before`, and a path belongs to the first route of it that matches (`selects_iff`).
No route that matches the path of a page with fixed segments only has a higher score than the page. One with the
same score consists of the segments of the page and of optional ones, which take nothing; between such routes the
order of the paths decides (`selects_own_path_iff`).
-/

namespace PageCompiler.Route

variable {routes : List Route} {r q : Route} {segments : List Segment}

/-! ## Manifests -/

theorem before_iff {a b : Route} :
    before a b = true ↔ b.score < a.score ∨ a.score = b.score ∧ a.path ≤ b.path := by
  simp [before]

theorem before_trans (a b c : Route) (hab : before a b = true) (hbc : before b c = true) : before a c = true := by
  rw [before_iff] at *
  rcases hab with hab | ⟨hab, hpaths⟩
  · left
    omega
  · rcases hbc with hbc | ⟨hbc, hpaths'⟩
    · left
      omega
    · right
      exact ⟨hab.trans hbc, le_trans hpaths hpaths'⟩

theorem before_total (a b : Route) : (before a b || before b a) = true := by
  rw [Bool.or_eq_true, before_iff, before_iff]
  rcases Nat.lt_trichotomy a.score b.score with hlt | heq | hlt
  · exact .inr (.inl hlt)
  · exact (le_total a.path b.path).imp (fun h => .inr ⟨heq, h⟩) (fun h => .inr ⟨heq.symm, h⟩)
  · exact .inl (.inl hlt)

theorem path_eq_of_before {a b : Route} (hab : before a b = true) (hba : before b a = true) : a.path = b.path := by
  rw [before_iff] at *
  rcases hab with hlt | ⟨heq, hab⟩
  · omega
  · rcases hba with hlt | ⟨-, hba⟩
    · omega
    · exact le_antisymm hab hba

theorem firstByPath_spec (routes : List Route) :
    ((firstByPath routes).map (·.path)).Nodup ∧ ∀ r ∈ firstByPath routes, r ∈ routes := by
  have hfold : ∀ (routes found : List Route), (found.map (·.path)).Nodup →
      let all := routes.foldl (fun found r => if found.any (·.path == r.path) then found else found ++ [r]) found
      (all.map (·.path)).Nodup ∧ ∀ r ∈ all, r ∈ found ∨ r ∈ routes := by
    intro routes
    induction routes with
    | nil =>
      intro found hfound
      exact ⟨hfound, fun r hr => .inl hr⟩
    | cons first routes ih =>
      intro found hfound
      rw [List.foldl_cons]
      split
      · obtain ⟨hnodup, hmem⟩ := ih found hfound
        exact ⟨hnodup, fun r hr => (hmem r hr).imp_right (List.mem_cons_of_mem _)⟩
      · rename_i hnew
        have hpaths : ((found ++ [first]).map (·.path)).Nodup := by
          rw [List.map_append, List.nodup_append']
          refine ⟨hfound, List.nodup_singleton _, ?_⟩
          simpa [List.disjoint_singleton] using hnew
        obtain ⟨hnodup, hmem⟩ := ih (found ++ [first]) hpaths
        refine ⟨hnodup, fun r hr => ?_⟩
        rcases hmem r hr with hr | hr
        · rcases List.mem_append.mp hr with hr | hr
          · exact .inl hr
          · exact .inr (by simp_all)
        · exact .inr (List.mem_cons_of_mem _ hr)
  obtain ⟨hnodup, hmem⟩ := hfold routes [] List.nodup_nil
  exact ⟨hnodup, fun r hr => (hmem r hr).resolve_left (List.not_mem_nil)⟩

theorem pairwise_manifest (routes : List Route) : (manifest routes).Pairwise (before · · = true) :=
  List.pairwise_mergeSort before_trans before_total _

theorem nodup_manifest (routes : List Route) : ((manifest routes).map (·.path)).Nodup :=
  ((List.mergeSort_perm _ _).map _).nodup_iff.mpr (firstByPath_spec routes).1

theorem mem_manifest : r ∈ manifest routes ↔ r ∈ firstByPath routes :=
  List.mem_mergeSort

theorem mem_of_mem_manifest (h : r ∈ manifest routes) : r ∈ routes :=
  (firstByPath_spec routes).2 r (mem_manifest.mp h)

/-! ## The first match -/

/-- The path belongs to the route. -/
def Selects (routes : List Route) (path : String) (r : Route) : Prop :=
  ∃ params, find? routes path = some { route := r, params }

theorem isSome_paramsFor? {path : String} : (r.paramsFor? path).isSome ↔ Matches r.segments path.toList := by
  rw [paramsFor?, Option.isSome_map, isSome_matchSegments_iff]

theorem selects_iff {path : String} (hr : r ∈ manifest routes) :
    Selects (manifest routes) path r ↔ Matches r.segments path.toList ∧
      ∀ q ∈ manifest routes, Matches q.segments path.toList → before r q = true := by
  have hsorted := pairwise_manifest routes
  have hnodup := nodup_manifest routes
  constructor
  · rintro ⟨params, hfind⟩
    obtain ⟨earlier, found, later, hsplit, hfound, hnone⟩ := List.findSome?_eq_some_iff.mp hfind
    obtain ⟨taken, htaken, hmatch⟩ := Option.map_eq_some_iff.mp hfound
    obtain rfl : found = r := congrArg Match.route hmatch
    refine ⟨isSome_paramsFor?.mp (by rw [htaken]; rfl), ?_⟩
    intro q hq hmatches
    rw [hsplit] at hq hsorted
    rcases List.mem_append.mp hq with hq | hq
    · have := hnone q hq
      rw [Option.map_eq_none_iff] at this
      rw [← isSome_paramsFor?, this] at hmatches
      cases hmatches
    · rcases List.mem_cons.mp hq with rfl | hq
      · rw [before_iff]
        exact .inr ⟨rfl, le_refl _⟩
      · exact (List.pairwise_cons.mp (List.pairwise_append.mp hsorted).2.1).1 q hq
  · rintro ⟨hmatches, hfirst⟩
    obtain ⟨earlier, later, hsplit⟩ := List.append_of_mem hr
    obtain ⟨params, hparams⟩ := Option.isSome_iff_exists.mp (isSome_paramsFor?.mpr hmatches)
    refine ⟨params, List.findSome?_eq_some_iff.mpr ⟨earlier, r, later, hsplit, by simp [hparams], ?_⟩⟩
    intro q hq
    rw [Option.map_eq_none_iff]
    by_contra hsome
    have hmatches : Matches q.segments path.toList := isSome_paramsFor?.mp (Option.isSome_iff_ne_none.mpr hsome)
    have hback := hfirst q (by simp [hsplit, hq]) hmatches
    rw [hsplit] at hsorted hnodup
    have hforth := (List.pairwise_append.mp hsorted).2.2 q hq r (by simp)
    -- Two routes of one path would stand in the manifest.
    rw [List.map_append, List.nodup_append'] at hnodup
    refine hnodup.2.2 (List.mem_map_of_mem hq) ?_
    rw [path_eq_of_before hforth hback]
    simp

/-! ## Scores of routes that match -/

/-- The segments that take a piece of the path in any case. -/
def required (segments : List Segment) : List Segment :=
  segments.filter (·.kind ≠ .optionalCatchAll)

/-- The weights of the segments, taken together. -/
def weightOf : List Segment → Nat
  | [] => 0
  | s :: segments => s.kind.weight + weightOf segments

theorem foldl_weight (segments : List Segment) (n : Nat) :
    segments.foldl (fun sum s => sum + s.kind.weight) n = n + weightOf segments := by
  induction segments generalizing n with
  | nil => rfl
  | cons s segments ih => rw [List.foldl_cons, ih, weightOf, Nat.add_assoc]

theorem scoreOf_eq (h : segments ≠ []) : scoreOf segments = weightOf segments := by
  rw [scoreOf, if_neg (by simpa using h), foldl_weight, Nat.zero_add]

theorem weightOf_required (segments : List Segment) : weightOf (required segments) = weightOf segments := by
  induction segments with
  | nil => rfl
  | cons s segments ih =>
    by_cases hs : s.kind = .optionalCatchAll
    · simpa [required, weightOf, hs, SegmentKind.weight] using ih
    · simpa [required, weightOf, hs] using ih

theorem weightOf_fixed (h : ∀ s ∈ segments, s.kind = .fixed) : weightOf segments = 12 * segments.length := by
  induction segments with
  | nil => rfl
  | cons s segments ih =>
    obtain ⟨hs, hrest⟩ := List.forall_mem_cons.mp h
    rw [weightOf, ih hrest, hs, List.length_cons, SegmentKind.weight, Nat.mul_succ, Nat.add_comm]

/-- A segment weighs at most twelve for each slash in what it takes; only a fixed segment and an optional one that
takes nothing weigh as much. -/
theorem weight_le_count {s : Segment} {piece : List Char} (hs : s.Named) (h : s.Takes piece) :
    s.kind.weight ≤ 12 * piece.count '/' ∧ (s.kind.weight = 12 * piece.count '/' →
      s.kind = .fixed ∧ piece = '/' :: s.raw.toList ∨ s.kind = .optionalCatchAll ∧ piece = []) := by
  unfold Segment.Takes at h
  cases hkind : s.kind with
  | fixed =>
    rw [hkind] at h
    subst h
    rw [List.count_cons_self, List.count_eq_zero_of_not_mem hs.noSlash]
    exact ⟨by simp [SegmentKind.weight], fun _ => .inl ⟨rfl, rfl⟩⟩
  | dynamic | catchAll =>
    rw [hkind] at h
    obtain ⟨part, -, -, rfl⟩ := h
    rw [List.count_cons_self, SegmentKind.weight]
    omega
  | optionalCatchAll =>
    rw [hkind] at h
    rcases h with rfl | ⟨part, -, rfl⟩
    · exact ⟨by simp [SegmentKind.weight], fun _ => .inr ⟨rfl, rfl⟩⟩
    · rw [List.count_cons_self, SegmentKind.weight]
      omega

/-- Segments weigh at most twelve for each slash in what they take. If they weigh as much, those that are required
are fixed and take all. -/
theorem weightOf_le_count {pieces : List (List Char)} (hnamed : ∀ s ∈ segments, s.Named)
    (h : List.Forall₂ Segment.Takes segments pieces) :
    weightOf segments ≤ 12 * pieces.flatten.count '/' ∧ (weightOf segments = 12 * pieces.flatten.count '/' →
      (∀ s ∈ required segments, s.kind = .fixed) ∧ pieces.flatten = Text.slashed (rawNames (required segments))) := by
  induction h with
  | nil => simp [weightOf, required, rawNames]
  | @cons s piece segments pieces hpiece _ ih =>
    obtain ⟨hs, hrest⟩ := List.forall_mem_cons.mp hnamed
    obtain ⟨hle, heq⟩ := weight_le_count hs hpiece
    obtain ⟨hle', heq'⟩ := ih hrest
    have hcount : (piece :: pieces).flatten.count '/' = piece.count '/' + pieces.flatten.count '/' := by
      rw [List.flatten_cons, List.count_append]
    rw [weightOf, hcount]
    refine ⟨by omega, fun hboth => ?_⟩
    -- The sums are equal and no summand is larger than its bound, so each summand is equal to it.
    obtain ⟨hfixed, htaken⟩ := heq' (by omega)
    rcases heq (by omega) with ⟨hkind, rfl⟩ | ⟨hkind, rfl⟩
    · have hcons : required (s :: segments) = s :: required segments := by simp [required, hkind]
      rw [hcons, List.flatten_cons, htaken]
      exact ⟨List.forall_mem_cons.mpr ⟨hkind, hfixed⟩, by simp⟩
    · have hsame : required (s :: segments) = required segments := by simp [required, hkind]
      rw [hsame, List.flatten_cons, htaken]
      exact ⟨hfixed, rfl⟩

theorem named_required (h : ∀ s ∈ segments, s.Named) : ∀ s ∈ required segments, s.Named :=
  fun s hs => h s (List.mem_of_mem_filter hs)

theorem matches_slashed {tail : List Char} (hfixed : ∀ s ∈ required segments, s.kind = .fixed)
    (htail : tail = [] ∨ tail = ['/']) : Matches segments (Text.slashed (rawNames (required segments)) ++ tail) := by
  induction segments with
  | nil => exact matches_nil.mpr (by simpa [required, rawNames] using htail)
  | cons s segments ih =>
    rw [matches_cons]
    by_cases hs : s.kind = .optionalCatchAll
    · have hsame : required (s :: segments) = required segments := by simp [required, hs]
      rw [hsame] at hfixed ⊢
      refine ⟨[], _, ?_, ih hfixed, rfl⟩
      simp [Segment.Takes, hs]
    · have hcons : required (s :: segments) = s :: required segments := by simp [required, hs]
      rw [hcons] at hfixed ⊢
      obtain ⟨hkind, hrest⟩ := List.forall_mem_cons.mp hfixed
      refine ⟨'/' :: s.raw.toList, _, ?_, ih hrest, by simp⟩
      simp [Segment.Takes, hkind]

/-! ## Pages with fixed segments only -/

def IsFixed (r : Route) : Prop :=
  ∀ s ∈ r.segments, s.kind = .fixed

instance (r : Route) : Decidable r.IsFixed :=
  inferInstanceAs (Decidable (∀ s ∈ r.segments, s.kind = .fixed))

theorem required_eq_self (h : ∀ s ∈ segments, s.kind = .fixed) : required segments = segments := by
  rw [required, List.filter_eq_self]
  intro s hs
  simp [h s hs]

theorem matches_of_required_eq (hr : r.Proper) (hfixed : r.IsFixed) (hreq : required q.segments = r.segments) :
    Matches q.segments r.path.toList := by
  have hq : ∀ s ∈ required q.segments, s.kind = .fixed := hreq ▸ hfixed
  rw [hr.path, ← hreq]
  split
  · rename_i hnil
    have hmatches : Matches q.segments (Text.slashed (rawNames (required q.segments)) ++ ['/']) :=
      matches_slashed hq (.inr rfl)
    rwa [hnil] at hmatches
  · have hmatches : Matches q.segments (Text.slashed (rawNames (required q.segments)) ++ []) :=
      matches_slashed hq (.inl rfl)
    rwa [List.append_nil] at hmatches

/-- The path of a page that is not the root has a name after its first slash. -/
theorem Proper.path_ne (hr : r.Proper) (hne : r.segments ≠ []) : r.path.toList ≠ [] ∧ r.path.toList ≠ ['/'] := by
  rw [hr.path, if_neg hne]
  obtain ⟨s, segments, hsegments⟩ := List.exists_cons_of_ne_nil hne
  have hname := (hr.named s (by simp [hsegments])).nonempty
  rw [hsegments]
  simp [hname]

/-- What matches the path of a page with fixed segments has no higher score than the page; if it has the same score,
its required segments are those of the page. -/
theorem score_le_of_matches (hq : q.Proper) (hr : r.Proper) (hfixed : r.IsFixed)
    (h : Matches q.segments r.path.toList) :
    q.score ≤ r.score ∧ (q.score = r.score → required q.segments = r.segments) := by
  obtain ⟨pieces, tail, htakes, htail, hpath⟩ := h
  obtain ⟨hle, heq⟩ := weightOf_le_count hq.named htakes
  have hcount : r.path.toList.count '/' = pieces.flatten.count '/' + tail.count '/' := by
    rw [hpath, List.count_append]
  by_cases hroot : r.segments = []
  · -- The root weighs more than anything that takes a single slash.
    have hone : r.path.toList.count '/' = 1 := by rw [hr.path, if_pos hroot]; rfl
    have hscore : scoreOf [] = 100 := rfl
    rw [hq.score, hr.score, hroot]
    by_cases hqroot : q.segments = []
    · rw [hqroot]
      exact ⟨Nat.le_refl _, fun _ => rfl⟩
    · rw [scoreOf_eq hqroot, hscore]
      omega
  · have hslash := noSlash_of_rawNames hr.named
    have hlength : r.path.toList.count '/' = r.segments.length := by
      rw [hr.path, if_neg hroot, Text.count_slashed hslash, rawNames, List.length_map]
    have hscore : r.score = 12 * r.segments.length := by
      rw [hr.score, scoreOf_eq hroot, weightOf_fixed hfixed]
    have hqroot : q.segments ≠ [] := by
      intro hqroot
      rw [hqroot] at htakes
      cases htakes
      obtain ⟨hne, hne'⟩ := hr.path_ne hroot
      rcases htail with rfl | rfl
      · exact hne hpath
      · exact hne' hpath
    rw [hq.score, scoreOf_eq hqroot, hscore]
    refine ⟨by omega, fun hsame => ?_⟩
    obtain ⟨-, htaken⟩ := heq (by omega)
    -- A slash at the end would be one that no segment has been paid for.
    have hnil : tail = [] := by
      rcases htail with rfl | rfl
      · rfl
      · simp only [List.count_singleton_self] at hcount
        omega
    have hnames : Text.slashed (rawNames (required q.segments)) = Text.slashed (rawNames r.segments) := by
      have hown := hr.path
      rw [if_neg hroot, hpath, hnil, List.append_nil, htaken] at hown
      exact hown
    have hrequired := named_required hq.named
    exact rawNames_inj hrequired hr.named (Text.slashed_inj (noSlash_of_rawNames hrequired) hslash hnames)

theorem path_le_of_isPrefix (h : r.path.toList <+: q.path.toList) : r.path ≤ q.path :=
  not_lt.mp fun hlt => h.le (String.lt_iff.mp hlt)

theorem Proper.root_le (hq : q.Proper) (hr : r.Proper) (hroot : r.segments = []) : r.path ≤ q.path := by
  refine path_le_of_isPrefix ?_
  rw [hr.path, if_pos hroot, hq.path]
  split
  · exact List.prefix_rfl
  · rename_i hne
    obtain ⟨s, segments, hsegments⟩ := List.exists_cons_of_ne_nil hne
    rw [hsegments, rawNames_cons, Text.slashed_cons, List.cons_append]
    exact List.prefix_append ['/'] _

/-- A page with fixed segments is before a route, if that matches its path, exactly if its path is before that of
the route, if that has the same required segments. -/
theorem before_of_matches_iff (hq : q.Proper) (hr : r.Proper) (hfixed : r.IsFixed) :
    (Matches q.segments r.path.toList → before r q = true) ↔
      (required q.segments = r.segments → r.path ≤ q.path) := by
  constructor
  · intro h hreq
    rcases before_iff.mp (h (matches_of_required_eq hr hfixed hreq)) with hlt | ⟨-, hle⟩
    · refine hq.root_le hr ?_
      -- Any other page has the score of its required segments, which both have.
      by_contra hne
      have hqne : q.segments ≠ [] := by
        intro hnil
        rw [hnil] at hreq
        exact hne hreq.symm
      rw [hq.score, hr.score, scoreOf_eq hne, scoreOf_eq hqne, ← hreq, weightOf_required] at hlt
      exact Nat.lt_irrefl _ hlt
    · exact hle
  · intro h hmatches
    obtain ⟨hle, hsame⟩ := score_le_of_matches hq hr hfixed hmatches
    rw [before_iff]
    rcases Nat.lt_or_eq_of_le hle with hlt | heq
    · exact .inl hlt
    · exact .inr ⟨heq.symm, h (hsame heq)⟩

/-- The optional segments of the route are its last ones. -/
def OptionalLast (q : Route) : Prop :=
  ∃ lead last, q.segments = lead ++ last ∧ (∀ s ∈ lead, s.kind ≠ .optionalCatchAll) ∧
    ∀ s ∈ last, s.kind = .optionalCatchAll

/-- The path of the required segments is before that of a route that has optional ones only after them. -/
theorem OptionalLast.path_le (h : q.OptionalLast) (hq : q.Proper) (hr : r.Proper)
    (hreq : required q.segments = r.segments) : r.path ≤ q.path := by
  by_cases hroot : r.segments = []
  · exact hq.root_le hr hroot
  · obtain ⟨lead, last, hsegments, hlead, hlast⟩ := h
    have hown : required q.segments = lead := by
      rw [hsegments, required, List.filter_append, List.filter_eq_self.mpr (by simpa using hlead),
        List.filter_eq_nil_iff.mpr (by simpa using hlast), List.append_nil]
    have hrlead : r.segments = lead := hreq.symm.trans hown
    refine path_le_of_isPrefix ?_
    have hqne : q.segments ≠ [] := by
      rw [hsegments, ← hrlead]
      simp [hroot]
    rw [hr.path, if_neg hroot, hq.path, if_neg hqne, hsegments, hrlead, rawNames_append, Text.slashed_append]
    exact List.prefix_append _ _

/-- The routes of pages, each given by its path below the directory of pages and by its file. -/
def ofPages (pages : List (String × String)) : List Route :=
  pages.map fun (relative, file) => ofFile relative file

theorem proper_of_mem_manifest {pages : List (String × String)} (h : r ∈ manifest (ofPages pages)) : r.Proper := by
  obtain ⟨⟨relative, file⟩, -, rfl⟩ := List.mem_map.mp (mem_of_mem_manifest h)
  exact proper_ofFile relative file

/-- The path of a page with fixed segments belongs to that page exactly if no route that has the same required
segments, and so differs in optional ones only, has an earlier path. No other route can take the path away, so it
belongs to the page whenever optional segments stand only at the ends of routes. -/
theorem selects_own_path_iff {pages : List (String × String)} {r : Route}
    (hr : r ∈ manifest (ofPages pages)) (hfixed : r.IsFixed) :
    (Selects (manifest (ofPages pages)) r.path r ↔
      ∀ q ∈ manifest (ofPages pages), required q.segments = r.segments → r.path ≤ q.path) ∧
    ((∀ q ∈ manifest (ofPages pages), q.OptionalLast) → Selects (manifest (ofPages pages)) r.path r) := by
  have hproper := proper_of_mem_manifest hr
  have hiff : Selects (manifest (ofPages pages)) r.path r ↔
      ∀ q ∈ manifest (ofPages pages), required q.segments = r.segments → r.path ≤ q.path := by
    rw [selects_iff hr]
    have hown := matches_of_required_eq hproper hfixed (required_eq_self hfixed)
    constructor
    · rintro ⟨-, hfirst⟩ q hq
      exact (before_of_matches_iff (proper_of_mem_manifest hq) hproper hfixed).mp (hfirst q hq)
    · intro h
      refine ⟨hown, fun q hq => ?_⟩
      exact (before_of_matches_iff (proper_of_mem_manifest hq) hproper hfixed).mpr (h q hq)
  refine ⟨hiff, fun hlast => hiff.mpr fun q hq hreq => ?_⟩
  exact (hlast q hq).path_le (proper_of_mem_manifest hq) hproper hreq

/-- Pages of every sort: with a param, with any path, with fixed segments only, and with an optional segment at the
end, before the last name and at the start. -/
def archivePages : List (String × String) :=
  ["[...all].zen", "blog/[id].zen", "blog/archive.zen", "blog/archive/[[...page]].zen", "blog/archive/[[...x]]/(a).zen",
    "[[...lang]]/index.zen"].map fun page => (page, "pages/" ++ page)

/-- The archive has its own path, though four other routes match it. -/
theorem selects_own_path_iff_archive :
    let r := ofFile "blog/archive.zen" "pages/blog/archive.zen"
    r ∈ manifest (ofPages archivePages) ∧ r.IsFixed ∧
      ((ofPages archivePages).filter fun q => (q.paramsFor? r.path).isSome).length = 5 ∧
      Selects (manifest (ofPages archivePages)) r.path r := by
  intro r
  have hmem : r ∈ manifest (ofPages archivePages) := mem_manifest.mpr (by decide +kernel)
  have hfixed : r.IsFixed := by decide +kernel
  have hearlier : ∀ q ∈ ofPages archivePages, required q.segments = r.segments → r.path ≤ q.path := by
    decide +kernel
  refine ⟨hmem, hfixed, by decide +kernel, ?_⟩
  exact (selects_own_path_iff hmem hfixed).1.mpr fun q hq => hearlier q (mem_of_mem_manifest hq)

/-- Two pages, one of which has an optional segment before the only name of the other. -/
def optionalFirstPages : List (String × String) :=
  ["[[...x]]/a.zen", "a.zen"].map fun page => (page, "pages/" ++ page)

/-- The path of a page with fixed segments only belongs to the page with the optional segment, because an asterisk
comes before a letter. -/
theorem own_path_taken_by_optional :
    let r := ofFile "a.zen" "pages/a.zen"
    let other := ofFile "[[...x]]/a.zen" "pages/[[...x]]/a.zen"
    ((ofPages optionalFirstPages).map (·.path)).Nodup ∧ r ∈ manifest (ofPages optionalFirstPages) ∧ r.IsFixed ∧
      r.path = "/a" ∧ Selects (manifest (ofPages optionalFirstPages)) r.path other ∧
      ¬ Selects (manifest (ofPages optionalFirstPages)) r.path r := by
  intro r other
  have hmem : r ∈ manifest (ofPages optionalFirstPages) := mem_manifest.mpr (by decide +kernel)
  have hother : other ∈ manifest (ofPages optionalFirstPages) := mem_manifest.mpr (by decide +kernel)
  have hfirst : ∀ q ∈ ofPages optionalFirstPages, before other q = true := by decide +kernel
  have hmatches : (other.paramsFor? r.path).isSome = true := by decide +kernel
  have hselects : Selects (manifest (ofPages optionalFirstPages)) r.path other :=
    (selects_iff hother).mpr ⟨isSome_paramsFor?.mp hmatches, fun q hq _ => hfirst q (mem_of_mem_manifest hq)⟩
  refine ⟨by decide +kernel, hmem, by decide +kernel, by decide +kernel, hselects, ?_⟩
  intro hown
  obtain ⟨params, hfind⟩ := hselects
  obtain ⟨params', hfind'⟩ := hown
  rw [hfind, Option.some.injEq, Match.mk.injEq] at hfind'
  exact absurd (congrArg Route.path hfind'.1) (by decide +kernel)

end PageCompiler.Route
