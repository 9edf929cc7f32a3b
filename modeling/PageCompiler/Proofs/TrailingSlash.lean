import Mathlib.Data.List.TakeWhile
import PageCompiler.Proofs.RoutePatterns

/-!
# A slash at the end of a path

A route matches a path with a slash after it exactly if it matches the path, so both belong to the same route. The
slash is left over, or it is taken by a segment that takes any path: by the first such segment of the route after
which there are optional ones only (`closing?`). What this segment takes gets the slash at its end, and nothing else
changes (`matchSegments_append_slash`).
-/

namespace PageCompiler.Route

variable {segments : List Segment} {s : Segment} {path : List Char} {r : Route}

/-! ## The segment that takes the slash -/

def allOptional (segments : List Segment) : Bool :=
  segments.all (·.kind = .optionalCatchAll)

/-- Whether a segment takes a slash at the end of a path: it takes any path, and the segments after it are optional. -/
def Segment.closes (s : Segment) (rest : List Segment) : Bool :=
  (s.kind = .catchAll || s.kind = .optionalCatchAll) && allOptional rest

/-- The segment that takes a slash at the end of a path. -/
def closing? : List Segment → Option Segment
  | [] => none
  | s :: rest => if s.closes rest then some s else closing? rest

theorem exists_last_of_closing? (h : closing? segments = some s) :
    ∃ last ∈ segments.getLast?, last.kind = .catchAll ∨ last.kind = .optionalCatchAll := by
  induction segments with
  | nil => cases h
  | cons t segments ih =>
    rw [closing?] at h
    split at h
    · rename_i hcloses
      simp only [Segment.closes, Bool.and_eq_true, Bool.or_eq_true, decide_eq_true_eq] at hcloses
      obtain ⟨hkind, hrest⟩ := hcloses
      rcases List.eq_nil_or_concat segments with rfl | ⟨lead, last, rfl⟩
      · exact ⟨t, rfl, hkind⟩
      · refine ⟨last, ?_, .inr ?_⟩
        · rw [Option.mem_def, List.concat_eq_append, ← List.cons_append, List.getLast?_concat]
        · simpa using List.all_eq_true.mp hrest last (by simp)
    · obtain ⟨last, hlast, hkind⟩ := ih h
      refine ⟨last, ?_, hkind⟩
      rw [Option.mem_def] at hlast ⊢
      rw [List.getLast?_cons, hlast]
      rfl

def slashAfter : Option (List Char) → List Char
  | some text => text ++ ['/']
  | none => []

def withSlash : List Segment → List (Option (List Char)) → List (Option (List Char))
  | [], taken => taken
  | s :: rest, taken =>
    if s.kind = .fixed then withSlash rest taken
    else if s.closes rest then (taken.take 1).map (fun part => some (slashAfter part)) ++ taken.drop 1
    else taken.take 1 ++ withSlash rest (taken.drop 1)

/-! ## Longest parts -/

section
variable {α β : Type} {least : Nat} {run : List Char} {rest : List Char → Option α}

theorem findSome?_congr {γ : Type} {items : List γ} {f g : γ → Option α} (h : ∀ x ∈ items, f x = g x) :
    items.findSome? f = items.findSome? g := by
  induction items with
  | nil => rfl
  | cons x items ih =>
    obtain ⟨hx, hrest⟩ := List.forall_mem_cons.mp h
    rw [List.findSome?_cons, List.findSome?_cons, hx, ih hrest]

theorem longestFirst_map (f : α → β) :
    longestFirst least run (fun left => (rest left).map f) =
      (longestFirst least run rest).map fun found => (found.1, f found.2) := by
  simp only [longestFirst, List.map_findSome?]
  congr 1
  funext n
  rw [Function.comp_apply, Option.map_map, Option.map_map]
  rfl

theorem longestFirst_of_nil {found : α} (h : rest [] = some found) (hleast : least ≤ run.length) :
    longestFirst least run rest = some (run, found) := by
  rw [longestFirst, List.range_succ, List.filter_append, List.reverse_append]
  simp [hleast, h]

theorem longestFirst_concat (h : rest [] = none) (c : Char) :
    longestFirst least (run ++ [c]) rest = longestFirst least run fun left => rest (left ++ [c]) := by
  have hall : ((List.filter (least ≤ ·) [run.length + 1]).reverse.findSome? fun n =>
      (rest ((run ++ [c]).drop n)).map fun found => ((run ++ [c]).take n, found)) = none := by
    by_cases hleast : least ≤ run.length + 1 <;> simp [hleast, h]
  rw [longestFirst, List.length_append, List.length_singleton, List.range_succ, List.filter_append,
    List.reverse_append, List.findSome?_append, hall, Option.none_or, longestFirst]
  refine findSome?_congr fun n hn => ?_
  have hle : n ≤ run.length := by
    have := List.mem_range.mp (List.mem_filter.mp (List.mem_reverse.mp hn)).1
    omega
  rw [List.drop_append_of_le_length hle, List.take_append_of_le_length hle]

end

/-! ## Parts of a path with a slash after it -/

section
variable {least : Nat} {allowed : Char → Bool} {rest others : List Char → Option (List (Option (List Char)))}

theorem takePart_slash (more : List Char) :
    takePart least allowed rest ('/' :: more) =
      (longestFirst least (more.takeWhile allowed) fun left => rest (left ++ more.dropWhile allowed)).map
        fun found => some found.1 :: found.2 :=
  rfl

theorem takePart_of_ne {c : Char} (hc : c ≠ '/') (more : List Char) : takePart least allowed rest (c :: more) = none := by
  unfold takePart
  split
  · rename_i heq
    exact absurd (List.cons.inj heq).1 hc
  · rfl

theorem takePart_congr {path : List Char} (h : ∀ left, left <:+ path → rest left = others left) :
    takePart least allowed rest path = takePart least allowed others path := by
  unfold takePart
  split
  · rename_i more
    have hsame : ∀ n, rest ((more.takeWhile allowed).drop n ++ more.dropWhile allowed) =
        others ((more.takeWhile allowed).drop n ++ more.dropWhile allowed) := by
      intro n
      refine h _ ⟨'/' :: (more.takeWhile allowed).take n, ?_⟩
      rw [List.cons_append, ← List.append_assoc, List.take_append_drop, List.takeWhile_append_dropWhile]
    simp only [longestFirst, hsame]
  · rfl

theorem takePart_map (f : List (Option (List Char)) → List (Option (List Char))) (path : List Char) :
    takePart least allowed (fun left => (rest left).map f) path =
      (takePart least allowed rest path).map fun taken => taken.take 1 ++ f (taken.drop 1) := by
  unfold takePart
  split
  · rw [longestFirst_map, Option.map_map, Option.map_map]
    rfl
  · rfl

/-- A slash after the path stays after what is left, unless it can be taken with all that is before it. -/
theorem takePart_append_slash (h : least = 0 ∨ allowed '/' = true → rest [] = none) (path : List Char) :
    takePart least allowed rest (path ++ ['/']) = takePart least allowed (fun left => rest (left ++ ['/'])) path := by
  rcases path with - | ⟨c, more⟩
  · cases least with
    | zero => simp [takePart, longestFirst, h]
    | succ least => rfl
  by_cases hc : c = '/'
  · subst hc
    rw [List.cons_append, takePart_slash, takePart_slash]
    congr 1
    have hmore := List.takeWhile_append_dropWhile (p := allowed) (l := more)
    by_cases hdrop : more.dropWhile allowed = []
    · have hall : more.takeWhile allowed = more := by rwa [hdrop, List.append_nil] at hmore
      rw [List.takeWhile_append, hall, if_pos rfl, List.dropWhile_append, hdrop]
      simp only [List.isEmpty_nil, if_true]
      by_cases hslash : allowed '/' = true
      · simp only [List.takeWhile_cons_of_pos hslash, List.dropWhile_cons_of_pos hslash, List.takeWhile_nil,
          List.dropWhile_nil, List.append_nil]
        exact longestFirst_concat (h (.inr hslash)) '/'
      · simp only [List.takeWhile_cons_of_neg hslash, List.dropWhile_cons_of_neg hslash, List.append_nil]
    · -- The part ends before a character that stands in the path itself.
      have htake : (more.takeWhile allowed).length ≠ more.length := by
        have hlength := congrArg List.length hmore
        have hpos := List.length_pos_iff.mpr hdrop
        rw [List.length_append] at hlength
        omega
      rw [List.takeWhile_append, if_neg htake, List.dropWhile_append, if_neg (by simpa using hdrop)]
      simp only [List.append_assoc]
  · rw [List.cons_append, takePart_of_ne hc, takePart_of_ne hc]

end

/-! ## Optional segments -/

variable {segments : List Segment}

theorem allOptional_cons :
    allOptional (s :: segments) = true ↔ s.kind = .optionalCatchAll ∧ allOptional segments = true := by
  simp [allOptional]

theorem matchSegments_nil (segments : List Segment) :
    matchSegments segments [] =
      if allOptional segments then some (List.replicate segments.length none) else none := by
  induction segments with
  | nil => rfl
  | cons s segments ih =>
    rw [matchSegments_cons, ih]
    cases hkind : s.kind with
    | fixed => simp [allOptional, hkind, Text.strip?]
    | dynamic => simp [allOptional, hkind, takePart]
    | catchAll => simp [allOptional, hkind, takePart]
    | optionalCatchAll =>
      by_cases hrest : allOptional segments = true
      · simp [takePart, allOptional_cons, hkind, hrest, List.replicate_succ]
      · simp [takePart, allOptional_cons, hkind, hrest]

/-- Nothing but a slash is at the start of a path that segments match. -/
theorem matchSegments_of_ne {c : Char} (hc : c ≠ '/') (segments : List Segment) (more : List Char) :
    matchSegments segments (c :: more) = none := by
  induction segments with
  | nil => simp [matchSegments, hc]
  | cons s segments ih =>
    rw [matchSegments_cons]
    cases s.kind with
    | fixed => simp [Text.strip?, Ne.symm hc]
    | dynamic => exact takePart_of_ne hc more
    | catchAll => exact takePart_of_ne hc more
    | optionalCatchAll =>
      dsimp only
      rw [takePart_of_ne hc, ih]
      rfl

theorem newline_notMem_pieces {pieces : List (List Char)} (h : allOptional segments = true)
    (hpieces : List.Forall₂ Segment.Takes segments pieces) : '\n' ∉ pieces.flatten := by
  induction hpieces with
  | nil => simp
  | @cons s piece segments pieces hpiece _ ih =>
    obtain ⟨hkind, hrest⟩ := allOptional_cons.mp h
    rw [List.flatten_cons, List.mem_append, not_or]
    refine ⟨?_, ih hrest⟩
    simp only [Segment.Takes, hkind] at hpiece
    rcases hpiece with rfl | ⟨part, hpart, rfl⟩
    · simp
    · simpa using fun hline => hpart _ hline rfl

theorem matchSegments_of_newline (h : allOptional segments = true) (hline : '\n' ∈ path) :
    matchSegments segments path = none := by
  rw [← Option.not_isSome_iff_eq_none, isSome_matchSegments_iff]
  rintro ⟨pieces, tail, hpieces, htail, rfl⟩
  rcases List.mem_append.mp hline with hline | hline
  · exact newline_notMem_pieces h hpieces hline
  · rcases htail with rfl | rfl
    · cases hline
    · simp at hline

theorem takePart_closing {least : Nat} (h : allOptional segments = true) (path : List Char) :
    takePart least (· ≠ '\n') (matchSegments segments) path =
      if path.head? = some '/' ∧ '\n' ∉ path ∧ least < path.length then
        some (some path.tail :: List.replicate segments.length none)
      else none := by
  have hnil := matchSegments_nil segments
  rw [if_pos h] at hnil
  split
  · rename_i hpath
    obtain ⟨hslash, hline, hleast⟩ := hpath
    obtain ⟨more, rfl⟩ := List.head?_eq_some_iff.mp hslash
    have hall : ∀ c ∈ more, decide (c ≠ '\n') = true := by
      intro c hc
      rw [decide_eq_true_eq]
      rintro rfl
      exact hline (List.mem_cons_of_mem _ hc)
    rw [takePart_slash, List.takeWhile_eq_self_iff.mpr hall, List.dropWhile_eq_nil_iff.mpr hall]
    simp only [List.append_nil]
    rw [longestFirst_of_nil hnil (Nat.le_of_lt_succ hleast)]
    rfl
  · rename_i hpath
    rw [← Option.not_isSome_iff_eq_none, isSome_takePart]
    rintro ⟨part, left, hleast, hpart, rfl, hleft⟩
    -- A line end is in what is left, and so is none.
    have hline : '\n' ∉ left := by
      intro hin
      rw [matchSegments_of_newline h hin] at hleft
      cases hleft
    refine hpath ⟨rfl, ?_, ?_⟩
    · simpa [hline] using fun hin => by simpa using hpart _ hin
    · simp only [List.cons_append, List.length_cons, List.length_append]
      omega

/-- Optional segments take nothing of a path of which the first of them could take no part. -/
theorem matchSegments_of_takePart_eq_none (hrest : allOptional segments = true)
    (hnone : takePart 0 (· ≠ '\n') (matchSegments segments) path = none) (hne : path ≠ []) :
    matchSegments segments path = none := by
  obtain ⟨c, more, rfl⟩ := List.exists_cons_of_ne_nil hne
  by_cases hc : c = '/'
  · subst hc
    refine matchSegments_of_newline hrest ?_
    by_contra hline
    rw [takePart_closing hrest, if_pos ⟨rfl, hline, Nat.succ_pos _⟩] at hnone
    cases hnone
  · exact matchSegments_of_ne hc _ _

/-! ## Paths with a slash after them -/

def Unslashed (path : List Char) : Prop :=
  path.getLast? ≠ some '/'

theorem Unslashed.of_suffix {left : List Char} (h : Unslashed path) (hleft : left <:+ path) : Unslashed left := by
  obtain ⟨lead, rfl⟩ := hleft
  intro hlast
  refine h ?_
  rw [List.getLast?_append, hlast]
  rfl

theorem Unslashed.ne_nil {more : List Char} (h : Unslashed ('/' :: more)) : more ≠ [] := by
  rintro rfl
  exact h rfl

/-- A name is at the start of a path with a slash after it exactly if it is at the start of the path. -/
theorem strip?_append_slash (hs : s.Named) (path : List Char) :
    Text.strip? ('/' :: s.raw.toList) (path ++ ['/']) =
      (Text.strip? ('/' :: s.raw.toList) path).map (· ++ ['/']) := by
  ext left
  rw [Text.strip?_eq_some_iff, Option.map_eq_some_iff]
  constructor
  · intro hsplit
    rcases List.eq_nil_or_concat left with rfl | ⟨more, c, rfl⟩
    · -- The name would end with the slash.
      exfalso
      obtain ⟨init, c, hraw⟩ := (List.eq_nil_or_concat s.raw.toList).resolve_left hs.nonempty
      rw [List.append_nil, hraw, List.concat_eq_append, ← List.cons_append] at hsplit
      obtain ⟨-, hlast⟩ := List.append_inj' hsplit rfl
      refine hs.noSlash ?_
      rw [hraw, ← (List.cons.inj hlast).1, List.concat_eq_append]
      simp
    · rw [List.concat_eq_append, ← List.append_assoc] at hsplit
      obtain ⟨hpath, hlast⟩ := List.append_inj' hsplit rfl
      exact ⟨more, Text.strip?_eq_some_iff.mpr hpath, by rw [List.concat_eq_append, hlast]⟩
  · rintro ⟨more, hmore, rfl⟩
    rw [Text.strip?_eq_some_iff] at hmore
    rw [hmore, List.append_assoc]

def TakesSlash (segments : List Segment) : Prop :=
  ∀ path, Unslashed path →
    matchSegments segments (path ++ ['/']) = (matchSegments segments path).map (withSlash segments)

theorem takesSlash_nil : TakesSlash [] := by
  intro path h
  cases path with
  | nil => rfl
  | cons c path =>
    cases path with
    | nil =>
      have hc : c ≠ '/' := by
        rintro rfl
        exact h rfl
      simp [matchSegments, hc]
    | cons d path => simp [matchSegments]

section
variable {s : Segment}
variable {least : Nat} {path : List Char}

theorem TakesSlash.fixed (h : TakesSlash segments) (hs : s.Named) (hkind : s.kind = .fixed) :
    TakesSlash (s :: segments) := by
  intro path hpath
  have hslash : withSlash (s :: segments) = withSlash segments := by
    funext taken
    rw [withSlash, if_pos hkind]
  simp only [matchSegments_cons, hkind, strip?_append_slash hs, hslash]
  cases hstrip : Text.strip? ('/' :: s.raw.toList) path with
  | none => rfl
  | some left =>
    have hsuffix : left <:+ path := ⟨_, (Text.strip?_eq_some_iff.mp hstrip).symm⟩
    exact h left (hpath.of_suffix hsuffix)

theorem TakesSlash.takePart_append (h : TakesSlash segments) {allowed : Char → Bool}
    (hnil : least = 0 ∨ allowed '/' = true → matchSegments segments [] = none) (hpath : Unslashed path) :
    takePart least allowed (matchSegments segments) (path ++ ['/']) =
      (takePart least allowed (matchSegments segments) path).map fun taken =>
        taken.take 1 ++ withSlash segments (taken.drop 1) := by
  rw [takePart_append_slash hnil, ← takePart_map]
  exact takePart_congr fun left hsuffix => h left (hpath.of_suffix hsuffix)

theorem withSlash_of_not_closes (hkind : s.kind ≠ .fixed) (hcloses : s.closes segments = false) :
    withSlash (s :: segments) = fun taken => taken.take 1 ++ withSlash segments (taken.drop 1) := by
  funext taken
  rw [withSlash, if_neg hkind, hcloses]
  rfl

theorem TakesSlash.dynamic (h : TakesSlash segments) (hkind : s.kind = .dynamic) : TakesSlash (s :: segments) := by
  intro path hpath
  rw [withSlash_of_not_closes (by simp [hkind]) (by simp [Segment.closes, hkind])]
  simp only [matchSegments_cons, hkind]
  exact h.takePart_append (by simp) hpath

theorem closes_iff (hkind : s.kind = .catchAll ∨ s.kind = .optionalCatchAll) :
    s.closes segments = allOptional segments := by
  rcases hkind with hkind | hkind
  · simp [Segment.closes, hkind]
  · simp [Segment.closes, hkind]

theorem withSlash_of_closes (hkind : s.kind = .catchAll ∨ s.kind = .optionalCatchAll)
    (hrest : allOptional segments = true) :
    withSlash (s :: segments) = fun taken =>
      (taken.take 1).map (fun part => some (slashAfter part)) ++ taken.drop 1 := by
  funext taken
  have hfixed : s.kind ≠ .fixed := by
    rcases hkind with hkind | hkind
    · simp [hkind]
    · simp [hkind]
  rw [withSlash, if_neg hfixed, closes_iff hkind, hrest]
  rfl

theorem takePart_closing_append (hrest : allOptional segments = true) (hnil : path = [] → least ≠ 0)
    (hleast : path.head? = some '/' → least < path.length) :
    takePart least (· ≠ '\n') (matchSegments segments) (path ++ ['/']) =
      (takePart least (· ≠ '\n') (matchSegments segments) path).map fun taken =>
        (taken.take 1).map (fun part => some (slashAfter part)) ++ taken.drop 1 := by
  rw [takePart_closing hrest, takePart_closing hrest]
  cases path with
  | nil => simp [hnil]
  | cons c more =>
    by_cases hpath : (c :: more).head? = some '/' ∧ '\n' ∉ c :: more
    · have hlength := hleast hpath.1
      have hline : '\n' ∉ c :: more ++ ['/'] := by simpa using hpath.2
      rw [if_pos ⟨hpath.1, hline, by rw [List.length_append]; omega⟩, if_pos ⟨hpath.1, hpath.2, hlength⟩]
      rfl
    · rw [if_neg fun h => hpath ⟨h.1, by simpa using h.2.1⟩, if_neg fun h => hpath ⟨h.1, h.2.1⟩]
      rfl

theorem matchSegments_nil_of_not (hrest : allOptional segments ≠ true) : matchSegments segments [] = none := by
  rw [matchSegments_nil, if_neg hrest]

theorem TakesSlash.catchAll (h : TakesSlash segments) (hkind : s.kind = .catchAll) : TakesSlash (s :: segments) := by
  intro path hpath
  simp only [matchSegments_cons, hkind]
  by_cases hrest : allOptional segments = true
  · rw [withSlash_of_closes (.inl hkind) hrest]
    refine takePart_closing_append hrest (fun _ => Nat.one_ne_zero) fun hslash => ?_
    obtain ⟨more, rfl⟩ := List.head?_eq_some_iff.mp hslash
    exact Nat.succ_lt_succ (List.length_pos_iff.mpr hpath.ne_nil)
  · rw [withSlash_of_not_closes (by simp [hkind]) (by simpa [closes_iff (.inl hkind)] using hrest)]
    exact h.takePart_append (fun _ => matchSegments_nil_of_not hrest) hpath

theorem takesSlash_optional_closing (hkind : s.kind = .optionalCatchAll) (hrest : allOptional segments = true) :
    TakesSlash (s :: segments) := by
  intro path hpath
  rw [withSlash_of_closes (.inr hkind) hrest]
  by_cases hne : path = []
  · subst hne
    rw [matchSegments_nil, if_pos (allOptional_cons.mpr ⟨hkind, hrest⟩)]
    simp only [matchSegments_cons, hkind, List.nil_append, takePart_closing hrest]
    rfl
  · have hpart : takePart 0 (· ≠ '\n') (matchSegments segments) (path ++ ['/']) = _ :=
      takePart_closing_append hrest (fun hnil => absurd hnil hne) fun _ => List.length_pos_iff.mpr hne
    simp only [matchSegments_cons, hkind]
    cases htaken : takePart 0 (· ≠ '\n') (matchSegments segments) path with
    | some taken =>
      rw [hpart, htaken]
      rfl
    | none =>
      rw [htaken] at hpart
      rw [hpart, matchSegments_of_takePart_eq_none hrest htaken hne,
        matchSegments_of_takePart_eq_none hrest hpart (by simp)]
      rfl

theorem TakesSlash.optional_open (h : TakesSlash segments) (hkind : s.kind = .optionalCatchAll)
    (hrest : allOptional segments ≠ true) : TakesSlash (s :: segments) := by
  intro path hpath
  rw [withSlash_of_not_closes (by simp [hkind]) (by simpa [closes_iff (.inr hkind)] using hrest)]
  simp only [matchSegments_cons, hkind, h.takePart_append (fun _ => matchSegments_nil_of_not hrest) hpath, h path hpath]
  cases takePart 0 (· ≠ '\n') (matchSegments segments) path with
  | some taken => rfl
  | none => cases matchSegments segments path <;> rfl

end

/-- The slash after a path is added to what the closing segment takes, whatever the segments are. -/
theorem matchSegments_append_slash (hnamed : ∀ s ∈ segments, s.Named) : TakesSlash segments := by
  induction segments with
  | nil => exact takesSlash_nil
  | cons s segments ih =>
    obtain ⟨hs, hrest⟩ := List.forall_mem_cons.mp hnamed
    have h := ih hrest
    cases hkind : s.kind with
    | fixed => exact h.fixed hs hkind
    | dynamic => exact h.dynamic hkind
    | catchAll => exact h.catchAll hkind
    | optionalCatchAll =>
      by_cases hoptional : allOptional segments = true
      · exact takesSlash_optional_closing hkind hoptional
      · exact h.optional_open hkind hoptional

/-! ## Params of a path with a slash after it -/

section
variable {s : Segment} {path : List Char} {taken : List (Option (List Char))}
  {parts : List (String × Option (List Char))}

theorem drop_of_takePart {least : Nat} (hrest : allOptional segments = true)
    (h : takePart least (· ≠ '\n') (matchSegments segments) path = some taken) :
    taken.drop 1 = List.replicate segments.length none := by
  rw [takePart_closing hrest, Option.ite_none_right_eq_some] at h
  rw [← Option.some.inj h.2]
  rfl

theorem eq_replicate_of_takePart_eq_none (hrest : allOptional segments = true)
    (hnone : takePart 0 (· ≠ '\n') (matchSegments segments) path = none)
    (h : matchSegments segments path = some taken) : taken = List.replicate segments.length none := by
  by_cases hne : path = []
  · rw [hne, matchSegments_nil, if_pos hrest] at h
    exact (Option.some.inj h).symm
  · rw [matchSegments_of_takePart_eq_none hrest hnone hne] at h
    cases h

theorem drop_of_closes (h : s.closes segments = true) (htaken : matchSegments (s :: segments) path = some taken) :
    taken.drop 1 = List.replicate segments.length none := by
  simp only [Segment.closes, Bool.and_eq_true, Bool.or_eq_true, decide_eq_true_eq] at h
  obtain ⟨hkind | hkind, hrest⟩ := h
  · simp only [matchSegments_cons, hkind] at htaken
    exact drop_of_takePart hrest htaken
  · simp only [matchSegments_cons, hkind, Option.or_eq_some_iff, Option.map_eq_some_iff] at htaken
    rcases htaken with htaken | ⟨hnone, found, hfound, rfl⟩
    · exact drop_of_takePart hrest htaken
    · exact eq_replicate_of_takePart_eq_none hrest hnone hfound

theorem withSlash_eq_id (h : closing? segments = none) : withSlash segments = id := by
  induction segments with
  | nil => rfl
  | cons s segments ih =>
    rw [closing?] at h
    split at h
    · cases h
    · rename_i hcloses
      funext taken
      rw [withSlash, ih h, if_neg hcloses]
      split
      · rfl
      · exact List.take_append_drop 1 taken

theorem exists_closing_part (hnamed : ∀ s ∈ segments, s.Named) (h : closing? segments = some s)
    (htaken : matchSegments segments path = some taken) :
    ∃ name before part later, s.param = some name ∧ (part = none → s.kind = .optionalCatchAll) ∧
      (segments.filterMap (·.param)).zip taken = before ++ (name, part) :: later ∧
      (segments.filterMap (·.param)).zip (withSlash segments taken) =
        before ++ (name, some (slashAfter part)) :: later ∧
      ∀ entry ∈ later, entry.2 = none := by
  induction segments generalizing path taken with
  | nil => cases h
  | cons t segments ih =>
    obtain ⟨ht, hrest⟩ := List.forall_mem_cons.mp hnamed
    obtain ⟨piece, left, found, hpiece, hfound, -, hcut⟩ := of_matchSegments_cons htaken
    by_cases hfixed : t.kind = .fixed
    · have hcloses : t.closes segments = false := by simp [Segment.closes, hfixed]
      rw [closing?, hcloses] at h
      rw [if_pos hfixed] at hcut
      subst hcut
      rw [List.filterMap_cons_none (ht.param_eq_none_iff.mpr hfixed), withSlash, if_pos hfixed]
      exact ih hrest h hfound
    · obtain ⟨name, hname⟩ := Option.ne_none_iff_exists'.mp (fun hnone => hfixed (ht.param_eq_none_iff.mp hnone))
      rw [if_neg hfixed] at hcut
      subst hcut
      rw [List.filterMap_cons_some hname, withSlash, if_neg hfixed]
      by_cases hcloses : t.closes segments = true
      · rw [closing?, if_pos hcloses] at h
        obtain rfl : t = s := Option.some.inj h
        have hnones : found = List.replicate segments.length none := drop_of_closes hcloses htaken
        rw [if_pos hcloses]
        refine ⟨name, [], piece.tail?, _, hname, fun hnone => (hpiece.of_tail?_eq_none hnone).1, rfl, rfl, ?_⟩
        intro entry hentry
        rw [hnones] at hentry
        exact List.eq_of_mem_replicate (List.of_mem_zip hentry).2
      · rw [closing?, if_neg hcloses] at h
        obtain ⟨name', before, part, later, hparam, hkind, hzip, hslash, hlater⟩ := ih hrest h hfound
        rw [if_neg hcloses]
        refine ⟨name', (name, piece.tail?) :: before, part, later, hparam, hkind, ?_, ?_, hlater⟩
        · rw [List.zip_cons_cons, hzip, List.cons_append]
        · rw [List.cons_append, ← hslash]
          rfl

theorem foldl_writePart_none (h : ∀ entry ∈ parts, entry.2 = none)
    (d : Ordered String) : parts.foldl writePart d = d := by
  induction parts with
  | nil => rfl
  | cons entry parts ih =>
    obtain ⟨hentry, hrest⟩ := List.forall_mem_cons.mp h
    have hsame : writePart d entry = d := by rw [writePart, hentry]
    rw [List.foldl_cons, hsame, ih hrest]

theorem mem_keys_foldl_writePart {d : Ordered String} {key : String}
    (h : key ∈ (parts.foldl writePart d).keys) : key ∈ d.keys ∨ key ∈ parts.map (·.1) := by
  induction parts generalizing d with
  | nil => exact .inl h
  | cons entry parts ih =>
    rcases ih h with h | h
    · rw [writePart] at h
      split at h
      · obtain ⟨written, hwritten, rfl⟩ := List.mem_map.mp h
        rcases Ordered.mem_of_mem_insert hwritten with hold | rfl
        · exact .inl (List.mem_map_of_mem hold)
        · exact .inr List.mem_cons_self
      · exact .inl h
    · exact .inr (List.mem_cons_of_mem _ h)

end

/-- How a slash after the path changes the params of a route: not at all, if the route has no closing segment; else
the param of this segment gets the slash at its end, or becomes the empty text if there was none. -/
def AddsSlash (r : Route) (params slashed : Ordered String) : Prop :=
  closing? r.segments = none ∧ slashed = params ∨
    ∃ s name, closing? r.segments = some s ∧ s.param = some name ∧
      ((∃ value, params.get? name = some value ∧ slashed = params.insert name (value ++ "/")) ∨
        s.kind = .optionalCatchAll ∧ (r.params.Nodup → params.get? name = none) ∧ slashed = params.insert name "")

theorem Proper.addsSlash_of_closing (hr : r.Proper) (hclosing : closing? r.segments = some s)
    {taken : List (Option (List Char))} (htaken : matchSegments r.segments path = some taken) :
    r.AddsSlash ((r.params.zip taken).foldl writePart [])
      ((r.params.zip (withSlash r.segments taken)).foldl writePart []) := by
  obtain ⟨name, before, part, later, hname, hkind, hzip, hslash, hlater⟩ :=
    exists_closing_part hr.named hclosing htaken
  refine .inr ⟨s, name, hclosing, hname, ?_⟩
  have hnames : (before ++ (name, part) :: later).map (·.1) = r.params := by
    obtain ⟨pieces, tail, hpieces, -, -, rfl⟩ := exists_pieces htaken
    rw [← hzip, zip_takenOf hr.named hpieces, map_fst_namedParts hpieces, hr.params]
  rw [hr.params, hzip, hslash, List.foldl_append, List.foldl_append, List.foldl_cons, List.foldl_cons,
    foldl_writePart_none hlater, foldl_writePart_none hlater]
  cases part with
  | some text =>
    refine .inl ⟨String.ofList text, Ordered.get?_insert_self _ _ _, ?_⟩
    have hvalue : String.ofList (slashAfter (some text)) = String.ofList text ++ "/" := String.ofList_append
    show Ordered.insert _ name _ = Ordered.insert (Ordered.insert _ name _) name _
    rw [Ordered.insert_insert_self, hvalue]
  | none =>
    refine .inr ⟨hkind rfl, fun hnodup => ?_, rfl⟩
    rw [Ordered.get?_eq_none_iff]
    intro hkey
    rw [← hr.params, ← hnames, List.map_append, List.nodup_append'] at hnodup
    rcases mem_keys_foldl_writePart hkey with hkey | hkey
    · cases hkey
    · exact hnodup.2.2 hkey (by simp)

theorem Proper.addsSlash (hr : r.Proper) {path : String} (hpath : Unslashed path.toList) :
    (r.paramsFor? path = none ∧ r.paramsFor? (path ++ "/") = none) ∨
      ∃ params slashed, r.paramsFor? path = some params ∧ r.paramsFor? (path ++ "/") = some slashed ∧
        r.AddsSlash params slashed := by
  have hslash : matchSegments r.segments (path ++ "/").toList =
      (matchSegments r.segments path.toList).map (withSlash r.segments) := by
    rw [String.toList_append]
    exact matchSegments_append_slash hr.named _ hpath
  rw [paramsFor?_eq, paramsFor?_eq, hslash]
  cases htaken : matchSegments r.segments path.toList with
  | none => exact .inl ⟨rfl, rfl⟩
  | some taken =>
    refine .inr ⟨_, _, rfl, rfl, ?_⟩
    cases hclosing : closing? r.segments with
    | none =>
      rw [withSlash_eq_id hclosing]
      exact .inl ⟨hclosing, rfl⟩
    | some s => exact hr.addsSlash_of_closing hclosing htaken

theorem find?_addsSlash {routes : List Route} (hproper : ∀ r ∈ routes, r.Proper) {path : String}
    (hpath : Unslashed path.toList) :
    (find? routes path = none ∧ find? routes (path ++ "/") = none) ∨
      ∃ r ∈ routes, ∃ params slashed, find? routes path = some { route := r, params } ∧
        find? routes (path ++ "/") = some { route := r, params := slashed } ∧ r.AddsSlash params slashed := by
  induction routes with
  | nil => exact .inl ⟨rfl, rfl⟩
  | cons r routes ih =>
    obtain ⟨hr, hrest⟩ := List.forall_mem_cons.mp hproper
    simp only [find?, List.findSome?_cons] at ih ⊢
    rcases hr.addsSlash hpath with ⟨hnone, hnone'⟩ | ⟨params, slashed, hparams, hslashed, hadds⟩
    · rw [hnone, hnone']
      rcases ih hrest with hboth | ⟨q, hq, hfound⟩
      · exact .inl hboth
      · exact .inr ⟨q, List.mem_cons_of_mem _ hq, hfound⟩
    · rw [hparams, hslashed]
      exact .inr ⟨r, List.mem_cons_self, params, slashed, rfl, rfl, hadds⟩

/-- A path that does not end with a slash and the path with a slash after it belong to the same route of a manifest,
or to none. The params are the same but for that of the closing segment, which takes the slash; so they are the same
if the last segment of the route is fixed or takes one name. -/
theorem find?_manifest_append_slash {pages : List (String × String)} {path : String}
    (hpath : path.toList.getLast? ≠ some '/') :
    (find? (manifest (ofPages pages)) path = none ∧ find? (manifest (ofPages pages)) (path ++ "/") = none) ∨
      ∃ r params slashed, find? (manifest (ofPages pages)) path = some { route := r, params } ∧
        find? (manifest (ofPages pages)) (path ++ "/") = some { route := r, params := slashed } ∧
        r.AddsSlash params slashed ∧
        ((∀ last ∈ r.segments.getLast?, last.kind = .fixed ∨ last.kind = .dynamic) → slashed = params) := by
  have hproper : ∀ r ∈ manifest (ofPages pages), r.Proper := fun r hr => proper_of_mem_manifest hr
  rcases find?_addsSlash hproper hpath with hboth | ⟨r, -, params, slashed, hfind, hfind', hadds⟩
  · exact .inl hboth
  · refine .inr ⟨r, params, slashed, hfind, hfind', hadds, fun hlast => ?_⟩
    rcases hadds with ⟨-, hsame⟩ | ⟨s, -, hclosing, -⟩
    · exact hsame
    · obtain ⟨last, hmem, hkind⟩ := exists_last_of_closing? hclosing
      have hne : last.kind ≠ .fixed ∧ last.kind ≠ .dynamic := by
        rcases hkind with hkind | hkind
        · simp [hkind]
        · simp [hkind]
      exact absurd (hlast last hmem) (not_or.mpr hne)

theorem manifest_singleton (relative file : String) :
    manifest (ofPages [(relative, file)]) = [ofFile relative file] :=
  List.mergeSort_singleton _

/-- An optional segment that takes nothing of a path takes the slash after it. -/
theorem find?_manifest_append_slash_docs :
    let pages := [("docs/[[...path]].zen", "pages/docs.zen")]
    let r := ofFile "docs/[[...path]].zen" "pages/docs.zen"
    "/docs".toList.getLast? ≠ some '/' ∧
      find? (manifest (ofPages pages)) "/docs" = some { route := r, params := [] } ∧
      find? (manifest (ofPages pages)) ("/docs" ++ "/") = some { route := r, params := [("path", "")] } ∧
      r.AddsSlash [] [("path", "")] := by
  intro pages r
  have hpath : "/docs".toList.getLast? ≠ some '/' := by decide
  have hfacts : r.paramsFor? "/docs" = some [] ∧ r.paramsFor? ("/docs" ++ "/") = some [("path", "")] := by
    decide +kernel
  have hfind := find?_singleton hfacts.1
  have hfind' := find?_singleton hfacts.2
  rw [← manifest_singleton] at hfind hfind'
  refine ⟨hpath, hfind, hfind', ?_⟩
  rcases @find?_manifest_append_slash pages _ hpath with ⟨hnone, -⟩ | ⟨q, params, slashed, h, h', hadds, -⟩
  · rw [hfind] at hnone
    cases hnone
  · rw [hfind] at h
    rw [hfind'] at h'
    cases h
    cases h'
    exact hadds

/-- The params of a path and those of the path with a slash after it can differ. -/
theorem params_ne_after_slash :
    let pages := [("[...rest].zen", "pages/rest.zen")]
    let r := ofFile "[...rest].zen" "pages/rest.zen"
    "/a".toList.getLast? ≠ some '/' ∧
      find? (manifest (ofPages pages)) "/a" = some { route := r, params := [("rest", "a")] } ∧
      find? (manifest (ofPages pages)) ("/a" ++ "/") = some { route := r, params := [("rest", "a/")] } ∧
      [("rest", "a")] ≠ [("rest", "a/")] := by
  intro pages r
  have hfacts : r.paramsFor? "/a" = some [("rest", "a")] ∧ r.paramsFor? ("/a" ++ "/") = some [("rest", "a/")] := by
    decide +kernel
  have hfind := find?_singleton hfacts.1
  have hfind' := find?_singleton hfacts.2
  rw [← manifest_singleton] at hfind hfind'
  exact ⟨by decide, hfind, hfind', by decide⟩

end PageCompiler.Route
