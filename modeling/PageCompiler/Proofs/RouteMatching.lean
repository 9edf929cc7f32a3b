import Mathlib.Data.List.Forall2
import Mathlib.Data.String.Basic
import PageCompiler.Route.Manifest

/-!
# Routes and the paths that they match

The route of a page is a list of names between slashes (`Proper`). A path matches it if the path is made of one
piece for each segment, in order, and perhaps a slash at its end (`isSome_matchSegments_iff`).
-/

namespace PageCompiler.Text

variable {sep : Char} {names : List (List Char)}

/-! ## Pieces -/

theorem pieces_append {name : List Char} (hname : sep ∉ name) (rest : List Char) :
    pieces sep (name ++ sep :: rest) = name :: pieces sep rest := by
  induction name with
  | nil => simp [pieces]
  | cons c name ih =>
    simp only [List.mem_cons, not_or] at hname
    obtain ⟨hc, hname⟩ := hname
    rw [List.cons_append, pieces, if_neg (Ne.symm hc), ih hname]

theorem pieces_of_notMem {name : List Char} (hname : sep ∉ name) : pieces sep name = [name] := by
  induction name with
  | nil => rfl
  | cons c name ih =>
    simp only [List.mem_cons, not_or] at hname
    obtain ⟨hc, hname⟩ := hname
    rw [pieces, if_neg (Ne.symm hc), ih hname]

theorem notMem_of_mem_pieces {cs piece : List Char} (h : piece ∈ pieces sep cs) : sep ∉ piece := by
  induction cs generalizing piece with
  | nil => simp_all [pieces]
  | cons c cs ih =>
    rw [pieces] at h
    split at h
    · rcases List.mem_cons.mp h with rfl | h
      · simp
      · exact ih h
    · rename_i hc
      split at h
      · obtain rfl := List.mem_singleton.mp h
        simpa using Ne.symm hc
      · rename_i first others heq
        rcases List.mem_cons.mp h with rfl | h
        · have hfirst : sep ∉ first := ih (by simp [heq])
          simpa [Ne.symm hc] using hfirst
        · exact ih (by simp [heq, h])

def slashed (names : List (List Char)) : List Char :=
  names.flatMap ('/' :: ·)

@[simp] theorem slashed_nil : slashed [] = [] := rfl

@[simp] theorem slashed_cons (name : List Char) (names : List (List Char)) :
    slashed (name :: names) = '/' :: name ++ slashed names := rfl

@[simp] theorem slashed_append (names others : List (List Char)) :
    slashed (names ++ others) = slashed names ++ slashed others := by
  simp [slashed]

theorem pieces_slashed (h : ∀ name ∈ names, '/' ∉ name) : pieces '/' (slashed names) = [] :: names := by
  induction names with
  | nil => rfl
  | cons name names ih =>
    obtain ⟨hname, hnames⟩ := List.forall_mem_cons.mp h
    rw [slashed_cons, List.cons_append, pieces, if_pos rfl]
    congr 1
    cases names with
    | nil => rw [slashed_nil, List.append_nil, pieces_of_notMem hname]
    | cons next names =>
      have hrest := ih hnames
      rw [slashed_cons, List.cons_append, pieces, if_pos rfl] at hrest
      rw [slashed_cons, List.cons_append, pieces_append hname, (List.cons.inj hrest).2]

theorem slashed_inj {others : List (List Char)} (h : ∀ name ∈ names, '/' ∉ name) (h' : ∀ name ∈ others, '/' ∉ name)
    (heq : slashed names = slashed others) : names = others := by
  have hpieces := congrArg (pieces '/') heq
  rw [pieces_slashed h, pieces_slashed h'] at hpieces
  exact (List.cons.inj hpieces).2

theorem count_slashed (h : ∀ name ∈ names, '/' ∉ name) : (slashed names).count '/' = names.length := by
  induction names with
  | nil => rfl
  | cons name names ih =>
    obtain ⟨hname, hnames⟩ := List.forall_mem_cons.mp h
    rw [slashed_cons, List.cons_append, List.count_cons_self, List.count_append, ih hnames,
      List.count_eq_zero_of_not_mem hname, List.length_cons, Nat.zero_add]

theorem cons_intercalate (h : names ≠ []) : '/' :: ['/'].intercalate names = slashed names := by
  induction names with
  | nil => contradiction
  | cons name names ih =>
    cases names with
    | nil => simp
    | cons next names =>
      rw [List.intercalate_cons_cons, slashed_cons, ← ih (by simp)]
      simp

end PageCompiler.Text

namespace PageCompiler.Route

open Text (slashed)

variable {segments : List Segment} {name path : List Char} {least : Nat} {allowed : Char → Bool}

/-! ## Routes of pages -/

def rawNames (segments : List Segment) : List (List Char) :=
  segments.map (·.raw.toList)

@[simp] theorem rawNames_cons (s : Segment) (segments : List Segment) :
    rawNames (s :: segments) = s.raw.toList :: rawNames segments := rfl

@[simp] theorem rawNames_append (segments others : List Segment) :
    rawNames (segments ++ others) = rawNames segments ++ rawNames others := by
  simp [rawNames]

/-- The segment is what its text says, and its text is a name. -/
structure Segment.Named (s : Segment) : Prop where
  ofText : s = Segment.ofText s.raw.toList
  noSlash : '/' ∉ s.raw.toList
  nonempty : s.raw.toList ≠ []

/-- A route as pages have it: its path, its score and its params are those of its segments. -/
structure Proper (r : Route) : Prop where
  named : ∀ s ∈ r.segments, s.Named
  path : r.path.toList = if r.segments = [] then ['/'] else slashed (rawNames r.segments)
  score : r.score = scoreOf r.segments
  params : r.params = r.segments.filterMap (·.param)

theorem raw_ofText (raw : List Char) : (Segment.ofText raw).raw.toList = raw := by
  unfold Segment.ofText
  dsimp only
  split
  · split <;> exact String.toList_ofList
  · exact String.toList_ofList
  · exact String.toList_ofList

theorem noSlash_of_rawNames (h : ∀ s ∈ segments, s.Named) : ∀ name ∈ rawNames segments, '/' ∉ name := by
  intro name hname
  obtain ⟨s, hs, rfl⟩ := List.mem_map.mp hname
  exact (h s hs).noSlash

theorem rawNames_inj {others : List Segment} (h : ∀ s ∈ segments, s.Named) (h' : ∀ s ∈ others, s.Named)
    (heq : rawNames segments = rawNames others) : segments = others := by
  have hback : ∀ {segments : List Segment}, (∀ s ∈ segments, s.Named) →
      (rawNames segments).map Segment.ofText = segments := by
    intro segments h
    rw [rawNames, List.map_map]
    exact (List.map_congr_left fun s hs => (h s hs).ofText.symm).trans (List.map_id _)
  rw [← hback h, ← hback h', heq]

theorem mem_of_inside? {lead tail : String} {param : List Char} (h : inside? lead tail name = some param) {c : Char}
    (hc : c ∈ param) : c ∈ name := by
  simp only [inside?, Option.bind_eq_some_iff, Text.strip?, Text.stripEnd?, Option.ite_none_right_eq_some,
    Option.some.injEq] at h
  obtain ⟨rest, ⟨-, rfl⟩, -, rfl⟩ := h
  exact List.mem_of_mem_drop (List.mem_of_mem_take hc)

/-- A part of the path of a file gives a name without slashes. -/
theorem segmentText_spec (hne : name ≠ []) (hslash : '/' ∉ name) : segmentText name ≠ [] ∧ '/' ∉ segmentText name := by
  unfold segmentText
  split
  · rename_i param h
    have := fun hc => hslash (mem_of_inside? h hc)
    simpa using this
  · split
    · rename_i param h
      have := fun hc => hslash (mem_of_inside? h hc)
      simpa using this
    · split
      · rename_i param h
        have := fun hc => hslash (mem_of_inside? h hc)
        simpa using this
      · exact ⟨hne, hslash⟩

def routeNames (relative : String) : List (List Char) :=
  let slashes := relative.toList.map fun c => if c = '\\' then '/' else c
  let named := (Text.stripEnd? ".zen".toList slashes).getD slashes
  ((Text.pieces '/' named).filter fun s => !s.isEmpty && s != "index".toList).map segmentText

theorem toList_pathOfFile (relative : String) :
    (pathOfFile relative).toList = '/' :: ['/'].intercalate (routeNames relative) :=
  String.toList_ofList

theorem routeNames_spec {relative : String} (h : name ∈ routeNames relative) : name ≠ [] ∧ '/' ∉ name := by
  obtain ⟨part, hpart, rfl⟩ := List.mem_map.mp h
  obtain ⟨hpiece, hkept⟩ := List.mem_filter.mp hpart
  simp only [Bool.and_eq_true, Bool.not_eq_true', List.isEmpty_eq_false_iff] at hkept
  exact segmentText_spec hkept.1 (Text.notMem_of_mem_pieces hpiece)

theorem segmentsOf_pathOfFile (relative : String) :
    segmentsOf (pathOfFile relative) = (routeNames relative).map Segment.ofText := by
  rw [segmentsOf, toList_pathOfFile]
  by_cases hnil : routeNames relative = []
  · rw [hnil]
    rfl
  · -- The piece before the first slash is empty and is dropped; the names are not empty and stay.
    rw [Text.cons_intercalate hnil, Text.pieces_slashed fun name hname => (routeNames_spec hname).2]
    congr 1
    rw [List.filter_cons_of_neg (by simp), List.filter_eq_self]
    intro name hname
    simpa using (routeNames_spec hname).1

theorem segments_ofFile (relative file : String) :
    (ofFile relative file).segments = (routeNames relative).map Segment.ofText := by
  rw [ofFile, segmentsOf_pathOfFile]

theorem rawNames_ofFile (relative file : String) :
    rawNames (ofFile relative file).segments = routeNames relative := by
  rw [segments_ofFile, rawNames, List.map_map]
  exact (List.map_congr_left fun name _ => raw_ofText name).trans (List.map_id _)

theorem toList_path_ofFile (relative file : String) :
    (ofFile relative file).path.toList = '/' :: ['/'].intercalate (routeNames relative) := by
  rw [ofFile, toList_pathOfFile]

theorem proper_ofFile (relative file : String) : (ofFile relative file).Proper := by
  refine ⟨?_, ?_, by rw [ofFile], by rw [ofFile]⟩
  · intro s hs
    rw [segments_ofFile] at hs
    obtain ⟨name, hname, rfl⟩ := List.mem_map.mp hs
    obtain ⟨hne, hslash⟩ := routeNames_spec hname
    refine ⟨?_, ?_, ?_⟩
    · rw [raw_ofText]
    · rwa [raw_ofText]
    · rwa [raw_ofText]
  · rw [toList_path_ofFile, rawNames_ofFile]
    split
    · rename_i hnil
      rw [segments_ofFile, List.map_eq_nil_iff] at hnil
      rw [hnil]
      rfl
    · rename_i hnil
      rw [segments_ofFile, List.map_eq_nil_iff] at hnil
      exact Text.cons_intercalate hnil

/-! ## Matching -/

/-- The pieces of a path that a segment takes. -/
def Segment.Takes (s : Segment) (piece : List Char) : Prop :=
  match s.kind with
  | .fixed => piece = '/' :: s.raw.toList
  | .dynamic => ∃ part, part ≠ [] ∧ (∀ c ∈ part, c ≠ '/') ∧ piece = '/' :: part
  | .catchAll => ∃ part, part ≠ [] ∧ (∀ c ∈ part, c ≠ '\n') ∧ piece = '/' :: part
  | .optionalCatchAll => piece = [] ∨ ∃ part, (∀ c ∈ part, c ≠ '\n') ∧ piece = '/' :: part

/-- The path is made of one piece for each segment, in order, and perhaps a slash at the end. -/
def Matches (segments : List Segment) (path : List Char) : Prop :=
  ∃ pieces tail, List.Forall₂ Segment.Takes segments pieces ∧ (tail = [] ∨ tail = ['/']) ∧
    path = pieces.flatten ++ tail

theorem matches_nil : Matches [] path ↔ path = [] ∨ path = ['/'] := by
  constructor
  · rintro ⟨pieces, tail, hpieces, htail, rfl⟩
    cases hpieces
    exact htail
  · intro h
    exact ⟨[], path, .nil, h, rfl⟩

theorem matches_cons {s : Segment} :
    Matches (s :: segments) path ↔
      ∃ piece left, s.Takes piece ∧ Matches segments left ∧ path = piece ++ left := by
  constructor
  · rintro ⟨pieces, tail, hpieces, htail, rfl⟩
    obtain ⟨piece, pieces, hpiece, hrest, rfl⟩ := List.forall₂_cons_left_iff.mp hpieces
    refine ⟨piece, pieces.flatten ++ tail, hpiece, ⟨pieces, tail, hrest, htail, rfl⟩, ?_⟩
    rw [List.flatten_cons, List.append_assoc]
  · rintro ⟨piece, left, hpiece, ⟨pieces, tail, hrest, htail, rfl⟩, rfl⟩
    refine ⟨piece :: pieces, tail, .cons hpiece hrest, htail, ?_⟩
    rw [List.flatten_cons, List.append_assoc]

variable {α : Type}

theorem isSome_longestFirst {run : List Char} {rest : List Char → Option α} :
    (longestFirst least run rest).isSome ↔ ∃ n, least ≤ n ∧ n ≤ run.length ∧ (rest (run.drop n)).isSome := by
  simp only [longestFirst, List.findSome?_isSome_iff, List.mem_reverse, List.mem_filter, List.mem_range,
    decide_eq_true_eq, Option.isSome_map]
  constructor
  · rintro ⟨n, ⟨hlt, hle⟩, h⟩
    exact ⟨n, hle, by omega, h⟩
  · rintro ⟨n, hle, hlt, h⟩
    exact ⟨n, ⟨by omega, hle⟩, h⟩

theorem isSome_longestFirst_takeWhile {more : List Char} {rest : List Char → Option α} :
    (longestFirst least (more.takeWhile allowed) fun left => rest (left ++ more.dropWhile allowed)).isSome ↔
      ∃ part left, least ≤ part.length ∧ (∀ c ∈ part, allowed c = true) ∧ more = part ++ left ∧
        (rest left).isSome := by
  rw [isSome_longestFirst]
  constructor
  · rintro ⟨n, hleast, hn, h⟩
    refine ⟨(more.takeWhile allowed).take n, _, ?_, ?_, ?_, h⟩
    · rwa [List.length_take, Nat.min_eq_left hn]
    · intro c hc
      exact List.all_eq_true.mp List.all_takeWhile c (List.mem_of_mem_take hc)
    · rw [← List.append_assoc, List.take_append_drop, List.takeWhile_append_dropWhile]
  · rintro ⟨part, left, hleast, hpart, rfl, h⟩
    -- The run may be longer than the part: what is left over of it goes back to the rest.
    rw [List.takeWhile_append_of_pos hpart, List.dropWhile_append_of_pos hpart]
    refine ⟨part.length, hleast, by simp, ?_⟩
    rwa [List.drop_left, List.takeWhile_append_dropWhile]

/-- What a segment takes that takes a part after a slash, and what the others take then. -/
def takePart (least : Nat) (allowed : Char → Bool) (rest : List Char → Option (List (Option (List Char)))) :
    List Char → Option (List (Option (List Char)))
  | '/' :: more =>
    (longestFirst least (more.takeWhile allowed) fun left => rest (left ++ more.dropWhile allowed)).map
      fun (part, found) => some part :: found
  | _ => none

theorem isSome_takePart {rest : List Char → Option (List (Option (List Char)))} :
    (takePart least allowed rest path).isSome ↔
      ∃ part left, least ≤ part.length ∧ (∀ c ∈ part, allowed c = true) ∧ path = '/' :: part ++ left ∧
        (rest left).isSome := by
  unfold takePart
  split
  · rename_i more
    rw [Option.isSome_map, isSome_longestFirst_takeWhile]
    simp
  · rename_i hslash
    simp only [Option.isSome_none, Bool.false_eq_true, false_iff]
    rintro ⟨part, left, -, -, rfl, -⟩
    exact hslash (part ++ left) rfl

theorem matchSegments_cons (s : Segment) (segments : List Segment) (path : List Char) :
    matchSegments (s :: segments) path = match s.kind with
      | .fixed => (Text.strip? ('/' :: s.raw.toList) path).bind (matchSegments segments)
      | .dynamic => takePart 1 (· ≠ '/') (matchSegments segments) path
      | .catchAll => takePart 1 (· ≠ '\n') (matchSegments segments) path
      | .optionalCatchAll => (takePart 0 (· ≠ '\n') (matchSegments segments) path).or
          ((matchSegments segments path).map (none :: ·)) := by
  rw [matchSegments]
  cases s.kind with
  | fixed =>
    dsimp only
    cases Text.strip? ('/' :: s.raw.toList) path <;> rfl
  | dynamic => rfl
  | catchAll => rfl
  | optionalCatchAll =>
    dsimp only
    split
    · rename_i found hfound
      have htaken : takePart 0 (· ≠ '\n') (matchSegments segments) path = some found := hfound
      rw [htaken]
      rfl
    · rename_i hnone
      have htaken : takePart 0 (· ≠ '\n') (matchSegments segments) path = none := hnone
      rw [htaken]
      rfl

/-- A part after a slash, of at least `least` characters, and a path that the rest match. -/
theorem isSome_takePart_matchSegments (ih : ∀ {path}, (matchSegments segments path).isSome ↔ Matches segments path) :
    (takePart least allowed (matchSegments segments) path).isSome ↔
      ∃ piece left, (∃ part, least ≤ part.length ∧ (∀ c ∈ part, allowed c = true) ∧ piece = '/' :: part) ∧
        Matches segments left ∧ path = piece ++ left := by
  rw [isSome_takePart]
  constructor
  · rintro ⟨part, left, hleast, hpart, rfl, h⟩
    exact ⟨'/' :: part, left, ⟨part, hleast, hpart, rfl⟩, ih.mp h, rfl⟩
  · rintro ⟨piece, left, ⟨part, hleast, hpart, rfl⟩, h, rfl⟩
    exact ⟨part, left, hleast, hpart, rfl, ih.mpr h⟩

/-- The segments match a path exactly if the path is made of pieces for them. -/
theorem isSome_matchSegments_iff : (matchSegments segments path).isSome ↔ Matches segments path := by
  induction segments generalizing path with
  | nil =>
    rw [matchSegments, matches_nil]
    split
    · rename_i h
      simpa using h
    · rename_i h
      simpa using h
  | cons s segments ih =>
    rw [matchSegments_cons, matches_cons]
    unfold Segment.Takes
    cases s.kind with
    | fixed =>
      simp only [Option.isSome_bind, Option.any_eq_true, Text.strip?_eq_some_iff]
      constructor
      · rintro ⟨left, rfl, h⟩
        exact ⟨_, left, rfl, ih.mp h, rfl⟩
      · rintro ⟨piece, left, rfl, h, rfl⟩
        exact ⟨left, rfl, ih.mpr h⟩
    | dynamic | catchAll =>
      simp only [isSome_takePart_matchSegments ih, Nat.one_le_iff_ne_zero, ne_eq, List.length_eq_zero_iff,
        decide_eq_true_eq]
    | optionalCatchAll =>
      rw [Option.isSome_or, Bool.or_eq_true, isSome_takePart_matchSegments ih, Option.isSome_map, ih]
      constructor
      · rintro (⟨piece, left, ⟨part, -, hpart, rfl⟩, h, rfl⟩ | h)
        · exact ⟨_, left, .inr ⟨part, by simpa using hpart, rfl⟩, h, rfl⟩
        · exact ⟨[], path, .inl rfl, h, rfl⟩
      · rintro ⟨piece, left, rfl | ⟨part, hpart, rfl⟩, h, rfl⟩
        · exact .inr h
        · exact .inl ⟨_, left, ⟨part, Nat.zero_le _, by simpa using hpart, rfl⟩, h, rfl⟩

end PageCompiler.Route
