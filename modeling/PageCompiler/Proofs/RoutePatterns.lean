import PageCompiler.Proofs.Dictionaries
import PageCompiler.Proofs.RouteChoice

/-!
# The patterns of routes

The pattern of a route is the text of a regular expression. `Pattern` is the part of the language of regular
expressions that the routes use, `Pattern.read?` reads a text of it, and `Pattern.ways` lists the ways in which it
matches, the preferred one first: a repetition takes as much as it can, an option is taken if it can be. A search
takes the leftmost place with a match and there the preferred way (`Pattern.captures?`).

The pattern of every route can be read, and what its groups capture is what the segments of the route take
(`captures?_expressionOf`). So a route matches the paths that are made of pieces for its segments, and its params are
the pieces of such a cut (`route_matching`).
-/

namespace PageCompiler.Route

variable {path : List Char} {taken : List (Option (List Char))} {s : Segment} {segments : List Segment}

/-! ## Regular expressions -/

/-- A class of characters: one character, or all but one. -/
inductive CharClass where
  | only (c : Char)
  | except (c : Char)
deriving DecidableEq, Repr

def CharClass.has : CharClass → Char → Bool
  | only d => (· = d)
  | except d => (· ≠ d)

/-- A regular expression. -/
inductive Pattern where
  | empty
  | start
  | finish
  | one (cls : CharClass)
  /-- At least `least` characters of a class, and as many as possible. -/
  | repeated (least : Nat) (cls : CharClass)
  | capture (inner : Pattern)
  | cluster (inner : Pattern)
  /-- The inner pattern if it matches, else nothing. -/
  | optional (inner : Pattern)
  | seq (first rest : Pattern)
deriving DecidableEq, Repr

namespace Pattern

def inOrder (items : List Pattern) : Pattern :=
  items.foldr seq empty

def groups : Pattern → Nat
  | capture inner => inner.groups + 1
  | cluster inner => inner.groups
  | optional inner => inner.groups
  | seq first rest => first.groups + rest.groups
  | _ => 0

end Pattern

/-- A way to match at a place: the text that is matched, what the groups capture, and the text after it. -/
structure Way where
  text : List Char
  captures : List (Option (List Char))
  rest : List Char
deriving DecidableEq, Repr

def Way.andThen (w v : Way) : Way :=
  { text := w.text ++ v.text, captures := w.captures ++ v.captures, rest := v.rest }

/-- The ways to match characters of the class, longer ones first. -/
def CharClass.runs (cls : CharClass) : List Char → List Way
  | [] => [⟨[], [], []⟩]
  | c :: cs =>
    let longer := if cls.has c then (cls.runs cs).map fun w => { w with text := c :: w.text } else []
    longer ++ [⟨[], [], c :: cs⟩]

namespace Pattern

/-- The ways in which the pattern matches at the head of a text, the preferred one first. `atStart` says whether
there is nothing before that text. -/
def ways : Pattern → Bool → List Char → List Way
  | empty, _, cs => [⟨[], [], cs⟩]
  | start, atStart, cs => if atStart then [⟨[], [], cs⟩] else []
  | finish, _, cs => if cs.isEmpty then [⟨[], [], cs⟩] else []
  | one _, _, [] => []
  | one cls, _, c :: cs => if cls.has c then [⟨[c], [], cs⟩] else []
  | repeated least cls, _, cs => (cls.runs cs).filter (least ≤ ·.text.length)
  | capture inner, atStart, cs =>
    (inner.ways atStart cs).map fun w => { w with captures := some w.text :: w.captures }
  | cluster inner, atStart, cs => inner.ways atStart cs
  | optional inner, atStart, cs => inner.ways atStart cs ++ [⟨[], List.replicate inner.groups none, cs⟩]
  | seq first rest, atStart, cs =>
    (first.ways atStart cs).flatMap fun w => (rest.ways (atStart && w.text.isEmpty) w.rest).map w.andThen

/-- What the groups capture in the preferred way to match at the head of a text. -/
def first? (p : Pattern) (atStart : Bool) (cs : List Char) : Option (List (Option (List Char))) :=
  (p.ways atStart cs).head?.map (·.captures)

/-- What the groups capture at the leftmost place of a text where the pattern matches. -/
def search (p : Pattern) (atStart : Bool) : List Char → Option (List (Option (List Char)))
  | [] => p.first? atStart []
  | c :: cs => (p.first? atStart (c :: cs)).or (p.search false cs)

/-- What the groups capture in the match of the pattern in a text. -/
def captures? (p : Pattern) (text : List Char) : Option (List (Option (List Char))) :=
  p.search true text

/-! ## Reading -/

def marked? (mark : Char) : Pattern → Option Pattern
  | one cls =>
    if mark = '?' then some (optional (one cls))
    else if mark = '*' then some (repeated 0 cls)
    else some (repeated 1 cls)
  | capture inner => if mark = '?' then some (optional (capture inner)) else none
  | cluster inner => if mark = '?' then some (optional (cluster inner)) else none
  | _ => none

/-- A group whose end is still to come: whether it captures, and the items before it, the last one first. -/
structure OpenGroup where
  captures : Bool
  before : List Pattern

/-- Reads a regular expression. `opened` are the open groups, the innermost first, and `items` is what has been read
of the innermost one, the last item first. What is outside of `Pattern`, such as alternatives, repetitions of groups
and lazy repetitions, is refused. -/
def readFrom (opened : List OpenGroup) (items : List Pattern) : List Char → Option Pattern
  | [] => if opened.isEmpty then some (inOrder items.reverse) else none
  | '\\' :: c :: rest => if patternMeta.contains c then readFrom opened (one (.only c) :: items) rest else none
  | '[' :: '^' :: c :: ']' :: rest =>
    if patternMeta.contains c then none else readFrom opened (one (.except c) :: items) rest
  | '(' :: '?' :: ':' :: rest => readFrom (⟨false, items⟩ :: opened) [] rest
  | '(' :: '?' :: _ => none
  | '(' :: rest => readFrom (⟨true, items⟩ :: opened) [] rest
  | c :: rest =>
    if c = ')' then
      match opened with
      | [] => none
      | group :: opened =>
        let inner := inOrder items.reverse
        readFrom opened ((if group.captures then capture inner else cluster inner) :: group.before) rest
    else if c = '^' then readFrom opened (start :: items) rest
    else if c = '$' then readFrom opened (finish :: items) rest
    else if c = '.' then readFrom opened (one (.except '\n') :: items) rest
    else if c = '?' || c = '*' || c = '+' then
      match items with
      | [] => none
      | item :: before =>
        match item.marked? c with
        | some marked => readFrom opened (marked :: before) rest
        | none => none
    else if patternMeta.contains c then none
    else readFrom opened (one (.only c) :: items) rest

/-- The regular expression that a text is. -/
def read? (text : String) : Option Pattern :=
  readFrom [] [] text.toList

theorem readFrom_plain {c : Char} (hc : patternMeta.contains c = false) (opened : List OpenGroup)
    (items : List Pattern) (rest : List Char) :
    readFrom opened items (c :: rest) = readFrom opened (one (.only c) :: items) rest := by
  have hne : ∀ d, patternMeta.contains d = true → c ≠ d := by
    rintro d hd rfl
    rw [hc] at hd
    cases hd
  have hescape := hne '\\' rfl
  have hclass := hne '[' rfl
  have hopen := hne '(' rfl
  rw [readFrom.eq_def]
  split
  case h_7 =>
    rename_i heq
    cases heq
    rw [if_neg (hne ')' rfl), if_neg (hne '^' rfl), if_neg (hne '$' rfl), if_neg (hne '.' rfl), if_neg, hc]
    · rfl
    · simp [hne '?' rfl, hne '*' rfl, hne '+' rfl]
  all_goals simp_all

theorem readFrom_literal (text : List Char) (opened : List OpenGroup) (items : List Pattern) (rest : List Char) :
    readFrom opened items ((literalPattern (String.ofList text)).toList ++ rest) =
      readFrom opened ((text.map fun c => one (.only c)).reverse ++ items) rest := by
  simp only [literalPattern, String.toList_ofList]
  induction text generalizing items with
  | nil => rfl
  | cons c text ih =>
    rw [List.flatMap_cons, List.append_assoc, List.map_cons, List.reverse_cons, List.append_assoc]
    cases hc : patternMeta.contains c with
    | true =>
      have hread : ∀ after, readFrom opened items ('\\' :: c :: after) =
          readFrom opened (one (.only c) :: items) after := by
        intro after
        rw [readFrom, if_pos hc]
      simp only [if_true, List.cons_append, List.nil_append]
      rw [hread, ih]
    | false =>
      simp only [Bool.false_eq_true, if_false, List.cons_append, List.nil_append]
      rw [readFrom_plain hc, ih]

end Pattern

open Pattern

def Segment.items (s : Segment) : List Pattern :=
  match s.kind with
  | .fixed => ('/' :: s.raw.toList).map fun c => one (.only c)
  | .dynamic => [one (.only '/'), capture (inOrder [repeated 1 (.except '/')])]
  | .catchAll => [one (.only '/'), capture (inOrder [repeated 1 (.except '\n')])]
  | .optionalCatchAll =>
    [optional (cluster (inOrder [one (.only '/'), capture (inOrder [repeated 0 (.except '\n')])]))]

/-- The items after those of the segments: perhaps a slash, and the end. -/
def closingItems : List Pattern :=
  [optional (one (.only '/')), finish]

def expressionOf (segments : List Segment) : Pattern :=
  inOrder (start :: segments.flatMap Segment.items ++ closingItems)

theorem readFrom_segment (s : Segment) (items : List Pattern) (rest : List Char) :
    readFrom [] items (s.pattern.toList ++ rest) = readFrom [] (s.items.reverse ++ items) rest := by
  unfold Segment.pattern Segment.items
  cases s.kind with
  | fixed =>
    have hliteral := readFrom_literal s.raw.toList [] (one (.only '/') :: items) rest
    rw [String.ofList_toList] at hliteral
    dsimp only
    rw [String.toList_append, List.append_assoc, List.map_cons, List.reverse_cons, List.append_assoc]
    exact (readFrom_plain rfl [] items _).trans hliteral
  | dynamic =>
    have htext : "/([^/]+)".toList ++ rest = '/' :: '(' :: '[' :: '^' :: '/' :: ']' :: '+' :: ')' :: rest := rfl
    dsimp only
    rw [htext]
    rfl
  | catchAll =>
    have htext : "/(.+)".toList ++ rest = '/' :: '(' :: '.' :: '+' :: ')' :: rest := rfl
    dsimp only
    rw [htext]
    rfl
  | optionalCatchAll =>
    have htext : "(?:/(.*))?".toList ++ rest =
        '(' :: '?' :: ':' :: '/' :: '(' :: '.' :: '*' :: ')' :: ')' :: '?' :: rest := rfl
    dsimp only
    rw [htext]
    rfl

theorem readFrom_segments (segments : List Segment) (items : List Pattern) (rest : List Char) :
    readFrom [] items (segments.flatMap (·.pattern.toList) ++ rest) =
      readFrom [] ((segments.flatMap Segment.items).reverse ++ items) rest := by
  induction segments generalizing items with
  | nil => rfl
  | cons s segments ih =>
    rw [List.flatMap_cons, List.flatMap_cons, List.append_assoc, readFrom_segment, ih, List.reverse_append,
      List.append_assoc]

theorem read?_patternOf (segments : List Segment) : read? (patternOf segments) = some (expressionOf segments) := by
  have htext : (patternOf segments).toList = '^' :: (segments.flatMap (·.pattern.toList) ++ ['/', '?', '$']) := by
    simp [patternOf, List.flatMap_map]
  have hclosing : ∀ items, readFrom [] items ['/', '?', '$'] = some (inOrder (items.reverse ++ closingItems)) := by
    intro items
    have hlast : readFrom [] items ['/', '?', '$'] = some (inOrder (closingItems.reverse ++ items).reverse) := rfl
    rw [hlast, List.reverse_append, List.reverse_reverse]
  rw [read?, htext]
  show readFrom [] [start] _ = _
  rw [readFrom_segments, hclosing, List.reverse_append, List.reverse_reverse]
  rfl

/-! ## What patterns capture -/

theorem Way.nil_andThen (cs : List Char) (w : Way) : (Way.mk [] [] cs).andThen w = w := rfl

theorem Way.andThen_assoc (u v w : Way) : (u.andThen v).andThen w = u.andThen (v.andThen w) := by
  simp [Way.andThen]

theorem ways_cons (p : Pattern) (items : List Pattern) (atStart : Bool) (cs : List Char) :
    (inOrder (p :: items)).ways atStart cs =
      (p.ways atStart cs).flatMap fun w => ((inOrder items).ways (atStart && w.text.isEmpty) w.rest).map w.andThen :=
  rfl

theorem ways_append (items others : List Pattern) (atStart : Bool) (cs : List Char) :
    (inOrder (items ++ others)).ways atStart cs = ((inOrder items).ways atStart cs).flatMap fun w =>
      ((inOrder others).ways (atStart && w.text.isEmpty) w.rest).map w.andThen := by
  induction items generalizing atStart cs with
  | nil =>
    have hsame : (Way.mk [] [] cs).andThen = id := funext (Way.nil_andThen cs)
    simp [inOrder, ways, hsame]
  | cons p items ih =>
    rw [List.cons_append, ways_cons, ways_cons, List.flatMap_assoc]
    congr 1
    funext w
    rw [ih, List.map_flatMap, List.flatMap_map]
    congr 1
    funext v
    rw [List.map_map]
    have htext : (w.andThen v).text.isEmpty = (w.text.isEmpty && v.text.isEmpty) := by
      show (w.text ++ v.text).isEmpty = _
      cases w.text <;> rfl
    rw [htext, ← Bool.and_assoc]
    congr 1
    funext u
    exact (Way.andThen_assoc w v u).symm

theorem first?_append (items others : List Pattern) (atStart : Bool) (cs : List Char) :
    (inOrder (items ++ others)).first? atStart cs = ((inOrder items).ways atStart cs).findSome? fun w =>
      ((inOrder others).first? (atStart && w.text.isEmpty) w.rest).map (w.captures ++ ·) := by
  rw [first?, ways_append, List.head?_flatMap, List.map_findSome?]
  congr 1
  funext w
  rw [Function.comp_apply, List.head?_map, Option.map_map, first?, Option.map_map]
  rfl

theorem runs_eq (cls : CharClass) (cs : List Char) :
    cls.runs cs = (List.range ((cs.takeWhile cls.has).length + 1)).reverse.map fun n =>
      { text := (cs.takeWhile cls.has).take n
        captures := []
        rest := (cs.takeWhile cls.has).drop n ++ cs.dropWhile cls.has } := by
  induction cs with
  | nil => rfl
  | cons c cs ih =>
    rw [CharClass.runs]
    by_cases hc : cls.has c = true
    · have hwhole : c :: cs = (c :: cs.takeWhile cls.has) ++ cs.dropWhile cls.has := by
        rw [List.cons_append, List.takeWhile_append_dropWhile]
      rw [if_pos hc, List.takeWhile_cons_of_pos hc, List.dropWhile_cons_of_pos hc, List.length_cons,
        List.range_succ_eq_map, List.reverse_cons, List.map_append, ih, ← List.map_reverse, List.map_map,
        List.map_map, hwhole]
      rfl
    · rw [if_neg hc, List.takeWhile_cons_of_neg hc, List.dropWhile_cons_of_neg hc]
      rfl

theorem ways_group (least : Nat) (cls : CharClass) (atStart : Bool) (cs : List Char) :
    (capture (inOrder [repeated least cls])).ways atStart cs =
      ((List.range ((cs.takeWhile cls.has).length + 1)).filter (least ≤ ·)).reverse.map fun n =>
        { text := (cs.takeWhile cls.has).take n
          captures := [some ((cs.takeWhile cls.has).take n)]
          rest := (cs.takeWhile cls.has).drop n ++ cs.dropWhile cls.has } := by
  have hways : (inOrder [repeated least cls]).ways atStart cs = (cls.runs cs).filter (least ≤ ·.text.length) := by
    simp [inOrder, ways, Way.andThen, runs_eq]
  rw [ways, hways, runs_eq, List.filter_map, List.map_map, ← List.filter_reverse]
  congr 1
  refine List.filter_congr fun n hn => ?_
  rw [List.mem_reverse, List.mem_range] at hn
  have hlength : ((cs.takeWhile cls.has).take n).length = n := by
    rw [List.length_take]
    omega
  simp [hlength]

/-- What a part after a slash captures, if `found` says what the pattern after it does. -/
theorem findSome?_part (least : Nat) (cls : CharClass) (atStart : Bool)
    (found : List Char → Option (List (Option (List Char)))) (cs : List Char) :
    ((inOrder [one (.only '/'), capture (inOrder [repeated least cls])]).ways atStart cs).findSome?
      (fun w => (found w.rest).map (w.captures ++ ·)) = takePart least cls.has found cs := by
  unfold takePart
  split
  · rename_i more
    have hways : (inOrder [one (.only '/'), capture (inOrder [repeated least cls])]).ways atStart ('/' :: more) =
        ((capture (inOrder [repeated least cls])).ways false more).map fun w => { w with text := '/' :: w.text } := by
      simp [inOrder, ways, Way.andThen, CharClass.has]
    rw [hways, ways_group, List.findSome?_map, List.findSome?_map, longestFirst, List.map_findSome?]
    congr 1
    funext n
    simp only [Function.comp_apply, Option.map_map]
    rfl
  · rename_i hslash
    have hways : (inOrder [one (.only '/'), capture (inOrder [repeated least cls])]).ways atStart cs = [] := by
      cases cs with
      | nil => rfl
      | cons c cs =>
        have hc : c ≠ '/' := by
          rintro rfl
          exact hslash cs rfl
        simp [inOrder, ways, CharClass.has, hc]
    rw [hways]
    rfl

/-- The characters of a fixed segment match in one way at most. -/
theorem ways_chars (text : List Char) (atStart : Bool) (cs : List Char) :
    (inOrder (text.map fun c => one (.only c))).ways atStart cs =
      ((Text.strip? text cs).map fun rest => Way.mk text [] rest).toList := by
  induction text generalizing atStart cs with
  | nil => simp [inOrder, ways, Text.strip?]
  | cons d text ih =>
    rw [List.map_cons, ways_cons]
    cases cs with
    | nil => simp [ways, Text.strip?]
    | cons c cs =>
      by_cases hc : c = d
      · have hstrip : Text.strip? (d :: text) (d :: cs) = Text.strip? text cs := by simp [Text.strip?]
        rw [hc, hstrip]
        simp only [ways, CharClass.has, decide_true, if_true, List.flatMap_cons, List.flatMap_nil, ih]
        cases Text.strip? text cs <;> rfl
      · have hstrip : Text.strip? (d :: text) (c :: cs) = none := by
          simp [Text.strip?, Ne.symm hc]
        rw [hstrip]
        simp [ways, CharClass.has, hc]

theorem first?_closingItems (atStart : Bool) (cs : List Char) :
    (inOrder closingItems).first? atStart cs = matchSegments [] cs := by
  rw [matchSegments]
  cases cs with
  | nil => rfl
  | cons c cs =>
    cases cs with
    | nil =>
      by_cases hc : c = '/'
      · subst hc
        rfl
      · simp [first?, closingItems, inOrder, ways, CharClass.has, hc]
    | cons d cs =>
      by_cases hc : c = '/'
      · simp [first?, closingItems, inOrder, ways, CharClass.has, hc]
      · simp [first?, closingItems, inOrder, ways, CharClass.has, hc]

/-- The groups capture what the segments take, wherever the items of the segments stand. -/
theorem first?_segments (segments : List Segment) (atStart : Bool) (cs : List Char) :
    (inOrder (segments.flatMap Segment.items ++ closingItems)).first? atStart cs = matchSegments segments cs := by
  induction segments generalizing atStart cs with
  | nil => exact first?_closingItems atStart cs
  | cons s segments ih =>
    rw [List.flatMap_cons, List.append_assoc, first?_append, matchSegments_cons]
    simp only [ih]
    unfold Segment.items
    cases s.kind with
    | fixed =>
      dsimp only
      rw [ways_chars]
      cases Text.strip? ('/' :: s.raw.toList) cs with
      | none => rfl
      | some more => simp
    | dynamic => exact findSome?_part 1 (.except '/') atStart _ cs
    | catchAll => exact findSome?_part 1 (.except '\n') atStart _ cs
    | optionalCatchAll =>
      dsimp only
      -- The ways with a part come first, and then the one without.
      have hways : ∀ inner : Pattern, (inOrder [optional (cluster inner)]).ways atStart cs =
          inner.ways atStart cs ++ [⟨[], List.replicate inner.groups none, cs⟩] := by
        intro inner
        simp [inOrder, ways, Way.andThen, groups]
      rw [hways, List.findSome?_append, findSome?_part 0 (.except '\n') atStart _ cs, List.findSome?_singleton]
      rfl

theorem captures?_expressionOf (segments : List Segment) (text : List Char) :
    (expressionOf segments).captures? text = matchSegments segments text := by
  have hstart : ∀ cs, (expressionOf segments).first? true cs = matchSegments segments cs := by
    intro cs
    have hways : (expressionOf segments).ways true cs =
        (inOrder (segments.flatMap Segment.items ++ closingItems)).ways true cs := by
      rw [expressionOf, List.cons_append, ways_cons]
      simp [ways, funext (Way.nil_andThen cs)]
    rw [first?, hways, ← first?, first?_segments]
  have helsewhere : ∀ cs, (expressionOf segments).search false cs = none := by
    intro cs
    induction cs with
    | nil => rfl
    | cons c cs ih =>
      rw [search, ih]
      rfl
  rw [captures?]
  cases text with
  | nil => exact hstart []
  | cons c cs => rw [search, helsewhere, Option.or_none, hstart]

/-! ## Pieces and params -/

/-- What segments take that take the pieces of a path: what follows the slash of the piece, if there is one. -/
def takenOf (segments : List Segment) (pieces : List (List Char)) : List (Option (List Char)) :=
  ((segments.zip pieces).filter (·.1.kind ≠ .fixed)).map (·.2.tail?)

theorem takenOf_cons (s : Segment) (segments : List Segment) (piece : List Char) (pieces : List (List Char)) :
    takenOf (s :: segments) (piece :: pieces) =
      if s.kind = .fixed then takenOf segments pieces else piece.tail? :: takenOf segments pieces := by
  by_cases hs : s.kind = .fixed
  · simp [takenOf, hs]
  · simp [takenOf, hs]

theorem of_takePart {least : Nat} {allowed : Char → Bool} {rest : List Char → Option (List (Option (List Char)))}
    (h : takePart least allowed rest path = some taken) :
    ∃ part left found, least ≤ part.length ∧ (∀ c ∈ part, allowed c = true) ∧ path = '/' :: part ++ left ∧
      rest left = some found ∧ taken = some part :: found := by
  unfold takePart at h
  split at h
  · rename_i more
    obtain ⟨⟨part, found⟩, hlongest, rfl⟩ := Option.map_eq_some_iff.mp h
    obtain ⟨n, hn, hrest⟩ := List.exists_of_findSome?_eq_some hlongest
    rw [List.mem_reverse, List.mem_filter, List.mem_range, decide_eq_true_eq] at hn
    obtain ⟨found', hfound, hsame⟩ := Option.map_eq_some_iff.mp hrest
    obtain ⟨rfl, rfl⟩ := Prod.mk.inj hsame
    refine ⟨_, _, found', ?_, ?_, ?_, hfound, rfl⟩
    · rw [List.length_take]
      omega
    · intro c hc
      exact List.all_eq_true.mp List.all_takeWhile c (List.mem_of_mem_take hc)
    · rw [List.cons_append, ← List.append_assoc, List.take_append_drop, List.takeWhile_append_dropWhile]
  · cases h

/-- The first segment takes a piece, and the others take what they match of what is left. -/
theorem of_matchSegments_cons (h : matchSegments (s :: segments) path = some taken) :
    ∃ piece left found, s.Takes piece ∧ matchSegments segments left = some found ∧ path = piece ++ left ∧
      taken = if s.kind = .fixed then found else piece.tail? :: found := by
  rw [matchSegments_cons] at h
  unfold Segment.Takes
  cases hkind : s.kind with
  | fixed =>
    simp only [hkind, Option.bind_eq_some_iff, Text.strip?_eq_some_iff] at h
    obtain ⟨left, hpath, hfound⟩ := h
    exact ⟨_, left, taken, rfl, hfound, hpath, rfl⟩
  | dynamic | catchAll =>
    simp only [hkind] at h
    obtain ⟨part, left, found, hleast, hpart, hpath, hfound, htaken⟩ := of_takePart h
    have hne : part ≠ [] := List.ne_nil_of_length_pos hleast
    exact ⟨_, left, found, ⟨part, hne, by simpa using hpart, rfl⟩, hfound, hpath, htaken⟩
  | optionalCatchAll =>
    simp only [hkind, Option.or_eq_some_iff, Option.map_eq_some_iff] at h
    rcases h with h | ⟨-, found, hfound, htaken⟩
    · obtain ⟨part, left, found, -, hpart, hpath, hfound, htaken⟩ := of_takePart h
      exact ⟨_, left, found, .inr ⟨part, by simpa using hpart, rfl⟩, hfound, hpath, htaken⟩
    · exact ⟨[], path, found, .inl rfl, hfound, rfl, htaken.symm⟩

theorem exists_pieces (h : matchSegments segments path = some taken) :
    ∃ pieces tail, List.Forall₂ Segment.Takes segments pieces ∧ (tail = [] ∨ tail = ['/']) ∧
      path = pieces.flatten ++ tail ∧ taken = takenOf segments pieces := by
  induction segments generalizing path taken with
  | nil =>
    rw [matchSegments] at h
    split at h
    · rename_i hpath
      cases h
      exact ⟨[], path, .nil, by simpa using hpath, rfl, rfl⟩
    · cases h
  | cons s segments ih =>
    obtain ⟨piece, left, found, hpiece, hfound, rfl, rfl⟩ := of_matchSegments_cons h
    obtain ⟨pieces, tail, hpieces, htail, rfl, rfl⟩ := ih hfound
    refine ⟨piece :: pieces, tail, .cons hpiece hpieces, htail, ?_, ?_⟩
    · rw [List.flatten_cons, List.append_assoc]
    · rw [takenOf_cons]

def namedParts (segments : List Segment) (pieces : List (List Char)) : List (String × Option (List Char)) :=
  (segments.zip pieces).filterMap fun entry => entry.1.param.map fun name => (name, entry.2.tail?)

/-- The pieces that are there, without their slashes, under the names of their segments. -/
def paramsOf (segments : List Segment) (pieces : List (List Char)) : Ordered String :=
  (namedParts segments pieces).filterMap fun entry => entry.2.map fun part => (entry.1, String.ofList part)

theorem param_ofText (raw : List Char) : (Segment.ofText raw).param = none ↔ (Segment.ofText raw).kind = .fixed := by
  unfold Segment.ofText
  dsimp only
  split
  · split <;> simp
  · simp
  · simp

theorem Segment.Named.param_eq_none_iff (h : s.Named) : s.param = none ↔ s.kind = .fixed := by
  rw [h.ofText]
  exact param_ofText _

theorem zip_takenOf {pieces : List (List Char)} (hnamed : ∀ s ∈ segments, s.Named)
    (h : List.Forall₂ Segment.Takes segments pieces) :
    (segments.filterMap (·.param)).zip (takenOf segments pieces) = namedParts segments pieces := by
  induction h with
  | nil => rfl
  | @cons s piece segments pieces _ _ ih =>
    obtain ⟨hs, hrest⟩ := List.forall_mem_cons.mp hnamed
    rw [takenOf_cons]
    cases hparam : s.param with
    | none =>
      have hcons : namedParts (s :: segments) (piece :: pieces) = namedParts segments pieces := by
        simp [namedParts, hparam]
      rw [hcons, List.filterMap_cons_none hparam, if_pos (hs.param_eq_none_iff.mp hparam), ih hrest]
    | some name =>
      have hkind : s.kind ≠ .fixed := by
        intro hfixed
        rw [hs.param_eq_none_iff.mpr hfixed] at hparam
        cases hparam
      have hcons : namedParts (s :: segments) (piece :: pieces) =
          (name, piece.tail?) :: namedParts segments pieces := by
        simp [namedParts, hparam]
      rw [hcons, List.filterMap_cons_some hparam, if_neg hkind, List.zip_cons_cons, ih hrest]

theorem map_fst_namedParts {pieces : List (List Char)} (h : List.Forall₂ Segment.Takes segments pieces) :
    (namedParts segments pieces).map (·.1) = segments.filterMap (·.param) := by
  induction h with
  | nil => rfl
  | @cons s piece segments pieces _ _ ih =>
    rw [namedParts] at ih ⊢
    cases hparam : s.param with
    | _ => simpa [hparam] using ih

/-- Writes a part under its name, if there is one. -/
def writePart (params : Ordered String) (entry : String × Option (List Char)) : Ordered String :=
  match entry.2 with
  | some text => params.insert entry.1 (String.ofList text)
  | none => params

theorem paramsFor?_eq (r : Route) (path : String) :
    r.paramsFor? path = (matchSegments r.segments path.toList).map fun taken =>
      (r.params.zip taken).foldl writePart [] :=
  rfl

/-- Parts under distinct names stand in the dictionary as they come. -/
theorem foldl_writePart {parts : List (String × Option (List Char))} {d : Ordered String}
    (h : (parts.map (·.1)).Nodup) (hnew : ∀ entry ∈ parts, entry.1 ∉ d.keys) :
    parts.foldl writePart d =
      d ++ parts.filterMap fun entry => entry.2.map fun part => (entry.1, String.ofList part) := by
  induction parts generalizing d with
  | nil => simp
  | cons entry parts ih =>
    obtain ⟨name, part⟩ := entry
    obtain ⟨hname, hrest⟩ := List.nodup_cons.mp h
    obtain ⟨hkey, hkeys⟩ := List.forall_mem_cons.mp hnew
    rw [List.foldl_cons]
    cases part with
    | none => exact ih hrest hkeys
    | some text =>
      have hinsert : writePart d (name, some text) = d ++ [(name, String.ofList text)] :=
        Ordered.insert_of_notMem hkey _
      rw [hinsert, ih hrest]
      · simp
      · intro entry hentry
        have hne : entry.1 ≠ name := fun heq => hname (List.mem_map.mpr ⟨entry, hentry, heq⟩)
        simpa [Ordered.keys, hne] using hkeys entry hentry

theorem get?_parts {parts : List (String × Option (List Char))} (h : (parts.map (·.1)).Nodup) {name : String}
    {part : Option (List Char)} (hmem : (name, part) ∈ parts) :
    Ordered.get? (parts.filterMap fun entry => entry.2.map fun part => (entry.1, String.ofList part)) name =
      part.map String.ofList := by
  have hkeys : (Ordered.keys (parts.filterMap fun entry => entry.2.map fun part =>
      (entry.1, String.ofList part))).Sublist (parts.map (·.1)) := by
    clear h hmem
    induction parts with
    | nil => exact .slnil
    | cons entry parts ih =>
      obtain ⟨key, part⟩ := entry
      cases part with
      | none => exact ih.cons key
      | some text => exact ih.cons_cons key
  cases part with
  | none =>
    rw [Option.map_none, Ordered.get?_eq_none_iff]
    intro hkey
    obtain ⟨entry, hentry, rfl⟩ := List.mem_map.mp hkey
    obtain ⟨other, hother, hpart⟩ := List.mem_filterMap.mp hentry
    obtain ⟨text, htext, rfl⟩ := Option.map_eq_some_iff.mp hpart
    have hsame : other = (other.1, none) := List.inj_on_of_nodup_map h hother hmem rfl
    rw [hsame] at htext
    cases htext
  | some text =>
    refine Ordered.get?_of_mem (h.sublist hkeys) ?_
    exact List.mem_filterMap.mpr ⟨_, hmem, rfl⟩

theorem Segment.Takes.kind_of_nil (h : s.Takes []) : s.kind = .optionalCatchAll := by
  unfold Segment.Takes at h
  cases hkind : s.kind with
  | optionalCatchAll => rfl
  | _ => simp [hkind] at h

theorem Segment.Takes.of_tail?_eq_none {piece : List Char} (h : s.Takes piece) (hnone : piece.tail? = none) :
    s.kind = .optionalCatchAll ∧ piece = [] := by
  cases piece with
  | nil => exact ⟨h.kind_of_nil, rfl⟩
  | cons c part => cases hnone

theorem Proper.exists_params {r : Route} (hr : r.Proper) (hnodup : r.params.Nodup) {path : String}
    {params : Ordered String} (h : r.paramsFor? path = some params) :
    ∃ pieces tail, List.Forall₂ Segment.Takes r.segments pieces ∧ (tail = [] ∨ tail = ['/']) ∧
      path.toList = pieces.flatten ++ tail ∧ params = paramsOf r.segments pieces ∧
      ((namedParts r.segments pieces).map (·.1)).Nodup := by
  rw [paramsFor?_eq] at h
  obtain ⟨taken, htaken, rfl⟩ := Option.map_eq_some_iff.mp h
  obtain ⟨pieces, tail, hpieces, htail, hpath, rfl⟩ := exists_pieces htaken
  have hparts : r.params.zip (takenOf r.segments pieces) = namedParts r.segments pieces := by
    rw [hr.params, zip_takenOf hr.named hpieces]
  have hnames : ((namedParts r.segments pieces).map (·.1)).Nodup := by
    rwa [map_fst_namedParts hpieces, ← hr.params]
  refine ⟨pieces, tail, hpieces, htail, hpath, ?_, hnames⟩
  rw [hparts, foldl_writePart hnames fun _ _ => List.not_mem_nil]
  rfl

theorem read?_ofFile (relative file : String) :
    read? (ofFile relative file).pattern = some (expressionOf (ofFile relative file).segments) := by
  have hpattern : (ofFile relative file).pattern = patternOf (ofFile relative file).segments := by rw [ofFile]
  rw [hpattern, read?_patternOf]

/-- The pattern of a route matches exactly the paths that are made of one piece for each segment, and perhaps a slash
at the end. The params of the first route that matches are the pieces of such a path under the names of their
segments; only an optional segment can be without one. -/
theorem route_matching {routes : List Route} (hroutes : ∀ r ∈ routes, ∃ relative file, r = ofFile relative file)
    (path : String) :
    (∀ r ∈ routes, ∃ p, read? r.pattern = some p ∧
      ((p.captures? path.toList).isSome ↔ Matches r.segments path.toList) ∧
      (r.segments = [] → ((p.captures? path.toList).isSome ↔ path = "" ∨ path = "/")) ∧
      r.paramsFor? path = (p.captures? path.toList).map fun taken => (r.params.zip taken).foldl writePart []) ∧
    ∀ m, find? routes path = some m → m.route.params.Nodup → m.route ∈ routes ∧
      ∃ pieces tail, List.Forall₂ Segment.Takes m.route.segments pieces ∧ (tail = [] ∨ tail = ['/']) ∧
        path.toList = pieces.flatten ++ tail ∧ m.params = paramsOf m.route.segments pieces ∧
        ∀ s piece name, (s, piece) ∈ m.route.segments.zip pieces → s.param = some name →
          m.params.get? name = piece.tail?.map String.ofList ∧
          (m.params.get? name = none → s.kind = .optionalCatchAll ∧ piece = []) := by
  constructor
  · intro r hr
    obtain ⟨relative, file, rfl⟩ := hroutes r hr
    have hmatches := @isSome_matchSegments_iff (ofFile relative file).segments path.toList
    refine ⟨_, read?_ofFile relative file, ?_, ?_, ?_⟩
    · rwa [captures?_expressionOf]
    · intro hroot
      rw [captures?_expressionOf, hmatches, hroot, matches_nil, ← String.toList_inj, ← String.toList_inj]
      rfl
    · rw [captures?_expressionOf, paramsFor?_eq]
  · intro m hfind hnodup
    obtain ⟨r, hr, hmatch⟩ := List.exists_of_findSome?_eq_some hfind
    obtain ⟨params, hparams, rfl⟩ := Option.map_eq_some_iff.mp hmatch
    obtain ⟨relative, file, hroute⟩ := hroutes r hr
    have hproper : r.Proper := hroute ▸ proper_ofFile relative file
    obtain ⟨pieces, tail, hpieces, htail, hpath, rfl, hnames⟩ := hproper.exists_params hnodup hparams
    refine ⟨hr, pieces, tail, hpieces, htail, hpath, rfl, fun s piece name hmem hname => ?_⟩
    have hget : (paramsOf r.segments pieces).get? name = piece.tail?.map String.ofList := by
      refine get?_parts hnames (List.mem_filterMap.mpr ⟨_, hmem, ?_⟩)
      rw [hname]
      rfl
    refine ⟨hget, fun hnone => ?_⟩
    have htakes : s.Takes piece := (List.forall₂_iff_zip.mp hpieces).2 hmem
    rw [hget, Option.map_eq_none_iff] at hnone
    exact htakes.of_tail?_eq_none hnone

theorem find?_singleton {r : Route} {path : String} {params : Ordered String} (h : r.paramsFor? path = some params) :
    find? [r] path = some { route := r, params } := by
  rw [find?, List.findSome?_singleton, h]
  rfl

/-- A page with segments of every sort, the first of which has characters with a meaning in patterns. -/
def editRoute : Route :=
  ofFile "v1.(2)/[id]/[...rest]/edit/[[...tab]].zen" "pages/edit.zen"

/-- The optional segment of the page takes nothing of this path, and the others share it. -/
theorem route_matching_edit :
    let path := "/v1.(2)/7/x/y/edit"
    let params := [("id", "7"), ("rest", "x/y")]
    (∀ r ∈ [editRoute], ∃ relative file, r = ofFile relative file) ∧
      find? [editRoute] path = some { route := editRoute, params } ∧ editRoute.params = ["id", "rest", "tab"] ∧
      (∃ p, read? editRoute.pattern = some p ∧ (p.captures? path.toList).isSome) ∧
      ∃ pieces tail, List.Forall₂ Segment.Takes editRoute.segments pieces ∧ (tail = [] ∨ tail = ['/']) ∧
        path.toList = pieces.flatten ++ tail ∧ params = paramsOf editRoute.segments pieces := by
  intro path params
  have hroutes : ∀ r ∈ [editRoute], ∃ relative file, r = ofFile relative file := by
    intro r hr
    exact ⟨_, _, List.mem_singleton.mp hr⟩
  have hfacts : editRoute.paramsFor? path = some params ∧ editRoute.params = ["id", "rest", "tab"] := by
    decide +kernel
  obtain ⟨hparams, hnames⟩ := hfacts
  have hfind := find?_singleton hparams
  have hnodup : editRoute.params.Nodup := by
    rw [hnames]
    decide
  obtain ⟨hpatterns, hselected⟩ := route_matching hroutes path
  obtain ⟨p, hread, -, -, hcaptured⟩ := hpatterns editRoute List.mem_cons_self
  obtain ⟨-, pieces, tail, hpieces, htail, hpath, hparts, -⟩ := hselected _ hfind hnodup
  refine ⟨hroutes, hfind, hnames, ⟨p, hread, ?_⟩, pieces, tail, hpieces, htail, hpath, hparts⟩
  rw [hparams] at hcaptured
  exact Option.isSome_map.symm.trans (congrArg Option.isSome hcaptured.symm)

end PageCompiler.Route
