import PageCompiler.Text.Search

/-!
# Segments of routes

A route is a path whose segments are fixed words or take a part of the requested path: `:name` takes one
segment, `*name` takes one or more, and `*name?` takes any number. In names of files these are written `[name]`,
`[...name]` and `[[...name]]`.
-/

namespace PageCompiler.Route

/-- What a segment takes. -/
inductive SegmentKind where
  | fixed
  | dynamic
  | catchAll
  | optionalCatchAll
deriving DecidableEq, Repr

def SegmentKind.weight : SegmentKind → Nat
  | fixed => 12
  | dynamic => 5
  | catchAll => 1
  | optionalCatchAll => 0

/-- A segment of a route. -/
structure Segment where
  kind : SegmentKind
  param : Option String
  raw : String
deriving DecidableEq, Repr

def inside? (lead tail : String) (name : List Char) : Option (List Char) :=
  (Text.strip? lead.toList name).bind (Text.stripEnd? tail.toList)

/-- The segment of a route for a part of the path of a file. -/
def segmentText (name : List Char) : List Char :=
  match inside? "[[..." "]]" name with
  | some param => '*' :: param ++ ['?']
  | none =>
    match inside? "[..." "]" name with
    | some param => '*' :: param
    | none =>
      match inside? "[" "]" name with
      | some param => ':' :: param
      | none => name

/-- The route of a file, given by its path below the directory of pages. -/
def pathOfFile (relative : String) : String :=
  let slashed := relative.toList.map fun c => if c = '\\' then '/' else c
  let named := (Text.stripEnd? ".zen".toList slashed).getD slashed
  let kept := (Text.pieces '/' named).filter fun s => !s.isEmpty && s != "index".toList
  String.ofList ('/' :: ['/'].intercalate (kept.map segmentText))

def Segment.ofText (raw : List Char) : Segment :=
  let make (kind : SegmentKind) (param : Option (List Char)) : Segment :=
    { kind, param := param.map String.ofList, raw := String.ofList raw }
  match raw with
  | '*' :: rest =>
    match Text.stripEnd? ['?'] rest with
    | some name => make .optionalCatchAll (some name)
    | none => make .catchAll (some rest)
  | ':' :: name => make .dynamic (some name)
  | _ => make .fixed none

def segmentsOf (path : String) : List Segment :=
  ((Text.pieces '/' path.toList).filter (!·.isEmpty)).map Segment.ofText

/-- How specific a route is. The route without segments is the most specific one. -/
def scoreOf (segments : List Segment) : Nat :=
  if segments.isEmpty then 100 else segments.foldl (fun score s => score + s.kind.weight) 0

/-! ## Patterns -/

def patternMeta : List Char :=
  ['\\', '.', '+', '*', '?', '(', ')', '|', '[', ']', '{', '}', '^', '$', '#', '&', '-', '~']

def literalPattern (text : String) : String :=
  String.ofList (text.toList.flatMap fun c => if patternMeta.contains c then ['\\', c] else [c])

def Segment.pattern (s : Segment) : String :=
  match s.kind with
  | .fixed => "/" ++ literalPattern s.raw
  | .dynamic => "/([^/]+)"
  | .catchAll => "/(.+)"
  | .optionalCatchAll => "(?:/(.*))?"

/-- The pattern of a route, which allows a slash at the end of the path. -/
def patternOf (segments : List Segment) : String :=
  "^" ++ String.join (segments.map (·.pattern)) ++ "/?$"

/-! ## Matching -/

/-- The first choice that leads to a result, of how many characters of `run` to take: as many as possible
first, and at least `least`. -/
def longestFirst {α : Type} (least : Nat) (run : List Char) (rest : List Char → Option α) :
    Option (List Char × α) :=
  let sizes := ((List.range (run.length + 1)).filter (least ≤ ·)).reverse
  sizes.findSome? fun n => (rest (run.drop n)).map fun found => (run.take n, found)

/-- What the segments take of a path, one entry for each that takes anything; none if they do not match it.
An optional segment may take nothing at all. -/
def matchSegments : List Segment → List Char → Option (List (Option (List Char)))
  | [], path => if path.isEmpty || path == ['/'] then some [] else none
  | s :: rest, path =>
    /- The part of the path before the first character that the segment cannot take, and the path after it. -/
    let taking (least : Nat) (allowed : Char → Bool) : Option (List (Option (List Char))) :=
      match path with
      | '/' :: more =>
        let run := more.takeWhile allowed
        let after := more.dropWhile allowed
        (longestFirst least run fun left => matchSegments rest (left ++ after)).map fun (part, found) =>
          some part :: found
      | _ => none
    match s.kind with
    | .fixed =>
      match Text.strip? ('/' :: s.raw.toList) path with
      | some more => matchSegments rest more
      | none => none
    | .dynamic => taking 1 (· ≠ '/')
    | .catchAll => taking 1 (· ≠ '\n')
    | .optionalCatchAll =>
      match taking 0 (· ≠ '\n') with
      | some found => some found
      | none => (matchSegments rest path).map fun found => none :: found

end PageCompiler.Route
