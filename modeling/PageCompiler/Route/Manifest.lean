import PageCompiler.Ordered
import PageCompiler.Route.Segment

/-!
# Manifests of routes

The routes of a project, the most specific first. A requested path belongs to the first route that matches it.
-/

namespace PageCompiler

/-- The route of a page. -/
structure Route where
  path : String
  segments : List Route.Segment
  params : List String
  score : Nat
  file : String
  pattern : String
deriving DecidableEq, Repr

namespace Route

/-- The route of a page, `relative` being its path below the directory of pages. -/
def ofFile (relative file : String) : Route :=
  let path := pathOfFile relative
  let segments := segmentsOf path
  { path
    segments
    params := segments.filterMap (·.param)
    score := scoreOf segments
    file
    pattern := patternOf segments }

/-- The order of routes in a manifest: higher scores first, then by path. -/
def before (a b : Route) : Bool :=
  b.score < a.score || (a.score == b.score && a.path ≤ b.path)

def firstByPath (routes : List Route) : List Route :=
  routes.foldl (fun found r => if found.any (·.path == r.path) then found else found ++ [r]) []

def manifest (routes : List Route) : List Route :=
  (firstByPath routes).mergeSort before

/-- A route that matches a path, and what its params take of the path. -/
structure Match where
  route : Route
  params : Ordered String
deriving Repr

def paramsFor? (r : Route) (path : String) : Option (Ordered String) :=
  (matchSegments r.segments path.toList).map fun taken =>
    (r.params.zip taken).foldl (fun params (name, part) => match part with
      | some text => params.insert name (String.ofList text)
      | none => params) ([] : Ordered String)

def find? (routes : List Route) (path : String) : Option Match :=
  routes.findSome? fun route => (route.paramsFor? path).map fun params => { route, params }

end Route

end PageCompiler
