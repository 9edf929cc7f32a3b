import PageCompiler.Component.Definition
import PageCompiler.Project.Files
import PageCompiler.Route.Manifest

/-!
# Finding pages and components

Pages, layouts and components are the files with the extension `zen` below a directory.
-/

namespace PageCompiler.Project

/-- A file that was found below a directory. -/
structure Found where
  path : String
  relative : String
  text : String
deriving Repr

/-- The files of markup below a directory, in the order of their names. -/
def findFiles (root : Entry) (dir : String) : Compiled (List Found) := do
  match root.locate dir with
  | .error cause => throw { fault := .unreadableDirectory dir cause, file := dir }
  | .ok entry =>
    let found := entry.filesIn.map fun (names, text) =>
      Found.mk (names.foldl Path.join dir) (joinStrings "/" names) text
    return found.filter fun f => Path.extension? f.path == some "zen"

/-- The components below a directory; a directory that is not there has none. -/
def discover (root : Entry) (dir : String) : Compiled Catalog := do
  match root.locate dir with
  | .error _ => return {}
  | .ok _ =>
    return (← findFiles root dir).foldl (fun (catalog : Catalog) f =>
      match Component.read f.text f.path with
      | .ok component => catalog.insert component
      | .error diagnostic => catalog.insertFailure ((Path.stem? f.path).getD "") diagnostic) {}

def routesIn (root : Entry) (dir : String) : Compiled (List Route) := do
  match root.locate dir with
  | .ok (.folder _) =>
    return Route.manifest ((← findFiles root dir).map fun f => Route.ofFile f.relative f.path)
  | _ => throw { fault := .missingPages dir, file := dir }

end PageCompiler.Project
