import PageCompiler.Diagnostic
import PageCompiler.Ordered
import PageCompiler.Path

/-!
# Files of a project

The directory that a project is compiled in, as a tree of folders and files.
-/

namespace PageCompiler.Project

/-- A file or a folder. -/
inductive Entry where
  | file (text : String)
  | folder (entries : List (String × Entry))
deriving Repr

instance : Inhabited Entry := ⟨.folder []⟩

namespace Entry

def child? (entry : Entry) (name : String) : Option Entry :=
  match entry with
  | file _ => none
  | folder entries => entries.lookup name

def isFolder : Entry → Bool
  | file _ => false
  | folder _ => true

/-- What the pieces of a path lead to from the innermost of the given folders, the outermost of which has nothing
above it. -/
def follow (stack : List Entry) : List String → Except ReadFault Entry
  | [] =>
    match stack with
    | [] => throw .missing
    | entry :: _ => return entry
  | piece :: rest =>
    match stack with
    | [] => throw .missing
    | entry :: outer =>
      if !entry.isFolder then throw .notDirectory
      else if piece == "" || piece == "." then follow (entry :: outer) rest
      else if piece == ".." then follow outer rest
      else
        match entry.child? piece with
        | none => throw .missing
        | some inner => follow (inner :: entry :: outer) rest

def locate (root : Entry) (path : String) : Except ReadFault Entry :=
  if path == "" || path.toList.head? == some '/' then throw .missing
  else follow [root] (Path.pieces path)

def readText (root : Entry) (path : String) : Except ReadFault String := do
  match ← root.locate path with
  | file text => return text
  | folder _ => throw .directory

def setEntry (name : String) (entry : Entry) : List (String × Entry) → List (String × Entry)
  | [] => [(name, entry)]
  | e :: es => if e.1 == name then (name, entry) :: es else e :: setEntry name entry es

/-- What stands at a place, if anything does, with a file written below it. Folders on the way are made; what is
there already and of the other sort stays. -/
def writeAt (text : String) (entry : Option Entry) : List String → Entry
  | [] =>
    match entry with
    | some (folder entries) => folder entries
    | _ => file text
  | name :: rest =>
    match entry with
    | some (file old) => file old
    | some (folder entries) => folder (setEntry name (writeAt text (entries.lookup name) rest) entries)
    | none => folder [(name, writeAt text none rest)]

def removeAt (entry : Entry) : List String → Entry
  | [] => entry
  | [name] =>
    match entry with
    | file old => file old
    | folder entries => folder (entries.filter fun (n, e) => n != name || e.isFolder)
  | name :: rest =>
    match entry with
    | file old => file old
    | folder entries =>
      match entries.lookup name with
      | some inner => folder (setEntry name (inner.removeAt rest) entries)
      | none => folder entries

def namesOf (path : String) : List String :=
  (Path.pieces path).foldl (fun names p =>
    if p == "" || p == "." then names else if p == ".." then names.dropLast else names ++ [p]) []

def write (root : Entry) (path text : String) : Entry :=
  writeAt text (some root) (namesOf path)

def remove (root : Entry) (path : String) : Entry :=
  root.removeAt (namesOf path)

mutual

def filesIn : Entry → List (List String × String)
  | file text => [([], text)]
  | folder entries =>
    ((filesOf entries).mergeSort fun a b => a.1 ≤ b.1).flatMap fun (name, files) =>
      files.map fun (names, text) => (name :: names, text)

def filesOf : List (String × Entry) → List (String × List (List String × String))
  | [] => []
  | (name, entry) :: es => (name, filesIn entry) :: filesOf es

end

end Entry

end PageCompiler.Project
