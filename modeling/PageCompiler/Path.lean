import PageCompiler.Text.Search

/-!
# Paths

Paths of files as texts whose parts are divided by slashes. Empty parts and, after the first one, single dots
do not count.
-/

namespace PageCompiler.Path

def pieces (path : String) : List String :=
  (Text.pieces '/' path.toList).map String.ofList

/-- The pieces without those at the end that do not count, given in reverse order. -/
def trimReversed : List String → List String
  | [] => []
  | [first] => [first]
  | last :: rest => if last == "" || last == "." then trimReversed rest else last :: rest

/-- The path that the pieces make; an empty piece alone is the root. -/
def ofReversed (pieces : List String) : String :=
  match trimReversed pieces with
  | [] => ""
  | [""] => "/"
  | found => joinStrings "/" found.reverse

/-- The directory that holds the path: the path without its last part. The root has none, nor has an empty path. -/
def parent? (path : String) : Option String :=
  if path == "" then none
  else match trimReversed (pieces path).reverse with
    | [] => none
    | [""] => none
    | _ :: rest => some (ofReversed rest)

/-- The parts of a path that count; a slash alone stands for the root. -/
def components (path : String) : List String :=
  match pieces path with
  | [] => []
  | first :: rest =>
    let later := rest.filter fun p => p != "" && p != "."
    if first == "" then if path == "" then [] else "/" :: later else first :: later

/-- Whether a path is a directory or leads to something below it. -/
def isWithin (path dir : String) : Bool :=
  (components dir).isPrefixOf (components path)

def join (dir name : String) : String :=
  if dir == "" || dir.toList.getLast? == some '/' then dir ++ name else dir ++ "/" ++ name

def fileName? (path : String) : Option String :=
  match trimReversed (pieces path).reverse with
  | [] => none
  | last :: rest =>
    if last == "" || last == ".." || (last == "." && rest.isEmpty) then none else some last

/-- The name of a file before its last dot and what follows the dot. A dot at the start does not count. -/
def splitName (name : String) : String × Option String :=
  let after := (name.toList.reverse.takeWhile (· ≠ '.')).reverse
  match (name.toList.reverse.dropWhile (· ≠ '.')) with
  | [] => (name, none)
  | _ :: before =>
    if before.isEmpty then (name, none) else (String.ofList before.reverse, some (String.ofList after))

def stem? (path : String) : Option String :=
  (fileName? path).map fun name => (splitName name).1

def extension? (path : String) : Option String :=
  (fileName? path).bind fun name => (splitName name).2

end PageCompiler.Path
