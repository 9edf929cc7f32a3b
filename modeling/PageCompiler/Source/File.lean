import PageCompiler.Source.Position
import PageCompiler.Text.Bytes

/-!
# Source files

A source file knows its path, its text and where each of its lines starts. `File.position` turns a byte
offset into a position by looking up the line; a position inside a character counts the bytes since the
start of the line.
-/

namespace PageCompiler.Source

/-- The byte offsets, from `n` on, at which the lines after the first one start. -/
def laterLineStarts : Nat → List Char → List Nat
  | _, [] => []
  | n, c :: cs =>
    let next := n + c.utf8Size
    if c = '\n' then next :: laterLineStarts next cs else laterLineStarts next cs

/-- A source file and the byte offsets at which its lines start. -/
structure File where
  path : String
  text : List Char
  starts : List Nat

namespace File

def ofText (path : String) (text : List Char) : File :=
  { path, text, starts := 0 :: laterLineStarts 0 text }

def ofString (path content : String) : File :=
  ofText path content.toList

/-- The number, counted from zero, and the start of the last line that starts at `offset` or before. -/
def lineAt (starts : List Nat) (offset : Nat) : Nat × Nat :=
  let upTo := starts.takeWhile (· ≤ offset)
  (upTo.length - 1, upTo.getLast?.getD 0)

/-- The position of a byte offset; offsets past the end count as the end. -/
def position (file : File) (offset : Nat) : Position :=
  let offset := min offset (Text.byteLength file.text)
  let (line, start) := lineAt file.starts offset
  let width := match Text.slice? start offset file.text with
    | some cs => cs.length
    | none => offset - start
  ⟨line + 1, width + 1⟩

/-- The text of a line, counted from one, without its line end. -/
def lineText? (file : File) (line : Nat) : Option (List Char) :=
  match line with
  | 0 => none
  | index + 1 => do
    let start ← file.starts[index]?
    let stop := match file.starts[index + 1]? with
      | some next => next - 1
      | none => Text.byteLength file.text
    Text.slice? start stop file.text

end File

end PageCompiler.Source
