import PageCompiler.Code.Reference
import PageCompiler.Script.Statement

/-!
# Script blocks

A block of script with its statements. `state` and `prop` are no words of the language that the rest of the
block is written in; to read the block as a program, `Block.plain` puts `let` in their place, with blanks
after it so that every other byte keeps its position.
-/

namespace PageCompiler.Script

/-- A block of script. -/
structure Block where
  index : Nat
  raw : String
  attributes : Ordered String := []
  /-- Where the text of the block starts in its file. -/
  position : Position := {}
  /-- Whether the block is a handler that was written in the markup. -/
  lifted : Bool := false
  /-- The file of the block, if it is not the page. -/
  file : Option String := none
  statements : List Statement := []
deriving DecidableEq, Repr

namespace Block

def positionOf (b : Block) (offset : Nat) : Position :=
  b.position.advance (Text.takeBytes offset b.raw.toList)

/-- The line of the block around a byte, without the blanks at its ends. -/
def lineAround (b : Block) (offset : Nat) : String :=
  let before := Text.takeBytes offset b.raw.toList
  let after := Text.dropBytes offset b.raw.toList
  let start := (before.reverse.takeWhile (· != '\n')).reverse
  String.ofList (Text.trim (start ++ after.takeWhile (· != '\n')))

def plainEdit? : Statement → Option Code.Edit
  | .state _ _ head _ => some ⟨⟨head.start, head.start + 5⟩, "let  "⟩
  | .prop _ _ span => some ⟨⟨span.start, span.start + 4⟩, "let "⟩
  | _ => none

/-- The text of the block as a program of the language, byte for byte in the same places. -/
def plain (b : Block) : List Char :=
  (b.statements.filterMap plainEdit?).foldl (fun cs e => e.apply cs) b.raw.toList

def read (index : Nat) (raw : String) (attributes : Ordered String) (position : Position) (file : String) :
    Compiled Block := do
  match Script.statements raw.toList with
  | .error e =>
    throw { fault := .badToken e.fault, file, position := position.advance (Text.takeBytes e.offset raw.toList) }
  | .ok statements =>
    let block : Block := { index, raw, attributes, position, statements }
    match Code.parseProgram block.plain with
    | .error e => throw { fault := .badScript e, file, position }
    | .ok _ => return block

/-- The references of a block; their spans are those of its text. -/
def references (b : Block) : Except SyntaxError (List Code.Reference) :=
  Code.programReferences b.plain

/-- The text of a block with its references changed; `state` and `prop` stay. -/
def renamed (b : Block) (decide : Code.Reference → Option Code.Renaming) : Except SyntaxError String := do
  let references ← b.references
  return String.ofList (Code.applyEdits (Code.editsFor references decide) b.raw.toList)

end Block

end PageCompiler.Script
