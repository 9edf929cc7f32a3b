/-!
# Positions in a source file

A position is a line and a column, both counted from one; a column counts characters.
-/

namespace PageCompiler

/-- A place in a source file. -/
structure Position where
  line : Nat := 1
  column : Nat := 1
deriving DecidableEq, Repr, Inhabited

namespace Position

def step (p : Position) (c : Char) : Position :=
  if c = '\n' then ⟨p.line + 1, 1⟩ else ⟨p.line, p.column + 1⟩

def advance (p : Position) (cs : List Char) : Position :=
  cs.foldl step p

@[simp] theorem advance_nil (p : Position) : p.advance [] = p := rfl

/-- Reading two texts in turn is reading them as one. -/
theorem advance_append (p : Position) (a b : List Char) :
    p.advance (a ++ b) = (p.advance a).advance b := by
  simp [advance]

end Position

/-- A range of bytes: `start` belongs to it, `stop` does not. -/
structure Span where
  start : Nat := 0
  stop : Nat := 0
deriving DecidableEq, Repr, Inhabited

namespace Span

def contains (s : Span) (n : Nat) : Bool :=
  s.start ≤ n && n < s.stop

end Span

end PageCompiler
