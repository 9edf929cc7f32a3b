import PageCompiler.Sort
import PageCompiler.Source.Position
import PageCompiler.Text.Bytes

/-!
# Edits of a text

Code is changed by replacing ranges of bytes, from the last range to the first, so that all that no edit
touches stays as it is and no range moves before its turn.
-/

namespace PageCompiler.Code

/-- The replacement of a range of bytes. -/
structure Edit where
  span : Span
  text : String
deriving DecidableEq, Repr

/-- The text with one range replaced; a range that is not one of the text leaves it as it is. -/
def Edit.apply (e : Edit) (cs : List Char) : List Char :=
  if e.span.start ≤ e.span.stop && e.span.stop ≤ Text.byteLength cs then
    Text.takeBytes e.span.start cs ++ e.text.toList ++ Text.dropBytes e.span.stop cs
  else cs

theorem Edit.apply_append {e : Edit} {before old : List Char} (hstart : e.span.start = Text.byteLength before)
    (hstop : e.span.stop = Text.byteLength (before ++ old)) (after : List Char) :
    e.apply (before ++ old ++ after) = before ++ e.text.toList ++ after := by
  have hrange : (e.span.start ≤ e.span.stop && e.span.stop ≤ Text.byteLength (before ++ old ++ after)) = true := by
    simp only [hstart, hstop, Text.byteLength_append, Bool.and_eq_true, decide_eq_true_eq]
    omega
  rw [Edit.apply, if_pos hrange, hstop, Text.dropBytes_append, hstart, List.append_assoc before old, Text.takeBytes_append]

/-- The text with all edits made, later ranges first; of ranges with one start, the first given is made
first. -/
def applyEdits (edits : List Edit) (cs : List Char) : List Char :=
  (sortBy (fun a b => b.span.start ≤ a.span.start) edits).foldl (fun cs e => e.apply cs) cs

end PageCompiler.Code
