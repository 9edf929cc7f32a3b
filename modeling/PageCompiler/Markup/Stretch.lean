import PageCompiler.Text.Digit
import PageCompiler.Text.Search

/-!
# Markers in text

A text is read as stretches of plain text with markers between them. A word can have the form of a marker
without standing for an expression; the reader of the stretches tells them apart.
-/

namespace PageCompiler.Markup

/-- A stretch of text, or a word with the form of a marker. -/
inductive Stretch where
  | text (chars : List Char)
  | marker (chars : List Char)
deriving Repr, DecidableEq

def markerAt? (cs : List Char) : Option (List Char) := do
  let lead := "__ZENITH_EXPR_".toList
  let rest ← Text.strip? lead cs
  let digits := rest.takeWhile Text.isDecimal
  guard (!digits.isEmpty)
  guard ("__".toList.isPrefixOf (rest.drop digits.length))
  return lead ++ digits ++ "__".toList

/-- The stretches of a text, from left to right; the text is `skip` characters into a marker. -/
def stretchesFrom (skip : Nat) : List Char → List Stretch
  | [] => [.text []]
  | c :: cs =>
    match skip with
    | skip + 1 => stretchesFrom skip cs
    | 0 =>
      match markerAt? (c :: cs) with
      | some m => .text [] :: .marker m :: stretchesFrom (m.length - 1) cs
      | none =>
        match stretchesFrom 0 cs with
        | .text chars :: rest => .text (c :: chars) :: rest
        | rest => .text [c] :: rest

/-- The stretches of a text. There is text, possibly empty, before, between and after the markers. -/
def stretches (text : String) : List Stretch :=
  stretchesFrom 0 text.toList

end PageCompiler.Markup
