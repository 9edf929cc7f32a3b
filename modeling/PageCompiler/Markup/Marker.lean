import PageCompiler.Brace
import PageCompiler.Diagnostic
import PageCompiler.Markup.Tag
import PageCompiler.Text.Search

/-!
# Markers

Every expression in braces is replaced by a marker, a word that an HTML parser reads as text. The
markup is first cut into pieces: text that stays, and holes with the code between a pair of braces.
Markers and the map from offsets in the marked text back to the source are then read off the pieces.
HTML comments stay as they are. A hole that is blank, or holds one comment only, leaves no marker.
-/

namespace PageCompiler.Markup

def marker (n : Nat) : String :=
  s!"__ZENITH_EXPR_{n}__"

/-- A piece of markup. -/
inductive Piece where
  | text (chars : List Char)
  | hole (code : List Char)
deriving Repr

def Piece.chars : Piece → List Char
  | text chars => chars
  | hole code => '{' :: code ++ ['}']

def pieces (file : Source.File) (pos : Nat) (cs : List Char) : Compiled (List Piece) :=
  let isPlain := fun c => c ≠ '<' && c ≠ '{' && c ≠ '}'
  let plain := cs.takeWhile isPlain
  match _hc : cs.dropWhile isPlain with
  | [] => return [.text plain]
  | c :: rest => do
    let here := pos + Text.byteLength plain
    if c = '<' then
      match Text.strip? "!--".toList rest with
      | some inner =>
        match Text.breakOn? "-->".toList inner with
        | some (comment, _) =>
          let size := "!--".length + comment.length + "-->".length
          let chars := c :: rest.take size
          let later ← pieces file (here + Text.byteLength chars) (rest.drop size)
          return .text plain :: .text chars :: later
        | none => throw (file.diagnostic .openComment here)
      | none =>
        let later ← pieces file (here + c.utf8Size) rest
        return .text plain :: .text [c] :: later
    else if c = '{' then
      match closingBrace? rest with
      | some size =>
        let later ← pieces file (here + 1 + size + 1) ((Text.dropBytes size rest).drop 1)
        return .text plain :: .hole (Text.takeBytes size rest) :: later
      | none => throw (file.diagnostic .openBrace here)
    else throw (file.diagnostic .strayBrace here)
termination_by cs.length
decreasing_by
  all_goals
    have h := length_dropWhile_le isPlain cs
    rw [_hc] at h
    simp only [List.length_cons, List.length_drop] at h ⊢
  · omega
  · omega
  · have := Text.length_dropBytes_le size rest
    omega

/-- Whether the text is one block comment and nothing else, blanks apart. -/
def isComment (code : List Char) : Bool :=
  let t := Text.trim code
  4 ≤ t.length && "/*".toList.isPrefixOf t && "*/".toList.isSuffixOf t &&
    !Text.contains "*/".toList ((t.drop 2).take (t.length - 4))

def isKept (code : List Char) : Bool :=
  !Text.allBlank code && !isComment code

/-- An expression of the markup. -/
structure Hole where
  code : String
  offset : Nat
deriving Repr, DecidableEq

/-- Markup in which markers stand for the expressions. -/
structure Marked where
  text : List Char
  /-- The expressions by their markers, in source order. -/
  holes : Ordered Hole
  /-- Offsets in the text and the source offsets to which they belong, in order. Between two of them
  the two kinds of offset move alike. -/
  anchors : List (Nat × Nat)

/-- The marked text of the pieces. `count` expressions, `pos` bytes of marked text and `source` bytes of
the file come before them. -/
def mark (count pos source : Nat) : List Piece → Marked
  | [] => { text := [], holes := [], anchors := [] }
  | .text chars :: rest =>
    let size := Text.byteLength chars
    let later := mark count (pos + size) (source + size) rest
    { later with text := chars ++ later.text }
  | .hole code :: rest =>
    let next := source + 1 + Text.byteLength code + 1
    if isKept code then
      let key := marker count
      let after := pos + key.utf8ByteSize
      let later := mark (count + 1) after next rest
      { text := key.toList ++ later.text
        holes := (key, { code := String.ofList code, offset := source + 1 }) :: later.holes
        anchors := (pos, source) :: (after, next) :: later.anchors }
    else
      let later := mark count pos next rest
      { later with anchors := (pos, next) :: later.anchors }

/-- Replaces the expressions of a markup, which shares its offsets with the file, by markers. -/
def marked (file : Source.File) (markup : List Char) : Compiled Marked := do
  let found := mark 0 0 0 (← pieces file 0 markup)
  return { found with anchors := (0, 0) :: found.anchors }

def Marked.sourceOffset (m : Marked) (offset : Nat) : Nat :=
  match (m.anchors.filter (·.1 ≤ offset)).getLast? with
  | some (here, source) => source + (offset - here)
  | none => offset

end PageCompiler.Markup
