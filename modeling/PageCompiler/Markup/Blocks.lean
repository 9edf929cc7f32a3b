import PageCompiler.Diagnostic
import PageCompiler.Markup.Tag
import PageCompiler.Text.Search

/-!
# Script and style blocks

A source file is cut into pieces: text that stays markup, and the `<script>` and `<style>` elements.
`blocks` takes the elements out of the markup and leaves blanks in their place, so that every byte that
stays keeps its offset. A script with a `src` attribute belongs to the markup.
-/

namespace PageCompiler.Markup

/-- The content of a `<script>` or `<style>` element. -/
structure Block where
  content : String
  attributes : Ordered String
  offset : Nat
deriving Repr

/-- The two elements that hold a block. -/
inductive BlockTag where
  | script
  | style
deriving DecidableEq, Repr

def BlockTag.name : BlockTag → String
  | script => "script"
  | style => "style"

/-- A piece of a source file. -/
inductive SourcePiece where
  | text (chars : List Char)
  | block (tag : BlockTag) (chars : List Char) (block : Block)

/-- Blanks in place of a text: each byte becomes a space, but line feeds stay. -/
def blanked (cs : List Char) : List Char :=
  cs.flatMap fun c => if c = '\n' then ['\n'] else List.replicate c.utf8Size ' '

def opensBlock (tag : BlockTag) (cs : List Char) : Bool :=
  let name := tag.name.toList
  (cs.take name.length).map Char.toLower == name &&
    match cs.drop name.length with
    | c :: _ => Text.isSpace c || c == '>' || c == '/'
    | [] => false

def blockTag? (cs : List Char) : Option BlockTag :=
  if opensBlock .script cs then some .script else if opensBlock .style cs then some .style else none

/-- What is before the first end tag of an element with that name, in any case of letters. -/
def beforeEndTag? (tag : BlockTag) : List Char → Option (List Char)
  | [] => none
  | c :: cs =>
    let close := '<' :: '/' :: tag.name.toList
    if ((c :: cs).take close.length).map Char.toLower == close then some []
    else (beforeEndTag? tag cs).map (c :: ·)

/-- The element that opens at offset `pos`, the text `cs` following its `<`: how many characters it has
after the `<`, and the block inside it. -/
def readBlock (file : Source.File) (tag : BlockTag) (pos : Nat) (cs : List Char) :
    Compiled (Nat × Block) := do
  let name := tag.name
  let some openEnd := tagEndFrom? none 0 cs | throw (file.diagnostic (.openBlockTag name) pos)
  let listed := Text.slice name.length openEnd cs
  let inner := Text.dropBytes (openEnd + 1) cs
  let some content := beforeEndTag? tag inner | throw (file.diagnostic (.missingBlockEnd name) pos)
  let start := pos + 1 + openEnd + 1
  let size := Text.byteLength content
  let some closeEnd := tagEndFrom? none 0 (Text.dropBytes (size + 1) inner)
    | throw (file.diagnostic (.openBlockEnd name) (start + size))
  let block := { content := String.ofList content, attributes := attributes listed, offset := start }
  return ((Text.takeBytes (openEnd + 1 + size + 1 + closeEnd + 1) cs).length, block)

def sourcePieces (file : Source.File) (pos : Nat) (cs : List Char) : Compiled (List SourcePiece) :=
  let plain := cs.takeWhile (· ≠ '<')
  match _hc : cs.dropWhile (· ≠ '<') with
  | [] => return [.text plain]
  | c :: rest => do
    let here := pos + Text.byteLength plain
    match Text.strip? "!--".toList rest with
    | some inner =>
      match Text.breakOn? "-->".toList inner with
      | some (comment, _) =>
        let size := "!--".length + comment.length + "-->".length
        let pieces ← sourcePieces file (here + Text.byteLength (c :: rest.take size)) (rest.drop size)
        return .text plain :: .text (c :: rest.take size) :: pieces
      | none => return [.text plain, .text (c :: rest)]
    | none =>
      match blockTag? rest with
      | none =>
        let pieces ← sourcePieces file (here + c.utf8Size) rest
        return .text plain :: .text [c] :: pieces
      | some tag =>
        let (size, block) ← readBlock file tag here rest
        let chars := c :: rest.take size
        let pieces ← sourcePieces file (here + Text.byteLength chars) (rest.drop size)
        let piece := if tag = .script && Ordered.hasKey block.attributes "src" then .text chars
          else .block tag chars block
        return .text plain :: piece :: pieces
termination_by cs.length
decreasing_by
  all_goals
    have h := length_dropWhile_le (· ≠ '<') cs
    rw [_hc] at h
    simp only [List.length_cons, List.length_drop] at h ⊢
    omega

/-- The markup of a source file and the blocks taken out of it. -/
structure Blocks where
  markup : List Char
  scripts : List Block
  styles : List Block

def SourcePiece.markup : SourcePiece → List Char
  | text chars => chars
  | block _ chars _ => blanked chars

def SourcePiece.block? (tag : BlockTag) : SourcePiece → Option Block
  | text _ => none
  | block t _ b => if t = tag then some b else none

def blocks (file : Source.File) : Compiled Blocks := do
  let pieces ← sourcePieces file 0 file.text
  return {
    markup := pieces.flatMap SourcePiece.markup
    scripts := pieces.filterMap (SourcePiece.block? .script)
    styles := pieces.filterMap (SourcePiece.block? .style) }

end PageCompiler.Markup
