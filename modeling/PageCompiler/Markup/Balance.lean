import PageCompiler.Markup.Marker
import PageCompiler.Template.Names

/-!
# Balanced markup

Marked markup is cut at its tags. Its tags are balanced if every end tag closes an element that is open,
and elements inside it that are still open then are ones whose end tag may be left out. Balanced markup is
prepared for the reading as a document: each start tag notes where it stands in the source and how its name
and those of its attributes are spelled there, and a tag closed by a slash gets an end tag.
-/

namespace PageCompiler.Markup

def positionAttribute : String := "data-zen-loc"

def spellingAttribute : String := "data-zen-orig-name"

def spellingsAttribute : String := "data-zen-orig-attrs"

/-- A piece of markup, cut at its tags. The rest of a tag is what follows its name, up to the `>`. -/
inductive TagPiece where
  | text (chars : List Char)
  | opening (name rest : List Char) (offset : Nat)
  | closing (name rest : List Char) (offset : Nat)
deriving Repr

def TagPiece.chars : TagPiece → List Char
  | text chars => chars
  | opening name rest _ => '<' :: name ++ rest ++ ['>']
  | closing name rest _ => '<' :: '/' :: name ++ rest ++ ['>']

def isSelfClosing (rest : List Char) : Bool :=
  (Text.trimEnd rest).getLast? == some '/'

def isTagNameChar (c : Char) : Bool :=
  c.isAlphanum || c == '-' || c == '_' || c == '.' || c == ':'

/-- What stands at a `<`. -/
inductive AfterOpen where
  /-- No tag; that many characters after the `<` are text whatever they are. -/
  | text (size : Nat)
  | tag (closes : Bool) (name rest : List Char)
  /-- A tag without an end. -/
  | unfinished (name : List Char)
deriving Repr

def tagNamed (closes : Bool) (cs : List Char) : AfterOpen :=
  match cs with
  | [] => .text 0
  | c :: _ =>
    if c.isAlpha then
      let name := cs.takeWhile isTagNameChar
      let after := cs.dropWhile isTagNameChar
      match tagEndFrom? none 0 after with
      | some size => .tag closes name (Text.takeBytes size after)
      | none => .unfinished name
    else .text 0

/-- What stands at a `<`, the text being what follows it. -/
def afterOpen (cs : List Char) : AfterOpen :=
  match Text.strip? "!--".toList cs with
  | some inner =>
    match Text.breakOn? "-->".toList inner with
    | some (comment, _) => .text ("!--".length + comment.length + "-->".length)
    | none => .text cs.length
  | none =>
    match cs with
    | [] => .text 0
    | c :: rest =>
      if c = '!' || c = '?' then .text ((cs.takeWhile (· ≠ '>')).length + 1)
      else if c = '/' then tagNamed true rest
      else tagNamed false cs

/-- What is before the end tag of an element with that name, in any case of letters. -/
def beforeEnd? (name : String) : List Char → Option (List Char)
  | [] => none
  | c :: cs =>
    let close := '<' :: '/' :: name.toList
    if ((c :: cs).take close.length).map Char.toLower == close then some []
    else (beforeEnd? name cs).map (c :: ·)

/-- The tags of a markup, up to a fault that keeps the rest from being cut. -/
structure Cut where
  pieces : List TagPiece
  fault : Option (Fault × Nat) := none

def Cut.after (p : TagPiece) (c : Cut) : Cut :=
  { c with pieces := p :: c.pieces }

/-- How many characters of the text after a start tag are text, whatever they are. -/
def rawLength? (name : String) (rest after : List Char) : Option Nat :=
  if isSelfClosing rest || !Template.textElements.contains name then some 0
  else (beforeEnd? name after).map List.length

/-- The text cut at its tags; it is at offset `pos`. -/
def cut (pos : Nat) (cs : List Char) : Cut :=
  let plain := cs.takeWhile (· ≠ '<')
  match _hc : cs.dropWhile (· ≠ '<') with
  | [] => { pieces := [.text plain] }
  | c :: following =>
    let here := pos + Text.byteLength plain
    match afterOpen following with
    | .text size =>
      let chars := plain ++ c :: following.take size
      (cut (pos + Text.byteLength chars) (following.drop size)).after (.text chars)
    | .unfinished name =>
      { pieces := [.text plain], fault := some (.openTag (String.ofList name), here) }
    | .tag true name rest =>
      let tag := TagPiece.closing name rest here
      let size := tag.chars.length - 1
      ((cut (here + Text.byteLength tag.chars) (following.drop size)).after tag).after (.text plain)
    | .tag false name rest =>
      let tag := TagPiece.opening name rest here
      let size := tag.chars.length - 1
      let after := following.drop size
      let next := here + Text.byteLength tag.chars
      match rawLength? (lowerAscii (String.ofList name)) rest after with
      | none =>
        { pieces := [.text plain, tag], fault := some (.unclosedTag (String.ofList name), next) }
      | some raw =>
        let inside := after.take raw
        (((cut (next + Text.byteLength inside) (after.drop raw)).after (.text inside)).after tag).after
          (.text plain)
termination_by cs.length
decreasing_by
  all_goals
    have h := length_dropWhile_le (· ≠ '<') cs
    rw [_hc] at h
    simp only [List.length_cons, List.length_drop] at h ⊢
    omega

/-- An element that is open. -/
structure OpenTag where
  name : String
  offset : Nat
deriving DecidableEq, Repr

def OpenTag.mayStay (t : OpenTag) : Bool :=
  Template.optionalEnds.contains t.name

/-- The elements, innermost first, that are open after a piece. -/
def afterPiece (stack : List OpenTag) : TagPiece → Except (Fault × Nat) (List OpenTag)
  | .text _ => .ok stack
  | .opening name rest offset =>
    let lower := lowerAscii (String.ofList name)
    .ok (if isSelfClosing rest || Template.isVoid lower then stack else ⟨lower, offset⟩ :: stack)
  | .closing name _ offset =>
    let lower := lowerAscii (String.ofList name)
    if Template.isVoid lower then .ok stack
    else
      let inner := stack.takeWhile (·.name ≠ lower)
      match stack.dropWhile (·.name ≠ lower) with
      | [] => .error (.strayEndTag (String.ofList name), offset)
      | _ :: outer =>
        match inner.reverse.find? (!·.mayStay) with
        | some t => .error (.crossedTags t.name (String.ofList name), t.offset)
        | none => .ok outer

/-- The fault of a cut markup: an unbalanced tag before its end, what kept it from being cut, or an element
that stays open. -/
def Cut.check (c : Cut) : Except (Fault × Nat) Unit := do
  let stack ← c.pieces.foldlM afterPiece []
  match c.fault with
  | some fault => throw fault
  | none => pure ()
  match stack.reverse.find? (!·.mayStay) with
  | some t => throw (.unclosedTag t.name, t.offset)
  | none => pure ()

def notedTag (name rest : List Char) (position : Position) : List Char :=
  let spelled := String.ofList name
  let lower := lowerAscii spelled
  let closed := isSelfClosing rest
  let listed := if closed then (Text.trimEnd rest).dropLast else rest
  let mixedCase := (attributes listed).keys.filter fun k => k.toList.any Char.isUpper
  let note (attr value : String) : List Char := (" " ++ attr ++ "=\"" ++ value ++ "\"").toList
  '<' :: name ++ note positionAttribute s!"{position.line}:{position.column}" ++
    (if spelled == lower then [] else note spellingAttribute spelled) ++
    (if mixedCase.isEmpty then [] else note spellingsAttribute (joinStrings "," mixedCase)) ++
    listed ++
    (if !closed then ['>']
    else if Template.isVoid lower then " />".toList
    else "></".toList ++ name ++ ['>'])

/-- Markup that is ready to be read as a document. -/
structure Prepared where
  html : String
  isWhole : Bool

def prepared (file : Source.File) (m : Marked) : Compiled Prepared := do
  let found := cut 0 m.text
  match found.check with
  | .error (fault, offset) => throw (file.diagnostic fault (m.sourceOffset offset))
  | .ok () =>
    let noted : TagPiece → List Char
      | .opening name rest offset => notedTag name rest (file.position (m.sourceOffset offset))
      | piece => piece.chars
    let isWhole : TagPiece → Bool
      | .opening name _ _ => lowerAscii (String.ofList name) == "html"
      | _ => false
    return {
      html := String.ofList (found.pieces.flatMap noted)
      isWhole := found.pieces.any isWhole }

end PageCompiler.Markup
