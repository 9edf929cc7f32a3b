import PageCompiler.Document.Parse
import PageCompiler.Markup.Balance
import PageCompiler.Markup.Stretch
import PageCompiler.Template.Registry
import PageCompiler.Text.Decimal

/-!
# Documents as templates

The document that a prepared markup gives becomes a template: notes on tags give positions and spellings
back, and markers become the expressions that they stand for.
-/

namespace PageCompiler.Template

open Document (Item)

/-- What the conversion of a document needs to know of its source. -/
structure Conversion where
  file : Source.File
  holes : Ordered Markup.Hole
  isWhole : Bool

/-- The nodes of a stretch of text: none for a line end among blanks, one blank for blanks alone. -/
def textNodes (chars : List Char) (position : Position) : List Node :=
  if chars.isEmpty then []
  else if Text.allBlank chars then
    if chars.contains '\n' then [] else [.text " " { position }]
  else [.text (String.ofList chars) { position }]

def convertText (c : Conversion) (position : Position) (text : String) : Reading (List Node) := do
  let nodes ← (Markup.stretches text).mapM fun s => do
    match s with
    | .text chars => return textNodes chars position
    | .marker chars =>
      match c.holes.get? (String.ofList chars) with
      | none => return textNodes chars position
      | some hole =>
        let place : Place := { position := c.file.position hole.offset }
        return [.expression (← register hole.code place) place]
  return nodes.flatten

/-- The parts of an attribute's value, and the position of the first expression in it. -/
def valueParts (c : Conversion) : List Markup.Stretch → List ValuePart × Option Position
  | [] => ([], none)
  | .text chars :: rest =>
    let (parts, first) := valueParts c rest
    (if chars.isEmpty then parts else .text (String.ofList chars) :: parts, first)
  | .marker chars :: rest =>
    let (parts, first) := valueParts c rest
    match c.holes.get? (String.ofList chars) with
    | some hole => (.code hole.code :: parts, some (c.file.position hole.offset))
    | none => (.text (String.ofList chars) :: parts, first)

/-- The value of an attribute as it was written, and the position of the first expression in it. -/
def writtenValue (c : Conversion) (value : String) : Written × Option Position :=
  match c.holes.get? (trimString value) with
  | some hole => (.code hole.code, some (c.file.position hole.offset))
  | none =>
    match Markup.stretches value with
    | [_] => (.fixed value, none)
    | found =>
      let (parts, first) := valueParts c found
      (.mixed parts, first)

def notedPosition? (value : String) : Option Position :=
  match Text.pieces ':' value.toList with
  | [line, column] => do return ⟨← Text.decimal? line, ← Text.decimal? column⟩
  | _ => none

/-- What the notes on a tag say. -/
structure TagNotes where
  spelling : String
  position : Position
  /-- Spellings of the attributes' names, by their lower case. -/
  spellings : List (String × String) := []

def tagNotes (name : String) (outer : Position) (attributes : List Document.Attribute) : TagNotes :=
  attributes.foldl (fun notes a =>
    if a.name == Markup.positionAttribute then
      { notes with position := (notedPosition? a.value).getD notes.position }
    else if a.name == Markup.spellingAttribute then { notes with spelling := a.value }
    else if a.name == Markup.spellingsAttribute then
      let found := (Text.pieces ',' a.value.toList).map fun p =>
        (lowerAscii (String.ofList p), String.ofList p)
      { notes with spellings := found.reverse ++ notes.spellings }
    else notes)
    { spelling := name, position := outer }

def convertAttributes (c : Conversion) (notes : TagNotes) (isComponent : Bool)
    (attributes : List Document.Attribute) : Reading (List Attribute) :=
  let isNote (a : Document.Attribute) : Bool :=
    a.name == Markup.positionAttribute || a.name == Markup.spellingAttribute ||
      a.name == Markup.spellingsAttribute
  (attributes.filter (!isNote ·)).mapM fun a => do
    let spelled := (notes.spellings.lookup (lowerAscii a.name)).getD a.name
    let name := match a.qualifier with
      | some q => q ++ ":" ++ spelled
      | none => spelled
    let (written, first) := writtenValue c a.value
    attributeOf name written isComponent { position := first.getD notes.position }

mutual

/-- The nodes of a part of a document, inside an element at the given position. -/
def convert (c : Conversion) (outer : Position) : Item → Reading (List Node)
  | .doctype _ => return []
  | .comment => return []
  | .text value => convertText c outer value
  | .element name attributes children => do
    let notes := tagNotes name outer attributes
    let inner ← convertAll c notes.position children
    let place : Place := { position := notes.position }
    if lowerAscii notes.spelling == "slot" then
      let slot := ((attributes.find? (·.name == "name")).map (·.value)).filter (· != "")
      return [.slot slot inner place]
    let isComponent := isComponentName notes.spelling
    let converted ← convertAttributes c notes isComponent attributes
    return [if isComponent then .component notes.spelling converted inner place
      else .element notes.spelling converted inner place]

def convertAll (c : Conversion) (outer : Position) : List Item → Reading (List Node)
  | [] => return []
  | i :: is => do
    let here ← convert c outer i
    return here ++ (← convertAll c outer is)

end

mutual

/-- The nodes of an outer part of a document. The parts that every document has do not count where the source
does not write the whole document. -/
def convertOuter (c : Conversion) : Item → Reading (List Node)
  | .element name attributes children =>
    if !c.isWhole && ["html", "head", "body"].contains name then convertOuterAll c children
    else convert c {} (.element name attributes children)
  | item => convert c {} item

def convertOuterAll (c : Conversion) : List Item → Reading (List Node)
  | [] => return []
  | i :: is => do
    let here ← convertOuter c i
    return here ++ (← convertOuterAll c is)

end

def ofDocument (c : Conversion) (items : List Item) : Reading (List Node) := do
  let nodes ← items.mapM fun i => do
    match i with
    | .doctype name => return if c.isWhole then [Node.doctype name {}] else []
    | .element .. => convertOuter c i
    | _ => return []
  return nodes.flatten

end PageCompiler.Template
