import PageCompiler.Document.Entity
import PageCompiler.Text.Case

/-!
# Tokens of a document

The units that a document is built from: tags, stretches of text, comments and the document type. How text
is read depends on the element that it stands in, so `nextToken` takes a `TextMode`. Names are read in
lower case, and character references are decoded.
-/

namespace PageCompiler.Document

/-- An attribute as it is read. -/
structure RawAttribute where
  name : String
  value : String
deriving DecidableEq, Repr

/-- A start tag. -/
structure Tag where
  name : String
  attributes : List RawAttribute := []
  selfClosing : Bool := false
deriving DecidableEq, Repr

/-- The document type. -/
structure DocumentType where
  name : String := ""
  publicId : Option String := none
  systemId : Option String := none
  /-- Whether it is ill formed in a way that makes the document an old one. -/
  forced : Bool := false
deriving DecidableEq, Repr

/-- A unit of a document. -/
inductive Token where
  | doctype (type : DocumentType)
  | start (tag : Tag)
  | finish (name : String)
  | comment
  | chars (text : List Char)
  | zero
  | eof
deriving DecidableEq, Repr

/-- How text is read. -/
inductive TextMode where
  | markup
  /-- Text with character references, up to the end tag of that name. -/
  | decoded (name : String)
  /-- Text as it is, up to the end tag of that name. -/
  | raw (name : String)
  /-- Text as it is, up to the end. -/
  | plain
deriving DecidableEq, Repr

def isDivider (c : Char) : Bool :=
  c == ' ' || c == '\t' || c == '\n' || c == '\x0C'

/-- The character that stands for one that must not be used. -/
def replacement : Char := Char.ofNat 0xFFFD

/-- Line ends as one character, and no mark of byte order at the start. -/
def normalized : List Char → List Char
  | [] => []
  | '\r' :: '\n' :: cs => '\n' :: normalized cs
  | '\r' :: cs => '\n' :: normalized cs
  | c :: cs => c :: normalized cs

/-! ## Character references -/

def windowsCharacters : List Nat :=
  [0x20AC, 0x81, 0x201A, 0x0192, 0x201E, 0x2026, 0x2020, 0x2021, 0x02C6, 0x2030, 0x0160, 0x2039, 0x0152, 0x8D,
    0x017D, 0x8F, 0x90, 0x2018, 0x2019, 0x201C, 0x201D, 0x2022, 0x2013, 0x2014, 0x02DC, 0x2122, 0x0161, 0x203A,
    0x0153, 0x9D, 0x017E, 0x0178]

def numbered (n : Nat) : Char :=
  if n = 0 || 0x10FFFF < n || (0xD800 ≤ n && n < 0xE000) then replacement
  else if 0x80 ≤ n && n ≤ 0x9F then Char.ofNat (windowsCharacters.getD (n - 0x80) n)
  else Char.ofNat n

/-- A reference by number after `&#`: how many characters it takes, and the character. -/
def numericReference? (cs : List Char) : Option (Nat × List Char) :=
  let isHex (c : Char) : Bool := c.isDigit || ('a' ≤ c && c ≤ 'f') || ('A' ≤ c && c ≤ 'F')
  let (lead, digits) := match cs with
    | 'x' :: rest => (1, rest.takeWhile isHex)
    | 'X' :: rest => (1, rest.takeWhile isHex)
    | rest => (0, rest.takeWhile Char.isDigit)
  if digits.isEmpty then none
  else
    let value := if lead = 1 then hexNumber digits
      else digits.foldl (fun n c => n * 10 + (c.toNat - '0'.toNat)) 0
    let count := lead + digits.length
    let count := if (cs.drop count).head? == some ';' then count + 1 else count
    some (count, [numbered value])

/-- A character reference after its ampersand: how many characters it takes, and what it stands for. In an
attribute, a name without a semicolon is none if a letter, a digit or an equals sign follows. -/
def characterReference? (inAttribute : Bool) (cs : List Char) : Option (Nat × List Char) :=
  match cs with
  | '#' :: rest => (numericReference? rest).map fun (n, out) => (n + 1, out)
  | _ =>
    match entity? cs with
    | none => none
    | some (n, out) =>
      let closed := (cs.drop (n - 1)).head? == some ';'
      let next := (cs.drop n).head?
      let glued := (next.map fun c => c == '=' || c.isAlphanum).getD false
      if inAttribute && !closed && glued then none else some (n, out)

/-! ## Tags -/

/-- Reads the value of an attribute: its characters up to the first that satisfies `ends`, and the rest from
that character on. -/
def readValue (ends : Char → Bool) (value : List Char) (cs : List Char) : List Char × List Char :=
  match cs with
  | [] => (value.reverse, [])
  | c :: rest =>
    if ends c then (value.reverse, cs)
    else if c = '&' then
      match characterReference? true rest with
      | some (n, out) => readValue ends (out.reverse ++ value) (rest.drop n)
      | none => readValue ends ('&' :: value) rest
    else readValue ends ((if c.toNat = 0 then replacement else c) :: value) rest
termination_by cs.length
decreasing_by all_goals (simp only [List.length_cons, List.length_drop]; omega)

def attributeValue (cs : List Char) : List Char × List Char :=
  match cs.dropWhile isDivider with
  | '"' :: rest =>
    let (value, rest) := readValue (· == '"') [] rest
    (value, rest.drop 1)
  | '\'' :: rest =>
    let (value, rest) := readValue (· == '\'') [] rest
    (value, rest.drop 1)
  | '>' :: rest => ([], '>' :: rest)
  | rest => readValue (fun c => isDivider c || c == '>') [] rest

def tagName (cs : List Char) : String :=
  String.ofList (cs.map fun c => if c.toNat = 0 then replacement else c.toLower)

def endsName (c : Char) : Bool :=
  isDivider c || c == '/' || c == '>' || c == '='

/-- The attributes of a tag with at most `fuel` of them, whether the tag closes itself, and the rest after its
closing angle; nothing if the text ends before. Of two attributes with one name the first counts. -/
def readAttributes (fuel : Nat) (found : List RawAttribute) (cs : List Char) :
    Option (List RawAttribute × Bool × List Char) :=
  match fuel with
  | 0 => none
  | fuel + 1 =>
    match cs.dropWhile isDivider with
    | [] => none
    | '>' :: rest => some (found, false, rest)
    | '/' :: '>' :: rest => some (found, true, rest)
    | '/' :: rest => readAttributes fuel found rest
    | c :: rest =>
      let name := c :: rest.takeWhile fun c => !endsName c
      let rest := rest.drop (name.length - 1)
      let (value, rest) := match rest.dropWhile isDivider with
        | '=' :: later => attributeValue later
        | _ => ([], rest)
      let here : RawAttribute := ⟨tagName name, String.ofList value⟩
      let found := if found.any (·.name == here.name) then found else found ++ [here]
      readAttributes fuel found rest

/-- A tag from its name on: the name, the attributes, whether it closes itself, and the rest. -/
def readTag (cs : List Char) : Option (Tag × List Char) :=
  let name := cs.takeWhile fun c => !(isDivider c || c == '/' || c == '>')
  (readAttributes (cs.length + 1) [] (cs.drop name.length)).map fun (attributes, selfClosing, rest) =>
    (⟨tagName name, attributes, selfClosing⟩, rest)

/-! ## Comments and the document type -/

/-- What follows a comment, given what follows the mark that opens it. -/
def afterComment : List Char → List Char
  | '>' :: cs => cs
  | '-' :: '>' :: cs => cs
  | cs =>
    match Text.breakOn? "--".toList cs with
    | none => []
    | some _ => closeComment cs
where
  closeComment : List Char → List Char
    | '-' :: '-' :: '>' :: rest => rest
    | '-' :: '-' :: '!' :: '>' :: rest => rest
    | _ :: rest => closeComment rest
    | [] => []

def afterAngle (cs : List Char) : List Char :=
  (cs.dropWhile (· != '>')).drop 1

def quotedIdentifier? (cs : List Char) : Option (String × List Char) :=
  match cs with
  | '"' :: rest =>
    let value := rest.takeWhile fun c => c != '"' && c != '>'
    some (String.ofList value, rest.drop value.length)
  | '\'' :: rest =>
    let value := rest.takeWhile fun c => c != '\'' && c != '>'
    some (String.ofList value, rest.drop value.length)
  | _ => none

def readDocumentType (cs : List Char) : DocumentType × List Char :=
  let rest := afterAngle cs
  let ended := cs.any (· == '>')
  let body := (cs.takeWhile (· != '>')).dropWhile isDivider
  let name := body.takeWhile fun c => !isDivider c
  let type : DocumentType := { name := tagName name, forced := name.isEmpty || !ended }
  let tail := (body.drop name.length).dropWhile isDivider
  let keyword := lowerAscii (String.ofList (tail.take 6))
  let after := (tail.drop 6).dropWhile isDivider
  if tail.isEmpty then (type, rest)
  else if keyword == "public" then
    match quotedIdentifier? after with
    | none => ({ type with forced := true }, rest)
    | some (publicId, later) =>
      if later.isEmpty then ({ type with publicId := some publicId, forced := true }, rest)
      else match quotedIdentifier? ((later.drop 1).dropWhile isDivider) with
        | some (systemId, _) => ({ type with publicId := some publicId, systemId := some systemId }, rest)
        | none => ({ type with publicId := some publicId }, rest)
  else if keyword == "system" then
    match quotedIdentifier? after with
    | none => ({ type with forced := true }, rest)
    | some (systemId, _) => ({ type with systemId := some systemId }, rest)
  else ({ type with forced := true }, rest)

def startsWithWord (word : String) (cs : List Char) : Bool :=
  lowerAscii (String.ofList (cs.take word.length)) == word

/-! ## Text -/

/-- A stretch of text up to a character of code zero or to where `stops` tells it to stop, with its
references decoded if `decode` says so. The result is the stretch in reverse order and the rest. -/
def readText (decode : Bool) (stops : List Char → Bool) (text : List Char) (cs : List Char) :
    List Char × List Char :=
  match cs with
  | [] => (text, [])
  | c :: rest =>
    if stops cs || c.toNat = 0 then (text, cs)
    else if c = '&' && decode then
      match characterReference? false rest with
      | some (n, out) => readText decode stops (out.reverse ++ text) (rest.drop n)
      | none => readText decode stops (c :: text) rest
    else readText decode stops (c :: text) rest
termination_by cs.length
decreasing_by all_goals (simp only [List.length_cons, List.length_drop]; omega)

def startsMarkup : List Char → Bool
  | '<' :: c :: _ => c.isAlpha || c == '!' || c == '?' || c == '/'
  | _ => false

def startsEnd (name : String) (cs : List Char) : Bool :=
  match cs with
  | '<' :: '/' :: rest =>
    startsWithWord name rest &&
      ((rest.drop name.length).head?.map fun c => isDivider c || c == '/' || c == '>').getD false
  | _ => false

/-- A stretch of text as a token, and the rest; at a character of code zero, that character. -/
def textToken (decode : Bool) (replaceZero : Bool) (stops : List Char → Bool) (cs : List Char) :
    Token × List Char :=
  match cs with
  | [] => (.eof, [])
  | c :: rest =>
    if c.toNat = 0 then (if replaceZero then .chars [replacement] else .zero, rest)
    else match readText decode stops [] cs with
      | ([], _) => (.chars [c], rest)
      | (text, rest) => (.chars text.reverse, rest)

def readSection (cs : List Char) : List Char × List Char :=
  (Text.breakOn? "]]>".toList cs).getD (cs, [])

def endToken (cs : List Char) : Token × List Char :=
  match readTag cs with
  | some (tag, rest) => (.finish tag.name, rest)
  | none => (.eof, [])

/-- The next token of a text, and the rest. `inForeign` says whether sections of characters may stand here. -/
def nextToken (mode : TextMode) (inForeign : Bool) (cs : List Char) : Token × List Char :=
  match mode with
  | .plain => textToken false true (fun _ => false) cs
  | .raw name =>
    if startsEnd name cs then endToken (cs.drop 2) else textToken false true (startsEnd name) cs
  | .decoded name =>
    if startsEnd name cs then endToken (cs.drop 2) else textToken true true (startsEnd name) cs
  | .markup =>
    match cs with
    | '<' :: '!' :: '-' :: '-' :: rest => (.comment, afterComment rest)
    | '<' :: '!' :: rest =>
      if startsWithWord "doctype" rest then
        let (type, rest) := readDocumentType (rest.drop 7)
        (.doctype type, rest)
      else if inForeign && "[CDATA[".toList.isPrefixOf rest then
        let (text, later) := readSection (rest.drop 7)
        (.chars text, later)
      else (.comment, afterAngle rest)
    | '<' :: '?' :: rest => (.comment, afterAngle rest)
    | '<' :: '/' :: c :: rest =>
      if c.isAlpha then endToken (c :: rest)
      else if c = '>' then (.chars [], rest)
      else (.comment, afterAngle (c :: rest))
    | '<' :: '/' :: [] => (.chars ['<', '/'], [])
    | '<' :: c :: rest =>
      if c.isAlpha then
        match readTag (c :: rest) with
        | some (tag, rest) => (.start tag, rest)
        | none => (.eof, [])
      else textToken true false startsMarkup cs
    | _ => textToken true false startsMarkup cs

end PageCompiler.Document
