import PageCompiler.Document.Node

/-!
# Building a document

The state in which a document is built from tokens, and what is done to it: nodes are inserted, elements are
opened and closed, and formatting that was closed too early is opened again.
-/

namespace PageCompiler.Document

/-- Where in a document the builder is. -/
inductive Mode where
  | initial
  | beforeHtml
  | beforeHead
  | inHead
  | afterHead
  | inBody
  | text
  | inTable
  | inTableText
  | inCaption
  | inColumnGroup
  | inTableBody
  | inRow
  | inCell
  | inSelect
  | inSelectInTable
  | inTemplate
  | afterBody
  | inFrameset
  | afterFrameset
  | afterAfterBody
  | afterAfterFrameset
deriving DecidableEq, Repr

/-- An entry in the list of formatting: an element with its tag, or the border of a region. -/
inductive Format where
  | marker
  | element (n : Nat) (tag : Tag)
deriving DecidableEq, Repr

/-- The state of the builder. -/
structure Builder where
  nodes : Nodes := #[{ kind := .document }]
  mode : Mode := .initial
  outerMode : Mode := .initial
  /-- The modes of the templates that are open, the innermost first. -/
  templateModes : List Mode := []
  /-- The open elements, the innermost first. -/
  stack : List Nat := []
  /-- The list of formatting, the latest first. -/
  formats : List Format := []
  head : Option Nat := none
  form : Option Nat := none
  tableText : List (List Char) := []
  framesetOk : Bool := true
  /-- Whether what does not belong into a table is put before it. -/
  fostering : Bool := false
  /-- Whether a line end at the front of the next text is left out. -/
  skipNewline : Bool := false
  isOld : Bool := false
  textMode : TextMode := .markup

/-- An action on the state. -/
abbrev Build := StateM Builder

/-- What is to be done after a step. -/
inductive Next where
  | done
  | again (token : Token)

/-! ## Sets of names -/

/-- Names by which a search for an open element is stopped. -/
def isScope (space : Space) (name : String) : Bool :=
  match space with
  | .html => ["applet", "caption", "html", "table", "td", "th", "marquee", "object", "template"].contains name
  | .math => ["mi", "mo", "mn", "ms", "mtext"].contains name
  | .svg => ["foreignObject", "desc", "title"].contains name

/-- Names by which a search is stopped inside lists. -/
def isListScope (space : Space) (name : String) : Bool :=
  isScope space name || (space == .html && (name == "ol" || name == "ul"))

/-- Names by which a search is stopped inside buttons. -/
def isButtonScope (space : Space) (name : String) : Bool :=
  isScope space name || (space == .html && name == "button")

/-- Names by which a search is stopped inside tables. -/
def isTableScope (space : Space) (name : String) : Bool :=
  space == .html && ["html", "table", "template"].contains name

/-- Names by which a search is stopped inside selections. -/
def isSelectScope (space : Space) (name : String) : Bool :=
  !(space == .html && (name == "optgroup" || name == "option"))

def impliedEnds : List String :=
  ["dd", "dt", "li", "option", "optgroup", "p", "rb", "rp", "rt", "rtc"]

/-- Elements that end where they must, those of tables included. -/
def thoroughEnds : List String :=
  impliedEnds ++ ["caption", "colgroup", "tbody", "td", "tfoot", "th", "thead", "tr"]

def headings : List String :=
  ["h1", "h2", "h3", "h4", "h5", "h6"]

/-- Elements that are not closed by the end tag of an element around them. -/
def specialNames : List String :=
  ["address", "applet", "area", "article", "aside", "base", "basefont", "bgsound", "blockquote", "body", "br",
    "button", "caption", "center", "col", "colgroup", "dd", "details", "dir", "div", "dl", "dt", "embed",
    "fieldset", "figcaption", "figure", "footer", "form", "frame", "frameset", "h1", "h2", "h3", "h4", "h5", "h6",
    "head", "header", "hgroup", "hr", "html", "iframe", "img", "input", "isindex", "li", "link", "listing", "main",
    "marquee", "menu", "meta", "nav", "noembed", "noframes", "noscript", "object", "ol", "p", "param", "plaintext",
    "pre", "script", "section", "select", "source", "style", "summary", "table", "tbody", "td", "template",
    "textarea", "tfoot", "th", "thead", "title", "tr", "track", "ul", "wbr", "xmp"]

/-- Parts of a table that text may not stand in directly. -/
def tableParts : List String :=
  ["table", "tbody", "tfoot", "thead", "tr"]

/-! ## Questions -/

def currentNode : Build Nat :=
  return (← get).stack.head?.getD 0

def nameOf (n : Nat) : Build (Space × String) :=
  return ((← get).nodes.nameOf? n).getD (.html, "")

/-- Whether the element is one of the names, in the main vocabulary. -/
def isOneOf (names : List String) (n : Nat) : Build Bool := do
  let (space, name) ← nameOf n
  return space == .html && names.contains name

def currentIs (names : List String) : Build Bool := do
  isOneOf names (← currentNode)

def hasOpen (name : String) : Build Bool := do
  (← get).stack.anyM (isOneOf [name])

/-- Whether an open element that satisfies the test is found before one that stops the search. -/
def findInScope (stops : Space → String → Bool) (test : Nat → Build Bool) : List Nat → Build Bool
  | [] => return false
  | n :: rest => do
    if ← test n then return true
    let (space, name) ← nameOf n
    if stops space name then return false
    findInScope stops test rest

def inScope (stops : Space → String → Bool) (names : List String) : Build Bool := do
  findInScope stops (isOneOf names) (← get).stack

def Tag.hasValue (tag : Tag) (name value : String) : Bool :=
  tag.attributes.any fun a => a.name == name && lowerAscii a.value == value

/-! ## Insertion -/

/-- A place for new nodes. -/
inductive Place where
  | lastChild (parent : Nat)
  | before (parent sibling : Nat)

def contentOf (n : Nat) : Build Nat := do
  match (← get).nodes[n]? with
  | some { kind := .element _ _ _ (some content), .. } => return content
  | _ => return n

/-- Where what does not belong into a table goes: before the innermost table, or into a template inside it. -/
def fosterPlace : List Nat → Build Place
  | [] => return .lastChild 0
  | n :: rest => do
    if ← isOneOf ["template"] n then return .lastChild (← contentOf n)
    if ← isOneOf ["table"] n then
      match (← get).nodes.parentOf? n with
      | some parent => return .before parent n
      | none => return .lastChild (← contentOf (rest.head?.getD 0))
    match rest with
    | [] => return .lastChild n
    | _ => fosterPlace rest

/-- Where a new node goes, by default into the innermost open element. -/
def placeFor (target : Option Nat) : Build Place := do
  let n := target.getD (← currentNode)
  if (← get).fostering && (← isOneOf tableParts n) then fosterPlace (← get).stack
  else return .lastChild (← contentOf n)

def putAt (place : Place) (n : Nat) : Build Unit :=
  modify fun b => { b with nodes := match place with
    | .lastChild parent => b.nodes.append parent n
    | .before parent sibling => b.nodes.insertBefore parent sibling n }

def insertText (text : List Char) : Build Unit := do
  let place ← placeFor none
  modify fun b => { b with nodes := match place with
    | .lastChild parent => b.nodes.appendText parent text
    | .before parent sibling => b.nodes.insertTextBefore parent sibling text }

def createNode (kind : NodeKind) : Build Nat := do
  let (nodes, n) := (← get).nodes.create kind
  modify ({ · with nodes })
  return n

def insertComment : Build Unit := do
  let n ← createNode .comment
  putAt (← placeFor none) n

def appendComment (parent : Nat) : Build Unit := do
  let n ← createNode .comment
  putAt (.lastChild parent) n

def plainAttributes (attributes : List RawAttribute) : List Attribute :=
  attributes.map fun a => { name := a.name, value := a.value }

/-- Makes an element. A template gets a node for its content. -/
def createElement (space : Space) (name : String) (attributes : List Attribute) : Build Nat := do
  let content ← if space == .html && name == "template" then do pure (some (← createNode .document))
    else pure none
  createNode (.element space name attributes content)

def push (n : Nat) : Build Unit :=
  modify fun b => { b with stack := n :: b.stack }

def pop : Build Unit :=
  modify fun b => { b with stack := b.stack.drop 1 }

def insertElement (space : Space) (name : String) (attributes : List Attribute) : Build Nat := do
  let place ← placeFor none
  let n ← createElement space name attributes
  putAt place n
  push n
  return n

def insertTag (tag : Tag) : Build Nat :=
  insertElement .html tag.name (plainAttributes tag.attributes)

def insertVoid (tag : Tag) : Build Nat := do
  let n ← insertTag tag
  pop
  return n

def insertImplied (name : String) : Build Nat :=
  insertElement .html name []

def openText (tag : Tag) (textMode : TextMode) : Build Unit := do
  let _ ← insertTag tag
  modify fun b => { b with outerMode := b.mode, mode := .text, textMode }

/-! ## Closing -/

/-- Closes elements up to and including the first that satisfies the test. -/
def popThrough (test : Nat → Build Bool) : List Nat → Build Unit
  | [] => return
  | n :: rest => do
    let found ← test n
    modify ({ · with stack := rest })
    if found then return
    popThrough test rest

/-- Closes elements up to and including the first of one of the names. -/
def closeThrough (names : List String) : Build Unit := do
  popThrough (isOneOf names) (← get).stack

/-- Closes elements up to the first of one of the names, which stays open. -/
def popTo (names : List String) : List Nat → Build Unit
  | [] => return
  | n :: rest => do
    if ← isOneOf names n then return
    modify ({ · with stack := rest })
    popTo names rest

/-- Closes elements up to the first of one of the names, which stays open. -/
def closeTo (names : List String) : Build Unit := do
  popTo names (← get).stack

/-- Closes elements as long as they have one of the names. -/
def popWhile (names : List String) : List Nat → Build Unit
  | [] => return
  | n :: rest => do
    if ← isOneOf names n then
      modify ({ · with stack := rest })
      popWhile names rest

def closeImplied (names : List String) (except : Option String) : Build Unit := do
  let names := match except with
    | some name => names.filter (· != name)
    | none => names
  popWhile names (← get).stack

def closeWhole (except : Option String) (names : List String) : Build Unit := do
  closeImplied impliedEnds except
  closeThrough names

def closeInScope (except : Option String) (names : List String) : Build Unit := do
  if ← inScope isScope names then closeWhole except names

def closeParagraph : Build Unit :=
  closeWhole (some "p") ["p"]

def closeParagraphInReach : Build Unit := do
  if ← inScope isButtonScope ["p"] then closeParagraph

def removeFromStack (n : Nat) : Build Unit :=
  modify fun b => { b with stack := b.stack.filter (· != n) }

/-! ## Formatting -/

/-- Forgets the formatting since the last marker, and the marker. -/
def clearFormats : Build Unit :=
  modify fun b => { b with formats := (b.formats.dropWhile (· != .marker)).drop 1 }

def closeCell : Build Unit := do
  closeWhole none ["td", "th"]
  clearFormats

def pushMarker : Build Unit :=
  modify fun b => { b with formats := .marker :: b.formats }

/-- Whether formatting needs no new element: it is a border, or its element is open. -/
def Format.isSettled (stack : List Nat) : Format → Bool
  | marker => true
  | element n _ => stack.contains n

def Format.isFor (n : Nat) : Format → Bool
  | marker => false
  | element m _ => m == n

/-- Opens again the formatting of the entries, given from the first to the last. -/
def reopen : List Format → Build (List Format)
  | [] => return []
  | .marker :: rest => do return .marker :: (← reopen rest)
  | .element _ tag :: rest => do
    let n ← insertTag tag
    return .element n tag :: (← reopen rest)

/-- Opens again the formatting that was closed by the end of other elements. -/
def reopenFormats : Build Unit := do
  let b ← get
  let missing := b.formats.takeWhile fun f => !f.isSettled b.stack
  let settled := b.formats.drop missing.length
  let opened ← reopen missing.reverse
  modify ({ · with formats := opened.reverse ++ settled })

/-- Whether two tags are the same, the order of attributes apart. -/
def Tag.isLike (a b : Tag) : Bool :=
  a.name == b.name && a.attributes.length == b.attributes.length &&
    a.attributes.all fun x => b.attributes.contains x

def recentFormats (formats : List Format) : List Format :=
  formats.takeWhile (· != .marker)

/-- Opens a formatting element. Of equal ones, at most three are kept. -/
def openFormat (tag : Tag) : Build Unit := do
  let like (f : Format) : Bool := match f with
    | .marker => false
    | .element _ other => tag.isLike other
  let matching := (recentFormats (← get).formats).filter like
  if 3 ≤ matching.length then
    match matching.getLast? with
    | some oldest => modify fun b => { b with formats := b.formats.erase oldest }
    | none => pure ()
  let n ← insertTag tag
  modify fun b => { b with formats := .element n tag :: b.formats }

/-- What is left of the open elements after the first of that name, if nothing special is found before it. -/
def afterNamed? (name : String) : List Nat → Build (Option (List Nat))
  | [] => return none
  | n :: rest => do
    if ← isOneOf [name] n then return some rest
    if ← isOneOf specialNames n then return none
    afterNamed? name rest

/-- Closes elements for an end tag without rules of its own. -/
def closeAny (name : String) : Build Unit := do
  match ← afterNamed? name (← get).stack with
  | some rest => modify ({ · with stack := rest })
  | none => return

end PageCompiler.Document
