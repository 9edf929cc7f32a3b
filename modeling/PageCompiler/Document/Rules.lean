import PageCompiler.Document.Foreign

/-!
# Rules for tokens

What each token does in each mode of the builder.
-/

namespace PageCompiler.Document

variable (token : Token)

def isBlankText (text : List Char) : Bool :=
  text.all fun c => isDivider c || c == '\r'

def setMode (mode : Mode) : Build Unit :=
  modify ({ · with mode })

def done {α : Type} (action : Build α) : Build Next := do
  let _ ← action
  return .done

def againIn (mode : Mode) (token : Token) : Build Next := do
  setMode mode
  return .again token

/-- Notes that the page has content, so that it cannot become one of frames. -/
def noFrames : Build Unit :=
  modify ({ · with framesetOk := false })

def modeFor : List Nat → Build Mode
  | [] => return .inBody
  | n :: rest => do
    let (space, name) ← nameOf n
    let last := rest.isEmpty
    if space != .html then modeFor rest
    else match name with
      | "select" =>
        let names ← rest.filterM (isOneOf ["template", "table"])
        match names.head? with
        | some m => return if ← isOneOf ["table"] m then .inSelectInTable else .inSelect
        | none => return .inSelect
      | "td" | "th" => if last then modeFor rest else return .inCell
      | "tr" => return .inRow
      | "tbody" | "thead" | "tfoot" => return .inTableBody
      | "caption" => return .inCaption
      | "colgroup" => return .inColumnGroup
      | "table" => return .inTable
      | "template" => return (← get).templateModes.head?.getD .inBody
      | "head" => if last then modeFor rest else return .inHead
      | "body" => return .inBody
      | "frameset" => return .inFrameset
      | "html" => return if (← get).head.isSome then .afterHead else .beforeHead
      | _ => modeFor rest

def resetMode : Build Unit := do
  setMode (← modeFor (← get).stack)

/-- Closes an element and goes on in the mode that fits the elements around it. -/
def leave (name : String) : Build Unit := do
  closeThrough [name]
  resetMode

def againOutside (name : String) (token : Token) : Build Next := do
  leave name
  return .again token

def keepBlank (text : List Char) (other : Build Next) : Build Next :=
  if isBlankText text then done (insertText text) else other

/-! ## Before the body -/

/-- The tag of the whole document, where the document has started already. -/
def lateHtml (tag : Tag) : Build Next := done do
  unless ← hasOpen "template" do
    match (← get).stack.getLast? with
    | some root => modify fun b => { b with nodes := b.nodes.addMissing root (plainAttributes tag.attributes) }
    | none => pure ()

def createRoot (attributes : List RawAttribute) : Build Unit := do
  let n ← createElement .html "html" (plainAttributes attributes)
  putAt (.lastChild 0) n
  push n

/-- Identifiers by which a document type is that of an old document. -/
def oldPublicIds : List String :=
  ["+//silmaril//dtd html pro v0r11 19970101//", "-//advasoft ltd//dtd html 3.0 aswedit + extensions//",
    "-//as//dtd html 3.0 aswedit + extensions//", "-//ietf//dtd html 2.0 level 1//",
    "-//ietf//dtd html 2.0 level 2//", "-//ietf//dtd html 2.0 strict level 1//",
    "-//ietf//dtd html 2.0 strict level 2//", "-//ietf//dtd html 2.0 strict//", "-//ietf//dtd html 2.0//",
    "-//ietf//dtd html 2.1e//", "-//ietf//dtd html 3.0//", "-//ietf//dtd html 3.2 final//",
    "-//ietf//dtd html 3.2//", "-//ietf//dtd html 3//", "-//ietf//dtd html level 0//",
    "-//ietf//dtd html level 1//", "-//ietf//dtd html level 2//", "-//ietf//dtd html level 3//",
    "-//ietf//dtd html strict level 0//", "-//ietf//dtd html strict level 1//",
    "-//ietf//dtd html strict level 2//", "-//ietf//dtd html strict level 3//", "-//ietf//dtd html strict//",
    "-//ietf//dtd html//", "-//metrius//dtd metrius presentational//",
    "-//microsoft//dtd internet explorer 2.0 html strict//", "-//microsoft//dtd internet explorer 2.0 html//",
    "-//microsoft//dtd internet explorer 2.0 tables//", "-//microsoft//dtd internet explorer 3.0 html strict//",
    "-//microsoft//dtd internet explorer 3.0 html//", "-//microsoft//dtd internet explorer 3.0 tables//",
    "-//netscape comm. corp.//dtd html//", "-//netscape comm. corp.//dtd strict html//",
    "-//o'reilly and associates//dtd html 2.0//", "-//o'reilly and associates//dtd html extended 1.0//",
    "-//o'reilly and associates//dtd html extended relaxed 1.0//",
    "-//softquad software//dtd hotmetal pro 6.0::19990601::extensions to html 4.0//",
    "-//softquad//dtd hotmetal pro 4.0::19971010::extensions to html 4.0//",
    "-//spyglass//dtd html 2.0 extended//", "-//sq//dtd html 2.0 hotmetal + extensions//",
    "-//sun microsystems corp.//dtd hotjava html//", "-//sun microsystems corp.//dtd hotjava strict html//",
    "-//w3c//dtd html 3 1995-03-24//", "-//w3c//dtd html 3.2 draft//", "-//w3c//dtd html 3.2 final//",
    "-//w3c//dtd html 3.2//", "-//w3c//dtd html 3.2s draft//", "-//w3c//dtd html 4.0 frameset//",
    "-//w3c//dtd html 4.0 transitional//", "-//w3c//dtd html experimental 19960712//",
    "-//w3c//dtd html experimental 970421//", "-//w3c//dtd w3 html//", "-//w3o//dtd w3 html 3.0//",
    "-//webtechs//dtd mozilla html 2.0//", "-//webtechs//dtd mozilla html//"]

def DocumentType.isOld (type : DocumentType) : Bool :=
  let publicId := type.publicId.map lowerAscii
  let systemId := type.systemId.map lowerAscii
  let starts (lead : String) : Bool := (publicId.map fun id => lead.toList.isPrefixOf id.toList).getD false
  type.forced || type.name != "html" ||
    publicId == some "-//w3o//dtd w3 html strict 3.0//en//" || publicId == some "-/w3c/dtd html 4.0 transitional/en" ||
    publicId == some "html" ||
    systemId == some "http://www.ibm.com/data/dtd/v11/ibmxhtml1-transitional.dtd" ||
    oldPublicIds.any starts ||
    (systemId.isNone && (starts "-//w3c//dtd html 4.01 frameset//" || starts "-//w3c//dtd html 4.01 transitional//"))

def initialStep : Build Next := do
  match token with
  | .chars text =>
    if isBlankText text then return .done
    modify ({ · with isOld := true })
    againIn .beforeHtml token
  | .comment => done (appendComment 0)
  | _ =>
    modify ({ · with isOld := true })
    againIn .beforeHtml token

def beforeHtmlStep : Build Next := do
  let implied : Build Next := do
    createRoot []
    againIn .beforeHead token
  match token with
  | .chars text => if isBlankText text then return .done else implied
  | .comment => done (appendComment 0)
  | .start tag =>
    if tag.name == "html" then done do
      createRoot tag.attributes
      setMode .beforeHead
    else implied
  | .finish name => if ["head", "body", "html", "br"].contains name then implied else return .done
  | _ => implied

def beforeHeadStep : Build Next := do
  let implied : Build Next := do
    let n ← insertImplied "head"
    modify ({ · with head := some n })
    againIn .inHead token
  match token with
  | .chars text => if isBlankText text then return .done else implied
  | .comment => done insertComment
  | .start tag =>
    if tag.name == "html" then lateHtml tag
    else if tag.name == "head" then done do
      let n ← insertTag tag
      modify ({ · with head := some n, mode := .inHead })
    else implied
  | .finish name => if ["head", "body", "html", "br"].contains name then implied else return .done
  | _ => implied

def closeTemplate : Build Unit := do
  if ← hasOpen "template" then
    closeImplied thoroughEnds none
    closeThrough ["template"]
    clearFormats
    modify fun b => { b with templateModes := b.templateModes.drop 1 }
    resetMode

def headTags : List String :=
  ["base", "basefont", "bgsound", "link", "meta", "noframes", "script", "style", "template", "title"]

def inHeadStep : Build Next := do
  let implied : Build Next := do
    pop
    againIn .afterHead token
  match token with
  | .chars text => keepBlank text implied
  | .comment => done insertComment
  | .start tag =>
    match tag.name with
    | "html" => lateHtml tag
    | "title" => done (openText tag (.decoded "title"))
    | "template" => done do
      let _ ← insertTag tag
      pushMarker
      noFrames
      modify fun b => { b with mode := .inTemplate, templateModes := .inTemplate :: b.templateModes }
    | "head" => return .done
    | name =>
      if ["base", "basefont", "bgsound", "link", "meta"].contains name then done (insertVoid tag)
      else if ["noframes", "style", "noscript", "script"].contains name then done (openText tag (.raw name))
      else implied
  | .finish name =>
    match name with
    | "head" => done do
      pop
      setMode .afterHead
    | "template" => done closeTemplate
    | _ => if ["body", "html", "br"].contains name then implied else return .done
  | _ => implied

def afterHeadStep : Build Next := do
  let implied : Build Next := do
    let _ ← insertImplied "body"
    againIn .inBody token
  match token with
  | .chars text => keepBlank text implied
  | .comment => done insertComment
  | .start tag =>
    match tag.name with
    | "html" => lateHtml tag
    | "body" => done do
      let _ ← insertTag tag
      noFrames
      setMode .inBody
    | "frameset" => done do
      let _ ← insertTag tag
      setMode .inFrameset
    | "head" => return .done
    | name =>
      if headTags.contains name then
        let head := (← get).head.getD 0
        push head
        let next ← inHeadStep token
        removeFromStack head
        return next
      else implied
  | .finish name =>
    if name == "template" then inHeadStep token
    else if ["body", "html", "br"].contains name then implied
    else return .done
  | _ => implied

/-! ## In the body -/

/-- The body, if it is the second of the open elements from outside. -/
def body? : Build (Option Nat) := do
  match (← get).stack.reverse with
  | _ :: n :: _ => return if ← isOneOf ["body"] n then some n else none
  | _ => return none

def bodyText (text : List Char) : Build Next := done do
  reopenFormats
  unless isBlankText text do noFrames
  insertText text

/-- The item of a list that a new item ends: the first of the names among the open elements, if no other
element stands between. -/
def openItem? (names : List String) : List Nat → Build (Option String)
  | [] => return none
  | n :: rest => do
    if ← isOneOf names n then return some (← nameOf n).2
    if ← isOneOf (specialNames.filter fun s => s != "address" && s != "div" && s != "p") n then return none
    openItem? names rest

def startItem (tag : Tag) : Build Next := done do
  noFrames
  let names := if tag.name == "li" then ["li"] else ["dd", "dt"]
  match ← openItem? names (← get).stack with
  | some name => closeWhole (some name) [name]
  | none => pure ()
  closeParagraphInReach
  insertTag tag

def blockTags : List String :=
  ["address", "article", "aside", "blockquote", "center", "details", "dialog", "dir", "div", "dl", "fieldset",
    "figcaption", "figure", "footer", "header", "hgroup", "main", "menu", "nav", "ol", "p", "section", "summary",
    "ul"]

def blockEnds : List String :=
  ["address", "article", "aside", "blockquote", "button", "center", "details", "dialog", "dir", "div", "dl",
    "fieldset", "figcaption", "figure", "footer", "header", "hgroup", "listing", "main", "menu", "nav", "ol", "pre",
    "section", "summary", "ul"]

def formatTags : List String :=
  ["b", "big", "code", "em", "font", "i", "s", "small", "strike", "strong", "tt", "u"]

/-- Tags of parts of tables and pages that have no meaning in the body. -/
def ignoredInBody : List String :=
  ["caption", "col", "colgroup", "frame", "head", "tbody", "td", "tfoot", "th", "thead", "tr"]

def bodyStart (tag : Tag) : Build Next := do
  let insertPlain : Build Next := do
    reopenFormats
    let _ ← insertTag tag
    return .done
  match tag.name with
  | "html" => lateHtml tag
  | "body" => done do
    match ← body? with
    | some n =>
      unless ← hasOpen "template" do
        noFrames
        modify fun b => { b with nodes := b.nodes.addMissing n (plainAttributes tag.attributes) }
    | none => pure ()
  | "frameset" => done do
    if (← get).framesetOk then
      match ← body? with
      | some n =>
        modify fun b => { b with nodes := b.nodes.detach n, stack := b.stack.drop (b.stack.length - 1) }
        let _ ← insertTag tag
        setMode .inFrameset
      | none => pure ()
  | "pre" | "listing" => done do
    closeParagraphInReach
    let _ ← insertTag tag
    modify ({ · with skipNewline := true, framesetOk := false })
  | "form" => done do
    let inTemplate ← hasOpen "template"
    unless (← get).form.isSome && !inTemplate do
      closeParagraphInReach
      let n ← insertTag tag
      unless inTemplate do modify ({ · with form := some n })
  | "li" | "dd" | "dt" => startItem tag
  | "plaintext" => done do
    closeParagraphInReach
    let _ ← insertTag tag
    modify ({ · with textMode := .plain })
  | "button" => done do
    closeInScope none ["button"]
    reopenFormats
    let _ ← insertTag tag
    noFrames
  | "a" => done do
    closeOpenLink
    reopenFormats
    openFormat tag
  | "nobr" => done do
    reopenFormats
    if ← inScope isScope ["nobr"] then
      adopt "nobr"
      reopenFormats
    openFormat tag
  | "table" => done do
    unless (← get).isOld do closeParagraphInReach
    let _ ← insertTag tag
    noFrames
    setMode .inTable
  | "hr" => done do
    closeParagraphInReach
    let _ ← insertVoid tag
    noFrames
  | "input" => done do
    reopenFormats
    let _ ← insertVoid tag
    unless tag.hasValue "type" "hidden" do noFrames
  | "image" => done do
    reopenFormats
    let _ ← insertVoid { tag with name := "img" }
    noFrames
  | "textarea" => done do
    modify ({ · with skipNewline := true, framesetOk := false })
    openText tag (.decoded "textarea")
  | "xmp" => done do
    closeParagraphInReach
    reopenFormats
    noFrames
    openText tag (.raw "xmp")
  | "iframe" => done do
    noFrames
    openText tag (.raw "iframe")
  | "noembed" | "noscript" => done (openText tag (.raw tag.name))
  | "select" => done do
    reopenFormats
    let _ ← insertTag tag
    noFrames
    let inTable := [Mode.inTable, .inCaption, .inTableBody, .inRow, .inCell].contains (← get).mode
    setMode (if inTable then .inSelectInTable else .inSelect)
  | "math" => done (insertForeign .math "math" tag)
  | "svg" => done (insertForeign .svg "svg" tag)
  | name =>
    if headTags.contains name then inHeadStep (.start tag)
    else if blockTags.contains name then done do
      closeParagraphInReach
      insertTag tag
    else if headings.contains name then done do
      closeParagraphInReach
      if ← currentIs headings then pop
      insertTag tag
    else if formatTags.contains name then done do
      reopenFormats
      openFormat tag
    else if ["applet", "marquee", "object"].contains name then done do
      reopenFormats
      let _ ← insertTag tag
      pushMarker
      noFrames
    else if ["area", "br", "embed", "img", "keygen", "wbr"].contains name then done do
      reopenFormats
      let _ ← insertVoid tag
      noFrames
    else if ["param", "source", "track"].contains name then done (insertVoid tag)
    else if name == "optgroup" || name == "option" then
      if ← currentIs ["option"] then pop
      insertPlain
    else if name == "rb" || name == "rtc" then done do
      if ← inScope isScope ["ruby"] then closeImplied impliedEnds none
      insertTag tag
    else if name == "rp" || name == "rt" then done do
      if ← inScope isScope ["ruby"] then closeImplied impliedEnds (some "rtc")
      insertTag tag
    else if ignoredInBody.contains name then return .done
    else insertPlain

def closeForm : Build Unit := do
  if ← hasOpen "template" then
    closeInScope none ["form"]
  else
    match (← get).form with
    | none => return
    | some n =>
      modify ({ · with form := none })
      if ← findInScope isScope (fun m => return m == n) (← get).stack then
        closeImplied impliedEnds none
        removeFromStack n

def bodyEnd (name : String) : Build Next := do
  match name with
  | "template" => inHeadStep (.finish name)
  | "body" => done do
    if ← inScope isScope ["body"] then setMode .afterBody
  | "html" =>
    if ← inScope isScope ["body"] then againIn .afterBody (.finish name) else return .done
  | "form" => done closeForm
  | "p" => done do
    unless ← inScope isButtonScope ["p"] do
      let _ ← insertImplied "p"
    closeParagraph
  | "li" => done do
    if ← inScope isListScope ["li"] then closeWhole (some "li") ["li"]
  | "br" => bodyStart { name := "br" }
  | _ =>
    if name == "dd" || name == "dt" then done (closeInScope (some name) [name])
    else if blockEnds.contains name then done (closeInScope none [name])
    else if headings.contains name then done (closeInScope none headings)
    else if (["a", "nobr"] ++ formatTags).contains name then done (adopt name)
    else if ["applet", "marquee", "object"].contains name then done do
      if ← inScope isScope [name] then
        closeWhole none [name]
        clearFormats
    else done (closeAny name)

def templateEof : Build Next := do
  if ← hasOpen "template" then
    closeThrough ["template"]
    clearFormats
    modify fun b => { b with templateModes := b.templateModes.drop 1 }
    resetMode
    return .again .eof
  else return .done

def inBodyStep : Build Next := do
  match token with
  | .chars text => bodyText text
  | .comment => done insertComment
  | .start tag => bodyStart tag
  | .finish name => bodyEnd name
  | .eof => if (← get).templateModes.isEmpty then return .done else templateEof
  | _ => return .done

/-! ## Text -/

def textStep : Build Next := do
  match token with
  | .chars text => done (insertText text)
  | .finish _ => done do
    pop
    modify fun b => { b with mode := b.outerMode, textMode := .markup }
  | .eof =>
    pop
    modify fun b => { b with mode := b.outerMode, textMode := .markup }
    return .again .eof
  | _ => return .done

/-! ## Tables -/

/-- Processes a token as in the body, but puts what it inserts before the table. -/
def fosterStep : Build Next := do
  modify ({ · with fostering := true })
  let next ← inBodyStep token
  modify ({ · with fostering := false })
  return next

def tableChars : Build Next := do
  if ← currentIs tableParts then
    modify fun b => { b with outerMode := b.mode }
    againIn .inTableText token
  else fosterStep token

def inTableStep : Build Next := do
  let context := ["html", "table", "template"]
  match token with
  | .chars _ | .zero => tableChars token
  | .comment => done insertComment
  | .start tag =>
    match tag.name with
    | "caption" => done do
      closeTo context
      pushMarker
      let _ ← insertTag tag
      setMode .inCaption
    | "colgroup" => done do
      closeTo context
      let _ ← insertTag tag
      setMode .inColumnGroup
    | "col" =>
      closeTo context
      let _ ← insertImplied "colgroup"
      againIn .inColumnGroup token
    | "table" =>
      if ← inScope isTableScope ["table"] then againOutside "table" token else return .done
    | "input" =>
      if tag.hasValue "type" "hidden" then done (insertVoid tag)
      else fosterStep token
    | "form" => done do
      unless (← hasOpen "template") || (← get).form.isSome do
        let n ← insertVoid tag
        modify ({ · with form := some n })
    | name =>
      if ["tbody", "tfoot", "thead"].contains name then done do
        closeTo context
        let _ ← insertTag tag
        setMode .inTableBody
      else if ["td", "th", "tr"].contains name then
        closeTo context
        let _ ← insertImplied "tbody"
        againIn .inTableBody token
      else if ["style", "script", "template"].contains name then inHeadStep token
      else fosterStep token
  | .finish name =>
    if name == "table" then done do
      if ← inScope isTableScope ["table"] then leave "table"
    else if ["body", "caption", "col", "colgroup", "html", "tbody", "td", "tfoot", "th", "thead", "tr"].contains name then
      return .done
    else if name == "template" then inHeadStep token
    else fosterStep token
  | .eof => inBodyStep token
  | .doctype _ => return .done

def inTableTextStep : Build Next := do
  match token with
  | .zero => return .done
  | .chars text => done (modify fun b => { b with tableText := b.tableText ++ [text] })
  | _ =>
    let pending := (← get).tableText
    modify ({ · with tableText := [] })
    for text in pending do
      if pending.all isBlankText then insertText text
      else
        let _ ← fosterStep (.chars text)
    againIn (← get).outerMode token

def inCaptionStep : Build Next := do
  let close : Build Bool := do
    if ← inScope isTableScope ["caption"] then
      closeWhole none ["caption"]
      clearFormats
      return true
    else return false
  match token with
  | .start tag =>
    if ["caption", "col", "colgroup", "tbody", "td", "tfoot", "th", "thead", "tr"].contains tag.name then
      if ← close then againIn .inTable token else return .done
    else inBodyStep token
  | .finish name =>
    if name == "caption" then done do
      if ← close then setMode .inTable
    else if name == "table" then
      if ← close then againIn .inTable token else return .done
    else if ["body", "col", "colgroup", "html", "tbody", "td", "tfoot", "th", "thead", "tr"].contains name then
      return .done
    else inBodyStep token
  | _ => inBodyStep token

def inColumnGroupStep : Build Next := do
  let leave : Build Next := do
    if ← currentIs ["colgroup"] then
      pop
      againIn .inTable token
    else return .done
  match token with
  | .chars text => keepBlank text leave
  | .comment => done insertComment
  | .start tag =>
    match tag.name with
    | "html" => lateHtml tag
    | "col" => done (insertVoid tag)
    | "template" => inHeadStep token
    | _ => leave
  | .finish name =>
    match name with
    | "colgroup" => done do
      if ← currentIs ["colgroup"] then
        pop
        setMode .inTable
    | "col" => return .done
    | "template" => inHeadStep token
    | _ => leave
  | .eof => inBodyStep token
  | _ => leave

def inTableBodyStep : Build Next := do
  let context := ["tbody", "tfoot", "thead", "template", "html"]
  let leave : Build Next := do
    if ← inScope isTableScope ["table", "tbody", "tfoot"] then
      closeTo context
      pop
      againIn .inTable token
    else return .done
  match token with
  | .start tag =>
    match tag.name with
    | "tr" => done do
      closeTo context
      let _ ← insertTag tag
      setMode .inRow
    | name =>
      if name == "th" || name == "td" then
        closeTo context
        let _ ← insertImplied "tr"
        againIn .inRow token
      else if ["caption", "col", "colgroup", "tbody", "tfoot", "thead"].contains name then leave
      else inTableStep token
  | .finish name =>
    if ["tbody", "tfoot", "thead"].contains name then done do
      if ← inScope isTableScope [name] then
        closeTo context
        pop
        setMode .inTable
    else if name == "table" then leave
    else if ["body", "caption", "col", "colgroup", "html", "td", "th", "tr"].contains name then return .done
    else inTableStep token
  | _ => inTableStep token

def inRowStep : Build Next := do
  let context := ["tr", "template", "html"]
  let leave : Build Bool := do
    if ← inScope isTableScope ["tr"] then
      closeTo context
      pop
      return true
    else return false
  match token with
  | .start tag =>
    if tag.name == "th" || tag.name == "td" then done do
      closeTo context
      let _ ← insertTag tag
      pushMarker
      setMode .inCell
    else if ["caption", "col", "colgroup", "tbody", "tfoot", "thead", "tr"].contains tag.name then
      if ← leave then againIn .inTableBody token else return .done
    else inTableStep token
  | .finish name =>
    if name == "tr" then done do
      if ← leave then setMode .inTableBody
    else if name == "table" then
      if ← leave then againIn .inTableBody token else return .done
    else if ["tbody", "tfoot", "thead"].contains name then
      if ← inScope isTableScope [name] then
        if ← leave then againIn .inTableBody token else return .done
      else return .done
    else if ["body", "caption", "col", "colgroup", "html", "td", "th"].contains name then return .done
    else inTableStep token
  | _ => inTableStep token

def inCellStep : Build Next := do
  match token with
  | .start tag =>
    if ["caption", "col", "colgroup", "tbody", "td", "tfoot", "th", "thead", "tr"].contains tag.name then
      if ← inScope isTableScope ["td", "th"] then
        closeCell
        againIn .inRow token
      else return .done
    else inBodyStep token
  | .finish name =>
    if name == "td" || name == "th" then done do
      if ← inScope isTableScope [name] then
        closeWhole none [name]
        clearFormats
        setMode .inRow
    else if ["body", "caption", "col", "colgroup", "html"].contains name then return .done
    else if ["table", "tbody", "tfoot", "thead", "tr"].contains name then
      if ← inScope isTableScope [name] then
        closeCell
        againIn .inRow token
      else return .done
    else inBodyStep token
  | _ => inBodyStep token

/-! ## Selections -/

def inSelectStep : Build Next := do
  match token with
  | .chars text => done (insertText text)
  | .comment => done insertComment
  | .start tag =>
    match tag.name with
    | "html" => lateHtml tag
    | "option" => done do
      if ← currentIs ["option"] then pop
      insertTag tag
    | "optgroup" => done do
      if ← currentIs ["option"] then pop
      if ← currentIs ["optgroup"] then pop
      insertTag tag
    | "select" => done do
      if ← inScope isSelectScope ["select"] then leave "select"
    | name =>
      if ["input", "keygen", "textarea"].contains name then
        if ← inScope isSelectScope ["select"] then againOutside "select" token else return .done
      else if name == "script" || name == "template" then inHeadStep token
      else return .done
  | .finish name =>
    match name with
    | "optgroup" => done do
      match (← get).stack with
      | _ :: second :: _ =>
        if (← currentIs ["option"]) && (← isOneOf ["optgroup"] second) then pop
      | _ => pure ()
      if ← currentIs ["optgroup"] then pop
    | "option" => done do
      if ← currentIs ["option"] then pop
    | "select" => done do
      if ← inScope isSelectScope ["select"] then leave "select"
    | "template" => inHeadStep token
    | _ => return .done
  | .eof => inBodyStep token
  | _ => return .done

def inSelectInTableStep : Build Next := do
  let parts := ["caption", "table", "tbody", "tfoot", "thead", "tr", "td", "th"]
  match token with
  | .start tag =>
    if parts.contains tag.name then againOutside "select" token else inSelectStep token
  | .finish name =>
    if parts.contains name then
      if ← inScope isTableScope [name] then againOutside "select" token else return .done
    else inSelectStep token
  | _ => inSelectStep token

/-! ## Templates and the end -/

def inTemplateStep : Build Next := do
  let asIn (mode : Mode) : Build Next := do
    modify fun b => { b with templateModes := mode :: b.templateModes.drop 1 }
    againIn mode token
  match token with
  | .chars _ | .comment => inBodyStep token
  | .start tag =>
    if headTags.contains tag.name then inHeadStep token
    else if ["caption", "colgroup", "tbody", "tfoot", "thead"].contains tag.name then asIn .inTable
    else if tag.name == "col" then asIn .inColumnGroup
    else if tag.name == "tr" then asIn .inTableBody
    else if tag.name == "td" || tag.name == "th" then asIn .inRow
    else asIn .inBody
  | .finish name => if name == "template" then inHeadStep token else return .done
  | .eof => templateEof
  | _ => return .done

def afterBodyStep : Build Next := do
  match token with
  | .chars text => if isBlankText text then inBodyStep token else againIn .inBody token
  | .comment => done (appendComment ((← get).stack.getLast?.getD 0))
  | .start tag => if tag.name == "html" then lateHtml tag else againIn .inBody token
  | .finish name =>
    if name == "html" then done (setMode .afterAfterBody)
    else againIn .inBody token
  | .eof => return .done
  | _ => againIn .inBody token

def inFramesetStep : Build Next := do
  match token with
  | .chars text => done do
    if isBlankText text then insertText text
  | .comment => done insertComment
  | .start tag =>
    match tag.name with
    | "html" => lateHtml tag
    | "frameset" => done (insertTag tag)
    | "frame" => done (insertVoid tag)
    | "noframes" => inHeadStep token
    | _ => return .done
  | .finish name => done do
    if name == "frameset" && (← get).stack.length != 1 then
      pop
      unless ← currentIs ["frameset"] do setMode .afterFrameset
  | _ => return .done

def afterFramesetStep : Build Next := do
  match token with
  | .chars text => done do
    if isBlankText text then insertText text
  | .comment => done insertComment
  | .start tag =>
    if tag.name == "html" then lateHtml tag
    else if tag.name == "noframes" then inHeadStep token
    else return .done
  | .finish name => done do
    if name == "html" then setMode .afterAfterFrameset
  | _ => return .done

def afterAfterBodyStep : Build Next := do
  match token with
  | .chars text => if isBlankText text then inBodyStep token else againIn .inBody token
  | .comment => done (appendComment 0)
  | .start tag => if tag.name == "html" then lateHtml tag else againIn .inBody token
  | .eof => return .done
  | _ => againIn .inBody token

def afterAfterFramesetStep : Build Next := do
  match token with
  | .chars text => if isBlankText text then inBodyStep token else return .done
  | .comment => done (appendComment 0)
  | .start tag =>
    if tag.name == "html" then lateHtml tag
    else if tag.name == "noframes" then inHeadStep token
    else return .done
  | _ => return .done

def modeStep : Build Next := do
  match (← get).mode with
  | .initial => initialStep token
  | .beforeHtml => beforeHtmlStep token
  | .beforeHead => beforeHeadStep token
  | .inHead => inHeadStep token
  | .afterHead => afterHeadStep token
  | .inBody => inBodyStep token
  | .text => textStep token
  | .inTable => inTableStep token
  | .inTableText => inTableTextStep token
  | .inCaption => inCaptionStep token
  | .inColumnGroup => inColumnGroupStep token
  | .inTableBody => inTableBodyStep token
  | .inRow => inRowStep token
  | .inCell => inCellStep token
  | .inSelect => inSelectStep token
  | .inSelectInTable => inSelectInTableStep token
  | .inTemplate => inTemplateStep token
  | .afterBody => afterBodyStep token
  | .inFrameset => inFramesetStep token
  | .afterFrameset => afterFramesetStep token
  | .afterAfterBody => afterAfterBodyStep token
  | .afterAfterFrameset => afterAfterFramesetStep token

/-- One step, by the rules of foreign vocabularies or of the current mode. -/
def step : Build Next := do
  if ← isForeign token then
    if ← foreignStep token then modeStep token else return .done
  else modeStep token

/-- Processes a token until it needs no further step, at most `fuel` times. -/
def process (fuel : Nat) (token : Token) : Build Unit :=
  match fuel with
  | 0 => return
  | fuel + 1 => do
    match ← step token with
    | .done => return
    | .again token => process fuel token

end PageCompiler.Document
