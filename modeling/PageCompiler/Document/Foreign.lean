import PageCompiler.Document.Adoption

/-!
# Foreign vocabularies

Drawings and formulas in a document have elements of their own. Their names are spelled with capitals, which
tags do not keep, and some of their attributes are qualified.
-/

namespace PageCompiler.Document

def svgNames : List String :=
  ["altGlyph", "altGlyphDef", "altGlyphItem", "animateColor", "animateMotion", "animateTransform", "clipPath",
    "feBlend", "feColorMatrix", "feComponentTransfer", "feComposite", "feConvolveMatrix", "feDiffuseLighting",
    "feDisplacementMap", "feDistantLight", "feDropShadow", "feFlood", "feFuncA", "feFuncB", "feFuncG", "feFuncR",
    "feGaussianBlur", "feImage", "feMerge", "feMergeNode", "feMorphology", "feOffset", "fePointLight",
    "feSpecularLighting", "feSpotLight", "feTile", "feTurbulence", "foreignObject", "glyphRef", "linearGradient",
    "radialGradient", "textPath"]

def svgAttributes : List String :=
  ["attributeName", "attributeType", "baseFrequency", "baseProfile", "calcMode", "clipPathUnits",
    "diffuseConstant", "edgeMode", "filterUnits", "glyphRef", "gradientTransform", "gradientUnits", "kernelMatrix",
    "kernelUnitLength", "keyPoints", "keySplines", "keyTimes", "lengthAdjust", "limitingConeAngle",
    "markerHeight", "markerUnits", "markerWidth", "maskContentUnits", "maskUnits", "numOctaves", "pathLength",
    "patternContentUnits", "patternTransform", "patternUnits", "pointsAtX", "pointsAtY", "pointsAtZ",
    "preserveAlpha", "preserveAspectRatio", "primitiveUnits", "refX", "refY", "repeatCount", "repeatDur",
    "requiredExtensions", "requiredFeatures", "specularConstant", "specularExponent", "spreadMethod",
    "startOffset", "stdDeviation", "stitchTiles", "surfaceScale", "systemLanguage", "tableValues", "targetX",
    "targetY", "textLength", "viewBox", "viewTarget", "xChannelSelector", "yChannelSelector", "zoomAndPan"]

def spelled (names : List String) (name : String) : String :=
  (names.find? fun n => lowerAscii n == name).getD name

/-- Attributes that are qualified in foreign vocabularies, with the qualifier and the rest of the name. -/
def qualifiedAttributes : List (String × String × String) :=
  [("xlink:actuate", "xlink", "actuate"), ("xlink:arcrole", "xlink", "arcrole"), ("xlink:href", "xlink", "href"),
    ("xlink:role", "xlink", "role"), ("xlink:show", "xlink", "show"), ("xlink:title", "xlink", "title"),
    ("xlink:type", "xlink", "type"), ("xml:base", "xml", "base"), ("xml:lang", "xml", "lang"),
    ("xml:space", "xml", "space"), ("xmlns", "", "xmlns"), ("xmlns:xlink", "xmlns", "xlink")]

def foreignAttributes (space : Space) (attributes : List RawAttribute) : List Attribute :=
  attributes.map fun a =>
    let name := match space with
      | .svg => spelled svgAttributes a.name
      | .math => if a.name == "definitionurl" then "definitionURL" else a.name
      | .html => a.name
    match qualifiedAttributes.lookup name with
    | some (qualifier, local_) => { qualifier := some qualifier, name := local_, value := a.value }
    | none => { name, value := a.value }

def insertForeign (space : Space) (name : String) (tag : Tag) : Build Unit := do
  let _ ← insertElement space name (foreignAttributes space tag.attributes)
  if tag.selfClosing then pop

def isMathText (space : Space) (name : String) : Bool :=
  space == .math && ["mi", "mo", "mn", "ms", "mtext"].contains name

def isSvgMarkup (space : Space) (name : String) : Bool :=
  space == .svg && ["foreignObject", "desc", "title"].contains name

def isMarkupAnnotation (n : Nat) : Build Bool := do
  match (← get).nodes[n]? with
  | some { kind := .element .math "annotation-xml" attributes _, .. } =>
    return attributes.any fun a => a.name == "encoding" &&
      ["text/html", "application/xhtml+xml"].contains (lowerAscii a.value)
  | _ => return false

def isForeign (token : Token) : Build Bool := do
  match token, (← get).stack with
  | .eof, _ => return false
  | _, [] => return false
  | _, n :: _ =>
    let (space, name) ← nameOf n
    if space == .html then return false
    let isText := match token with
      | .chars _ => true
      | .zero => true
      | _ => false
    let started := match token with
      | .start tag => some tag.name
      | _ => none
    if isMathText space name then
      if isText then return false
      match started with
      | some tag => if tag != "mglyph" && tag != "malignmark" then return false
      | none => pure ()
    if isSvgMarkup space name && (isText || started.isSome) then return false
    if space == .math && name == "annotation-xml" then
      if started == some "svg" then return false
      if isText || started.isSome then return !(← isMarkupAnnotation n)
    return true

/-- Tags of ordinary markup that end a foreign element. -/
def breakoutTags : List String :=
  ["b", "big", "blockquote", "body", "br", "center", "code", "dd", "div", "dl", "dt", "em", "embed", "h1", "h2", "h3",
    "h4", "h5", "h6", "head", "hr", "i", "img", "li", "listing", "menu", "meta", "nobr", "ol", "p", "pre", "ruby", "s",
    "small", "span", "strong", "strike", "sub", "sup", "table", "tt", "u", "ul", "var"]

/-- Closes the foreign elements up to one whose content is ordinary markup. -/
def leaveForeign : List Nat → Build Unit
  | [] => return
  | n :: rest => do
    let (space, name) ← nameOf n
    if space == .html || isMathText space name || isSvgMarkup space name then return
    modify ({ · with stack := rest })
    leaveForeign rest

/-- Closes a foreign element by its end tag; the result says whether the tag is for the rules of ordinary
markup. -/
def closeForeign (name : String) (first : Bool) : List Nat → Build Bool
  | [] => return false
  | [_] => return false
  | n :: rest => do
    let (space, own) ← nameOf n
    if !first && space == .html then return true
    if lowerAscii own == lowerAscii name then
      modify ({ · with stack := rest })
      return false
    closeForeign name false rest

/-- The step for a token inside a foreign element; the result says whether the token is for the rules of
ordinary markup. -/
def foreignStep (token : Token) : Build Bool := do
  match token with
  | .zero =>
    insertText [replacement]
    return false
  | .chars text =>
    if text.any fun c => !(isDivider c || c == '\r') then modify ({ · with framesetOk := false })
    insertText text
    return false
  | .comment =>
    insertComment
    return false
  | .start tag =>
    let isFont := tag.name == "font" &&
      tag.attributes.any fun a => a.name == "color" || a.name == "face" || a.name == "size"
    if breakoutTags.contains tag.name || isFont then
      leaveForeign (← get).stack
      return true
    let (space, _) ← nameOf (← currentNode)
    let name := if space == .svg then spelled svgNames tag.name else tag.name
    insertForeign space name tag
    return false
  | .finish name =>
    if name == "br" || name == "p" then
      leaveForeign (← get).stack
      return true
    closeForeign name true (← get).stack
  | _ => return false

end PageCompiler.Document
