import PageCompiler.Page

/-!
# Output of markup

A template is written as HTML. An expression leaves a marker with its id, by which the page later finds the
place of its value; each marker is listed as a binding.
-/

namespace PageCompiler.Emit

open Template (Node Attribute Expression LoopScope Place)

/-- What a binding shows. -/
inductive BindingKind where
  | text
  | attr
  | choice
  | optional
  | loop
deriving DecidableEq, Repr

/-- A marker in the output. -/
structure Binding where
  id : String
  kind : BindingKind
  target : String
  place : Place
deriving DecidableEq, Repr

def escapeChar : Char → List Char
  | '&' => "&amp;".toList
  | '<' => "&lt;".toList
  | '>' => "&gt;".toList
  | '"' => "&quot;".toList
  | '\'' => "&#39;".toList
  | c => [c]

def escape (text : String) : String :=
  String.ofList (text.toList.flatMap escapeChar)

/-- A piece of output and the markers in it. -/
structure Html where
  text : String := ""
  bindings : List Binding := []
deriving DecidableEq, Repr

def Html.append (a b : Html) : Html :=
  ⟨a.text ++ b.text, a.bindings ++ b.bindings⟩

instance : Append Html := ⟨Html.append⟩

def Html.ofString (text : String) : Html :=
  { text }

instance : Coe String Html := ⟨Html.ofString⟩

/-- What the output of a template needs to know. -/
structure Writer where
  file : String
  expressions : List Expression

namespace Writer

def marker (w : Writer) (id : String) (kind : BindingKind) (target : String) (scope : Option LoopScope) :
    Compiled Html :=
  match w.expressions.reverse.find? (·.id == id) with
  | none => throw { fault := .danglingMarker id, file := w.file }
  | some e =>
    return {
      text := target ++ "=\"" ++ id ++ "\""
      bindings := [{ id, kind, target, place := ⟨e.place.position, scope <|> e.place.scope⟩ }] }

def attr (w : Writer) (a : Attribute) : Compiled Html :=
  match a.value with
  | .fixed text => return (a.name ++ "=\"" ++ escape text ++ "\"" : String)
  | .handler name => return (a.name ++ "=\"" ++ escape name ++ "\"" : String)
  | .expression id => w.marker id .attr ("data-zen-attr-" ++ a.name) a.place.scope

def attributes (w : Writer) : List Attribute → Compiled Html
  | [] => return {}
  | a :: rest => do
    let here ← w.attr a
    return Html.ofString " " ++ here ++ (← attributes w rest)

def key (w : Writer) : Option String → Compiled Html
  | none => return {}
  | some id => return Html.ofString " " ++ (← w.marker id .attr "data-zen-key" none)

def contentsStyle : String :=
  " style=\"display: contents;\">"

mutual

def node (w : Writer) : Node → Compiled Html
  | .text value _ => return (escape value : String)
  | .doctype name _ => return ("<!DOCTYPE " ++ name ++ ">" : String)
  | .expression id place => do
    let marker ← w.marker id .text "data-zen-text" place.scope
    return Html.ofString "<span " ++ marker ++ Html.ofString (contentsStyle ++ "</span>")
  | .element tag attributes children _ => do
    let opening := Html.ofString ("<" ++ tag) ++ (← w.attributes attributes)
    if Template.isVoid tag && children.isEmpty then return opening ++ Html.ofString " />"
    let inside ← w.nodes children
    return opening ++ Html.ofString ">" ++ inside ++ Html.ofString ("</" ++ tag ++ ">")
  | .choice condition yes no place => do
    let marker ← w.marker condition .choice "data-zen-conditional" place.scope
    let yesHtml ← w.nodes yes
    let noHtml ← w.nodes no
    return Html.ofString "<div " ++ marker ++
      Html.ofString (contentsStyle ++ "<div data-zen-branch=\"true\"" ++ contentsStyle) ++ yesHtml ++
      Html.ofString ("</div><div data-zen-branch=\"false\"" ++ contentsStyle) ++ noHtml ++
      Html.ofString "</div></div>"
  | .optional condition content place => do
    let marker ← w.marker condition .optional "data-zen-optional" place.scope
    let inside ← w.nodes content
    return Html.ofString "<div " ++ marker ++ Html.ofString contentsStyle ++ inside ++ Html.ofString "</div>"
  | .loop source item index key body place => do
    let marker ← w.marker source .loop "data-zen-loop" place.scope
    let indexText := match index with
      | some i => " data-zen-index=\"" ++ i ++ "\""
      | none => ""
    let keyHtml ← w.key key
    let inside ← w.nodes body
    return Html.ofString "<template " ++ marker ++ Html.ofString (" data-zen-item=\"" ++ item ++ "\"" ++ indexText) ++
      keyHtml ++ Html.ofString ">" ++ inside ++ Html.ofString "</template>"
  | .component name _ _ place =>
    throw { fault := .emittedComponent name, file := w.file, position := place.position }
  | .slot _ _ place => throw { fault := .emittedSlot, file := w.file, position := place.position }

def nodes (w : Writer) : List Node → Compiled Html
  | [] => return {}
  | n :: ns => do
    let here ← w.node n
    return here ++ (← w.nodes ns)

end

end Writer

def html (file : String) (nodes : List Node) (expressions : List Expression) : Compiled Html :=
  Writer.nodes { file, expressions } nodes

end PageCompiler.Emit
