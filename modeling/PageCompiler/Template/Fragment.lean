import PageCompiler.Code.Markup
import PageCompiler.Template.Registry

/-!
# Markup inside expressions

An expression whose value is markup becomes nodes of the template: an element is an element, a choice
between pieces of markup is a choice, `condition && markup` is optional markup, and `list.map(item => markup)`
is a loop. The expressions that remain in these nodes are registered by themselves. Any other expression
stays an expression.
-/

namespace PageCompiler.Template

open Code (Tree)

/-- The code of an expression and the position of its first character. -/
structure Snippet where
  code : List Char
  start : Position

namespace Snippet

def textOf (c : Snippet) (span : Span) : List Char :=
  Text.slice span.start span.stop c.code

def positionOf (c : Snippet) (span : Span) : Position :=
  c.start.advance (Text.takeBytes span.start c.code)

def hasMarkup (c : Snippet) (t : Tree) : Bool :=
  Code.hasMarkup (c.textOf t.span)

def register (c : Snippet) (scope : Option LoopScope) (span : Span) : Reading String :=
  Template.register (String.ofList (c.textOf span)) ⟨c.positionOf span, scope⟩

def expressionNode (c : Snippet) (scope : Option LoopScope) (span : Span) : Reading Node := do
  let id ← c.register scope span
  return .expression id ⟨c.positionOf span, scope⟩

end Snippet

/-! ## Shapes -/

def rendersNothing (t : Tree) : Bool :=
  match t.unwrap.kind with
  | .null => true
  | .bool value => !value
  | .string value => value.isEmpty
  | .name text => text == "undefined"
  | _ => false

/-- A loop as it is written: what it goes through, its variables, and its markup. -/
structure LoopShape where
  source : Span
  vars : List String
  body : Tree

def plainParams? (c : Snippet) (params : Tree) : Option (List String) := do
  guard (!params.parts.any (·.kind == .rest))
  let items := params.parts.filter (·.kind == .param)
  guard (0 < items.length && items.length ≤ 2)
  items.mapM fun p => do
    let name := String.ofList (Text.trim ((c.textOf p.span).takeWhile (· ≠ ':')))
    guard (Code.isPlainName name)
    return name

def returned? (body : Tree) : Option Tree :=
  match body.parts.filter (·.kind != .directive) with
  | [.node .returnStatement _ [value]] => some value
  | _ => none

def resultOf? (f : Tree) : Option Tree :=
  match f.kind, f.parts.getLast? with
  | .arrow true, some value => some value
  | .arrow false, some (.node .body span parts) => returned? (.node .body span parts)
  | .function _, some (.node .body span parts) => returned? (.node .body span parts)
  | _, _ => none

def loopShape? (c : Snippet) (call : Tree) : Option LoopShape := do
  let .node .call _ (callee :: rest) := call | none
  let .node (.member "map") _ (object :: _) := callee.unwrap | none
  let list ← rest.find? (·.kind == .arguments)
  let callback := (← list.parts.head?).unwrap
  let vars ← plainParams? c (← callback.part? (· == .params))
  let body ← resultOf? callback
  guard (c.hasMarkup body)
  return { source := object.span, vars, body }

/-- The value of an attribute in code; an empty expression is none. -/
def writtenValue? (c : Snippet) : List Tree → Option Written
  | [] => some (.fixed "")
  | .node (.string value) _ _ :: _ => some (.fixed value)
  | .node .container _ [e] :: _ => some (.code (String.ofList (c.textOf e.span)))
  | .node .container _ _ :: _ => none
  | markup :: _ => some (.code (String.ofList (c.textOf markup.span)))

def attributesIn (c : Snippet) (scope : Option LoopScope) (isComponent : Bool) :
    List Tree → Reading (List Attribute)
  | [] => return []
  | .node (.attr name) span value :: ts => do
    match writtenValue? c value with
    | none => attributesIn c scope isComponent ts
    | some written =>
      let here ← attributeOf name written isComponent ⟨c.positionOf span, scope⟩
      return here :: (← attributesIn c scope isComponent ts)
  | _ :: ts => attributesIn c scope isComponent ts

def slotName? : List Tree → Option String
  | [] => none
  | .node (.attr "name") _ [.node (.string value) _ _] :: _ => some value
  | _ :: ts => slotName? ts

/-- The text of a child in code: around line ends blanks do not count. -/
def childText (value : String) : String :=
  let value := if value.toList.contains '\n' then trimString value else value
  if value.isEmpty then "" else if blankString value then " " else value

/-- The id of the first attribute `key`, and the attributes without it. A key that is fixed text is registered. -/
def keyOf? (scope : Option LoopScope) (attributes : List Attribute) : Reading (Option (String × List Attribute)) := do
  let before := attributes.takeWhile (·.name ≠ "key")
  match attributes.dropWhile (·.name ≠ "key") with
  | [] => return none
  | key :: after =>
    let id ← match key.value with
      | .expression id => pure id
      | .fixed text => register (quote text) ⟨key.place.position, scope⟩
      | .handler name => register (quote name) ⟨key.place.position, scope⟩
    return some (id, before ++ after)

def takeKey (scope : Option LoopScope) (body : List Node) : Reading (Option String × List Node) := do
  match body with
  | [.element tag attributes children place] =>
    match ← keyOf? scope attributes with
    | some (id, attributes) => return (some id, [.element tag attributes children place])
    | none => return (none, body)
  | [.component name attributes children place] =>
    match ← keyOf? scope attributes with
    | some (id, attributes) => return (some id, [.component name attributes children place])
    | none => return (none, body)
  | _ => return (none, body)

/-! ## Nodes -/

def childrenOf (parts : List Tree) : List Tree :=
  ((parts.find? (·.kind == .children)).map (·.parts)).getD []

mutual

/-- The nodes of an expression with the shape of markup; there are at most `depth` levels of it. -/
def lower (depth : Nat) (c : Snippet) (scope : Option LoopScope) (t : Tree) :
    Reading (Option (List Node)) :=
  match depth with
  | 0 => return none
  | depth + 1 => do
    let t := t.unwrap
    let place : Place := ⟨c.positionOf t.span, scope⟩
    match t with
    | .node (.element tag) span parts => return some [← elementNode depth c scope tag span parts]
    | .node .fragment _ parts => return some (← childNodes depth c scope (childrenOf parts))
    | .node .conditional _ [test, yes, no] =>
      if c.hasMarkup yes || c.hasMarkup no then
        let condition ← c.register scope test.span
        let yesNodes ← branch depth c scope yes
        let noNodes ← branch depth c scope no
        return some [.choice condition yesNodes noNodes place]
      else return none
    | .node (.logical "&&") _ [left, right] =>
      if c.hasMarkup right then
        let condition ← c.register scope left.span
        return some [.optional condition (← branch depth c scope right) place]
      else return none
    | call =>
      match loopShape? c call with
      | none => return none
      | some shape =>
        let source ← c.register scope shape.source
        let inner := LoopScope.nest scope (some { vars := shape.vars, source := some source })
        let body ← branch depth c inner shape.body
        let (key, body) ← takeKey inner body
        return some [.loop source (shape.vars.headD "") shape.vars[1]? key body
          ⟨place.position, inner⟩]

def branch (depth : Nat) (c : Snippet) (scope : Option LoopScope) (t : Tree) : Reading (List Node) :=
  match depth with
  | 0 => return []
  | depth + 1 => do
    match ← lower depth c scope t with
    | some nodes => return nodes
    | none => if rendersNothing t then return [] else return [← c.expressionNode scope t.span]

def elementNode (depth : Nat) (c : Snippet) (scope : Option LoopScope) (tag : String) (span : Span)
    (parts : List Tree) : Reading Node :=
  match depth with
  | 0 => return .text "" {}
  | depth + 1 => do
    let place : Place := ⟨c.positionOf span, scope⟩
    let children ← childNodes depth c scope (childrenOf parts)
    let listed := ((parts.find? (·.kind == .attributes)).map (·.parts)).getD []
    if lowerAscii tag == "slot" then return .slot (slotName? listed) children place
    let isComponent := isComponentName tag
    let attributes ← attributesIn c scope isComponent listed
    return if isComponent then .component tag attributes children place
      else .element tag attributes children place

def childNodes (depth : Nat) (c : Snippet) (scope : Option LoopScope) (ts : List Tree) :
    Reading (List Node) :=
  match depth with
  | 0 => return []
  | depth + 1 => do
    let nodes ← ts.mapM fun t => do
      match t with
      | .node (.rawText value) span _ =>
        let text := childText value
        return if text.isEmpty then [] else [Node.text text ⟨c.positionOf span, scope⟩]
      | .node (.element tag) span parts => return [← elementNode depth c scope tag span parts]
      | .node .fragment _ parts => childNodes depth c scope (childrenOf parts)
      | .node .container _ [e] =>
        match ← lower depth c scope e with
        | some nodes => return nodes
        | none => return [← c.expressionNode scope e.span]
      | .node .spreadChild _ [e] => return [← c.expressionNode scope e.span]
      | _ => return []
    return nodes.flatten

end

def fragmentOf (id : String) (place : Place) : Reading (List Node) := do
  let stays := [Node.expression id place]
  match (← get).expression? id with
  | none => return stays
  | some e =>
    let code := e.code.toList
    if !Code.hasMarkup code then return stays
    match Code.parseExpression code with
    | .error _ => return stays
    | .ok tree =>
      match ← lower (4 * code.length + 8) ⟨code, e.place.position⟩ place.scope tree with
      | none => return stays
      | some nodes =>
        modify (·.discard id)
        return nodes

mutual

/-- The nodes that a node becomes when its expressions become markup. -/
def fragments : Node → Reading (List Node)
  | .expression id place => fragmentOf id place
  | .element tag attributes children place => do
    return [.element tag attributes (← fragmentsOf children) place]
  | .component name attributes children place => do
    return [.component name attributes (← fragmentsOf children) place]
  | .slot name fallback place => do
    return [.slot name (← fragmentsOf fallback) place]
  | node => return [node]

/-- The nodes that nodes become when their expressions become markup. -/
def fragmentsOf : List Node → Reading (List Node)
  | [] => return []
  | n :: ns => do
    let here ← fragments n
    return here ++ (← fragmentsOf ns)

end

end PageCompiler.Template
