import PageCompiler.Ordered
import PageCompiler.Template.Node
import PageCompiler.Text.Bytes
import PageCompiler.Text.Case

/-!
# Slots

What stands inside the use of a component goes into the slots of the component. A child with an attribute `slot`
goes into the slot of that name, the children of `Card.Header` inside a `Card` go into the slot `header`, and
everything else goes into the default slot. A slot that gets nothing shows its fallback.
-/

namespace PageCompiler.Component

open Template (Node Attribute Value)

/-- What is passed to the slots of a component. -/
structure SlotContent where
  unnamed : List Node := []
  named : Ordered (List Node) := []

/-- The slot that a child names by a compound name such as `Card.Header`. -/
def compoundSlot? (child parent : String) : Option String := do
  let chars := child.toList
  let size := parent.utf8ByteSize
  guard (Text.isBoundary size chars)
  guard (lowerAscii (String.ofList (Text.takeBytes size chars)) == lowerAscii parent)
  match Text.dropBytes size chars with
  | '.' :: c :: rest => return String.ofList (Text.lower (c :: rest))
  | _ => none

def takeSlot : List Attribute → Option String × List Attribute
  | [] => (none, [])
  | a :: rest =>
    match a.name == "slot", a.value with
    | true, .fixed name => (some (lowerString name), rest)
    | _, _ =>
      let (slot, rest) := takeSlot rest
      (slot, a :: rest)

/-- The content with nodes added to a slot; `default` names the default slot. -/
def SlotContent.add (content : SlotContent) (slot : Option String) (nodes : List Node) : SlotContent :=
  match slot.filter (· != "default") with
  | some name => { content with named := content.named.insert name ((content.named.get? name).getD [] ++ nodes) }
  | none => { content with unnamed := content.unnamed ++ nodes }

def SlotContent.addChild (usage : String) (content : SlotContent) : Node → SlotContent
  | .component name attributes children place =>
    match compoundSlot? name usage with
    | some slot =>
      { content with named := content.named.insert slot ((content.named.get? slot).getD [] ++ children) }
    | none =>
      let (slot, attributes) := takeSlot attributes
      content.add slot [.component name attributes children place]
  | .element tag attributes children place =>
    let (slot, attributes) := takeSlot attributes
    content.add slot [.element tag attributes children place]
  | node => content.add none [node]

def slotContent (usage : String) (children : List Node) : SlotContent :=
  children.foldl (SlotContent.addChild usage) {}

namespace SlotContent

def hasUnnamed (content : SlotContent) : Bool :=
  content.unnamed.any (!·.isBlank)

/-- The name of a slot in lower case; the default slot has none. -/
def slotKey (name : Option String) : Option String :=
  (name.map lowerString).filter (· != "default")

/-- What goes into a slot, if anything is passed to it. -/
def forSlot? (content : SlotContent) (name : Option String) : Option (List Node) :=
  match slotKey name with
  | some key => content.named.get? key
  | none => if content.hasUnnamed then some content.unnamed else none

mutual

def fill (content : SlotContent) : Node → List Node
  | .slot name fallback _ =>
    match content.forSlot? name with
    | some nodes => nodes
    | none => content.fillAll fallback
  | .element tag attributes children place => [.element tag attributes (content.fillAll children) place]
  | .component name attributes children place => [.component name attributes (content.fillAll children) place]
  | .choice condition yes no place => [.choice condition (content.fillAll yes) (content.fillAll no) place]
  | .optional condition inside place => [.optional condition (content.fillAll inside) place]
  | .loop source item index key body place => [.loop source item index key (content.fillAll body) place]
  | .text value place => [.text value place]
  | .expression id place => [.expression id place]
  | .doctype name position => [.doctype name position]

def fillAll (content : SlotContent) : List Node → List Node
  | [] => []
  | n :: ns => content.fill n ++ content.fillAll ns

end

mutual

def reached (content : SlotContent) : Node → List (Option String)
  | .slot name fallback _ =>
    slotKey name ::
      match content.forSlot? name with
      | some _ => []
      | none => content.reachedIn fallback
  | .element _ _ children _ => content.reachedIn children
  | .component _ _ children _ => content.reachedIn children
  | .choice _ yes no _ => content.reachedIn yes ++ content.reachedIn no
  | .optional _ inside _ => content.reachedIn inside
  | .loop _ _ _ _ body _ => content.reachedIn body
  | _ => []

def reachedIn (content : SlotContent) : List Node → List (Option String)
  | [] => []
  | n :: ns => content.reached n ++ content.reachedIn ns

end

def unmatched? (content : SlotContent) (nodes : List Node) : Option String :=
  let slots := content.reachedIn nodes
  match content.named.keys.find? fun name => !slots.contains (some name) with
  | some name => some name
  | none => if content.hasUnnamed && !slots.contains none then some "default" else none

end SlotContent

end PageCompiler.Component
