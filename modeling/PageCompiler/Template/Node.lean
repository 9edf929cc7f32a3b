import PageCompiler.Source.Position
import PageCompiler.Template.Loop
import PageCompiler.Text.Blank

/-!
# Templates

The markup of a page as a tree. Expressions stand in it by their ids; their code is kept in a list beside
the tree.
-/

namespace PageCompiler.Template

/-- The value of an attribute. -/
inductive Value where
  | fixed (text : String)
  | expression (id : String)
  | handler (name : String)
deriving DecidableEq, Repr

/-- Where a node or an expression stands: its position, and the loops around it. -/
structure Place where
  position : Position := {}
  scope : Option LoopScope := none
deriving DecidableEq, Repr

/-- An attribute of an element or of the use of a component. -/
structure Attribute where
  name : String
  value : Value
  place : Place := {}
deriving DecidableEq, Repr

/-- A part of a template. -/
inductive Node where
  | element (tag : String) (attributes : List Attribute) (children : List Node) (place : Place)
  | text (value : String) (place : Place)
  | expression (id : String) (place : Place)
  | component (name : String) (attributes : List Attribute) (children : List Node) (place : Place)
  /-- A place inside a component that takes what its user passes, or else the fallback. -/
  | slot (name : Option String) (fallback : List Node) (place : Place)
  | choice (condition : String) (yes no : List Node) (place : Place)
  | optional (condition : String) (content : List Node) (place : Place)
  /-- A loop through the items of its source. The scope of its place is the one inside the body. -/
  | loop (source item : String) (index key : Option String) (body : List Node) (place : Place)
  | doctype (name : String) (position : Position)
deriving Repr

namespace Node

instance : Inhabited Node := ⟨text "" {}⟩

/-- Where the node stands. A document type is in no loop. -/
def place : Node → Place
  | element _ _ _ place => place
  | text _ place => place
  | expression _ place => place
  | component _ _ _ place => place
  | slot _ _ place => place
  | choice _ _ _ place => place
  | optional _ _ place => place
  | loop _ _ _ _ _ place => place
  | doctype _ position => { position }

def isBlank : Node → Bool
  | text value _ => blankString value
  | _ => false

end Node

/-- Induction on templates: over lists of nodes, and inside of each node. -/
@[elab_as_elim] theorem nodes_induction {P : List Node → Prop} (nil : P [])
    (cons : ∀ n ns, P [n] → P ns → P (n :: ns))
    (element : ∀ tag attributes children place, P children → P [.element tag attributes children place])
    (text : ∀ value place, P [.text value place]) (expression : ∀ id place, P [.expression id place])
    (component : ∀ name attributes children place, P children → P [.component name attributes children place])
    (slot : ∀ name fallback place, P fallback → P [.slot name fallback place])
    (choice : ∀ condition yes no place, P yes → P no → P [.choice condition yes no place])
    (optional : ∀ condition content place, P content → P [.optional condition content place])
    (loop : ∀ source item index key body place, P body → P [.loop source item index key body place])
    (doctype : ∀ name position, P [.doctype name position]) (ns : List Node) : P ns :=
  @Node.rec_1 (fun n => P [n]) P element text expression component slot choice optional loop doctype nil cons ns

/-- An expression of a template. -/
structure Expression where
  id : String
  code : String
  place : Place := {}
  /-- The file in which it is written, if that is not the file of the page. -/
  file : Option String := none
deriving DecidableEq, Repr

end PageCompiler.Template
