import PageCompiler.Document.Token

/-!
# Nodes of a document in the making

While a document is built, nodes are moved about. They live in a table, in which a node is known by its
number and knows its parent and its children. Node zero is the document itself.
-/

namespace PageCompiler.Document

/-- The vocabulary that an element belongs to. -/
inductive Space where
  | html
  | svg
  | math
deriving DecidableEq, Repr

/-- An attribute of an element; some names in foreign vocabularies have a qualifier. -/
structure Attribute where
  qualifier : Option String := none
  name : String
  value : String
deriving DecidableEq, Repr

/-- What a node is. -/
inductive NodeKind where
  | document
  | doctype (name : String)
  | comment
  | text (content : List Char)
  /-- An element; the content of a template is a node apart. -/
  | element (space : Space) (name : String) (attributes : List Attribute) (content : Option Nat)
deriving Repr

/-- A node of the table. -/
structure Node where
  kind : NodeKind
  parent : Option Nat := none
  children : List Nat := []
deriving Repr

/-- The nodes of a document in the making. -/
abbrev Nodes := Array Node

namespace Nodes

def childrenOf (nodes : Nodes) (n : Nat) : List Nat :=
  (nodes[n]?.map (·.children)).getD []

def parentOf? (nodes : Nodes) (n : Nat) : Option Nat :=
  nodes[n]?.bind (·.parent)

def nameOf? (nodes : Nodes) (n : Nat) : Option (Space × String) :=
  nodes[n]?.bind fun node => match node.kind with
    | .element space name _ _ => some (space, name)
    | _ => none

def change (nodes : Nodes) (n : Nat) (f : Node → Node) : Nodes :=
  nodes.modify n f

def create (nodes : Nodes) (kind : NodeKind) : Nodes × Nat :=
  (nodes.push { kind }, nodes.size)

def detach (nodes : Nodes) (n : Nat) : Nodes :=
  match nodes.parentOf? n with
  | none => nodes
  | some p =>
    let nodes := nodes.change p fun node => { node with children := node.children.filter (· != n) }
    nodes.change n ({ · with parent := none })

def append (nodes : Nodes) (parent n : Nat) : Nodes :=
  let nodes := nodes.detach n
  let nodes := nodes.change parent fun node => { node with children := node.children ++ [n] }
  nodes.change n ({ · with parent := some parent })

def insertBefore (nodes : Nodes) (parent sibling n : Nat) : Nodes :=
  let nodes := nodes.detach n
  let nodes := nodes.change parent fun node =>
    { node with children := node.children.flatMap fun c => if c = sibling then [n, c] else [c] }
  nodes.change n ({ · with parent := some parent })

/-- Adds text at the end of a text node, if the node is one. -/
def extendText? (nodes : Nodes) (n : Nat) (text : List Char) : Option Nodes :=
  match nodes[n]? with
  | some { kind := .text content, .. } => some (nodes.change n ({ · with kind := .text (content ++ text) }))
  | _ => none

/-- Adds text as the last child of a node; it joins a text that is there already. -/
def appendText (nodes : Nodes) (parent : Nat) (text : List Char) : Nodes :=
  match (nodes.childrenOf parent).getLast? >>= fun last => nodes.extendText? last text with
  | some nodes => nodes
  | none =>
    let (nodes, n) := nodes.create (.text text)
    nodes.append parent n

/-- Puts text before a sibling; it joins a text that is there already. -/
def insertTextBefore (nodes : Nodes) (parent sibling : Nat) (text : List Char) : Nodes :=
  let before := (nodes.childrenOf parent).takeWhile (· != sibling)
  match before.getLast? >>= fun last => nodes.extendText? last text with
  | some nodes => nodes
  | none =>
    let (nodes, n) := nodes.create (.text text)
    nodes.insertBefore parent sibling n

def moveChildren (nodes : Nodes) (source target : Nat) : Nodes :=
  (nodes.childrenOf source).foldl (fun nodes n => nodes.append target n) nodes

def addMissing (nodes : Nodes) (n : Nat) (attributes : List Attribute) : Nodes :=
  nodes.change n fun node => match node.kind with
    | .element space name own content =>
      let missing := attributes.filter fun a => !own.any fun o => o.name == a.name && o.qualifier == a.qualifier
      { node with kind := .element space name (own ++ missing) content }
    | _ => node

end Nodes

/-- A part of a finished document. -/
inductive Item where
  | doctype (name : String)
  | comment
  | text (value : String)
  | element (name : String) (attributes : List Attribute) (children : List Item)
deriving Repr

/-- The finished form of a node, with at most `depth` nodes inside each other. The children of a template are
those of its content. -/
def Nodes.item (nodes : Nodes) (depth n : Nat) : List Item :=
  match depth with
  | 0 => []
  | depth + 1 =>
    match nodes[n]? with
    | none => []
    | some node =>
      match node.kind with
      | .document => []
      | .doctype name => [.doctype name]
      | .comment => [.comment]
      | .text content => [.text (String.ofList content)]
      | .element _ name attributes content =>
        let children := match content with
          | some c => nodes.childrenOf c
          | none => node.children
        [.element name attributes (children.flatMap (nodes.item depth))]

end PageCompiler.Document
