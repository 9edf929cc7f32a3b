import PageCompiler.Template.Node

/-!
# Uses of components

The uses of components in a template, in document order: a use comes before what is inside it.
-/

namespace PageCompiler

/-- The use of a component. -/
structure Usage where
  name : String
  attributes : List Template.Attribute
  children : List Template.Node
  place : Template.Place
deriving Repr

namespace Template

mutual

def Node.usages : Node → List Usage
  | .element _ _ children _ => usagesIn children
  | .text .. => []
  | .expression .. => []
  | .component name attributes children place => ⟨name, attributes, children, place⟩ :: usagesIn children
  | .slot _ fallback _ => usagesIn fallback
  | .choice _ yes no _ => usagesIn yes ++ usagesIn no
  | .optional _ content _ => usagesIn content
  | .loop _ _ _ _ body _ => usagesIn body
  | .doctype .. => []

def usagesIn : List Node → List Usage
  | [] => []
  | n :: ns => n.usages ++ usagesIn ns

end

mutual

/-- Replaces the first use in a node whose name passes the test, if there is one. -/
def Node.replaceFirst? (test : String → Bool) (nodes : List Node) : Node → Option (List Node)
  | .element tag attributes children place =>
    (replaceFirstIn? test nodes children).map fun c => [.element tag attributes c place]
  | .text .. => none
  | .expression .. => none
  | .component name attributes children place =>
    if test name then some nodes
    else (replaceFirstIn? test nodes children).map fun c => [.component name attributes c place]
  | .slot name fallback place =>
    (replaceFirstIn? test nodes fallback).map fun f => [.slot name f place]
  | .choice condition yes no place =>
    match replaceFirstIn? test nodes yes with
    | some y => some [.choice condition y no place]
    | none => (replaceFirstIn? test nodes no).map fun n => [.choice condition yes n place]
  | .optional condition content place =>
    (replaceFirstIn? test nodes content).map fun c => [.optional condition c place]
  | .loop source item index key body place =>
    (replaceFirstIn? test nodes body).map fun b => [.loop source item index key b place]
  | .doctype .. => none

/-- Replaces the first use in nodes whose name passes the test, if there is one. -/
def replaceFirstIn? (test : String → Bool) (nodes : List Node) : List Node → Option (List Node)
  | [] => none
  | n :: ns =>
    match n.replaceFirst? test nodes with
    | some here => some (here ++ ns)
    | none => (replaceFirstIn? test nodes ns).map fun later => n :: later

end

end Template

end PageCompiler
