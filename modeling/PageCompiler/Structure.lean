import PageCompiler.Page

/-!
# Well-formed templates

A template is ready for output if no use of a component and no slot is left in it, and each id in it belongs to
an expression.
-/

namespace PageCompiler.Template

/-- What the check of a template needs to know. -/
structure Checking where
  file : String
  known : List String

namespace Checking

def id (c : Checking) (user id : String) (position : Position) : Compiled Unit :=
  if c.known.contains id then return
  else throw { fault := .danglingId user id, file := c.file, position }

def attributes (c : Checking) (attributes : List Attribute) : Compiled Unit :=
  attributes.forM fun a => match a.value with
    | .expression id => c.id ("Attr \"" ++ a.name ++ "\"") id a.place.position
    | _ => return

mutual

def node (c : Checking) : Node → Compiled Unit
  | .text .. => return
  | .doctype .. => return
  | .component name _ _ place =>
    throw { fault := .leftoverComponent name, file := c.file, position := place.position }
  | .slot name _ place =>
    throw { fault := .leftoverSlot (name.getD "default"), file := c.file, position := place.position }
  | .expression id place => c.id "Text binding" id place.position
  | .element _ attributes children _ => do
    c.attributes attributes
    c.nodes children
  | .choice condition yes no place => do
    c.id "Condition" condition place.position
    c.nodes yes
    c.nodes no
  | .optional condition content place => do
    c.id "Optional condition" condition place.position
    c.nodes content
  | .loop source _ _ key body place => do
    c.id "Loop source" source place.position
    match key with
    | some key => c.id "Loop key" key place.position
    | none => pure ()
    c.nodes body

def nodes (c : Checking) : List Node → Compiled Unit
  | [] => return
  | n :: ns => do
    c.node n
    c.nodes ns

end

end Checking

def checkStructure (file : String) (nodes : List Node) (expressions : List Expression) : Compiled Unit :=
  Checking.nodes { file, known := expressions.map (·.id) } nodes

end PageCompiler.Template
