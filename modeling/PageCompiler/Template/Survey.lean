import PageCompiler.Ordered
import PageCompiler.Template.Node

/-!
# What a template mentions

The ids of the expressions in a template, and the handlers that its attributes name, in document order.
-/

namespace PageCompiler.Template

def Value.id? : Value → Option String
  | expression id => some id
  | _ => none

def Value.handler? : Value → Option String
  | handler name => some name
  | _ => none

def attributeIds (attributes : List Attribute) : List String :=
  attributes.filterMap (·.value.id?)

def attributeHandlers (attributes : List Attribute) : List String :=
  attributes.filterMap (·.value.handler?)

mutual

def Node.ids : Node → List String
  | .element _ attributes children _ => attributeIds attributes ++ idsIn children
  | .text .. => []
  | .expression id _ => [id]
  | .component _ attributes children _ => attributeIds attributes ++ idsIn children
  | .slot _ fallback _ => idsIn fallback
  | .choice condition yes no _ => condition :: (idsIn yes ++ idsIn no)
  | .optional condition content _ => condition :: idsIn content
  | .loop source _ _ key body _ => source :: (key.toList ++ idsIn body)
  | .doctype .. => []

def idsIn : List Node → List String
  | [] => []
  | n :: ns => n.ids ++ idsIn ns

end

mutual

def Node.handlerUses : Node → List String
  | .element _ attributes children _ => attributeHandlers attributes ++ handlerUsesIn children
  | .text .. => []
  | .expression .. => []
  | .component _ attributes children _ => attributeHandlers attributes ++ handlerUsesIn children
  | .slot _ fallback _ => handlerUsesIn fallback
  | .choice _ yes no _ => handlerUsesIn yes ++ handlerUsesIn no
  | .optional _ content _ => handlerUsesIn content
  | .loop _ _ _ _ body _ => handlerUsesIn body
  | .doctype .. => []

def handlerUsesIn : List Node → List String
  | [] => []
  | n :: ns => n.handlerUses ++ handlerUsesIn ns

end

def handlersIn (nodes : List Node) : List String :=
  (handlerUsesIn nodes).foldl pushNew []

end PageCompiler.Template
