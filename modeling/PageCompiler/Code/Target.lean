import PageCompiler.Code.Tree

/-!
# Targets of assignments

What stands before an equals sign is read as an expression first. Here it becomes a target, if it can: a
name, a member, or an array or object whose elements are targets in turn. Parentheses around a simple
target are dropped. In a pattern, a shorthand is only the name that is written, and an assignment is a
target with a default.
-/

namespace PageCompiler.Code.Tree

/-- Whether a type assertion around the expression leaves it a target. -/
def isPlace : Tree → Bool
  | node (.name _) _ _ => true
  | node (.member _) _ _ => true
  | node .index _ _ => true
  | node .paren _ [inner] => inner.isPlace
  | node .typed _ (inner :: _) => inner.isPlace
  | node .instantiation _ (inner :: _) => inner.isPlace
  | _ => false

/-- A name or a member, possibly in parentheses or under a type assertion, as a target. -/
def simpleTarget? : Tree → Option Tree
  | t@(node (.name _) _ _) => some t
  | t@(node (.member _) _ _) => some t
  | t@(node .index _ _) => some t
  | node .paren _ [inner] => inner.simpleTarget?
  | t@(node .typed _ (inner :: _)) => if inner.isPlace then some t else none
  | _ => none

mutual

def target? : Tree → Option Tree
  | node .array span parts => (elementTargets? parts).map (node .pattern span ·)
  | node .object span parts => (memberTargets? parts).map (node .pattern span ·)
  | t => t.simpleTarget?

/-- The elements of an array as targets; a spread must be the last. -/
def elementTargets? : List Tree → Option (List Tree)
  | [] => some []
  | node .hole _ _ :: ts => elementTargets? ts
  | node .spread span [inner] :: ts =>
    if ts.isEmpty then (target? inner).map fun t => [node .rest span [t]] else none
  | t :: ts =>
    match defaulted? t, elementTargets? ts with
    | some t, some ts => some (t :: ts)
    | _, _ => none

/-- The members of an object as targets; a spread must be the last, and what it spreads a simple target. -/
def memberTargets? : List Tree → Option (List Tree)
  | [] => some []
  | node .spread span [inner] :: ts =>
    if ts.isEmpty then inner.simpleTarget?.map fun t => [node .rest span [t]] else none
  | node (.property true) span parts :: ts => (memberTargets? ts).map (node .pattern span parts :: ·)
  | node .shorthandDefault span parts :: ts => (memberTargets? ts).map (node .defaulted span parts :: ·)
  | node (.property false) span [key, value] :: ts =>
    match defaulted? value, memberTargets? ts with
    | some value, some ts => some (node .pattern span [key, value] :: ts)
    | _, _ => none
  | _ :: _ => none

def defaulted? : Tree → Option Tree
  | node (.assign "=") span parts => some (node .defaulted span parts)
  | node .array span parts => (elementTargets? parts).map (node .pattern span ·)
  | node .object span parts => (memberTargets? parts).map (node .pattern span ·)
  | t => t.simpleTarget?

end

end PageCompiler.Code.Tree
