/-!
# Loops around a place

Markup inside a loop sees the variables of that loop and of the loops around it.
-/

namespace PageCompiler.Template

/-- What the loops around a place bring into scope. -/
structure LoopScope where
  /-- The variables, those of the innermost loop last. -/
  vars : List String := []
  /-- The expression that the innermost loop goes through. -/
  source : Option String := none
deriving DecidableEq, Repr

namespace LoopScope

/-- The scope inside `inner` when it stands inside `outer`. A variable of the inner loop hides one of the
same name outside. -/
def nest (outer inner : Option LoopScope) : Option LoopScope :=
  match outer, inner with
  | none, inner => inner
  | some o, none => some o
  | some o, some i =>
    some {
      vars := o.vars.filter (fun v => !i.vars.contains v) ++ i.vars
      source := i.source <|> o.source }

def variablesOf (scope : Option LoopScope) : List String :=
  (scope.map (·.vars)).getD []

end LoopScope

end PageCompiler.Template
