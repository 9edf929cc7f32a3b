import PageCompiler.Scope

/-!
# What expressions read

An expression is made into a function. Declared states and props are read through the objects `state` and
`props`; the function takes exactly the data objects that it reads, and the variables of the loops around
the expression.
-/

namespace PageCompiler

/-- What an expression reads: for each data object that it uses, the names that it reads there. -/
structure Reads where
  state : Bool := false
  props : Bool := false
  loaderData : Bool := false
  stores : Bool := false
  stateNames : List String := []
  propNames : List String := []
  loaderNames : List String := []
  storeNames : List String := []
deriving DecidableEq, Repr

namespace Reads

/-- The names with one more, if there is one that they do not hold yet. -/
def noting (names : List String) : Option String → List String
  | some name => pushNew names name
  | none => names

def add (reads : Reads) (r : Code.Reference) (meaning : Meaning) : Reads :=
  let member := r.member.map (·.1)
  match meaning with
  | .stateObject => { reads with state := true, stateNames := noting reads.stateNames member }
  | .propsObject => { reads with props := true, propNames := noting reads.propNames member }
  | .loaderData => { reads with loaderData := true, loaderNames := noting reads.loaderNames member }
  | .stores => { reads with stores := true, storeNames := noting reads.storeNames member }
  | .state => { reads with state := true, stateNames := pushNew reads.stateNames r.name }
  | .prop => { reads with props := true, propNames := pushNew reads.propNames r.name }
  | _ => reads

/-- The data objects that are read, in their fixed order. -/
def objects (reads : Reads) : List String :=
  [("state", reads.state), ("props", reads.props), ("loaderData", reads.loaderData), ("stores", reads.stores)].filterMap
    fun (name, used) => if used then some name else none

end Reads

/-- An expression that is ready to become a function. -/
structure Evaluator where
  id : String
  /-- The body: states and props through their objects, markup as calls. -/
  code : String
  reads : Reads
  loopVariables : List String
deriving DecidableEq, Repr

namespace Evaluator

def name (e : Evaluator) : String :=
  "_zen_" ++ e.id

def parameters (e : Evaluator) : List String :=
  e.reads.objects ++
    if e.loopVariables.isEmpty then [] else ["\x7b " ++ joinStrings ", " e.loopVariables ++ " \x7d"]

def text (e : Evaluator) : String :=
  "function " ++ e.name ++ "(" ++ joinStrings ", " e.parameters ++ ") \x7b return (" ++ e.code ++ "); \x7d"

end Evaluator

def dataAccess? (r : Code.Reference) : Meaning → Option Code.Renaming
  | .state => some (.name ("state." ++ r.name))
  | .prop => some (.name ("props." ++ r.name))
  | _ => none

namespace Scope

def analyze (s : Scope) (file : String) (e : Template.Expression) : Compiled Evaluator := do
  let orStop {α : Type} : Except SyntaxError α → Compiled α
    | .ok a => return a
    | .error cause => throw (e.diagnostic (.unreadableExpression cause) file)
  let meaningOf (r : Code.Reference) : Meaning := s.meaning r.name e.place.scope
  let references ← orStop (Code.expressionReferences e.code)
  let renamed ← orStop (Code.renamedExpression e.code fun r => dataAccess? r (meaningOf r))
  let code ← orStop (Code.withCalls renamed)
  return {
    id := e.id
    code
    reads := references.foldl (fun reads r => reads.add r (meaningOf r)) {}
    loopVariables := Template.LoopScope.variablesOf e.place.scope }

def analyzeAll (s : Scope) (file : String) (expressions : List Template.Expression) : Compiled (List Evaluator) :=
  expressions.mapM (s.analyze file)

end Scope

end PageCompiler
