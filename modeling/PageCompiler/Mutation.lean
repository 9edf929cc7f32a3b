import PageCompiler.Page
import PageCompiler.Template.Survey

/-!
# Writes to states

A state may be written only inside a function that handles an event. A write belongs to the top-level
statement of the script that it stands in, and to the function which that statement declares, if it declares one.
-/

namespace PageCompiler

/-- A write to a state. -/
structure Mutation where
  state : String
  function : Option String
  position : Position
  line : String
deriving DecidableEq, Repr

def Mutation.isAllowed (m : Mutation) (handlers : List String) : Bool :=
  (m.function.map handlers.contains).getD false

/-- The state that a reference writes: it is named by itself, or as a member of `state`. -/
def Code.Reference.writtenState? (r : Code.Reference) (states : List String) : Option String :=
  if !r.written then none
  else match r.member with
    | none => if states.contains r.name then some r.name else none
    | some (property, _) => if r.name == "state" && states.contains property then some property else none

namespace Script.Block

/-- The function that the top-level statement around a byte of the block defines. -/
def functionAt (b : Block) (offset : Nat) : Option String :=
  (b.statements.find? (·.span.contains offset)).bind (·.functionName?)

/-- The writes to states in a block, in source order. -/
def mutations (b : Block) (states : List String) (file : String) : Compiled (List Mutation) := do
  match b.references with
  | .error cause => throw { fault := .unreadableScript b.index cause, file, position := b.position }
  | .ok references =>
    return references.filterMap fun r => do
      let state ← r.writtenState? states
      let offset := r.span.start
      return {
        state
        function := b.functionAt offset
        position := b.positionOf offset
        line := b.lineAround offset }

end Script.Block

namespace Page

/-- Checks the writes of one block; `handlers` are the functions that may write. -/
def checkBlock (p : Page) (states handlers : List String) (b : Script.Block) : Compiled Unit := do
  let file := b.file.getD p.file
  match (← b.mutations states file).find? (!·.isAllowed handlers) with
  | none => return
  | some m =>
    throw {
      fault := .illegalMutation m.state m.function b.index
      file
      position := m.position
      context := some m.line }

/-- Checks that states are written only where events are handled. -/
def checkMutations (p : Page) : Compiled Unit := do
  match p.script with
  | none => return
  | some s =>
    unless s.states.isEmpty do
      s.blocks.forM (p.checkBlock s.states.keys (Template.handlersIn p.nodes))

end Page

end PageCompiler
