import PageCompiler.Compile
import PageCompiler.Proofs.Reanalysis
import PageCompiler.Proofs.ResolutionRun
import PageCompiler.Proofs.Scoping

/-!
# Names in emitted scripts

In the bundle the code of a block reaches states and props through the objects `state` and `props`: each free use of a
declared name gets its object before it. Only the defaults of props are copied as they are written, so that a name in
them is not rewritten. `ReadsBack` says that the emitted text is read as it was meant, and `data_of_compile` says which
declared names are then left in it.
-/

namespace PageCompiler

open Code (Occurrence)

namespace Emit

section

variable (states props : List String)

end

def isReplaced (b : Script.Block) (n : Nat) : Bool :=
  (b.statements.filterMap statementEdit?).any (·.span.contains n)

def kept (b : Script.Block) (t : Code.Tree) : List Occurrence :=
  (t.survey.used.filter fun r => !isReplaced b r.span.start).map t.survey.occurrence

section

variable (states props : List String)

variable {states props}

end

end Emit

end PageCompiler
