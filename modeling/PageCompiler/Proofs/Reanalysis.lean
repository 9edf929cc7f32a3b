import PageCompiler.Analysis
import PageCompiler.Proofs.Runs

/-!
# Analyzing the code of an evaluator again

The analysis of an expression writes `state.x` for a state and `props.x` for a prop. Analyzing its own result finds there
what the first analysis found, unless a function around the reference or a loop declares a name `state` or `props`: the
object that was written is then that variable, and the second analysis misses the read.
-/

namespace PageCompiler

/-! ## Sorting a selection -/

section Sorting

variable {α : Type} {le : α → α → Bool}

variable (htrans : ∀ a b c, le a b = true → le b c = true → le a c = true)

variable (htotal : ∀ a b, le a b = true ∨ le b a = true)

end Sorting

/-! ## Occurrences of names -/

namespace Code

/-- The names that are declared in a function around a byte. -/
def Survey.around (s : Survey) (n : Nat) : List String :=
  (s.declared.filter fun (_, span) => ((s.innermost? span.start).map (·.contains n)).getD false).map (·.1)

/-- An occurrence of a name, wherever it stands: the name, the member of it that is accessed, and the names that the
functions around it declare. -/
structure Occurrence where
  name : String
  member : Option String := none
  around : List String := []
deriving DecidableEq, Repr

namespace Occurrence

end Occurrence

def Survey.occurrence (s : Survey) (r : Reference) : Occurrence :=
  ⟨r.name, r.member.map (·.1), s.around r.span.start⟩

end Code

/-! ## What the analysis makes of an occurrence -/

open Code (Occurrence)

namespace Scope

variable (s : Scope) (loops : Option Template.LoopScope)

variable {e : Template.Expression} {t : Code.Tree}

variable {o : Occurrence} {object file : String} {before after : List Occurrence} {a : Evaluator} {t' : Code.Tree}

variable {s loops}

end Scope

end PageCompiler
