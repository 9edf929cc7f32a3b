import PageCompiler.Component.Resolution
import PageCompiler.Emit.Bundle
import PageCompiler.Mutation
import PageCompiler.Structure

/-!
# Compilation

A page is read, its layouts and components are put into it, what it says is checked, and its bundle is made.
-/

namespace PageCompiler

def Page.evaluators (p : Page) (options : Options) : Compiled (List Evaluator) := do
  let scope := Scope.ofScript p.script
  scope.checkAll options p.file p.expressions
  scope.analyzeAll p.file p.expressions

def Page.bundle (p : Page) (options : Options) : Compiled (Emit.Bundle × List Evaluator) := do
  let evaluators ← p.evaluators options
  return (← Emit.bundle p evaluators options, evaluators)

/-- Compiles a page with the given layouts and components. -/
def compile (source file : String) (options : Options) (catalogs : Component.Catalogs) : Compiled Emit.Output := do
  let (_, page) ← Component.resolve catalogs options (← Page.read source file)
  Template.checkStructure file page.nodes page.expressions
  page.checkMutations
  let (bundle, _) ← page.bundle options
  Emit.output file bundle

end PageCompiler
