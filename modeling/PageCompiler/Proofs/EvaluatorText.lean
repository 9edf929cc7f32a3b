import PageCompiler.Proofs.ExpressionTable
import PageCompiler.Proofs.FunctionText

/-!
# Texts of evaluators

The text of an evaluator wraps the code of an expression into a function. What stands before the code is read as it is
meant for every name, every data object and every variable of a loop. So the text is the function that it is meant to
be exactly if the code reads in place, as one expression up to the closing parenthesis. A registered code need not do
so: only the start of it has to be an expression, and what follows in it may be a comment that hides the parenthesis.
-/

namespace PageCompiler.Evaluator

open Code
open Text (byteLength)

variable {e : Evaluator}

/-! ## The text of an evaluator -/

def head (e : Evaluator) : List Char :=
  ("function " ++ e.name ++ "(" ++ joinStrings ", " e.parameters ++ ") \x7b return ").toList

/-- How many goals inside each other can be asked of the code. -/
def depth (e : Evaluator) : Nat :=
  depthFor e.text.toList - 3

/-- A parameter: how it is written, its lexemes and the names that it declares. -/
def pieces (e : Evaluator) : List (String × List Lexeme × List String) :=
  e.reads.objects.map (fun o => (o, [.word o false], [o])) ++
    if e.loopVariables.isEmpty then [] else
      [("\x7b " ++ joinStrings ", " e.loopVariables ++ " \x7d",
        .mark "\x7b" :: ([.mark ","].intercalate (e.loopVariables.map fun v => [.word v false]) ++ [.mark "\x7d"]),
        e.loopVariables)]

def registered (code : String) (place : Template.Place) : Template.Expression where
  id := "expr_0"
  code := String.ofList (Text.trim (Template.withoutComments code.toList))
  place

end PageCompiler.Evaluator
