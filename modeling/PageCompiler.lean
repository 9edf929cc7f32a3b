import PageCompiler.Proofs.BalancedMarkup
import PageCompiler.Proofs.ChildTexts
import PageCompiler.Proofs.DroppedCodes
import PageCompiler.Proofs.EmittedScripts
import PageCompiler.Proofs.EvaluatorText
import PageCompiler.Proofs.ExactReplacement
import PageCompiler.Proofs.Exposure
import PageCompiler.Proofs.HandlerParameters
import PageCompiler.Proofs.HandlerRegistration
import PageCompiler.Proofs.ImportMerging
import PageCompiler.Proofs.MarkerScan
import PageCompiler.Proofs.MarkupOpenings
import PageCompiler.Proofs.PlainStatements
import PageCompiler.Proofs.Redeclaration
import PageCompiler.Proofs.ReferenceScope
import PageCompiler.Proofs.ResolutionFailure
import PageCompiler.Proofs.RouteOrder
import PageCompiler.Proofs.SharedInvalidation
import PageCompiler.Proofs.SimultaneousEdits
import PageCompiler.Proofs.SlotPassing
import PageCompiler.Proofs.StyleScoping
import PageCompiler.Proofs.TemplateLiterals
import PageCompiler.Proofs.TrailingSlash
import PageCompiler.Proofs.WrittenValues
