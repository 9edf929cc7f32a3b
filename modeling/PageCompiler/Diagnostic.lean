import PageCompiler.Source.File
import PageCompiler.Text.Blank

/-!
# Diagnostics

A compilation stops at the first `Fault`. Each fault belongs to a `Kind`, which fixes its code, its
category and the guarantee that it upholds; `Fault.message` gives its wording and `Fault.hints` the
advice that goes with it. A `Diagnostic` is a fault together with the place where it was found.
-/

namespace PageCompiler

/-- Where the reading of a program or of a data text stopped. -/
structure SyntaxError where
  offset : Nat
deriving DecidableEq, Repr, Inhabited

def SyntaxError.message (e : SyntaxError) : String :=
  s!"unexpected input at byte {e.offset}"

/-- The part of the compilation that a fault belongs to. -/
inductive Category where
  | parse
  | legality
  | resolution
  | io
  | internal
deriving DecidableEq, Repr

def Category.label : Category → String
  | .parse => "PARSE_ERROR"
  | .legality => "LEGALITY_ERROR"
  | .resolution => "RESOLUTION_ERROR"
  | .io => "IO_ERROR"
  | .internal => "COMPILER_INVARIANT_VIOLATION"

/-- The kinds of fault, with the data by which a caller can react to them. -/
inductive Kind where
  | unbalancedBrace
  | malformedMarkup
  | unterminatedBlock
  | invalidExpression
  | invalidScript
  | stateRedeclaration (name : String) (first second : Position)
  | illegalMutation (state : String) (function : Option String) (script : Nat)
  | undeclaredReference (name : String)
  | functionInTemplate
  | unknownComponent (name : String)
  | unmatchedSlot (component slot : String)
  | resolutionStalled
  | resolutionLimit (limit : Nat)
  | io
  | internal
deriving DecidableEq, Repr

namespace Kind

def code : Kind → String
  | unbalancedBrace => "Z-ERR-PARSE-001"
  | malformedMarkup => "Z-ERR-PARSE-002"
  | unterminatedBlock => "Z-ERR-PARSE-003"
  | invalidExpression => "Z-ERR-PARSE-004"
  | invalidScript => "Z-ERR-PARSE-005"
  | stateRedeclaration .. => "Z-ERR-STATE-001"
  | illegalMutation .. => "Z-ERR-STATE-002"
  | undeclaredReference .. => "Z-ERR-SCOPE-002"
  | functionInTemplate => "Z-ERR-SCOPE-003"
  | unknownComponent .. => "Z-ERR-RESOLVE-001"
  | unmatchedSlot .. => "Z-ERR-RESOLVE-002"
  | resolutionStalled => "Z-ERR-RESOLVE-003"
  | resolutionLimit .. => "Z-ERR-RESOLVE-004"
  | io => "Z-ERR-IO-001"
  | internal => "Z-ERR-INTERNAL-001"

def category : Kind → Category
  | unbalancedBrace | malformedMarkup | unterminatedBlock | invalidExpression | invalidScript => .parse
  | stateRedeclaration .. | illegalMutation .. | undeclaredReference .. | functionInTemplate => .legality
  | unknownComponent .. | unmatchedSlot .. | resolutionStalled | resolutionLimit .. => .resolution
  | io => .io
  | internal => .internal

def guarantee : Kind → String
  | unbalancedBrace => "Every template expression is delimited by balanced braces."
  | malformedMarkup => "Markup is well formed before any HTML is emitted."
  | unterminatedBlock => "Script and style blocks are always closed."
  | invalidExpression => "Template expressions are valid JavaScript expressions."
  | invalidScript => "Script blocks stay within the declarative subset."
  | stateRedeclaration .. => "Each state name is declared exactly once per compiled file."
  | illegalMutation .. => "Reactive state may only be written inside event handlers."
  | undeclaredReference .. =>
    "Expressions only reference declared state, props, stores or loop variables."
  | functionInTemplate => "Functions are never created in template position; handlers are named."
  | unknownComponent .. => "All components are resolved at compile time."
  | unmatchedSlot .. => "All slot content lands in a declared slot."
  | resolutionStalled | resolutionLimit .. => "Component resolution always terminates."
  | io => "Discovery only reads from the file system."
  | internal => "All bindings must reference an ID that exists in the registry."

end Kind

/-- Why a file of the project cannot be read. -/
inductive ReadFault where
  | missing
  | directory
  | notDirectory
deriving DecidableEq, Repr

def ReadFault.message : ReadFault → String
  | missing => "No such file or directory (os error 2)"
  | directory => "Is a directory (os error 21)"
  | notDirectory => "Not a directory (os error 20)"

/-- The ways in which the tokens of a script can be ill formed. -/
inductive TokenFault where
  | openString
  | openTemplate
  | openInterpolation
  | openRegex
  | openComment
deriving DecidableEq, Repr

def TokenFault.message : TokenFault → String
  | openString => "Unterminated string literal."
  | openTemplate => "Unterminated template literal."
  | openInterpolation => "Unterminated template literal interpolation."
  | openRegex => "Unterminated regular expression literal."
  | openComment => "Unterminated block comment."

/-- The causes for which a compilation stops. -/
inductive Fault where
  -- reading the markup
  | openComment
  | openBrace
  | strayBrace
  | openBlockTag (tag : String)
  | missingBlockEnd (tag : String)
  | openBlockEnd (tag : String)
  | openTag (name : String)
  | strayEndTag (name : String)
  | crossedTags (inner outer : String)
  | unclosedTag (name : String)
  -- reading expressions and scripts
  | badToken (cause : TokenFault)
  | badScript (cause : SyntaxError)
  | unreadableScript (index : Nat) (cause : SyntaxError)
  | badExpression (code : String) (cause : SyntaxError)
  | unreadableExpression (cause : SyntaxError)
  | interpolatedEvent (name : String)
  -- what a page may say
  | redeclaredState (name : String) (first second : Position) (script : Nat)
  | illegalMutation (state : String) (function : Option String) (script : Nat)
  | unknownName (name : String)
  | unknownStore (name : String)
  | unknownHandler (name : String)
  | functionInTemplate
  -- inlining components
  | unknownComponent (name : String)
  | unmatchedSlot (component slot : String)
  | stalledResolution (component : String)
  | resolutionLimit (limit : Nat) (component : String)
  | leftoverComponent (name : String)
  | leftoverSlot (slot : String)
  -- files and options
  | badFileName
  | unreadableSource (cause : ReadFault)
  | unreadableOptions (cause : ReadFault)
  | unreadableDirectory (path : String) (cause : ReadFault)
  | badOptions (cause : SyntaxError)
  | missingPages (path : String)
  | noPagesDirectory
  -- what cannot happen to a page that went through all the steps before
  | danglingId (user id : String)
  | danglingAttribute (id : String)
  | danglingMarker (id : String)
  | emittedComponent (name : String)
  | emittedSlot
  | residualMarkers (markers : List String)
  | emptyOutput
deriving Repr

namespace Fault

def kind : Fault → Kind
  | openComment | openTag _ | strayEndTag _ | crossedTags .. | unclosedTag _ => .malformedMarkup
  | openBrace | strayBrace => .unbalancedBrace
  | openBlockTag _ | missingBlockEnd _ | openBlockEnd _ => .unterminatedBlock
  | badToken _ | badScript _ | unreadableScript .. => .invalidScript
  | badExpression .. | unreadableExpression _ | interpolatedEvent _ => .invalidExpression
  | redeclaredState name first second _ => .stateRedeclaration name first second
  | illegalMutation state function script => .illegalMutation state function script
  | unknownName name | unknownStore name | unknownHandler name => .undeclaredReference name
  | functionInTemplate => .functionInTemplate
  | unknownComponent name | leftoverComponent name => .unknownComponent name
  | unmatchedSlot component slot => .unmatchedSlot component slot
  | leftoverSlot slot => .unmatchedSlot "" slot
  | stalledResolution _ => .resolutionStalled
  | resolutionLimit limit _ => .resolutionLimit limit
  | badFileName | unreadableSource _ | unreadableOptions _ | unreadableDirectory .. | badOptions _
  | missingPages _ | noPagesDirectory => .io
  | danglingId .. | danglingAttribute _ | danglingMarker _ | emittedComponent _ | emittedSlot
  | residualMarkers _ | emptyOutput => .internal

/-- The syntax error inside a fault, whose wording ends the fault's message. -/
def syntaxError? : Fault → Option SyntaxError
  | badScript cause | unreadableScript _ cause | badExpression _ cause | unreadableExpression cause
  | badOptions cause => some cause
  | _ => none

/-- The wording of a fault, up to the wording of the syntax error inside it. -/
def summary : Fault → String
  | openComment => "Unterminated HTML comment."
  | openBrace => "Unclosed '\x7b' in template expression."
  | strayBrace => "Unexpected '\x7d' without a matching '\x7b'."
  | openBlockTag tag => s!"Unterminated <{tag}> tag."
  | missingBlockEnd tag => s!"Unterminated <{tag}> block: missing </{tag}>."
  | openBlockEnd tag => s!"Unterminated </{tag}> tag."
  | openTag name => s!"Unterminated tag <{name}>."
  | strayEndTag name => s!"Unexpected closing tag </{name}>."
  | crossedTags inner outer => s!"Unclosed <{inner}> before </{outer}>."
  | unclosedTag name => s!"Unclosed <{name}>."
  | badToken cause => cause.message
  | badScript _ => "Invalid script syntax: "
  | unreadableScript index _ => s!"Script {index} could not be parsed: "
  | badExpression code _ => "Invalid expression `" ++ code ++ "`: "
  | unreadableExpression _ => "Invalid expression syntax: "
  | interpolatedEvent name => s!"Event attribute '{name}' cannot interpolate text."
  | redeclaredState name first _ script =>
    s!"State '{name}' is already declared at {first.line}:{first.column} (script {script})."
  | illegalMutation state (some function) script =>
    s!"State '{state}' is mutated in function '{function}', which is not an event handler " ++
      s!"(script {script})."
  | illegalMutation state none script =>
    s!"State '{state}' is mutated at the top level of the script (script {script})."
  | unknownName name => s!"Unknown identifier '{name}'."
  | unknownStore name => s!"Unknown store '{name}'."
  | unknownHandler name => s!"Event handler '{name}' is not declared in any script."
  | functionInTemplate => "Functions cannot be created in template position."
  | unknownComponent name => s!"Unknown component: <{name}>."
  | unmatchedSlot component slot =>
    s!"<{component}> has no slot named \"{slot}\" for the content passed to it."
  | stalledResolution component => s!"Usage of <{component}> was found but could not be replaced."
  | resolutionLimit limit component =>
    s!"Component resolution exceeded {limit} iterations while inlining <{component}>."
  | leftoverComponent name => s!"Unresolved component: <{name}>."
  | leftoverSlot _ => "<Slot/> used outside of a component or layout body."
  | badFileName => "Invalid component filename."
  | unreadableSource cause => "Failed to read source: " ++ cause.message
  | unreadableOptions cause => "Failed to read options: " ++ cause.message
  | unreadableDirectory path cause =>
    "Failed to read " ++ path ++ ": IO error for operation on " ++ path ++ ": " ++ cause.message
  | badOptions _ => "Invalid compiler options: "
  | missingPages path => "Pages directory not found: " ++ path
  | noPagesDirectory => "No pagesDir configured."
  | danglingId user id => s!"{user} references missing expression ID \"{id}\"."
  | danglingAttribute id => s!"Component attribute references missing expression ID \"{id}\"."
  | danglingMarker id => s!"Marker references unregistered expression \"{id}\"."
  | emittedComponent name => s!"Component <{name}> reached code generation unresolved."
  | emittedSlot => "Slot marker reached code generation outside a component."
  | residualMarkers markers =>
    "HTML contains expressions that were not compiled: " ++ ", ".intercalate markers
  | emptyOutput => "Code generation produced no output."

def message (f : Fault) : String :=
  match f.syntaxError? with
  | some cause => f.summary ++ cause.message
  | none => f.summary

def hints : Fault → List String
  | openBrace => ["Every '\x7b' in markup must be closed by a matching '\x7d'."]
  | strayBrace => ["Use &#125; for a literal closing brace in text."]
  | redeclaredState .. => ["Declare each state once and assign it inside an event handler."]
  | illegalMutation .. => ["Move the write into a function bound with on<event>=\x7bhandler\x7d."]
  | unknownName _ => ["Declare it with `state`, `prop`, or in <script>."]
  | unknownHandler _ => ["Declare the handler as a function in the page or component script."]
  | functionInTemplate => ["Declare a named function in <script> and reference it by name."]
  | unknownComponent _ =>
    ["Component tags resolve against files in the components directory by name."]
  | unmatchedSlot .. =>
    ["Add a matching <Slot name=\"...\" /> to the component or remove the content."]
  | leftoverSlot _ => ["Slots are only meaningful inside components and layouts."]
  | resolutionLimit .. => ["Check for components that include themselves."]
  | residualMarkers _ => ["All expressions must be replaced with hydration markers."]
  | _ => []

end Fault

/-- A fault and the place where it was found. -/
structure Diagnostic where
  fault : Fault
  file : String
  position : Position := {}
  /-- The source text around the place, when it helps. -/
  context : Option String := none
deriving Repr

/-- What a step of the compilation gives: a value, or the diagnostic at which it stopped. -/
abbrev Compiled (α : Type) := Except Diagnostic α

/-- The one-line report of a diagnostic. -/
def Diagnostic.report (d : Diagnostic) : String :=
  s!"[{d.fault.kind.code}] {d.fault.message} ({d.file}:{d.position.line}:{d.position.column})"

def Source.File.diagnostic (file : Source.File) (fault : Fault) (offset : Nat) : Diagnostic :=
  let position := file.position offset
  { fault, file := file.path, position,
    context := (file.lineText? position.line).map fun line => String.ofList (Text.trimEnd line) }

end PageCompiler
