import PageCompiler.Markup.Blocks
import PageCompiler.Script.Block

/-!
# Scripts

The script of a page: all its blocks, and what they declare together. A state is declared once; of other
names the first declaration counts.
-/

namespace PageCompiler

namespace Script

/-- A declared state. -/
structure DeclaredState where
  name : String
  value : String
  script : Nat
  position : Position
deriving DecidableEq, Repr

/-- A declared prop. -/
structure DeclaredProp where
  name : String
  fallback : Option String
  script : Nat
  position : Position
deriving DecidableEq, Repr

/-- An import. -/
structure DeclaredImport where
  source : String
  code : String
  locals : List String
  script : Nat
deriving DecidableEq, Repr

end Script

/-- The script of a page. -/
structure Script where
  blocks : List Script.Block := []
  states : Ordered Script.DeclaredState := []
  props : Ordered Script.DeclaredProp := []
  imports : List Script.DeclaredImport := []
  functions : List String := []
  vars : List String := []
deriving DecidableEq, Repr

namespace Script

/-- The names that the blocks declare, imports apart: states, then functions, then variables. -/
def names (s : Script) : List String :=
  (s.functions ++ s.vars).foldl pushNew s.states.keys

def importedNames (s : Script) : List String :=
  s.imports.flatMap (·.locals)

def addStatement (block : Block) (file : String) (s : Script) : Statement → Compiled Script
  | .state name value head _ =>
    let position := block.positionOf head.start
    match s.states.get? name with
    | some first =>
      .error {
        fault := .redeclaredState name first.position position first.script
        file, position
        context := some (block.lineAround head.start) }
    | none => .ok { s with states := s.states.insert name ⟨name, value, block.index, position⟩ }
  | .prop name fallback span =>
    .ok { s with props := s.props.insertNew name ⟨name, fallback, block.index, block.positionOf span.start⟩ }
  | .importing source locals span =>
    let code := String.ofList (Text.trim (Text.slice span.start span.stop block.raw.toList))
    .ok { s with imports := s.imports ++ [⟨source, code, locals, block.index⟩] }
  | .function name _ => .ok { s with functions := pushNew s.functions name }
  | .names declared _ _ => .ok { s with vars := declared.foldl pushNew s.vars }
  | .other _ => .ok s

/-- The script with the statements of a block, up to the first that it cannot take. -/
def addStatements (block : Block) (file : String) (s : Script) : List Statement → Script × Option Diagnostic
  | [] => (s, none)
  | t :: ts =>
    match s.addStatement block file t with
    | .ok s => addStatements block file s ts
    | .error d => (s, some d)

def listedProps (list : String) : List String :=
  ((Text.pieces ',' list.toList).map fun piece => String.ofList (Text.trim piece)).filter (· != "")

def addListed (block : Block) (s : Script) : Script :=
  match block.attributes.get? "props" with
  | none => s
  | some list =>
    let listed (props : Ordered DeclaredProp) (name : String) :=
      props.insertNew name ⟨name, none, block.index, block.position⟩
    { s with props := (listedProps list).foldl listed s.props }

/-- The script with one more block, or what it takes of the block and why it takes no more. -/
def take (s : Script) (block : Block) (file : String) : Script × Option Diagnostic :=
  match s.addStatements block file block.statements with
  | (s, some d) => (s, some d)
  | (s, none) =>
    let s := s.addListed block
    ({ s with blocks := s.blocks ++ [block] }, none)

def add (s : Script) (block : Block) (file : String) : Compiled Script :=
  match s.take block file with
  | (_, some d) => .error d
  | (s, none) => .ok s

/-- The script with the blocks of a file, the first of which has the number `index`. -/
def addBlocks (file : Source.File) (s : Script) (index : Nat) : List Markup.Block → Compiled Script
  | [] => .ok s
  | b :: bs => do
    let block ← Block.read index (b.content) b.attributes (file.position b.offset) file.path
    addBlocks file (← s.add block file.path) (index + 1) bs

def ofBlocks (file : Source.File) (blocks : List Markup.Block) : Compiled (Option Script) := do
  if blocks.isEmpty then return none
  return some (← addBlocks file {} 0 blocks)

end Script

end PageCompiler
