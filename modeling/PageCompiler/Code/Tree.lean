import PageCompiler.Source.Position

/-!
# Trees of code

The code of expressions and scripts is read as a tree. Each node has a kind, the span of bytes that it
covers, and its parts in source order. The kinds single out what the compiler asks about: names that are
read, written or bound, functions and their parameters, calls, choices, literals and elements written
inside code. All other constructs of the language are nodes of a general kind, whose parts can be
searched without knowing the construct.
-/

namespace PageCompiler.Code

/-- What a node of a tree of code is. -/
inductive NodeKind where
  -- words
  | name (text : String)
  | binder (text : String)
  /-- A word that names no variable: a key, a label, a keyword with a meaning of its own. -/
  | word (text : String)
  -- literals
  | null
  | bool (value : Bool)
  | string (value : String)
  | literal
  -- expressions
  | paren
  | sequence
  | conditional
  | logical (operator : String)
  | operation (operator : String)
  | await
  | assign (operator : String)
  | update
  /-- `object.property`, the object being the one part. -/
  | member (property : String)
  /-- A member reached by a computed key or by a private name. -/
  | index
  | chain
  /-- A call: what is called, the arguments, and possibly types. -/
  | call
  | arguments
  | new
  | spread
  | template
  | array
  /-- Nothing, where an element of an array could stand. -/
  | hole
  | object
  /-- A key and a value; the value of a shorthand is its key. -/
  | property (shorthand : Bool)
  /-- A shorthand with a default, which only a destructuring assignment may hold. -/
  | shorthandDefault
  /-- A function: its parameters among other parts, and last its body, unless it is only declared. -/
  | function (isDeclaration : Bool)
  /-- An arrow function: its parameters among other parts, and last an expression or a body. -/
  | arrow (isExpression : Bool)
  | params
  | param
  | rest
  | body
  | klass (isDeclaration : Bool)
  /-- A type assertion of any form around an expression, and the type. -/
  | typed
  /-- An expression applied to types, without a call. -/
  | instantiation
  -- elements
  /-- An element: its attributes, its type arguments, its children. -/
  | element (tag : String)
  | fragment
  | attributes
  | children
  /-- An attribute with at most one part, its value. -/
  | attr (name : String)
  | spreadAttribute
  | rawText (value : String)
  | container
  | spreadChild
  -- statements and types
  | expressionStatement
  /-- A text as a statement at the head of a body. -/
  | directive
  | returnStatement
  | statement
  | block
  /-- Variables that are declared together; the names of hoisted ones belong to the whole function. -/
  | declarations (hoisted : Bool)
  | declarator
  /-- A loop with a head of three parts, each of which may be missing, and last what is repeated. -/
  | loop
  /-- A loop through the elements of a value: a target or a declaration, the value, and what is repeated. -/
  | each
  | cases
  /-- One case: possibly what it tests, and its statements. -/
  | clause
  /-- What to do on failure: possibly a target for the failure, and a block. -/
  | catching
  /-- A target that takes a value apart, or a member of one. -/
  | pattern
  | defaulted
  | typeDeclaration
  | type
  | listType
  | group
deriving DecidableEq, Repr

/-- A tree of code. -/
inductive Tree where
  | node (kind : NodeKind) (span : Span) (parts : List Tree)
deriving Repr

namespace Tree

def kind : Tree → NodeKind
  | node kind _ _ => kind

def span : Tree → Span
  | node _ span _ => span

def parts : Tree → List Tree
  | node _ _ parts => parts

instance : Inhabited Tree := ⟨node .group {} []⟩

mutual

def any (test : NodeKind → Bool) : Tree → Bool
  | node kind _ parts => test kind || anyOf test parts

def anyOf (test : NodeKind → Bool) : List Tree → Bool
  | [] => false
  | t :: ts => any test t || anyOf test ts

end

def unwrap : Tree → Tree
  | node .paren _ [inner] => inner.unwrap
  | t => t

def part? (t : Tree) (test : NodeKind → Bool) : Option Tree :=
  t.parts.find? fun p => test p.kind

end Tree

end PageCompiler.Code
