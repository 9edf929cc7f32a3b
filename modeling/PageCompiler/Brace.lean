import PageCompiler.Text.Bytes

/-!
# Matching braces

`matchingBrace?` finds the brace that closes an open one in the text of an expression. Braces inside
quoted strings, template literals and comments do not count; an interpolation of a template literal
holds code again, to any depth.

The scan reads one character at a time. Its state is what it is inside of: a stack of open braces,
template literals and interpolations, and, on top of that, possibly a quoted string or a comment.
-/

namespace PageCompiler.Brace

/-- What can be open around a place in code. -/
inductive Frame where
  | brace
  | template
  | interpolation
deriving DecidableEq, Repr

/-- What a place in code is inside of, besides the open frames. -/
inductive Inside where
  | code
  | quoted (quote : Char)
  | lineComment
  | blockComment
deriving DecidableEq, Repr

/-- The offset of the brace that closes the bottom frame of the stack, the text being at offset `pos`. -/
def close? : Inside → List Frame → Nat → List Char → Option Nat
  | .quoted q, stack, pos, '\\' :: d :: ds => close? (.quoted q) stack (pos + 1 + d.utf8Size) ds
  | .quoted q, stack, pos, c :: cs =>
    if c = '\n' then none
    else if c = q then close? .code stack (pos + c.utf8Size) cs
    else close? (.quoted q) stack (pos + c.utf8Size) cs
  | .lineComment, stack, pos, c :: cs =>
    if c = '\n' then close? .code stack (pos + c.utf8Size) cs
    else close? .lineComment stack (pos + c.utf8Size) cs
  | .blockComment, stack, pos, '*' :: '/' :: ds => close? .code stack (pos + 2) ds
  | .blockComment, stack, pos, c :: cs => close? .blockComment stack (pos + c.utf8Size) cs
  | .code, .template :: stack, pos, '\\' :: d :: ds =>
    close? .code (.template :: stack) (pos + 1 + d.utf8Size) ds
  | .code, .template :: stack, pos, '$' :: '{' :: ds =>
    close? .code (.interpolation :: .template :: stack) (pos + 2) ds
  | .code, .template :: stack, pos, c :: cs =>
    if c = '`' then close? .code stack (pos + c.utf8Size) cs
    else close? .code (.template :: stack) (pos + c.utf8Size) cs
  | .code, stack, pos, '/' :: '/' :: ds => close? .lineComment stack (pos + 2) ds
  | .code, stack, pos, '/' :: '*' :: ds => close? .blockComment stack (pos + 2) ds
  | .code, stack, pos, c :: cs =>
    if c = '\'' || c = '"' then close? (.quoted c) stack (pos + c.utf8Size) cs
    else if c = '`' then close? .code (.template :: stack) (pos + c.utf8Size) cs
    else if c = '{' then close? .code (.brace :: stack) (pos + c.utf8Size) cs
    else if c = '}' then
      match stack with
      | _ :: below :: rest => close? .code (below :: rest) (pos + c.utf8Size) cs
      | _ => some pos
    else close? .code stack (pos + c.utf8Size) cs
  | _, _, _, [] => none

theorem close?_nil (inside : Inside) (stack : List Frame) (pos : Nat) : close? inside stack pos [] = none := by
  simp only [close?]

end PageCompiler.Brace

namespace PageCompiler

/-- The number of bytes between the start of a text, which follows an open brace, and the brace that
closes it. -/
def closingBrace? (cs : List Char) : Option Nat :=
  Brace.close? .code [.brace] 0 cs

/-- The offset of the brace that closes the one at offset `start`. -/
def matchingBrace? (start : Nat) (cs : List Char) : Option Nat :=
  if Text.isBoundary start cs then
    match Text.dropBytes start cs with
    | '{' :: rest => (closingBrace? rest).map (start + 1 + ·)
    | _ => none
  else none

end PageCompiler
