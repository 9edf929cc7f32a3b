import PageCompiler.Brace
import PageCompiler.Diagnostic
import PageCompiler.Markup.Tag
import PageCompiler.Text.Search

/-!
# Tokens of a script

A script is read as a list of tokens. A string, a template literal with all that it interpolates and a
regular expression are one token each, so that a word inside of them is never taken for a statement.
Blanks and comments only separate tokens; a token knows whether a line ended before it.
-/

namespace PageCompiler.Script

/-- The classes of token. -/
inductive TokenKind where
  | word
  | punct
  | string
  | template
  | regex
  | number
deriving DecidableEq, Repr

/-- A token and where it stands. -/
structure Token where
  kind : TokenKind
  text : String
  start : Nat
  stop : Nat
  newlineBefore : Bool
deriving Repr, DecidableEq

namespace Token

def isPunct (t : Token) (p : String) : Bool :=
  t.kind == .punct && t.text == p

def isWord (t : Token) (w : String) : Bool :=
  t.kind == .word && t.text == w

end Token

/-- An ill-formed token and where it starts. -/
structure TokenError where
  fault : TokenFault
  offset : Nat
deriving Repr, DecidableEq

/-- The punctuators of more than one character, longer ones before their beginnings. -/
def punctuators : List (List Char) :=
  [">>>=", "...", "===", "!==", "**=", "<<=", ">>=", ">>>", "&&=", "||=", "??=", "=>", "==",
    "!=", "<=", ">=", "&&", "||", "??", "?.", "++", "--", "+=", "-=", "*=", "/=", "%=", "&=",
    "|=", "^=", "**", "<<", ">>"].map String.toList

/-- The words after which a slash starts a regular expression. -/
def regexLeaders : List String :=
  ["return", "typeof", "case", "do", "else", "in", "instanceof", "new", "delete", "void",
    "throw", "yield", "await", "of"]

/-- What a word may start with: an ASCII letter, `_`, `$` or any character outside ASCII. -/
def isWordStart (c : Char) : Bool :=
  c.isAlpha || c == '_' || c == '$' || 128 ≤ c.toNat

def isWordPart (c : Char) : Bool :=
  isWordStart c || c.isDigit

/-- Whether a slash after this token starts a regular expression. -/
def regexMayFollow : Option Token → Bool
  | none => true
  | some t =>
    match t.kind with
    | .punct => !(t.text == ")" || t.text == "]" || t.text == "\x7d")
    | .word => regexLeaders.contains t.text
    | _ => false

def stringSize? (quote : Char) : List Char → Option Nat
  | '\\' :: _ :: cs => (stringSize? quote cs).map (· + 2)
  | c :: cs =>
    if c = quote then some 1
    else if c = '\n' then none
    else (stringSize? quote cs).map (· + 1)
  | [] => none

/-- How many characters of the text a template literal has after its opening backtick, or where inside
the text an interpolation of it is not closed. -/
def templateSize (pos : Nat) (cs : List Char) : Except (Option Nat) Nat :=
  match cs with
  | '\\' :: d :: rest => (templateSize (pos + 1 + d.utf8Size) rest).map (· + 2)
  | '$' :: '{' :: rest =>
    match closingBrace? rest with
    | some size =>
      let inner := (Text.takeBytes size rest).length
      (templateSize (pos + 2 + size + 1) (rest.drop (inner + 1))).map (· + (2 + inner + 1))
    | none => .error (some pos)
  | c :: rest => if c = '`' then .ok 1 else (templateSize (pos + c.utf8Size) rest).map (· + 1)
  | [] => .error none
termination_by cs.length

/-- How many characters of the text a regular expression has after its opening slash, flags apart. -/
def regexSize? (inClass : Bool) : List Char → Option Nat
  | '\\' :: _ :: cs => (regexSize? inClass cs).map (· + 2)
  | c :: cs =>
    if c = '\n' then none
    else if c = '/' && !inClass then some 1
    else
      let inClass := if c = '[' then true else if c = ']' then false else inClass
      (regexSize? inClass cs).map (· + 1)
  | [] => none

/-- How many characters of the text a number has after the character `last`. -/
def numberSize (last : Char) : List Char → Nat
  | c :: cs =>
    if c.isAlphanum || c = '_' || c = '.' || ((c = '+' || c = '-') && (last = 'e' || last = 'E')) then
      numberSize c cs + 1
    else 0
  | [] => 0

/-- The class of the token that starts with `c` and how many characters of the text after `c` belong
to it, `last` being the token before it and `pos` the offset of `c`. -/
def tokenSize (last : Option Token) (pos : Nat) (c : Char) (cs : List Char) :
    Except TokenError (TokenKind × Nat) :=
  if c = '"' || c = '\'' then
    match stringSize? c cs with
    | some n => .ok (.string, n)
    | none => .error ⟨.openString, pos⟩
  else if c = '`' then
    match templateSize (pos + 1) cs with
    | .ok n => .ok (.template, n)
    | .error none => .error ⟨.openTemplate, pos⟩
    | .error (some place) => .error ⟨.openInterpolation, place⟩
  else if c.isDigit || (c = '.' && (cs.head?.map Char.isDigit).getD false) then
    .ok (.number, numberSize c cs)
  else if c = '/' && regexMayFollow last then
    match regexSize? false cs with
    | some n => .ok (.regex, n + ((cs.drop n).takeWhile Char.isAlpha).length)
    | none => .error ⟨.openRegex, pos⟩
  else if isWordStart c then .ok (.word, (cs.takeWhile isWordPart).length)
  else match punctuators.find? (·.isPrefixOf (c :: cs)) with
    | some p => .ok (.punct, p.length - 1)
    | none => .ok (.punct, 0)

/-- The tokens of the text, which is at offset `pos`. `last` is the token before the text, `newline`
whether a line ended since then. -/
def tokensFrom (last : Option Token) (newline : Bool) (pos : Nat) (cs : List Char) :
    Except TokenError (List Token) :=
  match cs with
  | [] => .ok []
  | c :: rest =>
    if c = '\n' then tokensFrom last true (pos + 1) rest
    else if Text.isSpace c then tokensFrom last newline (pos + 1) rest
    else if c = '/' && rest.head? = some '/' then
      let comment := rest.takeWhile (· ≠ '\n')
      tokensFrom last newline (pos + 1 + Text.byteLength comment) (rest.drop comment.length)
    else if c = '/' && rest.head? = some '*' then
      match Text.breakOn? "*/".toList (rest.drop 1) with
      | none => .error ⟨.openComment, pos⟩
      | some (comment, _) =>
        tokensFrom last (newline || comment.contains '\n') (pos + 2 + Text.byteLength comment + 2)
          (rest.drop (1 + comment.length + 2))
    else
      match tokenSize last pos c rest with
      | .error e => .error e
      | .ok (kind, n) =>
        let text := c :: rest.take n
        let stop := pos + Text.byteLength text
        let token := { kind, text := String.ofList text, start := pos, stop, newlineBefore := newline }
        (tokensFrom (some token) false stop (rest.drop n)).map (token :: ·)
termination_by cs.length

def tokens (source : List Char) : Except TokenError (List Token) :=
  tokensFrom none false 0 source

end PageCompiler.Script
