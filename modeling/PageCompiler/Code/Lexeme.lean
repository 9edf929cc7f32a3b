import PageCompiler.Text.Identifier
import PageCompiler.Text.Bytes

/-!
# Lexemes of code

The smallest units of the language of expressions and scripts, and how each is cut off the front of a
text. What a character starts depends on the construct around it (`/` divides or opens a pattern, `>`
closes a list of types or compares, text between elements is free), so each of these readings is a
function of its own and the grammar chooses among them. Every reading says how many characters it takes.
-/

namespace PageCompiler.Code

open Text (isIdStart isIdPart)

/-- A unit of code. -/
inductive Lexeme where
  | finish
  /-- A name or keyword. A word that is spelled with an escape may be a name only, even where it reads as a
  keyword. -/
  | word (text : String) (escaped : Bool)
  /-- A name of a private member of a class, without the mark before it. -/
  | privateName (name : String)
  | mark (text : String)
  | number
  | string (value : String)
  | regex
  /-- A stretch of a template: `closed` if the template ends with it, `valid` if all its escapes are. -/
  | template (closed valid : Bool)
  | text
  | unknown
deriving DecidableEq, Repr, Inhabited

/-- A unit cut off the front of a text: how many characters it takes, and whether it is well formed. -/
structure Cut where
  lexeme : Lexeme
  count : Nat
  sound : Bool := true
deriving Repr

/-! ## Blanks and comments -/

def isLineEnd (c : Char) : Bool :=
  c == '\n' || c == '\r' || c.toNat == 0x2028 || c.toNat == 0x2029

/-- Characters without meaning between two units, line ends apart. -/
def isPadding (c : Char) : Bool :=
  let n := c.toNat
  n == 0x20 || n == 0x09 || n == 0x0B || n == 0x0C || n == 0xA0 || n == 0xFEFF || n == 0x85 ||
    n == 0x1680 || n == 0x180E || (0x2000 ≤ n && n ≤ 0x200B) || n == 0x202F || n == 0x205F || n == 0x3000

/-- What stands between two units: how many characters, whether a line ends among them, and whether the
last comment is closed. -/
structure Gap where
  count : Nat := 0
  newline : Bool := false
  closed : Bool := true

/-- Where a reader of gaps is. -/
inductive GapMode where
  | between
  | lineComment
  | blockComment

/-- Reads a gap from the front of the text, on top of the part of it that is already read. -/
def readGap : GapMode → Gap → List Char → Gap
  | .between, g, '/' :: '/' :: cs => readGap .lineComment { g with count := g.count + 2 } cs
  | .between, g, '/' :: '*' :: cs => readGap .blockComment { g with count := g.count + 2 } cs
  | .between, g, c :: cs =>
    if isLineEnd c then readGap .between { g with count := g.count + 1, newline := true } cs
    else if isPadding c then readGap .between { g with count := g.count + 1 } cs
    else g
  | .lineComment, g, c :: cs =>
    if isLineEnd c then readGap .between { g with count := g.count + 1, newline := true } cs
    else readGap .lineComment { g with count := g.count + 1 } cs
  | .blockComment, g, '*' :: '/' :: cs => readGap .between { g with count := g.count + 2 } cs
  | .blockComment, g, c :: cs =>
    readGap .blockComment { g with count := g.count + 1, newline := g.newline || isLineEnd c } cs
  | .blockComment, g, [] => { g with closed := false }
  | _, g, [] => g

def gap (cs : List Char) : Gap :=
  readGap .between {} cs

/-! ## Escapes -/

def hexValue? (c : Char) : Option Nat :=
  if c.isDigit then some (c.toNat - '0'.toNat)
  else if 'a' ≤ c && c ≤ 'f' then some (c.toNat - 'a'.toNat + 10)
  else if 'A' ≤ c && c ≤ 'F' then some (c.toNat - 'A'.toNat + 10)
  else none

def hexNumber? (cs : List Char) : Option Nat :=
  cs.foldl (fun value c => do return (← value) * 16 + (← hexValue? c)) (some 0)

/-- Reads the code point after `\u`: the number of characters taken and the code point. -/
def unicodeEscape? : List Char → Option (Nat × Nat)
  | '{' :: cs =>
    let digits := cs.takeWhile fun c => (hexValue? c).isSome
    match cs.drop digits.length, hexNumber? digits with
    | '}' :: _, some n => if digits.isEmpty || 0x10FFFF < n then none else some (digits.length + 2, n)
    | _, _ => none
  | a :: b :: c :: d :: _ => (hexNumber? [a, b, c, d]).map fun n => (4, n)
  | _ => none

/-- The character of a code point; half of a surrogate pair has none and becomes the replacement. -/
def codePoint (n : Nat) : Char :=
  if 0xD800 ≤ n && n < 0xE000 then Char.ofNat 0xFFFD else Char.ofNat n

/-- The characters of a code point in a quoted text: half of a surrogate pair is the replacement, followed by
the four hexadecimal digits of the half. -/
def codePointText (n : Nat) : List Char :=
  if 0xD800 ≤ n && n < 0xE000 then codePoint n :: Nat.toDigits 16 n else [codePoint n]

def isLeadSurrogate (n : Nat) : Bool :=
  0xD800 ≤ n && n < 0xDC00

def isTrailSurrogate (n : Nat) : Bool :=
  0xDC00 ≤ n && n < 0xE000

/-- Reads the code point after `\u` in a quoted text: how many characters and what they stand for. Two
escapes of four digits each that are the halves of a surrogate pair stand for one character. -/
def unicodeEscapeText? (cs : List Char) : Option (Nat × List Char) := do
  let (n, lead) ← unicodeEscape? cs
  if n == 4 && isLeadSurrogate lead then
    match cs.drop 4 with
    | '\\' :: 'u' :: a :: b :: c :: d :: _ =>
      let trail ← hexNumber? [a, b, c, d]
      if isTrailSurrogate trail then
        return (10, [codePoint ((lead - 0xD800) * 0x400 + (trail - 0xDC00) + 0x10000)])
    | _ => pure ()
  return (n, codePointText lead)

def isOctalDigit (c : Char) : Bool :=
  '0' ≤ c && c ≤ '7'

/-- Reads a character that is written by its number in up to three octal digits, at most 255. -/
def octalEscape (cs : List Char) : Nat × Char :=
  let most := match cs with
    | c :: _ => if c ≤ '3' then 3 else 2
    | [] => 0
  let digits := (cs.take most).takeWhile isOctalDigit
  (digits.length, Char.ofNat (digits.foldl (fun n c => n * 8 + (c.toNat - '0'.toNat)) 0))

/-- Reads what follows a backslash in a quoted text: how many characters and what they stand for. -/
def escape? : List Char → Option (Nat × List Char)
  | [] => none
  | '\r' :: '\n' :: _ => some (2, [])
  | 'u' :: cs => (unicodeEscapeText? cs).map fun (n, text) => (n + 1, text)
  | 'x' :: a :: b :: _ => (hexNumber? [a, b]).map fun n => (3, [codePoint n])
  | 'x' :: _ => none
  | 'n' :: _ => some (1, ['\n'])
  | 'r' :: _ => some (1, ['\r'])
  | 't' :: _ => some (1, ['\t'])
  | 'b' :: _ => some (1, [Char.ofNat 8])
  | 'v' :: _ => some (1, [Char.ofNat 11])
  | 'f' :: _ => some (1, [Char.ofNat 12])
  | c :: cs =>
    if isLineEnd c then some (1, [])
    else if isOctalDigit c then
      let (n, value) := octalEscape (c :: cs)
      some (n, [value])
    else some (1, [c])

/-! ## Quoted texts -/

/-- Reads a text up to its closing quote: the number of characters, the quote included, the text in
reverse order, and whether all escapes are valid; `none` if the quote is missing. -/
def readQuoted (quote : Char) (count : Nat) (value : List Char) (sound : Bool) (cs : List Char) :
    Option (Nat × List Char × Bool) :=
  match cs with
  | [] => none
  | c :: rest =>
    if c = quote then some (count + 1, value, sound)
    else if c = '\\' then
      match escape? rest with
      | some (n, out) => readQuoted quote (count + 1 + n) (out.reverse ++ value) sound (rest.drop n)
      | none => readQuoted quote (count + 1) value false rest
    else if c == '\n' || c == '\r' then none
    else readQuoted quote (count + 1) (c :: value) sound rest
termination_by cs.length
decreasing_by all_goals (simp only [List.length_cons, List.length_drop]; omega)

/-- A quoted text, cut off after its opening quote. -/
def cutQuoted (quote : Char) (cs : List Char) : Cut :=
  match readQuoted quote 1 [] true cs with
  | some (count, value, sound) => ⟨.string (String.ofList value.reverse), count, sound⟩
  | none => ⟨.unknown, cs.length + 1, false⟩

/-- A quoted value of an attribute: it has no escapes and may hold line ends. -/
def cutRawQuoted (quote : Char) (cs : List Char) : Cut :=
  let value := cs.takeWhile (· != quote)
  match cs.drop value.length with
  | [] => ⟨.unknown, cs.length + 1, false⟩
  | _ :: _ => ⟨.string (String.ofList value), value.length + 2, true⟩

/-- Whether what follows a backslash in a template has a meaning: a digit has none, but for a lone zero. -/
def templateEscape? : List Char → Option Nat
  | '0' :: c :: _ => if c.isDigit then none else some 1
  | c :: cs => if c.isDigit && c != '0' then none else (escape? (c :: cs)).map (·.1)
  | [] => none

/-- Reads a stretch of a template, up to its end or to the next code in it: the number of characters, the
closing mark included, whether the template ends there, and whether all escapes are valid. -/
def readTemplate (count : Nat) (valid : Bool) (cs : List Char) : Option (Nat × Bool × Bool) :=
  match cs with
  | [] => none
  | '`' :: _ => some (count + 1, true, valid)
  | '$' :: '{' :: _ => some (count + 2, false, valid)
  | '\\' :: c :: rest =>
    match templateEscape? (c :: rest) with
    | some n => readTemplate (count + 1 + (n - 1 + 1)) valid (rest.drop (n - 1))
    | none => readTemplate (count + 2) false rest
  | _ :: rest => readTemplate (count + 1) valid rest
termination_by cs.length
decreasing_by all_goals (simp only [List.length_cons, List.length_drop]; omega)

/-- A stretch of a template, cut off after the mark that opens it. -/
def cutTemplate (cs : List Char) : Cut :=
  match readTemplate 1 true cs with
  | some (count, closed, valid) => ⟨.template closed valid, count, true⟩
  | none => ⟨.unknown, cs.length + 1, false⟩

/-! ## Patterns -/

/-- Reads the body of a pattern up to its closing slash; inside a class a slash is a character. -/
def readPattern (inClass : Bool) (count : Nat) : List Char → Option Nat
  | [] => none
  | '\\' :: c :: cs => if isLineEnd c then none else readPattern inClass (count + 2) cs
  | c :: cs =>
    if isLineEnd c then none
    else if c = '[' then readPattern true (count + 1) cs
    else if c = ']' then readPattern false (count + 1) cs
    else if c = '/' && !inClass then some (count + 1)
    else readPattern inClass (count + 1) cs

/-- A pattern, cut off after its opening slash, with its flags. No flag may be repeated, and `u` and `v`
exclude each other. -/
def cutPattern (cs : List Char) : Cut :=
  match readPattern false 1 cs with
  | none => ⟨.unknown, cs.length + 1, false⟩
  | some count =>
    let flags := (cs.drop (count - 1)).takeWhile fun c => c.isAlphanum || c == '_' || c == '$'
    let clash := flags.contains 'u' && flags.contains 'v'
    ⟨.regex, count + flags.length, flags.all ("dgimsuvy".toList.contains ·) && flags.Nodup && !clash⟩

/-! ## Numbers -/

/-- How many characters a run of digits takes; an underscore may stand between two digits, and anywhere
else it spoils the run. -/
def digitRun (isDigit : Char → Bool) : List Char → Nat × Bool
  | [] => (0, true)
  | c :: cs =>
    if isDigit c then
      let (n, sound) := digitRun isDigit cs
      (n + 1, sound)
    else if c == '_' then
      match cs with
      | d :: _ =>
        if isDigit d then
          let (n, sound) := digitRun isDigit cs
          (n + 1, sound)
        else (1, false)
      | [] => (1, false)
    else (0, true)

def exponentRun : List Char → Nat × Bool
  | c :: cs =>
    if c == 'e' || c == 'E' then
      let signed := match cs with
        | '+' :: _ => 1
        | '-' :: _ => 1
        | _ => 0
      let digits := cs.drop signed
      if (digits.head?.map Char.isDigit).getD false then
        let (n, sound) := digitRun Char.isDigit digits
        (n + signed + 1, sound)
      else (signed + 1, false)
    else (0, true)
  | [] => (0, true)

def fractionRun : List Char → Nat × Bool
  | '.' :: cs =>
    let (n, sound) := if (cs.head?.map Char.isDigit).getD false then digitRun Char.isDigit cs
      else (0, cs.head? != some '_')
    let (m, sound') := exponentRun (cs.drop n)
    (n + m + 1, sound && sound')
  | cs => exponentRun cs

/-- Digits of a number written in another base, and the mark of a large number. -/
def basedRun (isDigit : Char → Bool) (cs : List Char) : Nat × Bool :=
  if (cs.head?.map isDigit).getD false then
    let (n, sound) := digitRun isDigit cs
    if (cs.drop n).head? == some 'n' then (n + 3, sound) else (n + 2, sound)
  else (2, false)

/-- How many characters the number at the front of the text takes, and whether it is well formed. A number
with a zero before other digits has no underscores; if all of them are octal it ends with them, and otherwise
only a small `e` starts its exponent. -/
def numberRun : List Char → Nat × Bool
  | '0' :: 'x' :: cs => basedRun (fun c => (hexValue? c).isSome) cs
  | '0' :: 'X' :: cs => basedRun (fun c => (hexValue? c).isSome) cs
  | '0' :: 'o' :: cs => basedRun isOctalDigit cs
  | '0' :: 'O' :: cs => basedRun isOctalDigit cs
  | '0' :: 'b' :: cs => basedRun (fun c => c == '0' || c == '1') cs
  | '0' :: 'B' :: cs => basedRun (fun c => c == '0' || c == '1') cs
  | '0' :: c :: cs =>
    if c.isDigit then
      let digits := (c :: cs).takeWhile Char.isDigit
      let tail := (c :: cs).drop digits.length
      if digits.all isOctalDigit || tail.head? == some 'E' then (digits.length + 1, true)
      else
        let (n, sound) := fractionRun tail
        (digits.length + 1 + n, sound)
    else if c == 'n' then (2, true)
    else
      let (n, sound) := fractionRun (c :: cs)
      (n + 1, sound)
  | '.' :: cs => fractionRun ('.' :: cs)
  | cs =>
    let (n, sound) := digitRun Char.isDigit cs
    if (cs.drop n).head? == some 'n' then (n + 1, sound)
    else
      let (m, sound') := fractionRun (cs.drop n)
      (n + m, sound && sound')

def isZeroExponent (cs : List Char) : Bool :=
  match cs with
  | '0' :: tail =>
    let digits := tail.takeWhile Char.isDigit
    match tail.drop digits.length with
    | 'e' :: _ => digits.isEmpty || digits.any (!isOctalDigit ·)
    | 'E' :: _ => digits.isEmpty
    | _ => false
  | _ => false

/-- A number; no letter or digit may follow it directly, unless it is a zero with an exponent. -/
def cutNumber (cs : List Char) : Cut :=
  let (n, sound) := numberRun cs
  let next := (cs.drop n).head?
  let parted := isZeroExponent cs || !(next.map fun c => c.isDigit || isIdStart c).getD false
  ⟨.number, n, sound && parted⟩

/-! ## Words and marks -/

/-- Reads the characters of a name: how many there are, the name in reverse order, whether it has an
escape, and whether all escapes are valid. -/
def readName (count : Nat) (name : List Char) (escaped sound : Bool) (cs : List Char) :
    Nat × List Char × Bool × Bool :=
  match cs with
  | '\\' :: 'u' :: rest =>
    match unicodeEscape? rest with
    | some (n, value) =>
      let c := codePoint value
      let allowed := if name.isEmpty then isIdStart c else isIdPart c
      readName (count + 2 + n) (c :: name) true (sound && allowed) (rest.drop n)
    | none => (count + 2, name, true, false)
  | c :: rest =>
    if (if name.isEmpty then isIdStart c else isIdPart c) then
      readName (count + 1) (c :: name) escaped sound rest
    else (count, name, escaped, sound)
  | [] => (count, name, escaped, sound)
termination_by cs.length
decreasing_by all_goals (simp only [List.length_cons, List.length_drop]; omega)

def cutWord (cs : List Char) : Cut :=
  let (count, name, escaped, sound) := readName 0 [] false true cs
  ⟨.word (String.ofList name.reverse) escaped, count, sound⟩

/-- The marks of the language, each before those that it starts with. A closing angle stands for itself,
because it may end a list of types. -/
def marks : List String :=
  ["...", "=>", "===", "==", "=", "!==", "!=", "!", "**=", "**", "*=", "*", "++", "+=", "+", "--", "-=", "-",
    "<<=", "<<", "<=", "<", ">", "&&=", "&&", "&=", "&", "||=", "||", "|=", "|", "??=", "??", "?.", "?",
    "^=", "^", "%=", "%", "~", ":", ".", "/=", "/", "@", "\x7b", "\x7d", "(", ")", "[", "]", ";", ","]

/-- The marks that start with a closing angle, where angles compare or shift. -/
def angleMarks : List String :=
  [">>>=", ">>>", ">>=", ">=", ">>", ">"]

def mark? (marks : List String) (cs : List Char) : Option String :=
  marks.find? fun m => m.toList.isPrefixOf cs

/-- The unit at the front of a text that starts with no gap. -/
def cut (cs : List Char) : Cut :=
  match cs with
  | [] => ⟨.finish, 0, true⟩
  | '"' :: rest => cutQuoted '"' rest
  | '\'' :: rest => cutQuoted '\'' rest
  | '`' :: rest => cutTemplate rest
  | '#' :: rest =>
    let word := cutWord rest
    match word.lexeme with
    | .word name _ =>
      if word.count = 0 then ⟨.unknown, 1, false⟩ else ⟨.privateName name, word.count + 1, word.sound⟩
    | _ => ⟨.unknown, 1, false⟩
  | '?' :: '.' :: d :: _ => if d.isDigit then ⟨.mark "?", 1, true⟩ else ⟨.mark "?.", 2, true⟩
  | c :: rest =>
    if c.isDigit || (c = '.' && (rest.head?.map Char.isDigit).getD false) then cutNumber cs
    else if isIdStart c || c = '\\' then
      let word := cutWord cs
      if word.count = 0 then ⟨.unknown, 1, false⟩ else word
    else match mark? marks cs with
      | some m => ⟨.mark m, m.length, true⟩
      | none => ⟨.unknown, 1, false⟩

/-! ## Elements -/

/-- Text between elements, or the mark that ends it. Closing marks must not stand in text. -/
def cutChild (cs : List Char) : Cut :=
  match cs with
  | [] => ⟨.finish, 0, true⟩
  | '<' :: _ => ⟨.mark "<", 1, true⟩
  | '{' :: _ => ⟨.mark "\x7b", 1, true⟩
  | cs =>
    let text := cs.takeWhile fun c => c != '<' && c != '{'
    ⟨.text, text.length, !text.any fun c => c == '>' || c == '}'⟩

/-- How many characters a hyphenated name goes on for, after its first word. -/
def hyphenRun (cs : List Char) : Nat :=
  match cs with
  | '-' :: _ => (cs.takeWhile fun c => c == '-' || isIdPart c).length
  | _ => 0

end PageCompiler.Code
