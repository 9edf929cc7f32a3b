import PageCompiler.Diagnostic
import PageCompiler.Text.Decimal

/-!
# Data texts

Values in the JSON notation and their reading from text. A whole number without a fraction or an exponent
is kept as it is; any other number is only known to be one.
-/

namespace PageCompiler.Data

/-- A value. -/
inductive Value where
  | null
  | bool (value : Bool)
  | nat (value : Nat)
  /-- A negative number, or one with a fraction or an exponent. -/
  | otherNumber
  | string (value : String)
  | list (items : List Value)
  /-- Fields in the order in which they are written; a name may be written twice. -/
  | record (fields : List (String × Value))
deriving Repr

def isGap (c : Char) : Bool :=
  c == ' ' || c == '\t' || c == '\n' || c == '\r'

def skipGap (cs : List Char) : List Char :=
  cs.dropWhile isGap

def hexValue? (c : Char) : Option Nat :=
  if c.isDigit then some (c.toNat - '0'.toNat)
  else if 'a' ≤ c && c ≤ 'f' then some (c.toNat - 'a'.toNat + 10)
  else if 'A' ≤ c && c ≤ 'F' then some (c.toNat - 'A'.toNat + 10)
  else none

/-- The number that four hexadecimal digits write, and the text after them. -/
def unit? : List Char → Option (Nat × List Char)
  | a :: b :: c :: d :: rest => do
    return (((← hexValue? a) * 16 + (← hexValue? b)) * 256 + (← hexValue? c) * 16 + (← hexValue? d), rest)
  | _ => none

/-- The character of an escape by number, the text being after its `u`, and the text after it. A character
outside the first plane is written by two numbers. -/
def escaped? (cs : List Char) : Option (Char × List Char) := do
  let (high, rest) ← unit? cs
  if 0xDC00 ≤ high && high ≤ 0xDFFF then none
  else if 0xD800 ≤ high && high ≤ 0xDBFF then
    match rest with
    | '\\' :: 'u' :: more =>
      let (low, rest) ← unit? more
      guard (0xDC00 ≤ low && low ≤ 0xDFFF)
      return (Char.ofNat (0x10000 + (high - 0xD800) * 0x400 + (low - 0xDC00)), rest)
    | _ => none
  else return (Char.ofNat high, rest)

/-- The characters of a text up to its closing quote, and what follows. -/
def characters? (fuel : Nat) (cs : List Char) : Option (List Char × List Char) :=
  match fuel, cs with
  | _ + 1, '"' :: rest => some ([], rest)
  | fuel + 1, '\\' :: c :: rest => do
    let (char, rest) ← match c with
      | '"' => some ('"', rest)
      | '\\' => some ('\\', rest)
      | '/' => some ('/', rest)
      | 'b' => some ('\x08', rest)
      | 'f' => some ('\x0c', rest)
      | 'n' => some ('\n', rest)
      | 'r' => some ('\r', rest)
      | 't' => some ('\t', rest)
      | 'u' => escaped? rest
      | _ => none
    let (chars, rest) ← characters? fuel rest
    return (char :: chars, rest)
  | fuel + 1, c :: rest => do
    guard (0x20 ≤ c.toNat && c ≠ '\\')
    let (chars, rest) ← characters? fuel rest
    return (c :: chars, rest)
  | _, _ => none

/-- The text whose opening quote is read. -/
def string? (cs : List Char) : Option (String × List Char) := do
  let (chars, rest) ← characters? (cs.length + 1) cs
  return (String.ofList chars, rest)

/-- The digits at the head of a text, at least one, and what follows them. -/
def digits? (cs : List Char) : Option (List Char × List Char) :=
  let digits := cs.takeWhile Char.isDigit
  if digits.isEmpty then none else some (digits, cs.dropWhile Char.isDigit)

def number? (cs : List Char) : Option (Value × List Char) := do
  let (negative, cs) := match cs with
    | '-' :: rest => (true, rest)
    | _ => (false, cs)
  let (whole, rest) ← digits? cs
  guard (whole.length == 1 || whole.head? != some '0')
  let (fraction, rest) ← match rest with
    | '.' :: more => (digits? more).map fun (_, rest) => (true, rest)
    | _ => some (false, rest)
  let (exponent, rest) ← match rest with
    | c :: more =>
      if c == 'e' || c == 'E' then
        let unsigned := match more with
          | '+' :: more => more
          | '-' :: more => more
          | _ => more
        (digits? unsigned).map fun (_, rest) => (true, rest)
      else some (false, rest)
    | [] => some (false, rest)
  return (if negative || fraction || exponent then .otherNumber else .nat (Text.ofDigits whole), rest)

mutual

/-- The value at the head of a text, and what follows it. -/
def value? (fuel : Nat) (cs : List Char) : Option (Value × List Char) :=
  match fuel with
  | 0 => none
  | fuel + 1 =>
    match skipGap cs with
    | 'n' :: 'u' :: 'l' :: 'l' :: rest => some (.null, rest)
    | 't' :: 'r' :: 'u' :: 'e' :: rest => some (.bool true, rest)
    | 'f' :: 'a' :: 'l' :: 's' :: 'e' :: rest => some (.bool false, rest)
    | '"' :: rest => (string? rest).map fun (s, rest) => (.string s, rest)
    | '[' :: rest =>
      match skipGap rest with
      | ']' :: rest => some (.list [], rest)
      | rest => (items? fuel rest).map fun (items, rest) => (.list items, rest)
    | '{' :: rest =>
      match skipGap rest with
      | '}' :: rest => some (.record [], rest)
      | rest => (fields? fuel rest).map fun (fields, rest) => (.record fields, rest)
    | rest => number? rest

/-- The items of a list up to its closing bracket, and what follows. -/
def items? (fuel : Nat) (cs : List Char) : Option (List Value × List Char) :=
  match fuel with
  | 0 => none
  | fuel + 1 => do
    let (item, rest) ← value? fuel cs
    match skipGap rest with
    | ',' :: rest =>
      let (items, rest) ← items? fuel rest
      return (item :: items, rest)
    | ']' :: rest => return ([item], rest)
    | _ => none

/-- The fields of a record up to its closing brace, and what follows. -/
def fields? (fuel : Nat) (cs : List Char) : Option (List (String × Value) × List Char) :=
  match fuel with
  | 0 => none
  | fuel + 1 => do
    let '"' :: rest := skipGap cs | none
    let (name, rest) ← string? rest
    let ':' :: rest := skipGap rest | none
    let (value, rest) ← value? fuel rest
    match skipGap rest with
    | ',' :: rest =>
      let (fields, rest) ← fields? fuel rest
      return ((name, value) :: fields, rest)
    | '}' :: rest => return ([(name, value)], rest)
    | _ => none

end

def read (text : List Char) : Except SyntaxError Value :=
  match value? (2 * text.length + 2) text with
  | none => throw ⟨0⟩
  | some (value, rest) =>
    if rest.all isGap then return value else throw ⟨Text.byteLength text - Text.byteLength rest⟩

end PageCompiler.Data
