import PageCompiler.Script.Declared

/-!
# Handlers written in markup

Code that stands as the value of an event attribute becomes a named function in a block of its own. A
function keeps its parameters; any other code becomes the body of a function of `event`. Inside a loop the
function takes the variables of the loop as a last parameter.
-/

namespace PageCompiler

namespace Script

/-- Whether parentheses are balanced in the text, from the given depth on. -/
def balancedFrom (depth : Nat) : List Char → Bool
  | [] => depth == 0
  | '(' :: cs => balancedFrom (depth + 1) cs
  | ')' :: cs =>
    match depth with
    | 0 => false
    | depth + 1 => balancedFrom depth cs
  | _ :: cs => balancedFrom depth cs

/-- The code without the parentheses around the whole of it; there are at most `fuel` of them. -/
def unparenthesized (fuel : Nat) (cs : List Char) : List Char :=
  let cs := Text.trim cs
  match fuel with
  | 0 => cs
  | fuel + 1 =>
    match cs with
    | '(' :: rest =>
      if rest.getLast? == some ')' && balancedFrom 0 rest.dropLast then unparenthesized fuel rest.dropLast
      else cs
    | _ => cs

/-- What a handler is made of. -/
structure HandlerParts where
  isAsync : Bool
  params : String
  body : String

/-- The token that closes the first of the tokens, and what follows it. -/
def closing? (depth : Int) : List Token → Option (Token × List Token)
  | [] => none
  | t :: rest =>
    let depth := depth + t.depth
    if depth == 0 then some (t, rest) else closing? depth rest

/-- The first arrow outside of brackets, and what follows it. -/
def arrow? (depth : Int) : List Token → Option (Token × List Token)
  | [] => none
  | t :: rest =>
    let depth := depth + t.depth
    if depth == 0 && t.isPunct "=>" then some (t, rest) else arrow? depth rest

def between (code : List Char) (start stop : Nat) : String :=
  String.ofList (Text.trim (Text.slice start stop code))

def functionParts? (code : List Char) (isAsync : Bool) (ts : List Token) : Option HandlerParts := do
  let fromOpen := ts.dropWhile (!·.isPunct "(")
  let opening ← fromOpen.head?
  let (close, rest) := (closing? 0 fromOpen).getD (opening, fromOpen.drop 1)
  let brace ← rest.head?
  guard (brace.isPunct "\x7b")
  let stop ← matchingBrace? brace.start code
  return ⟨isAsync, between code opening.stop close.start, between code (brace.start + 1) stop⟩

/-- The text inside the parentheses around it, or the text itself. -/
def withoutParens (cs : List Char) : List Char :=
  match cs with
  | '(' :: rest => if rest.getLast? == some ')' then rest.dropLast else cs
  | _ => cs

/-- The parts of an arrow function; `ts` are its tokens without the word `async`. -/
def arrowParts? (code : List Char) (isAsync : Bool) (all ts : List Token) : Option HandlerParts := do
  let (arrow, rest) ← arrow? 0 all
  let first ← ts.head?
  let head := Text.trim (Text.slice first.start arrow.start code)
  let params := String.ofList (Text.trim (withoutParens head))
  let start ← rest.head?
  let body := String.ofList (Text.trim (Text.dropBytes start.start code))
  let block := do
    guard (start.isPunct "\x7b")
    let stop ← matchingBrace? start.start code
    guard (Text.allBlank (Text.dropBytes (stop + 1) code))
    return between code (start.start + 1) stop
  match block with
  | some inner => return ⟨isAsync, params, inner⟩
  | none => return ⟨isAsync, params, body ++ ";"⟩

def handlerParts? (code : List Char) : Option HandlerParts := do
  let all ← (tokens code).toOption
  let isAsync := (all.head?.map (·.isWord "async")).getD false
  let ts := if isAsync then all.drop 1 else all
  if (ts.head?.map (·.isWord "function")).getD false then functionParts? code isAsync all
  else arrowParts? code isAsync all ts

/-- The text of the function for a handler, in a loop with the given variables. -/
def handlerCode (name code : String) (vars : List String) : String :=
  let cs := unparenthesized code.length code.toList
  let parts := (handlerParts? cs).getD
    ⟨false, "", String.ofList (cs.reverse.dropWhile (· == ';')).reverse ++ ";"⟩
  let params := if parts.params.isEmpty then "event" else parts.params
  let params := if vars.isEmpty then params
    else params ++ ", \x7b " ++ joinStrings ", " vars ++ " \x7d"
  let keyword := if parts.isAsync then "async function" else "function"
  keyword ++ " " ++ name ++ "(" ++ params ++ ") \x7b " ++ parts.body ++ " \x7d"

end Script

/-- The block that holds the code of a handler, as the next one of the script. -/
def Script.handlerBlock (s : Script) (code : String) (position : Position) (file : String) :
    Compiled Script.Block := do
  return { ← Script.Block.read s.blocks.length code [] position file with lifted := true }

def Script.addHandler (s : Script) (code : String) (position : Position) (file : String) :
    Compiled Script := do
  s.add (← s.handlerBlock code position file) file

end PageCompiler
