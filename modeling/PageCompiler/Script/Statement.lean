import PageCompiler.Script.Token

/-!
# Statements of a script

The tokens of a script are grouped into its top-level statements, and each statement is classified by
what it declares: a state, a prop, an import, a function, other names, or nothing. The grouping follows
brackets, semicolons and line ends; it needs no knowledge of expressions.
-/

namespace PageCompiler.Script

def Token.depth (t : Token) : Int :=
  if t.kind == .punct then
    if t.text == "(" || t.text == "[" || t.text == "\x7b" then 1
    else if t.text == ")" || t.text == "]" || t.text == "\x7d" then -1
    else 0
  else 0

/-- Whether a token on a new line goes on with the statement that ends in `last`. -/
def continues (last next : Token) : Bool :=
  if last.kind == .punct && !([")", "]", "\x7d", "++", "--"].contains last.text) then true
  else match next.kind with
    | .punct => !(["(", "[", "\x7b", "++", "--", "!", "~"].contains next.text)
    | .word => ["else", "catch", "finally", "instanceof", "in", "of"].contains next.text
    | _ => false

/-- Whether the statement is a declaration that ends with its block: a function or a class. -/
def endsWithBlock : List Token → Bool
  | [] => false
  | t :: rest =>
    if t.isWord "function" || t.isWord "class" then true
    else if t.isWord "async" then (rest.head?.map (·.isWord "function")).getD false
    else if t.isWord "export" then endsWithBlock rest
    else false

/-- Whether a statement that ends in `t` at depth zero is complete, `group` being its tokens, `t` the
last one, and `next` the token after it. -/
def isComplete (group : List Token) (t : Token) (next : Option Token) : Bool :=
  if t.isPunct ";" then true
  else if t.isPunct "\x7d" && endsWithBlock group then
    match next with
    | some n => !(n.isPunct "." || n.isPunct "(")
    | none => true
  else match next with
    | some n => n.newlineBefore && !continues t n
    | none => false

/-- The statements of a list of tokens. `group` holds the tokens of the current statement so far, last
first, and `depth` the number of open brackets. -/
def groupFrom (group : List Token) (depth : Nat) : List Token → List (List Token)
  | [] => if group.isEmpty then [] else [group.reverse]
  | t :: rest =>
    let depth := ((depth : Int) + t.depth).toNat
    let group := t :: group
    if depth == 0 && isComplete group.reverse t rest.head? then group.reverse :: groupFrom [] depth rest
    else groupFrom group depth rest

def group (tokens : List Token) : List (List Token) :=
  groupFrom [] 0 tokens

/-- A statement, by what it declares. Spans count bytes of the script. -/
inductive Statement where
  /-- `state name = value`; the head runs from the keyword to the end of the name. -/
  | state (name value : String) (head span : Span)
  | prop (name : String) (fallback : Option String) (span : Span)
  | importing (source : String) (locals : List String) (span : Span)
  | function (name : String) (span : Span)
  /-- Names declared by `let`, `const`, `var` or `class`, and whether their value is a function. -/
  | names (names : List String) (isFunction : Bool) (span : Span)
  | other (span : Span)
deriving Repr, DecidableEq

namespace Statement

def span : Statement → Span
  | state _ _ _ span | prop _ _ span | importing _ _ span | function _ span | names _ _ span
  | other span => span

def functionName? : Statement → Option String
  | function name _ => some name
  | names declared true _ => declared.head?
  | _ => none

end Statement

def spanOf (ts : List Token) : Span :=
  match ts.head?, ts.getLast? with
  | some first, some last => ⟨first.start, last.stop⟩
  | _, _ => {}

def dropSemicolon (ts : List Token) : List Token :=
  match ts.getLast? with
  | some last => if last.isPunct ";" then ts.dropLast else ts
  | none => ts

/-- The text of the statement from its `n`-th token on, a semicolon at the end apart. -/
def textFrom? (source : List Char) (ts : List Token) (n : Nat) : Option String :=
  match (dropSemicolon ts).drop n with
  | [] => none
  | t :: rest => some (String.ofList (Text.trim (Text.slice t.start (spanOf (t :: rest)).stop source)))

def unquoted (t : Token) : String :=
  let cs := t.text.toList
  if 2 ≤ t.text.utf8ByteSize then String.ofList ((cs.drop 1).dropLast) else t.text

/-- The local names of the braces of an import, and the tokens after the closing brace. -/
def bracedLocals (ts : List Token) : List String × List Token :=
  match ts with
  | [] => ([], [])
  | t :: rest =>
    if t.isPunct "\x7d" then ([], rest)
    else if t.kind == .word && !t.isWord "type" then
      if (rest.head?.map (·.isWord "as")).getD false then
        let later := bracedLocals (rest.drop 2)
        ((rest[1]?.map (·.text)).toList ++ later.1, later.2)
      else
        let later := bracedLocals rest
        (t.text :: later.1, later.2)
    else bracedLocals rest
termination_by ts.length

theorem length_bracedLocals_le (ts : List Token) : (bracedLocals ts).2.length ≤ ts.length := by
  induction h : ts.length using Nat.strongRecOn generalizing ts with
  | _ n ih =>
    subst h
    match ts with
    | [] => simp [bracedLocals]
    | t :: rest =>
      have h₁ := ih rest.length (by simp) rest rfl
      have h₂ := ih (rest.drop 2).length (by simp only [List.length_drop, List.length_cons]; omega) (rest.drop 2) rfl
      rw [bracedLocals]
      simp only [List.length_drop] at h₂
      split
      · simp
      · split
        · split <;> simp only [List.length_cons] <;> omega
        · simp only [List.length_cons]
          omega

/-- The local names of an import, the tokens being after the word `import`. -/
def localsFrom (ts : List Token) : List String :=
  match ts with
  | [] => []
  | t :: rest =>
    if t.isWord "from" || t.kind == .string then []
    else if t.isPunct "*" then
      ((rest[1]?.map (·.text)).toList) ++ localsFrom (rest.drop 2)
    else if t.isPunct "\x7b" then
      (bracedLocals rest).1 ++ localsFrom (bracedLocals rest).2
    else if t.kind == .word then t.text :: localsFrom rest
    else localsFrom rest
termination_by ts.length
decreasing_by
  · simp only [List.length_drop, List.length_cons]
    omega
  · have := length_bracedLocals_le rest
    simp only [List.length_cons]
    omega
  · simp
  · simp

/-- The local names that an import statement binds. A type import binds none. -/
def importLocals (ts : List Token) : List String :=
  if (ts[1]?.map (·.isWord "type")).getD false then [] else localsFrom (ts.drop 1)

/-- The names that a destructuring pattern binds, the tokens starting with its bracket. `last` is the
token before and `depth` the depth of brackets there. -/
def patternNamesFrom (last : Option Token) (depth : Int) : List Token → List String
  | [] => []
  | t :: rest =>
    let depth := depth + t.depth
    let next := rest.head?
    let isKey := (next.map (·.isPunct ":")).getD false
    let isDefault := (last.map (·.isPunct "=")).getD false
    let endsBinding := (next.map fun n =>
      n.isPunct "," || n.isPunct "\x7d" || n.isPunct "]" || n.isPunct "=").getD true
    let here := if t.kind == .word && !isKey && !isDefault && endsBinding then [t.text] else []
    if depth == 0 && last.isSome then here else here ++ patternNamesFrom (some t) depth rest

def patternNames (ts : List Token) : List String :=
  patternNamesFrom none 0 ts

/-- The names declared by a list of declarators. `expecting` says that a binding comes next. -/
def declaratorNames (expecting : Bool) (depth : Int) : List Token → List String
  | [] => []
  | t :: rest =>
    let bound := expecting && depth == 0
    let here :=
      if bound then
        if t.kind == .word then [t.text]
        else if t.isPunct "\x7b" || t.isPunct "[" then patternNames (t :: rest)
        else []
      else []
    let depth := depth + t.depth
    here ++ declaratorNames ((expecting && !bound) || (depth == 0 && t.isPunct ",")) depth rest

/-- Whether the token after the bracket that closes the first of the tokens is an arrow. -/
def arrowFollows (depth : Int) : List Token → Bool
  | [] => false
  | t :: rest =>
    let depth := depth + t.depth
    if depth == 0 then (rest.head?.map (·.isPunct "=>")).getD false else arrowFollows depth rest

/-- Whether the value after the first `=` of the statement is a function. -/
def initialisesFunction (ts : List Token) : Bool :=
  let value := (ts.dropWhile (!·.isPunct "=")).drop 1
  let value := match value with
    | t :: rest => if t.isWord "async" then rest else value
    | [] => []
  match value with
  | [] => false
  | t :: rest =>
    if t.isWord "function" then true
    else if t.kind == .word then (rest.head?.map (·.isPunct "=>")).getD false
    else if t.isPunct "(" then arrowFollows 0 value
    else false

/-- Whether the statement is a declaration by the given keyword: a word follows, then `=`, `;` or
nothing. -/
def declares (keyword : String) (ts : List Token) : Bool :=
  match ts with
  | first :: second :: rest =>
    first.isWord keyword && second.kind == .word &&
      (rest.head?.map fun t => t.isPunct "=" || t.isPunct ";").getD true
  | _ => false

def declaredValue? (source : List Char) (ts : List Token) : Option String :=
  if (ts[2]?.map (·.isPunct "=")).getD false then textFrom? source ts 3 else none

def declaredFunction? (ts : List Token) : Option String :=
  let ts := match ts with
    | t :: rest => if t.isWord "async" then rest else ts
    | [] => []
  match ts with
  | f :: rest =>
    if f.isWord "function" then
      let rest := match rest with
        | t :: later => if t.isPunct "*" then later else rest
        | [] => []
      match rest with
      | name :: _ => if name.kind == .word then some name.text else none
      | [] => none
    else none
  | [] => none

def classify (source : List Char) (ts : List Token) : Statement :=
  let span := spanOf ts
  match ts with
  | [] => .other span
  | first :: rest =>
    if first.isWord "export" && (rest.head?.map (!·.isWord "default")).getD false then
      match classify source rest with
      | .function name _ => .function name span
      | .names names isFunction _ => .names names isFunction span
      | _ => .other span
    else if declares "state" ts then
      let name := rest.head?.getD first
      .state name.text ((declaredValue? source ts).getD "undefined") ⟨first.start, name.stop⟩ span
    else if declares "prop" ts then
      .prop (rest.head?.getD first).text (declaredValue? source ts) span
    else if first.isWord "import" &&
        !(rest.head?.map fun t => t.isPunct "(" || t.isPunct ".").getD false then
      let importedFrom := (ts.reverse.find? (·.kind == .string)).map unquoted
      .importing (importedFrom.getD "") (importLocals ts) span
    else match declaredFunction? ts with
      | some name => .function name span
      | none =>
        if first.isWord "let" || first.isWord "const" || first.isWord "var" then
          .names (declaratorNames true 0 rest) (initialisesFunction ts) span
        else if first.isWord "class" then
          match rest with
          | name :: _ => if name.kind == .word then .names [name.text] false span else .other span
          | [] => .other span
        else .other span

def statements (source : List Char) : Except TokenError (List Statement) :=
  (tokens source).map fun ts => (group ts).map (classify source)

end PageCompiler.Script
