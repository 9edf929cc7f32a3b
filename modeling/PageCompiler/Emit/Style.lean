import PageCompiler.Options
import PageCompiler.Page

/-!
# Styles of components

The rules of a component's style are confined to its markup: each selector is written twice, once for what
is inside the root of the component, which carries a marker attribute, and once for the root itself. Rules
inside conditional blocks are confined too; declarations and other blocks stay as they are.
-/

namespace PageCompiler.Emit

/-- Where the removal of comments stands. -/
inductive StyleState where
  | plain
  | quoted (quote : Char)
  | comment
deriving DecidableEq, Repr

def withoutStyleComments : StyleState → List Char → List Char
  | _, [] => []
  | .comment, '*' :: '/' :: cs => withoutStyleComments .plain cs
  | .comment, _ :: cs => withoutStyleComments .comment cs
  | .quoted q, '\\' :: c :: cs => '\\' :: c :: withoutStyleComments (.quoted q) cs
  | .quoted q, c :: cs => c :: withoutStyleComments (if c = q then .plain else .quoted q) cs
  | .plain, '/' :: '*' :: cs => withoutStyleComments .comment cs
  | .plain, c :: cs => c :: withoutStyleComments (if c = '"' || c = '\'' then .quoted c else .plain) cs

/-- What is before the brace that closes a block, and what is after it. The text is inside `depth` more
blocks, and possibly inside a quoted text. -/
def blockEnd? : Nat → Option Char → List Char → Option (List Char × List Char)
  | _, _, [] => none
  | depth, some q, '\\' :: c :: cs => (blockEnd? depth (some q) cs).map fun (b, a) => ('\\' :: c :: b, a)
  | depth, some q, c :: cs =>
    (blockEnd? depth (if c = q then none else some q) cs).map fun (b, a) => (c :: b, a)
  | depth, none, c :: cs =>
    if c = '}' then
      match depth with
      | 0 => some ([], cs)
      | depth + 1 => (blockEnd? depth none cs).map fun (b, a) => (c :: b, a)
    else if c = '{' then (blockEnd? (depth + 1) none cs).map fun (b, a) => (c :: b, a)
    else if c = '"' || c = '\'' then (blockEnd? depth (some c) cs).map fun (b, a) => (c :: b, a)
    else (blockEnd? depth none cs).map fun (b, a) => (c :: b, a)

theorem append_of_blockEnd? {depth : Nat} {quote : Option Char} {cs body after : List Char}
    (h : blockEnd? depth quote cs = some (body, after)) : cs = body ++ '}' :: after := by
  fun_induction blockEnd? depth quote cs generalizing body after <;>
    simp_all only [Option.map_eq_some_iff, Prod.exists, Prod.mk.injEq, reduceCtorEq, Option.some.injEq] <;> grind

/-- The first of the simple selectors and what follows it, the text being inside `depth` brackets. -/
def splitCompound : Nat → List Char → List Char × List Char
  | _, [] => ([], [])
  | depth, '\\' :: c :: cs =>
    let (before, after) := splitCompound depth cs
    ('\\' :: c :: before, after)
  | depth, c :: cs =>
    if depth = 0 && [':', ' ', '\t', '\n', '>', '+', '~'].contains c then ([], c :: cs)
    else
      let inner := if c = '[' || c = '(' then depth + 1 else if c = ']' || c = ')' then depth - 1 else depth
      let (before, after) := splitCompound inner cs
      (c :: before, after)

/-- The selectors of a list, divided by the commas outside of brackets. -/
def selectors : Nat → List Char → List (List Char)
  | _, [] => [[]]
  | depth, c :: cs =>
    if c = ',' && depth = 0 then [] :: selectors depth cs
    else
      let inner := if c = '[' || c = '(' then depth + 1 else if c = ']' || c = ')' then depth - 1 else depth
      match selectors inner cs with
      | [] => [[c]]
      | s :: ss => (c :: s) :: ss

/-- A selector confined to the elements with a marker. `:global(...)` takes its content out of this, and the
root of the page is never inside a component. -/
def confined (marker selector : List Char) : List Char :=
  let selector := Text.trim selector
  match (Text.strip? ":global(".toList selector).bind (Text.stripEnd? [')']) with
  | some inner => Text.trim inner
  | none =>
    if selector.isEmpty || ":root".toList.isPrefixOf selector || selector == "html".toList ||
        selector == "body".toList then selector
    else
      let (first, rest) := splitCompound 0 selector
      marker ++ ' ' :: selector ++ ", ".toList ++ first ++ marker ++ rest

def confinedList (marker list : List Char) : List Char :=
  let found := ((selectors 0 list).map (confined marker)).filter (!·.isEmpty)
  (", ".toList).intercalate found

def isConditionalBlock (name : List Char) : Bool :=
  ["media", "supports", "container", "layer", "document"].contains (String.ofList name)

def confinedRules (marker cs : List Char) : List Char :=
  let isEnd := fun c => c = '{' || c = ';'
  let lead := cs.takeWhile (!isEnd ·)
  match _hc : cs.dropWhile (!isEnd ·) with
  | [] => cs
  | c :: rest =>
    if c = ';' then lead ++ c :: confinedRules marker rest
    else
      match _hb : blockEnd? 0 none rest with
      | none => cs
      | some (body, after) =>
        let gap := cs.takeWhile Text.isBlank
        let head := Text.trim lead
        let block := '{' :: body ++ ['}']
        let rule := match head with
          | '@' :: named =>
            if isConditionalBlock (named.takeWhile fun d => !Text.isBlank d && d ≠ '(') then
              head ++ " \x7b".toList ++ confinedRules marker body ++ ['}']
            else head ++ ' ' :: block
          | _ => confinedList marker head ++ ' ' :: block
        gap ++ rule ++ confinedRules marker after
termination_by cs.length
decreasing_by
  all_goals
    have h := (List.dropWhile_sublist (p := (!isEnd ·)) (l := cs)).length_le
    rw [_hc] at h
    simp only [List.length_cons] at h
  · omega
  all_goals
    have h2 := congrArg List.length (append_of_blockEnd? _hb)
    simp only [List.length_append, List.length_cons] at h2
    omega

def confinedStyle (css component : String) : String :=
  let marker := ("[data-zen-component=\"" ++ component ++ "\"]").toList
  String.ofList (Text.trim (confinedRules marker (withoutStyleComments .plain css.toList)))

def styleText (options : Options) (style : Style) : String :=
  match style.scope with
  | some component =>
    if options.scopeStyles && !style.global then confinedStyle style.raw component else trimString style.raw
  | none => trimString style.raw

def styleTexts (options : Options) (styles : List Style) : List String :=
  (styles.map (styleText options)).filter (· != "")

end PageCompiler.Emit
