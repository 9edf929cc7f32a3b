import PageCompiler.Text.Case
import PageCompiler.Text.Search

/-!
# Names in markup

What the name of a tag or of an attribute says about it.
-/

namespace PageCompiler.Template

def voidElements : List String :=
  ["area", "base", "br", "col", "embed", "hr", "img", "input", "link", "meta", "param", "source", "track", "wbr"]

/-- Elements whose end tag may be left out. -/
def optionalEnds : List String :=
  ["p", "li", "dt", "dd", "tr", "td", "th", "thead", "tbody", "tfoot", "option", "optgroup", "colgroup", "caption",
    "rb", "rt", "rtc", "rp", "html", "head", "body"]

def textElements : List String :=
  ["textarea", "title"]

def isVoid (tag : String) : Bool :=
  voidElements.contains (lowerAscii tag)

/-- Whether a tag of that name uses a component: it starts with a capital, or has a dot in it. -/
def isComponentName (tag : String) : Bool :=
  (tag.toList.head?.map fun c => 'A' ≤ c && c ≤ 'Z').getD false || tag.toList.contains '.'

/-- The event that an attribute listens to: `onclick`, `onClick` and `on:click` all name `click`. -/
def eventName? (attr : String) : Option String :=
  match (lowerAscii attr).toList with
  | 'o' :: 'n' :: ':' :: event => if event.isEmpty then none else some (String.ofList event)
  | 'o' :: 'n' :: event =>
    if 1 < event.length && event.all Char.isAlpha then some (String.ofList event) else none
  | _ => none

end PageCompiler.Template
