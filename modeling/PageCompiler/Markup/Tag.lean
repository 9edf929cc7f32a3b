import PageCompiler.Ordered
import PageCompiler.Text.Blank
import PageCompiler.Text.Bytes

/-!
# Tags

Where a tag ends, and the attributes that its text lists.
-/

namespace PageCompiler.Markup

/-- The offset of the `>` that ends a tag, from inside a quoted value or from outside of one, the text
being at offset `pos`. A `>` inside quotes does not count. -/
def tagEndFrom? : Option Char → Nat → List Char → Option Nat
  | _, _, [] => none
  | some quote, pos, c :: cs =>
    tagEndFrom? (if c = quote then none else some quote) (pos + c.utf8Size) cs
  | none, pos, c :: cs =>
    if c = '"' || c = '\'' then tagEndFrom? (some c) (pos + c.utf8Size) cs
    else if c = '>' then some pos
    else tagEndFrom? none (pos + c.utf8Size) cs

/-- The offset of the `>` that ends the tag whose `<` is at offset `start`. -/
def tagEnd? (start : Nat) (cs : List Char) : Option Nat :=
  let rest := Text.dropBytes (start + 1) cs
  tagEndFrom? none (Text.byteLength cs - Text.byteLength rest) rest

def isAttributeNameChar (c : Char) : Bool :=
  !Text.isSpace c && c != '=' && c != '>' && c != '/'

def attributeValue (cs : List Char) : List Char × List Char :=
  match cs.dropWhile Text.isSpace with
  | [] => ([], [])
  | c :: rest =>
    if c = '"' || c = '\'' then (rest.takeWhile (· ≠ c), (rest.dropWhile (· ≠ c)).drop 1)
    else
      let isPart := fun d => !Text.isSpace d && d != '>'
      ((c :: rest).takeWhile isPart, (c :: rest).dropWhile isPart)

theorem length_dropWhile_le (p : Char → Bool) (cs : List Char) :
    (cs.dropWhile p).length ≤ cs.length :=
  (List.dropWhile_sublist p).length_le

theorem length_attributeValue_le (cs : List Char) : (attributeValue cs).2.length ≤ cs.length := by
  have h := length_dropWhile_le Text.isSpace cs
  unfold attributeValue
  split
  · simp
  · rename_i c rest heq
    rw [heq] at h
    split
    · have := length_dropWhile_le (· ≠ c) rest
      simp only [List.length_drop, List.length_cons] at *
      omega
    · exact Nat.le_trans (length_dropWhile_le _ _) h

/-- The attributes listed in the text of a tag, added to those found so far. -/
def collectAttributes (found : Ordered String) (cs : List Char) : Ordered String :=
  match _hs : cs.dropWhile (fun c => Text.isSpace c || c == '/') with
  | [] => found
  | c :: rest =>
    if isAttributeNameChar c then
      let name := c :: rest.takeWhile isAttributeNameChar
      match _hn : (rest.dropWhile isAttributeNameChar).dropWhile Text.isSpace with
      | '=' :: afterEquals =>
        let value := (attributeValue afterEquals).1
        collectAttributes (Ordered.insert found (String.ofList name) (String.ofList value))
          (attributeValue afterEquals).2
      | after => collectAttributes (Ordered.insert found (String.ofList name) "") after
    else collectAttributes found rest
termination_by cs.length
decreasing_by
  all_goals
    have h := length_dropWhile_le (fun c => Text.isSpace c || c == '/') cs
    rw [_hs] at h
    simp only [List.length_cons] at h
  · have h₁ := length_dropWhile_le Text.isSpace (rest.dropWhile isAttributeNameChar)
    have h₂ := length_dropWhile_le isAttributeNameChar rest
    have h₃ := length_attributeValue_le afterEquals
    rw [_hn] at h₁
    simp only [List.length_cons] at h₁
    omega
  · have h₁ := length_dropWhile_le Text.isSpace (rest.dropWhile isAttributeNameChar)
    have h₂ := length_dropWhile_le isAttributeNameChar rest
    rw [_hn] at h₁
    omega
  · omega

/-- The attributes listed in the text of a tag. A name that is listed twice keeps its first place and
its last value. -/
def attributes (cs : List Char) : Ordered String :=
  collectAttributes [] cs

end PageCompiler.Markup
