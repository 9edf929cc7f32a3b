import PageCompiler.Proofs.MarkedText

/-!
# Offsets in a markup without blocks

A source is text with script and style elements in it (`Extracts`). An element has a start tag, a content and an end
tag, each of which ends where it first can (`Element.Proper`); text that stays has such tags in comments only, and
scripts from other files. The pieces that the scan cuts a source into are those of its elements (`Yields`), so that
the blocks and the markup can be read off the elements (`offsets_of_blocks`): each byte of an element is blanked in
its place (`blankedIn`), and every other byte stays.
-/

namespace PageCompiler.Text

/-- The bytes of a text in UTF-8. -/
def bytes (cs : List Char) : List UInt8 :=
  (String.ofList cs).toByteArray.data.toList

theorem bytes_eq (cs : List Char) : bytes cs = cs.flatMap String.utf8EncodeChar := by
  simp [bytes, List.utf8Encode]

@[simp] theorem bytes_append (cs ds : List Char) : bytes (cs ++ ds) = bytes cs ++ bytes ds := by
  simp [bytes_eq]

theorem bytes_cons (c : Char) (cs : List Char) : bytes (c :: cs) = String.utf8EncodeChar c ++ bytes cs := by
  simp [bytes_eq]

@[simp] theorem length_bytes (cs : List Char) : (bytes cs).length = byteLength cs := by
  induction cs with
  | nil => rfl
  | cons c cs ih => rw [bytes_cons, List.length_append, String.length_utf8EncodeChar, ih, byteLength_cons]

theorem bytes_isPrefix (before mid after : List Char) :
    bytes mid <+: (bytes (before ++ mid ++ after)).drop (byteLength before) := by
  rw [bytes_append, bytes_append, ← length_bytes, List.append_assoc, List.drop_left]
  exact List.prefix_append _ _

/-- A blank in place of a byte; a line feed stays. -/
def blankByte (b : UInt8) : UInt8 :=
  if b = '\n'.toUInt8 then '\n'.toUInt8 else ' '.toUInt8

/-- A line feed is one byte, and no byte of another character is one. -/
theorem newline_notMem_utf8EncodeChar {c : Char} (h : c ≠ '\n') : '\n'.toUInt8 ∉ String.utf8EncodeChar c := by
  intro hmem
  have hvalue : c.val.toNat ≠ 10 := fun hten => h (Char.ext (UInt32.toNat_inj.mp hten))
  have hbyte : ∀ n < 256, '\n'.toUInt8 = UInt8.ofNat n → n = 10 := by
    intro n hn heq
    have hten := congrArg UInt8.toNat heq
    rw [UInt8.toNat_ofNat', Nat.mod_eq_of_lt hn] at hten
    exact hten.symm
  -- The bytes of a character that is not ASCII have their highest bit set.
  simp only [String.utf8EncodeChar] at hmem
  split at hmem
  · rw [List.mem_singleton] at hmem
    exact hvalue (hbyte _ (by omega) hmem)
  · have hlarge : ∃ n < 256, 128 ≤ n ∧ '\n'.toUInt8 = UInt8.ofNat n := by
      split at hmem
      · simp only [List.mem_cons, List.not_mem_nil, or_false] at hmem
        rcases hmem with hmem | hmem <;> exact ⟨_, by omega, by omega, hmem⟩
      · split at hmem
        · simp only [List.mem_cons, List.not_mem_nil, or_false] at hmem
          rcases hmem with hmem | hmem | hmem <;> exact ⟨_, by omega, by omega, hmem⟩
        · simp only [List.mem_cons, List.not_mem_nil, or_false] at hmem
          rcases hmem with hmem | hmem | hmem | hmem <;> exact ⟨_, by omega, by omega, hmem⟩
    obtain ⟨n, hn, hle, heq⟩ := hlarge
    have hten := hbyte n hn heq
    omega

end PageCompiler.Text

namespace PageCompiler.Markup

open Text

variable {c : Char} {tag : BlockTag} {cs : List Char} {file : Source.File} {pos : Nat}

theorem bytes_blanked (cs : List Char) : bytes (blanked cs) = (bytes cs).map blankByte := by
  induction cs with
  | nil => rfl
  | cons c cs ih =>
    have hcons : blanked (c :: cs) = (if c = '\n' then ['\n'] else List.replicate c.utf8Size ' ') ++ blanked cs := rfl
    rw [hcons, bytes_append, ih, bytes_cons, List.map_append]
    congr 1
    by_cases hc : c = '\n'
    · subst hc
      rfl
    · have hspaces : ∀ n, bytes (List.replicate n ' ') = List.replicate n ' '.toUInt8 := by
        intro n
        induction n with
        | zero => rfl
        | succ n ih => rw [List.replicate_succ, bytes_cons, ih]; rfl
      have hblank : (String.utf8EncodeChar c).map blankByte = List.replicate c.utf8Size ' '.toUInt8 := by
        rw [List.eq_replicate_iff, List.length_map, String.length_utf8EncodeChar]
        refine ⟨rfl, fun b hb => ?_⟩
        obtain ⟨byte, hbyte, rfl⟩ := List.mem_map.mp hb
        rw [blankByte, if_neg]
        rintro rfl
        exact newline_notMem_utf8EncodeChar hc hbyte
      rw [if_neg hc, hspaces, hblank]

/-! ## Tags -/

/-- Text inside of a tag: values in quotes are closed, and no `>` stands outside of them. -/
inductive InTag : List Char → Prop
  | nil : InTag []
  | char {c : Char} {rest : List Char} (hdouble : c ≠ '"') (hsingle : c ≠ '\'') (hend : c ≠ '>')
      (hrest : InTag rest) : InTag (c :: rest)
  | quoted {quote : Char} {inner rest : List Char} (hquote : quote = '"' ∨ quote = '\'') (hinner : quote ∉ inner)
      (hrest : InTag rest) : InTag (quote :: inner ++ quote :: rest)

/-- The offset of the end of a tag is where the text inside of it ends, from outside of quotes and from inside. -/
theorem inTag_of_tagEndFrom? (cs : List Char) :
    (∀ {pos n : Nat}, tagEndFrom? none pos cs = some n →
      ∃ inner rest, cs = inner ++ '>' :: rest ∧ InTag inner ∧ n = pos + byteLength inner) ∧
    ∀ {quote : Char} {pos n : Nat}, tagEndFrom? (some quote) pos cs = some n →
      ∃ value inner rest, cs = value ++ quote :: inner ++ '>' :: rest ∧ quote ∉ value ∧ InTag inner ∧
        n = pos + byteLength (value ++ quote :: inner) := by
  induction cs with
  | nil =>
    refine ⟨fun h => ?_, fun h => ?_⟩
    · cases h
    · cases h
  | cons c cs ih =>
    constructor
    · intro pos n h
      rw [tagEndFrom?] at h
      split at h
      · rename_i hquote
        obtain ⟨value, inner, rest, rfl, hvalue, hinner, rfl⟩ := ih.2 h
        have hquote : c = '"' ∨ c = '\'' := by simpa using hquote
        refine ⟨c :: value ++ c :: inner, rest, by simp, .quoted hquote hvalue hinner, ?_⟩
        rw [List.cons_append, byteLength_cons]
        omega
      · rename_i hquote
        simp only [Bool.or_eq_true, decide_eq_true_eq, not_or] at hquote
        split at h
        · rename_i hend
          cases h
          exact ⟨[], cs, by rw [hend]; rfl, .nil, rfl⟩
        · rename_i hend
          obtain ⟨inner, rest, rfl, hinner, rfl⟩ := ih.1 h
          refine ⟨c :: inner, rest, rfl, .char hquote.1 hquote.2 hend hinner, ?_⟩
          rw [byteLength_cons]
          omega
    · intro quote pos n h
      rw [tagEndFrom?] at h
      by_cases hc : c = quote
      · rw [if_pos hc] at h
        obtain ⟨inner, rest, rfl, hinner, rfl⟩ := ih.1 h
        subst hc
        refine ⟨[], inner, rest, rfl, by simp, hinner, ?_⟩
        rw [List.nil_append, byteLength_cons]
        omega
      · rw [if_neg hc] at h
        obtain ⟨value, inner, rest, rfl, hvalue, hinner, rfl⟩ := ih.2 h
        refine ⟨c :: value, inner, rest, rfl, by simp [Ne.symm hc, hvalue], hinner, ?_⟩
        rw [List.cons_append, byteLength_cons]
        omega

/-! ## Names in any case of letters -/

/-- Only the letters from `A` to `Z` have another lower case. -/
theorem toLower_cases (c : Char) : c.toLower = c ∨
    (65 ≤ c.val.toNat ∧ c.val.toNat ≤ 90 ∧ c.toLower.val.toNat = c.val.toNat + 32) := by
  delta Char.toLower
  split
  · rename_i hupper
    have hfirst : 65 ≤ c.val.toNat := UInt32.le_iff_toNat_le.mp hupper.1
    have hlast : c.val.toNat ≤ 90 := UInt32.le_iff_toNat_le.mp hupper.2
    have hdiff : ('a'.val - 'A'.val).toNat = 32 := rfl
    refine .inr ⟨hfirst, hlast, ?_⟩
    rw [UInt32.toNat_add, hdiff]
    omega
  · exact .inl rfl

theorem utf8Size_toLower (c : Char) : c.toLower.utf8Size = c.utf8Size := by
  rcases toLower_cases c with h | ⟨-, hlast, hval⟩
  · rw [h]
  · have hmax : (127 : UInt32).toNat = 127 := rfl
    have hlower : c.toLower.utf8Size = 1 := by
      rw [Char.utf8Size_eq_one_iff, UInt32.le_iff_toNat_le, hmax]
      omega
    have hupper : c.utf8Size = 1 := by
      rw [Char.utf8Size_eq_one_iff, UInt32.le_iff_toNat_le, hmax]
      omega
    rw [hlower, hupper]

theorem eq_of_toLower_eq {mark : Char} (h : c.toLower = mark) (hmark : mark.val.toNat < 97) : c = mark := by
  rcases toLower_cases c with hsame | ⟨hfirst, -, hval⟩
  · rw [← h, hsame]
  · rw [h] at hval
    omega

theorem byteLength_map_toLower (cs : List Char) : byteLength (cs.map Char.toLower) = byteLength cs := by
  induction cs with
  | nil => rfl
  | cons c cs ih => rw [List.map_cons, byteLength_cons, byteLength_cons, utf8Size_toLower, ih]

theorem gt_notMem_of_map_toLower {name : List Char} (h : name.map Char.toLower = tag.name.toList) : '>' ∉ name := by
  intro hmem
  have hlower : '>' ∈ tag.name.toList := h ▸ List.mem_map.mpr ⟨'>', hmem, rfl⟩
  cases tag <;> revert hlower <;> decide

theorem exists_name_of_opensBlock (h : opensBlock tag cs = true) :
    ∃ name c rest, cs = name ++ c :: rest ∧ name.map Char.toLower = tag.name.toList ∧
      (isSpace c || c == '>' || c == '/') = true := by
  rw [opensBlock, Bool.and_eq_true, beq_iff_eq] at h
  obtain ⟨hname, hnext⟩ := h
  split at hnext
  · rename_i c rest hdrop
    refine ⟨_, c, rest, ?_, hname, hnext⟩
    rw [← hdrop, List.take_append_drop]
  · cases hnext

/-- Whether a text starts with a mark in any case of letters. -/
theorem take_map_toLower_beq (mark cs : List Char) :
    ((cs.take mark.length).map Char.toLower == mark) = mark.isPrefixOf (cs.map Char.toLower) := by
  rw [Bool.eq_iff_iff, beq_iff_eq, List.isPrefixOf_iff_prefix, List.prefix_iff_eq_take, List.map_take]
  exact eq_comm

theorem beforeEndTag?_eq (tag : BlockTag) (cs : List Char) :
    beforeEndTag? tag cs =
      (breakOn? ('<' :: '/' :: tag.name.toList) (cs.map Char.toLower)).map fun found => cs.take found.1.length := by
  induction cs with
  | nil => rfl
  | cons c cs ih =>
    rw [beforeEndTag?, breakOn?.eq_def]
    simp only [take_map_toLower_beq, List.map_cons]
    split
    · rfl
    · rw [ih, Option.map_map, Option.map_map]
      rfl

theorem eq_append_of_notMem {name inner rest after : List Char} (h : name ++ rest = inner ++ c :: after)
    (hc : c ∉ name) : ∃ listed, inner = name ++ listed ∧ rest = listed ++ c :: after := by
  rcases List.append_eq_append_iff.mp h with ⟨listed, rfl, hrest⟩ | ⟨part, rfl, hpart⟩
  · exact ⟨listed, rfl, hrest⟩
  · cases part with
    | nil => exact ⟨[], by simp, by simpa using hpart.symm⟩
    | cons d part =>
      obtain ⟨rfl, -⟩ := List.cons.inj hpart
      simp at hc

/-! ## Elements -/

/-- A script or style element of a source file. -/
structure Element where
  tag : BlockTag
  start : Nat
  /-- The name in the start tag, and what the tag lists after it. -/
  opening : List Char
  listed : List Char
  content : List Char
  /-- The name in the end tag, and what stands after it. -/
  closing : List Char
  trailing : List Char

namespace Element

def startTag (e : Element) : List Char :=
  '<' :: e.opening ++ e.listed ++ ['>']

def endTag (e : Element) : List Char :=
  '<' :: '/' :: e.closing ++ e.trailing ++ ['>']

def chars (e : Element) : List Char :=
  e.startTag ++ e.content ++ e.endTag

def stop (e : Element) : Nat :=
  e.start + byteLength e.chars

def block (e : Element) : Block where
  content := String.ofList e.content
  attributes := attributes e.listed
  offset := e.start + byteLength e.startTag

/-- Whether the element is a script from another file. -/
def isExternal (e : Element) : Bool :=
  e.tag = .script && Ordered.hasKey (attributes e.listed) "src"

/-- Whether a byte of the file belongs to the element. -/
def covers (e : Element) (i : Nat) : Bool :=
  e.start ≤ i && i < e.stop

/-- The tags of the element have its name in some case of letters and end where they first can, and so does
the content. -/
structure Proper (e : Element) : Prop where
  opening : e.opening.map Char.toLower = e.tag.name.toList
  apart : ∀ c ∈ (e.listed ++ ['>']).head?, (isSpace c || c == '>' || c == '/') = true
  startTag : InTag (e.opening ++ e.listed)
  content : ¬ '<' :: '/' :: e.tag.name.toList <:+:
    e.content.map Char.toLower ++ ('<' :: '/' :: e.tag.name.toList).dropLast
  closing : e.closing.map Char.toLower = e.tag.name.toList
  endTag : InTag ('/' :: e.closing ++ e.trailing)

end Element

/-- The content of a block ends at the first end tag, in any case of letters. -/
theorem exists_closing_of_beforeEndTag? {content : List Char} (h : beforeEndTag? tag cs = some content) :
    ∃ closing rest, cs = content ++ '<' :: '/' :: closing ++ rest ∧ closing.map Char.toLower = tag.name.toList ∧
      ¬ '<' :: '/' :: tag.name.toList <:+: content.map Char.toLower ++ ('<' :: '/' :: tag.name.toList).dropLast := by
  rw [beforeEndTag?_eq, Option.map_eq_some_iff] at h
  obtain ⟨⟨before, after⟩, hbreak, rfl⟩ := h
  have hfirst := not_infix_of_breakOn? (by simp) hbreak
  -- The text in lower case is cut in the same places as the text itself.
  obtain ⟨shown, last, rfl, hshown, rfl⟩ := List.map_eq_append_iff.mp (append_of_breakOn? hbreak)
  obtain ⟨content, close, rfl, rfl, hclose⟩ := List.map_eq_append_iff.mp hshown
  obtain ⟨c, closing, rfl, hc, hclosing⟩ := List.map_eq_cons_iff.mp hclose
  obtain ⟨d, name, rfl, hd, hname⟩ := List.map_eq_cons_iff.mp hclosing
  obtain rfl := eq_of_toLower_eq hc (by decide)
  obtain rfl := eq_of_toLower_eq hd (by decide)
  refine ⟨name, last, ?_, hname, ?_⟩
  · simp
  · simpa using hfirst

theorem dropBytes_mark (h : c.utf8Size = 1) (before after : List Char) :
    dropBytes (byteLength before + 1) (before ++ c :: after) = after := by
  have hlength : byteLength before + 1 = byteLength (before ++ [c]) := by
    rw [byteLength_append, byteLength_cons, h, byteLength_nil]
  have happend : before ++ c :: after = before ++ [c] ++ after := by simp
  rw [hlength, happend, dropBytes_append]

theorem searches_of_readBlock {size : Nat} {block : Block} (h : readBlock file tag pos cs = .ok (size, block)) :
    ∃ openEnd content closeEnd, tagEndFrom? none 0 cs = some openEnd ∧
      beforeEndTag? tag (dropBytes (openEnd + 1) cs) = some content ∧
      tagEndFrom? none 0 (dropBytes (byteLength content + 1) (dropBytes (openEnd + 1) cs)) = some closeEnd ∧
      size = (takeBytes (openEnd + 1 + byteLength content + 1 + closeEnd + 1) cs).length ∧
      block = {
        content := String.ofList content
        attributes := attributes (slice tag.name.length openEnd cs)
        offset := pos + 1 + openEnd + 1 } := by
  rw [readBlock] at h
  simp only at h
  split at h
  · rename_i openEnd hopenEnd
    split at h
    · rename_i content hcontent
      split at h
      · rename_i closeEnd hcloseEnd
        cases h
        exact ⟨openEnd, content, closeEnd, hopenEnd, hcontent, hcloseEnd, rfl, rfl⟩
      · cases h
    · cases h
  · cases h

theorem exists_element_of_readBlock {size : Nat} {block : Block} (hopen : opensBlock tag cs = true)
    (h : readBlock file tag pos cs = .ok (size, block)) :
    ∃ e : Element, e.Proper ∧ e.tag = tag ∧ e.start = pos ∧ e.block = block ∧
      '<' :: cs.take size = e.chars ∧ '<' :: cs = e.chars ++ cs.drop size := by
  obtain ⟨opening, c, after, rfl, hopening, hapart⟩ := exists_name_of_opensBlock hopen
  obtain ⟨openEnd, content, closeEnd, hopenEnd, hcontent, hcloseEnd, rfl, rfl⟩ := searches_of_readBlock h
  -- The start tag ends after its name, and the content is the text up to the end tag.
  obtain ⟨inner, tail, hinner, hstartTag, rfl⟩ := (inTag_of_tagEndFrom? _).1 hopenEnd
  obtain ⟨listed, rfl, hlisted⟩ := eq_append_of_notMem hinner (gt_notMem_of_map_toLower hopening)
  rw [hinner, Nat.zero_add, dropBytes_mark rfl] at hcontent hcloseEnd
  obtain ⟨closing, rest, rfl, hclosing, hfirst⟩ := exists_closing_of_beforeEndTag? hcontent
  rw [List.append_assoc, List.cons_append, dropBytes_mark rfl] at hcloseEnd
  obtain ⟨inner, last, hlast, hendTag, rfl⟩ := (inTag_of_tagEndFrom? _).1 hcloseEnd
  have hname : '>' ∉ '/' :: closing := by simpa using gt_notMem_of_map_toLower hclosing
  obtain ⟨trailing, rfl, rfl⟩ := eq_append_of_notMem hlast hname
  let e : Element := ⟨tag, pos, opening, listed, content, closing, trailing⟩
  have hproper : e.Proper := by
    refine ⟨hopening, ?_, hstartTag, hfirst, hclosing, hendTag⟩
    intro d hd
    have hhead : (listed ++ ['>']).head? = some c := by
      cases listed with
      | nil => simp_all
      | cons x listed => simp_all
    rw [hhead] at hd
    cases hd
    exact hapart
  have hlt : '<'.utf8Size = 1 := rfl
  have hgt : '>'.utf8Size = 1 := rfl
  have hslash : '/'.utf8Size = 1 := rfl
  have hsize : byteLength opening = tag.name.length := by
    rw [← byteLength_map_toLower, hopening]
    cases tag <;> rfl
  have hbody : opening ++ c :: after = e.chars.tail ++ last := by
    rw [hinner]
    simp [e, Element.chars, Element.startTag, Element.endTag]
  have hlength : 0 + byteLength (opening ++ listed) + 1 + byteLength content + 1 +
      (0 + byteLength ('/' :: closing ++ trailing)) + 1 = byteLength e.chars.tail := by
    simp [e, Element.chars, Element.startTag, Element.endTag, hlt, hgt, hslash]
    omega
  have htake : takeBytes (byteLength e.chars.tail) (opening ++ c :: after) = e.chars.tail := by
    rw [hbody, takeBytes_append]
  refine ⟨e, hproper, rfl, rfl, ?_, ?_, ?_⟩
  · have hslice : slice tag.name.length (0 + byteLength (opening ++ listed)) (opening ++ c :: after) = listed := by
      rw [hinner, ← hsize, slice, List.append_assoc, dropBytes_append, byteLength_append, Nat.zero_add,
        Nat.add_sub_cancel_left, takeBytes_append]
    rw [hslice]
    simp [Element.block, e, Element.startTag, hlt, hgt, Nat.add_assoc]
  · rw [hlength, htake, hbody, List.take_left]
    rfl
  · rw [hlength, htake, hbody, List.drop_left]
    rfl

/-! ## Extraction -/

/-- A source from offset `pos` on, with the elements that are taken out of it. What stays is text in which script and
style tags stand in comments only, and scripts from other files. -/
inductive Extracts : Nat → List Char → List Element → Prop
  | nil (pos : Nat) : Extracts pos [] []
  | char {pos : Nat} {c : Char} {rest : List Char} {es : List Element} (hcomment : ¬ "<!--".toList <+: c :: rest)
      (hblock : c = '<' → ∀ tag, opensBlock tag rest = false) (hrest : Extracts (pos + c.utf8Size) rest es) :
      Extracts pos (c :: rest) es
  | comment {pos : Nat} {inner rest : List Char} {es : List Element}
      (hinner : ¬ "-->".toList <:+: inner ++ "--".toList)
      (hrest : Extracts (pos + byteLength ("<!--".toList ++ inner ++ "-->".toList)) rest es) :
      Extracts pos ("<!--".toList ++ inner ++ "-->".toList ++ rest) es
  | openComment (pos : Nat) {inner : List Char} (hinner : ¬ "-->".toList <:+: inner) :
      Extracts pos ("<!--".toList ++ inner) []
  | external {e : Element} {rest : List Char} {es : List Element} (he : e.Proper) (hsource : e.isExternal = true)
      (hrest : Extracts e.stop rest es) : Extracts e.start (e.chars ++ rest) es
  | element {e : Element} {rest : List Char} {es : List Element} (he : e.Proper) (hsource : e.isExternal = false)
      (hrest : Extracts e.stop rest es) : Extracts e.start (e.chars ++ rest) (e :: es)

def Element.IsAt (e : Element) (pos : Nat) (cs : List Char) : Prop :=
  ∃ before after, cs = before ++ e.chars ++ after ∧ e.start = pos + byteLength before

theorem Element.IsAt.after {e : Element} (lead : List Char) (h : e.IsAt (pos + byteLength lead) cs) :
    e.IsAt pos (lead ++ cs) := by
  obtain ⟨before, after, rfl, hstart⟩ := h
  refine ⟨lead ++ before, after, by simp only [List.append_assoc], ?_⟩
  rw [hstart, byteLength_append, Nat.add_assoc]

theorem Element.IsAt.content {e : Element} (h : e.IsAt 0 cs) :
    ∃ before after, cs = before ++ e.content ++ after ∧ e.block.offset = byteLength before := by
  obtain ⟨before, after, rfl, hstart⟩ := h
  refine ⟨before ++ e.startTag, e.endTag ++ after, by simp only [Element.chars, List.append_assoc], ?_⟩
  rw [Element.block, hstart, byteLength_append, Nat.zero_add]

namespace Extracts

variable {pos : Nat} {cs : List Char} {es : List Element}

theorem plain {text : List Char} (htext : '<' ∉ text) (h : Extracts (pos + byteLength text) cs es) :
    Extracts pos (text ++ cs) es := by
  induction text generalizing pos with
  | nil => exact h
  | cons c text ih =>
    simp only [List.mem_cons, not_or] at htext
    refine .char ?_ (fun hc => absurd hc.symm htext.1) (ih htext.2 ?_)
    · intro hcomment
      exact htext.1 (List.cons_prefix_cons.mp hcomment).1
    · rwa [Nat.add_assoc]

theorem isAt (h : Extracts pos cs es) {e : Element} (he : e ∈ es) : e.IsAt pos cs := by
  induction h with
  | nil pos => cases he
  | char _ _ _ ih => exact .after [_] (ih he)
  | comment _ _ ih => exact .after _ (ih he)
  | openComment pos _ => cases he
  | external _ _ _ ih => exact .after _ (ih he)
  | element _ _ _ ih =>
    rcases List.mem_cons.mp he with rfl | he
    · exact ⟨[], _, rfl, rfl⟩
    · exact .after _ (ih he)

theorem proper (h : Extracts pos cs es) : ∀ e ∈ es, e.Proper ∧ e.isExternal = false := by
  induction h with
  | nil _ => exact nofun
  | char _ _ _ ih => exact ih
  | comment _ _ ih => exact ih
  | openComment _ _ => exact nofun
  | external _ _ _ ih => exact ih
  | element he hsource _ ih => exact List.forall_mem_cons.mpr ⟨⟨he, hsource⟩, ih⟩

theorem le_start (h : Extracts pos cs es) {e : Element} (he : e ∈ es) : pos ≤ e.start := by
  obtain ⟨before, -, -, hstart⟩ := h.isAt he
  omega

/-- The elements follow each other without overlap. -/
theorem pairwise (h : Extracts pos cs es) : es.Pairwise fun e f => e.stop ≤ f.start := by
  induction h with
  | nil _ => exact .nil
  | char _ _ _ ih => exact ih
  | comment _ _ ih => exact ih
  | openComment _ _ => exact .nil
  | external _ _ _ ih => exact ih
  | element _ _ hrest ih => exact .cons (fun f hf => hrest.le_start hf) ih

end Extracts

/-- The bytes from offset `pos` on, with blanks in place of those of the elements. -/
def blankedIn (es : List Element) (pos : Nat) (bs : List UInt8) : List UInt8 :=
  bs.mapIdx fun i b => if es.any (·.covers (pos + i)) then blankByte b else b

section
variable {pos : Nat} {es : List Element} {bs : List UInt8}

theorem blankedIn_append (es : List Element) (pos : Nat) (bs later : List UInt8) :
    blankedIn es pos (bs ++ later) = blankedIn es pos bs ++ blankedIn es (pos + bs.length) later := by
  rw [blankedIn, List.mapIdx_append]
  congr 2
  funext i b
  rw [Nat.add_comm i, Nat.add_assoc]

theorem blankedIn_before (h : ∀ e ∈ es, pos + bs.length ≤ e.start) : blankedIn es pos bs = bs := by
  apply List.ext_getElem?
  intro i
  rw [blankedIn, List.getElem?_mapIdx]
  by_cases hi : i < bs.length
  · have hout : es.any (·.covers (pos + i)) = false := by
      rw [List.any_eq_false]
      intro e he
      have hle := h e he
      simp only [Element.covers, Bool.and_eq_true, decide_eq_true_eq, not_and]
      omega
    rw [hout, List.getElem?_eq_getElem hi]
    rfl
  · rw [List.getElem?_eq_none (by omega)]
    rfl

theorem blankedIn_element {e : Element} :
    blankedIn (e :: es) e.start (bytes e.chars) = (bytes e.chars).map blankByte := by
  apply List.ext_getElem?
  intro i
  rw [blankedIn, List.getElem?_mapIdx, List.getElem?_map]
  by_cases hi : i < (bytes e.chars).length
  · have hin : (e :: es).any (·.covers (e.start + i)) = true := by
      rw [length_bytes] at hi
      rw [List.any_cons, Bool.or_eq_true]
      left
      rw [Element.covers, Bool.and_eq_true, decide_eq_true_eq, decide_eq_true_eq, Element.stop]
      omega
    rw [hin]
    rfl
  · rw [List.getElem?_eq_none (Nat.le_of_not_lt hi)]
    rfl

theorem blankedIn_after {e : Element} (h : e.stop ≤ pos) : blankedIn (e :: es) pos bs = blankedIn es pos bs := by
  rw [blankedIn, blankedIn]
  congr 1
  funext i b
  have hout : e.covers (pos + i) = false := by
    simp only [Element.covers, Bool.and_eq_false_iff, decide_eq_false_iff_not]
    omega
  rw [List.any_cons, hout, Bool.false_or]

end

def SourcePiece.chars : SourcePiece → List Char
  | text chars => chars
  | block _ chars _ => chars

/-- The pieces of a source from offset `pos` on are what its elements make of it. -/
structure Yields (pos : Nat) (cs : List Char) (ps : List SourcePiece) (es : List Element) : Prop where
  chars : ps.flatMap SourcePiece.chars = cs
  extracts : Extracts pos cs es
  markup : bytes (ps.flatMap SourcePiece.markup) = blankedIn es pos (bytes cs)
  blocks : ∀ tag, ps.filterMap (SourcePiece.block? tag) = (es.filter (·.tag = tag)).map Element.block

namespace Yields

variable {pos : Nat} {cs : List Char} {ps : List SourcePiece} {es : List Element}

theorem nil (pos : Nat) : Yields pos [] [] [] :=
  ⟨rfl, .nil pos, rfl, fun _ => rfl⟩

theorem text (chars : List Char) (h : Yields (pos + byteLength chars) cs ps es)
    (hextracts : Extracts pos (chars ++ cs) es) : Yields pos (chars ++ cs) (.text chars :: ps) es := by
  refine ⟨by rw [List.flatMap_cons, h.chars]; rfl, hextracts, ?_, h.blocks⟩
  have hbefore : blankedIn es pos (bytes chars) = bytes chars := by
    apply blankedIn_before
    intro e he
    rw [length_bytes]
    exact h.extracts.le_start he
  rw [List.flatMap_cons, bytes_append, h.markup, bytes_append, blankedIn_append, hbefore, length_bytes]
  rfl

theorem last {chars : List Char} (h : Extracts pos chars []) : Yields pos chars [.text chars] [] := by
  have hyields := (Yields.nil (pos + byteLength chars)).text chars (by rwa [List.append_nil])
  rwa [List.append_nil] at hyields

theorem element {e : Element} (h : Yields e.stop cs ps es) (he : e.Proper) (hsource : e.isExternal = false) :
    Yields e.start (e.chars ++ cs) (.block e.tag e.chars e.block :: ps) (e :: es) := by
  refine ⟨by rw [List.flatMap_cons, h.chars]; rfl, .element he hsource h.extracts, ?_, ?_⟩
  · have hafter : blankedIn (e :: es) (e.start + byteLength e.chars) (bytes cs) = blankedIn es e.stop (bytes cs) :=
      blankedIn_after (Nat.le_refl _)
    rw [List.flatMap_cons, bytes_append, h.markup, bytes_append, blankedIn_append, blankedIn_element, length_bytes,
      hafter, SourcePiece.markup, bytes_blanked]
  · intro tag
    rw [List.filterMap_cons, SourcePiece.block?]
    by_cases htag : e.tag = tag
    · rw [if_pos htag, List.filter_cons_of_pos (by simpa using htag), List.map_cons, h.blocks]
    · rw [if_neg htag, List.filter_cons_of_neg (by simpa using htag), h.blocks]

end Yields

theorem opensBlock_of_blockTag? (h : blockTag? cs = some tag) : opensBlock tag cs = true := by
  unfold blockTag? at h
  split at h
  · rename_i hopen
    cases h
    exact hopen
  · split at h
    · rename_i hopen
      cases h
      exact hopen
    · cases h

theorem opensBlock_of_blockTag?_eq_none (h : blockTag? cs = none) (tag : BlockTag) : opensBlock tag cs = false := by
  unfold blockTag? at h
  split at h
  · cases h
  · split at h
    · cases h
    · rename_i hscript hstyle
      cases tag with
      | script => simpa using hscript
      | style => simpa using hstyle

/-- The text before the next tag stays. -/
theorem Yields.plain {ps : List SourcePiece} {es : List Element}
    (h : Yields (pos + byteLength (cs.takeWhile (· ≠ '<'))) (cs.dropWhile (· ≠ '<')) ps es) :
    Yields pos cs (.text (cs.takeWhile (· ≠ '<')) :: ps) es := by
  have hplain : '<' ∉ cs.takeWhile (· ≠ '<') := by
    intro hmem
    simpa using List.all_eq_true.mp List.all_takeWhile '<' hmem
  have hyields := h.text _ (h.extracts.plain hplain)
  rwa [List.takeWhile_append_dropWhile] at hyields

theorem head_of_dropWhile {rest : List Char} (h : cs.dropWhile (· ≠ '<') = c :: rest) : c = '<' := by
  have hnot := List.head?_dropWhile_not (· ≠ '<') cs
  rw [h] at hnot
  simpa using hnot

theorem exists_yields_of_sourcePieces (file : Source.File) (pos : Nat) (cs : List Char) :
    ∀ ps, sourcePieces file pos cs = .ok ps → ∃ es, Yields pos cs ps es := by
  fun_induction sourcePieces file pos cs with
  | case1 pos cs plain hend =>
    intro ps h
    cases h
    refine ⟨[], .plain ?_⟩
    rw [hend]
    exact .nil _
  | case2 pos cs plain c rest hrest here inner hinner comment after hcomment size ih =>
    intro ps h
    obtain ⟨later, hlater, h⟩ := Compiled.bind_eq_ok.mp h
    cases h
    obtain rfl := head_of_dropWhile hrest
    obtain ⟨es, hes⟩ := ih later hlater
    obtain ⟨hmarkup, hchars, hafter⟩ := comment_of_strip? hinner hcomment
    rw [hchars, hafter] at hes
    refine ⟨es, .plain ?_⟩
    rw [hrest, hmarkup, hchars]
    exact hes.text _ (.comment (not_infix_of_breakOn? (by decide) hcomment) hes.extracts)
  | case3 pos cs plain c rest hrest inner hinner hcomment =>
    intro ps h
    cases h
    obtain rfl := head_of_dropWhile hrest
    have hopen : '<' :: rest = "<!--".toList ++ inner := by rw [strip?_eq_some_iff.mp hinner]; rfl
    refine ⟨[], .plain ?_⟩
    rw [hrest, hopen]
    exact .last (.openComment _ (not_infix_of_breakOn?_eq_none (by decide) hcomment))
  | case4 pos cs plain c rest hrest here hcomment hblock ih =>
    intro ps h
    obtain ⟨later, hlater, h⟩ := Compiled.bind_eq_ok.mp h
    cases h
    obtain rfl := head_of_dropWhile hrest
    obtain ⟨es, hes⟩ := ih later hlater
    have hnot : ¬ "<!--".toList <+: '<' :: rest := fun hstart =>
      strip?_eq_none_iff.mp hcomment (List.cons_prefix_cons.mp hstart).2
    refine ⟨es, .plain ?_⟩
    rw [hrest]
    exact hes.text ['<'] (.char hnot (fun _ => opensBlock_of_blockTag?_eq_none hblock) hes.extracts)
  | case5 pos cs plain c rest hrest here hcomment tag htag ih =>
    intro ps h
    obtain ⟨⟨size, block⟩, hblock, h⟩ := Compiled.bind_eq_ok.mp h
    obtain ⟨later, hlater, h⟩ := Compiled.bind_eq_ok.mp h
    cases h
    obtain rfl := head_of_dropWhile hrest
    obtain ⟨es, hes⟩ := ih size later hlater
    obtain ⟨e, he, rfl, hstart, rfl, hchars, hsplit⟩ :=
      exists_element_of_readBlock (opensBlock_of_blockTag? htag) hblock
    rw [hchars] at hes
    refine Exists.imp (fun es => Yields.plain) ?_
    rw [hrest, hsplit, hchars, show pos + byteLength plain = e.start from hstart.symm]
    rw [show here = e.start from hstart.symm] at hes
    split
    · rename_i hsource
      exact ⟨es, hes.text _ (.external he hsource hes.extracts)⟩
    · rename_i hsource
      exact ⟨e :: es, hes.element he (Bool.eq_false_iff.mpr hsource)⟩

theorem exists_yields_of_blocks {b : Blocks} (h : blocks file = .ok b) :
    ∃ ps es, Yields 0 file.text ps es ∧ b.markup = ps.flatMap SourcePiece.markup ∧
      b.scripts = (es.filter (·.tag = .script)).map Element.block ∧
      b.styles = (es.filter (·.tag = .style)).map Element.block := by
  obtain ⟨ps, hps, h⟩ := Compiled.bind_eq_ok.mp h
  obtain rfl := Except.ok.inj h
  obtain ⟨es, hes⟩ := exists_yields_of_sourcePieces file 0 file.text ps hps
  exact ⟨ps, es, hes, rfl, hes.blocks .script, hes.blocks .style⟩

theorem byteLength_blanked (cs : List Char) : byteLength (blanked cs) = byteLength cs := by
  rw [← length_bytes, bytes_blanked, List.length_map, length_bytes]

theorem exists_source_of_markup {ps : List SourcePiece} {before after : List Char} (hc : c ≠ ' ' ∧ c ≠ '\n')
    (h : ps.flatMap SourcePiece.markup = before ++ c :: after) :
    ∃ before' after', ps.flatMap SourcePiece.chars = before' ++ c :: after' ∧
      byteLength before' = byteLength before := by
  induction ps generalizing before with
  | nil => simp at h
  | cons p ps ih =>
    have hlength : byteLength p.chars = byteLength p.markup := by
      cases p with
      | text chars => rfl
      | block tag chars block => exact (byteLength_blanked chars).symm
    rw [List.flatMap_cons] at h ⊢
    -- The character is in a later piece or in this one, which then is text.
    rcases List.append_eq_append_iff.mp h with ⟨part, rfl, hpart⟩ | ⟨part, hpart, hrest⟩
    · obtain ⟨before', after', hchars, hbefore⟩ := ih hpart
      refine ⟨p.chars ++ before', after', by rw [hchars, List.append_assoc], ?_⟩
      rw [byteLength_append, byteLength_append, hlength, hbefore]
    · cases part with
      | nil =>
        obtain ⟨before', after', hchars, hbefore⟩ := @ih [] hrest.symm
        refine ⟨p.chars ++ before', after', by rw [hchars, List.append_assoc], ?_⟩
        rw [byteLength_append, hlength, hbefore, hpart, List.append_nil, byteLength_nil, Nat.add_zero]
      | cons d part =>
        obtain ⟨rfl, -⟩ := List.cons.inj hrest
        cases p with
        | text chars =>
          obtain rfl : chars = before ++ c :: part := hpart
          exact ⟨before, _, by rw [SourcePiece.chars, List.append_assoc]; rfl, rfl⟩
        | block tag chars block =>
          have hmem : c ∈ blanked chars := by
            rw [show blanked chars = before ++ c :: part from hpart]
            simp
          obtain ⟨x, -, hx⟩ := List.mem_flatMap.mp hmem
          split at hx
          · exact absurd (List.mem_singleton.mp hx) hc.2
          · exact absurd (List.eq_of_mem_replicate hx) hc.1

/-- Taking the blocks out of a source leaves every byte in its place. The blocks are those of elements of the source
that follow each other without overlap, and each content is in the source where its offset says. In the markup the
bytes of these elements are blanks and line feeds, and all others are those of the source. -/
theorem offsets_of_blocks {file : Source.File} {b : Blocks} (h : blocks file = .ok b) :
    ∃ elements : List Element, Extracts 0 file.text elements ∧ elements.Pairwise (fun e f => e.stop ≤ f.start) ∧
      b.scripts = (elements.filter (·.tag = .script)).map Element.block ∧
      b.styles = (elements.filter (·.tag = .style)).map Element.block ∧
      (∀ e ∈ elements, e.Proper ∧ e.isExternal = false ∧ bytes e.chars <+: (bytes file.text).drop e.start ∧
        bytes e.content <+: (bytes file.text).drop e.block.offset) ∧
      byteLength b.markup = byteLength file.text ∧
      ∀ i, (bytes b.markup)[i]? = (bytes file.text)[i]?.map fun byte =>
        if elements.any (·.covers i) then blankByte byte else byte := by
  obtain ⟨ps, es, hyields, hmarkup, hscripts, hstyles⟩ := exists_yields_of_blocks h
  have hes := hyields.extracts
  refine ⟨es, hes, hes.pairwise, hscripts, hstyles, ?_, ?_, ?_⟩
  · intro e he
    obtain ⟨hproper, hsource⟩ := hes.proper e he
    have hat := hes.isAt he
    refine ⟨hproper, hsource, ?_, ?_⟩
    · obtain ⟨before, after, htext, hstart⟩ := hat
      rw [htext, hstart, Nat.zero_add]
      exact bytes_isPrefix _ _ _
    · obtain ⟨before, after, htext, hoffset⟩ := hat.content
      rw [htext, hoffset]
      exact bytes_isPrefix _ _ _
  · have hlength := congrArg List.length hyields.markup
    rwa [← hmarkup, length_bytes, blankedIn, List.length_mapIdx, length_bytes] at hlength
  · intro i
    rw [hmarkup, hyields.markup, blankedIn, List.getElem?_mapIdx, Nat.zero_add]

/-- A script between accents, in capital letters, after a tag in a comment and a script from another file. -/
theorem offsets_of_blocks_accents :
    let text := "<!--<style>--><script src></script>é<SCRIPT>à\nb</Script>".toList
    ∃ b, blocks (.ofText "page.zen" text) = .ok b ∧
      (b.markup = "<!--<style>--><script src></script>é          \n          ".toList ∧
        b.scripts.map (fun s => (s.content, s.offset)) = [("à\nb", 45)] ∧ b.styles.length = 0) ∧
      ∃ elements : List Element, b.scripts = (elements.filter (·.tag = .script)).map Element.block ∧
        ∀ i, (bytes b.markup)[i]? = (bytes text)[i]?.map fun byte =>
          if elements.any (·.covers i) then blankByte byte else byte := by
  intro text
  obtain ⟨b, hb, hfacts⟩ := exists_eq_ok_of_any
    (show (blocks (.ofText "page.zen" text)).toOption.any (fun b => decide
      (b.markup = "<!--<style>--><script src></script>é          \n          ".toList ∧
        b.scripts.map (fun s => (s.content, s.offset)) = [("à\nb", 45)] ∧ b.styles.length = 0)) = true
      by decide +kernel)
  obtain ⟨elements, -, -, hscripts, -, -, -, hbytes⟩ := offsets_of_blocks hb
  exact ⟨b, hb, of_decide_eq_true hfacts, elements, hscripts, hbytes⟩

end PageCompiler.Markup
