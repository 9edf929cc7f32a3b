import Mathlib.Data.List.TakeWhile
import PageCompiler.Proofs.BlockOffsets

/-!
# The tags of a markup

What a scan of a markup for tags meets (`Scans`), said without the scan. A tag ends with the first `>` outside of
quotes; tags in comments and in declarations are none; and after the start tag of an element whose content is text, the
scan goes on with the first end tag of that name. Each markup has a scan (`exists_scans`), and the pieces into which it is
cut are those of its scan (`agrees_of_scans`).
-/

namespace PageCompiler.Markup

open Text

variable {cs name rest : List Char}

/-! ## Where tags end -/

def HasTagEnd (cs : List Char) : Prop :=
  ∃ inner rest, cs = inner ++ '>' :: rest ∧ InTag inner

theorem tagEndFrom?_quoted {quote : Char} {inner : List Char} (h : quote ∉ inner) (pos : Nat) (rest : List Char) :
    tagEndFrom? (some quote) pos (inner ++ quote :: rest) =
      tagEndFrom? none (pos + byteLength (inner ++ [quote])) rest := by
  induction inner generalizing pos with
  | nil => rw [List.nil_append, tagEndFrom?, if_pos rfl, List.nil_append, byteLength_cons, byteLength_nil, Nat.add_zero]
  | cons c inner ih =>
    rw [List.mem_cons, not_or] at h
    rw [List.cons_append, tagEndFrom?, if_neg (Ne.symm h.1), ih h.2, List.cons_append, byteLength_cons, Nat.add_assoc]

theorem tagEndFrom?_of_inTag {inner : List Char} (h : InTag inner) (pos : Nat) (rest : List Char) :
    tagEndFrom? none pos (inner ++ '>' :: rest) = some (pos + byteLength inner) := by
  induction h generalizing pos with
  | nil => rfl
  | @char c inner hdouble hsingle hend _ ih =>
    rw [List.cons_append, tagEndFrom?, if_neg (by simp [hdouble, hsingle]), if_neg hend, ih, byteLength_cons,
      Nat.add_assoc]
  | @quoted quote value inner hquote hvalue _ ih =>
    have hassoc : quote :: value ++ quote :: inner ++ '>' :: rest =
        quote :: (value ++ quote :: (inner ++ '>' :: rest)) := by simp
    rw [hassoc, tagEndFrom?, if_pos (by simpa using hquote), tagEndFrom?_quoted hvalue, ih]
    simp only [byteLength_append, byteLength_cons, byteLength_nil]
    congr 1
    omega

theorem tagEndFrom?_eq_none (h : ¬ HasTagEnd cs) (pos : Nat) : tagEndFrom? none pos cs = none := by
  cases hend : tagEndFrom? none pos cs with
  | none => rfl
  | some size =>
    obtain ⟨inner, rest, hcs, hinner, -⟩ := (inTag_of_tagEndFrom? cs).1 hend
    exact absurd ⟨inner, rest, hcs, hinner⟩ h

def endMark (name : String) : List Char :=
  '<' :: '/' :: name.toList

theorem beforeEnd?_eq (name : String) (cs : List Char) :
    beforeEnd? name cs = (breakOn? (endMark name) (cs.map Char.toLower)).map fun found => cs.take found.1.length := by
  induction cs with
  | nil => rfl
  | cons c cs ih =>
    change (if (((c :: cs).take (endMark name).length).map Char.toLower == endMark name) = true then some []
      else (beforeEnd? name cs).map (c :: ·)) = _
    rw [take_map_toLower_beq, List.map_cons, ih]
    by_cases hlead : (endMark name).isPrefixOf (c.toLower :: cs.map Char.toLower) = true
    · rw [if_pos hlead, breakOn?, if_pos hlead]
      rfl
    · rw [if_neg hlead, breakOn?, if_neg hlead, Option.map_map, Option.map_map]
      rfl

/-! ## Tags -/

/-- A tag as it is written. Its rest is what follows the name, up to the `>`. -/
structure Tag where
  closes : Bool
  name : List Char
  rest : List Char

def slash (closes : Bool) : List Char :=
  if closes then ['/'] else []

def IsTagName (name : List Char) : Prop :=
  ∃ c cs, name = c :: cs ∧ c.isAlpha = true ∧ ∀ d ∈ cs, isTagNameChar d = true

def EndsName (cs : List Char) : Prop :=
  ∀ c ∈ cs.head?, isTagNameChar c = false

namespace Tag

def chars (t : Tag) : List Char :=
  '<' :: (slash t.closes ++ t.name ++ t.rest ++ ['>'])

def lowerName (t : Tag) : String :=
  lowerAscii (String.ofList t.name)

/-- The whole name is taken, and the tag ends where it first can. -/
structure Proper (t : Tag) : Prop where
  name : IsTagName t.name
  apart : EndsName t.rest
  inside : InTag t.rest

def opensText (t : Tag) : Bool :=
  !t.closes && !isSelfClosing t.rest && Template.textElements.contains t.lowerName

/-- There is an end tag, in any case of letters, in the text after the tag. -/
def HasEnd (t : Tag) (after : List Char) : Prop :=
  endMark t.lowerName <:+: after.map Char.toLower

end Tag

/-! ## Scans -/

/-- What a scan meets: a tag with the text after it, or a tag that does not end. -/
inductive Scanned where
  | tag (t : Tag) (after : List Char)
  | unterminated (closes : Bool) (name : List Char)

/-- No tag, comment or declaration starts with a `<` before the text. -/
structure Lone (cs : List Char) : Prop where
  mark : ∀ c ∈ cs.head?, c ≠ '!' ∧ c ≠ '?' ∧ c.isAlpha = false
  slash : ∀ rest, cs = '/' :: rest → ∀ c ∈ rest.head?, c.isAlpha = false

/-- A declaration starts with the mark and the text. A comment is none. -/
def IsDeclaration (mark : Char) (cs : List Char) : Prop :=
  mark = '?' ∨ mark = '!' ∧ ¬ "--".toList <+: cs

/-- What a scan of the text for tags meets. -/
inductive Scans : List Char → List Scanned → Prop
  | nil : Scans [] []
  | plain {c : Char} {cs : List Char} {items : List Scanned} : c ≠ '<' → Scans cs items → Scans (c :: cs) items
  | comment {comment after : List Char} {items : List Scanned} :
      ¬ "-->".toList <:+: comment ++ "--".toList → Scans after items →
      Scans ("<!--".toList ++ (comment ++ "-->".toList ++ after)) items
  | openComment {cs : List Char} : ¬ "-->".toList <:+: cs → Scans ("<!--".toList ++ cs) []
  | declaration {mark : Char} {inner after : List Char} {items : List Scanned} :
      IsDeclaration mark inner → '>' ∉ inner → Scans after items →
      Scans ('<' :: mark :: (inner ++ '>' :: after)) items
  | openDeclaration {mark : Char} {inner : List Char} :
      IsDeclaration mark inner → '>' ∉ inner → Scans ('<' :: mark :: inner) []
  | lone {cs : List Char} {items : List Scanned} : Lone cs → Scans cs items → Scans ('<' :: cs) items
  | unterminated {closes : Bool} {name rest : List Char} :
      IsTagName name → EndsName rest → ¬ HasTagEnd rest →
      Scans ('<' :: (slash closes ++ name ++ rest)) [.unterminated closes name]
  | tag {t : Tag} {after : List Char} {items : List Scanned} :
      t.Proper → t.opensText = false → Scans after items → Scans (t.chars ++ after) (.tag t after :: items)
  | textElement {t : Tag} {inside rest : List Char} {items : List Scanned} :
      t.Proper → t.opensText = true → endMark t.lowerName <+: rest.map Char.toLower →
      ¬ endMark t.lowerName <:+: inside.map Char.toLower ++ (endMark t.lowerName).dropLast → Scans rest items →
      Scans (t.chars ++ (inside ++ rest)) (.tag t (inside ++ rest) :: items)
  | endless {t : Tag} {after : List Char} :
      t.Proper → t.opensText = true → ¬ t.HasEnd after → Scans (t.chars ++ after) [.tag t after]

/-! ## What stands at a `<` -/

theorem isTagNameChar_of_isAlpha {c : Char} (h : c.isAlpha = true) : isTagNameChar c = true := by
  simp [isTagNameChar, Char.isAlphanum, h]

theorem IsTagName.all (h : IsTagName name) : ∀ c ∈ name, isTagNameChar c = true := by
  obtain ⟨c, cs, rfl, hc, hcs⟩ := h
  intro d hd
  rcases List.mem_cons.mp hd with rfl | hd
  · exact isTagNameChar_of_isAlpha hc
  · exact hcs d hd

theorem EndsName.takeWhile_append (h : EndsName cs) (hname : IsTagName name) :
    (name ++ cs).takeWhile isTagNameChar = name := by
  rw [List.takeWhile_append_of_pos hname.all]
  cases cs with
  | nil => simp
  | cons c cs => rw [List.takeWhile_cons_of_neg (by simp [h c rfl]), List.append_nil]

theorem EndsName.dropWhile_append (h : EndsName cs) (hname : IsTagName name) :
    (name ++ cs).dropWhile isTagNameChar = cs := by
  rw [List.dropWhile_append_of_pos hname.all]
  cases cs with
  | nil => rfl
  | cons c cs => rw [List.dropWhile_cons_of_neg (by simp [h c rfl])]

theorem EndsName.append_gt (h : EndsName rest) (after : List Char) : EndsName (rest ++ '>' :: after) := by
  cases rest with
  | nil =>
    rintro c ⟨⟩
    decide
  | cons d rest => exact h

theorem tagNamed_tag (hname : IsTagName name) (hrest : EndsName rest) (hin : InTag rest) (closes : Bool)
    (after : List Char) : tagNamed closes (name ++ (rest ++ '>' :: after)) = .tag closes name rest := by
  have htake := (hrest.append_gt after).takeWhile_append hname
  have hdrop := (hrest.append_gt after).dropWhile_append hname
  obtain ⟨c, inner, rfl, hc, -⟩ := hname
  rw [List.cons_append] at htake hdrop ⊢
  simp only [tagNamed, hc, htake, hdrop, if_true, tagEndFrom?_of_inTag hin, Nat.zero_add, takeBytes_append]

theorem tagNamed_unfinished (hname : IsTagName name) (hrest : EndsName rest) (hend : ¬ HasTagEnd rest) (closes : Bool) :
    tagNamed closes (name ++ rest) = .unfinished name := by
  have htake := hrest.takeWhile_append hname
  have hdrop := hrest.dropWhile_append hname
  obtain ⟨c, inner, rfl, hc, -⟩ := hname
  rw [List.cons_append] at htake hdrop ⊢
  simp only [tagNamed, hc, htake, hdrop, if_true, tagEndFrom?_eq_none hend]

theorem afterOpen_cons {c : Char} (h : c ≠ '!') (cs : List Char) :
    afterOpen (c :: cs) =
      if c = '?' then .text (((c :: cs).takeWhile (· ≠ '>')).length + 1)
      else if c = '/' then tagNamed true cs
      else tagNamed false (c :: cs) := by
  have hstrip : strip? "!--".toList (c :: cs) = none := by
    rw [strip?_eq_none_iff]
    intro hlead
    exact h (List.cons_prefix_cons.mp hlead).1.symm
  rw [afterOpen, hstrip]
  simp [h]

theorem afterOpen_slash (h : IsTagName name) (closes : Bool) (cs : List Char) :
    afterOpen (slash closes ++ name ++ cs) = tagNamed closes (name ++ cs) := by
  cases closes with
  | true =>
    rw [slash, if_pos rfl, List.append_assoc, List.singleton_append, afterOpen_cons (by decide)]
    rfl
  | false =>
    obtain ⟨c, inner, rfl, hc, -⟩ := h
    have hne : ∀ d : Char, d.isAlpha = false → c ≠ d := by
      rintro d hd rfl
      rw [hc] at hd
      cases hd
    rw [slash, if_neg (by decide), List.nil_append, List.cons_append, afterOpen_cons (hne '!' (by decide)),
      if_neg (hne '?' (by decide)), if_neg (hne '/' (by decide))]

theorem afterOpen_lone (h : Lone cs) : afterOpen cs = .text 0 := by
  cases cs with
  | nil => rfl
  | cons c cs =>
    obtain ⟨hbang, hquestion, halpha⟩ := h.mark c rfl
    rw [afterOpen_cons hbang, if_neg hquestion]
    split
    · rename_i hslash
      subst hslash
      cases cs with
      | nil => rfl
      | cons d cs => simp [tagNamed, h.slash _ rfl d rfl]
    · simp [tagNamed, halpha]

theorem afterOpen_dashes (cs : List Char) :
    afterOpen ("!--".toList ++ cs) =
      .text ("!--".toList ++ ((breakOn? "-->".toList cs).map (·.1 ++ "-->".toList)).getD cs).length := by
  have hstrip : strip? "!--".toList ("!--".toList ++ cs) = some cs := strip?_eq_some_iff.mpr rfl
  rw [afterOpen.eq_def, hstrip]
  cases hbreak : breakOn? "-->".toList cs with
  | none => simp only [hbreak, Option.map_none, Option.getD_none]
  | some found =>
    simp only [hbreak, Option.map_some, Option.getD_some]
    rw [List.length_append, List.length_append, String.length_toList, String.length_toList, Nat.add_assoc]

theorem afterOpen_comment {comment : List Char} (h : ¬ "-->".toList <:+: comment ++ "--".toList) (after : List Char) :
    afterOpen ("!--".toList ++ (comment ++ "-->".toList ++ after)) =
      .text ("!--".toList ++ (comment ++ "-->".toList)).length := by
  have hbreak : breakOn? "-->".toList (comment ++ "-->".toList ++ after) = some (comment, after) :=
    breakOn?_append (List.cons_ne_nil _ _) h after
  rw [afterOpen_dashes, hbreak, Option.map_some, Option.getD_some]

theorem afterOpen_openComment (h : ¬ "-->".toList <:+: cs) :
    afterOpen ("!--".toList ++ cs) = .text ("!--".toList ++ cs).length := by
  rw [afterOpen_dashes, breakOn?_eq_none h, Option.map_none, Option.getD_none]

namespace IsDeclaration

variable {mark : Char} {cs : List Char}

theorem ne_gt (h : IsDeclaration mark cs) : mark ≠ '>' := by
  rcases h with rfl | ⟨rfl, -⟩
  · decide
  · decide

theorem append_gt (h : IsDeclaration mark cs) (after : List Char) : IsDeclaration mark (cs ++ '>' :: after) := by
  rcases h with rfl | ⟨rfl, hcs⟩
  · exact .inl rfl
  · refine .inr ⟨rfl, fun hdashes => hcs ?_⟩
    obtain ⟨later, hlater⟩ := hdashes
    -- a `>` is no dash, so that both dashes are before it
    rcases cs with _ | ⟨c, _ | ⟨d, rest⟩⟩
    · cases hlater
    · cases hlater
    · cases hlater
      exact ⟨rest, rfl⟩

theorem afterOpen_eq (h : IsDeclaration mark cs) :
    afterOpen (mark :: cs) = .text (((mark :: cs).takeWhile (· ≠ '>')).length + 1) := by
  rcases h with rfl | ⟨rfl, hcs⟩
  · rw [afterOpen_cons (by decide), if_pos rfl]
  · have hstrip : strip? "!--".toList ('!' :: cs) = none := by
      rw [strip?_eq_none_iff]
      exact fun hlead => hcs (List.cons_prefix_cons.mp hlead).2
    rw [afterOpen, hstrip]
    simp

end IsDeclaration

/-! ## Every text has a scan -/

theorem exists_tag (closes : Bool) (h : ∃ c ∈ cs.head?, c.isAlpha = true) :
    (∃ t : Tag, ∃ after, t.Proper ∧ t.closes = closes ∧ '<' :: (slash closes ++ cs) = t.chars ++ after) ∨
    ∃ name rest, IsTagName name ∧ EndsName rest ∧ ¬ HasTagEnd rest ∧ cs = name ++ rest := by
  have hcs : cs = cs.takeWhile isTagNameChar ++ cs.dropWhile isTagNameChar := List.takeWhile_append_dropWhile.symm
  have hname : IsTagName (cs.takeWhile isTagNameChar) := by
    obtain ⟨c, hc, halpha⟩ := h
    cases cs with
    | nil => cases hc
    | cons d cs =>
      cases hc
      rw [List.takeWhile_cons_of_pos (isTagNameChar_of_isAlpha halpha)]
      exact ⟨c, _, rfl, halpha, List.all_eq_true.mp List.all_takeWhile⟩
  have hrest : EndsName (cs.dropWhile isTagNameChar) := by
    intro c hc
    have hfirst := List.head?_dropWhile_not isTagNameChar cs
    rw [Option.mem_def.mp hc] at hfirst
    exact hfirst
  by_cases hend : HasTagEnd (cs.dropWhile isTagNameChar)
  · left
    obtain ⟨inner, after, hsplit, hinner⟩ := hend
    rw [hsplit] at hrest hcs
    refine ⟨⟨closes, _, inner⟩, after, ⟨hname, ?_, hinner⟩, rfl, ?_⟩
    · cases inner with
      | nil => rintro c ⟨⟩
      | cons d inner => exact hrest
    · rw [Tag.chars, List.cons_append, List.append_assoc, List.append_assoc, List.append_assoc, List.singleton_append,
        ← hcs]
  · right
    exact ⟨_, _, hname, hrest, hend, hcs⟩

theorem exists_scans_tag {t : Tag} (ht : t.Proper) {after : List Char}
    (h : ∀ cs, cs.length ≤ after.length → ∃ items, Scans cs items) : ∃ items, Scans (t.chars ++ after) items := by
  by_cases htext : t.opensText = true
  · by_cases hend : t.HasEnd after
    · cases hbreak : breakOn? (endMark t.lowerName) (after.map Char.toLower) with
      | none => exact absurd hend (not_infix_of_breakOn?_eq_none (List.cons_ne_nil _ _) hbreak)
      | some found =>
        have hafter := append_of_breakOn? hbreak
        rw [List.append_assoc] at hafter
        obtain ⟨inside, rest, rfl, hinside, hrest⟩ := List.map_eq_append_iff.mp hafter
        have hfirst := not_infix_of_breakOn? (List.cons_ne_nil _ _) hbreak
        obtain ⟨items, hitems⟩ := h rest (by simp)
        exact ⟨_, .textElement ht htext ⟨_, hrest.symm⟩ (hinside ▸ hfirst) hitems⟩
    · exact ⟨_, .endless ht htext hend⟩
  · obtain ⟨items, hitems⟩ := h after (Nat.le_refl _)
    exact ⟨_, .tag ht (by simpa using htext) hitems⟩

theorem exists_scans_declaration {mark : Char} (hmark : IsDeclaration mark cs)
    (h : ∀ ds, ds.length ≤ cs.length → ∃ items, Scans ds items) : ∃ items, Scans ('<' :: mark :: cs) items := by
  by_cases hgt : '>' ∈ cs
  · obtain ⟨inner, after, rfl, hinner⟩ := List.eq_append_cons_of_mem hgt
    obtain ⟨items, hitems⟩ := h after (by simp; omega)
    refine ⟨items, .declaration (hmark.imp_right fun hbang => ⟨hbang.1, fun hdashes => hbang.2 ?_⟩) hinner hitems⟩
    exact hdashes.trans (List.prefix_append _ _)
  · exact ⟨[], .openDeclaration hmark hgt⟩

theorem exists_scans_comment (h : ∀ ds, ds.length ≤ cs.length → ∃ items, Scans ds items) :
    ∃ items, Scans ("<!--".toList ++ cs) items := by
  cases hbreak : breakOn? "-->".toList cs with
  | none => exact ⟨[], .openComment (not_infix_of_breakOn?_eq_none (List.cons_ne_nil _ _) hbreak)⟩
  | some found =>
    obtain ⟨items, hitems⟩ := h found.2 (length_le_of_breakOn? hbreak)
    rw [append_of_breakOn? hbreak]
    exact ⟨items, .comment (not_infix_of_breakOn? (List.cons_ne_nil _ _) hbreak) hitems⟩

/-- The name of a tag starts the text, maybe after a slash. -/
def StartsTag (cs : List Char) : Prop :=
  ∃ closes named, cs = slash closes ++ named ∧ ∃ c ∈ named.head?, c.isAlpha = true

theorem lone_of_not_startsTag (h : ¬ StartsTag cs) (hmark : ∀ c ∈ cs.head?, c ≠ '!' ∧ c ≠ '?') :
    Lone cs where
  mark := by
    intro c hc
    refine ⟨(hmark c hc).1, (hmark c hc).2, ?_⟩
    rw [← Bool.not_eq_true]
    exact fun halpha => h ⟨false, cs, rfl, c, hc, halpha⟩
  slash := by
    intro rest hrest c hc
    rw [← Bool.not_eq_true]
    exact fun halpha => h ⟨true, rest, hrest, c, hc, halpha⟩

theorem exists_scans (cs : List Char) : ∃ items, Scans cs items := by
  induction hlength : cs.length using Nat.strongRecOn generalizing cs with
  | ind length ih =>
    subst hlength
    cases cs with
    | nil => exact ⟨[], .nil⟩
    | cons c cs =>
      have hshorter : ∀ ds : List Char, ds.length ≤ cs.length → ∃ items, Scans ds items := fun ds hds =>
        ih ds.length (by rw [List.length_cons]; omega) ds rfl
      obtain ⟨items, hitems⟩ := hshorter cs (Nat.le_refl _)
      by_cases hc : c = '<'
      · subst hc
        by_cases hcomment : "!--".toList <+: cs
        · obtain ⟨inner, rfl⟩ := hcomment
          exact exists_scans_comment fun ds hds => hshorter ds (by rw [List.length_append]; omega)
        · by_cases hstart : StartsTag cs
          · obtain ⟨closes, named, rfl, hnamed⟩ := hstart
            rcases exists_tag closes hnamed with ⟨t, after, ht, -, heq⟩ | ⟨name, rest, hname, hrest, hend, rfl⟩
            · have hlength := congrArg List.length heq
              rw [heq]
              refine exists_scans_tag ht fun ds hds => hshorter ds ?_
              simp only [Tag.chars, List.cons_append, List.length_cons, List.length_append] at hlength ⊢
              omega
            · rw [← List.append_assoc]
              exact ⟨_, .unterminated hname hrest hend⟩
          · cases cs with
            | nil => exact ⟨items, .lone (lone_of_not_startsTag hstart nofun) hitems⟩
            | cons d cs =>
              by_cases hmark : d = '?' ∨ d = '!'
              · have hopens : IsDeclaration d cs :=
                  hmark.imp_right fun hbang =>
                    ⟨hbang, fun hdashes => hcomment (List.cons_prefix_cons.mpr ⟨hbang.symm, hdashes⟩)⟩
                exact exists_scans_declaration hopens fun ds hds => hshorter ds (by rw [List.length_cons]; omega)
              · rw [not_or] at hmark
                refine ⟨items, .lone (lone_of_not_startsTag hstart ?_) hitems⟩
                rintro _ ⟨⟩
                exact hmark.symm
      · exact ⟨items, .plain hc hitems⟩

/-! ## The pieces of a scan -/

def TagPiece.tag? : TagPiece → Option Tag
  | .text _ => none
  | .opening name rest _ => some ⟨false, name, rest⟩
  | .closing name rest _ => some ⟨true, name, rest⟩

/-- The tag that a scan met, if it ends. -/
def Scanned.tag? : Scanned → Option Tag
  | .tag t _ => some t
  | .unterminated .. => none

/-- The tag ends, and if it starts an element whose content is text, an end tag is later on. -/
def Scanned.IsComplete : Scanned → Prop
  | .tag t after => t.opensText = true → t.HasEnd after
  | .unterminated .. => False

/-- The cut has the tags that the scan met, and a fault exactly if one of them is not complete. -/
structure Cut.Agrees (c : Cut) (items : List Scanned) : Prop where
  tags : c.pieces.filterMap TagPiece.tag? = items.filterMap Scanned.tag?
  fault : c.fault = none ↔ ∀ i ∈ items, i.IsComplete

namespace Cut

variable {c : Cut} {items : List Scanned}

theorem Agrees.text (h : c.Agrees items) (chars : List Char) : (c.after (.text chars)).Agrees items :=
  ⟨h.tags, h.fault⟩

theorem Agrees.tag (h : c.Agrees items) {p : TagPiece} {t : Tag} (hp : p.tag? = some t) {after : List Char}
    (hend : t.opensText = true → t.HasEnd after) : (c.after p).Agrees (.tag t after :: items) where
  tags := by
    rw [Cut.after, List.filterMap_cons_some hp, h.tags]
    rfl
  fault := by
    rw [List.forall_mem_cons]
    exact h.fault.trans ⟨fun hitems => ⟨hend, hitems⟩, And.right⟩

end Cut

section
variable {mark : Char}

variable {plain following : List Char}

theorem forall_ne_of_notMem (h : mark ∉ plain) : ∀ c ∈ plain, decide (c ≠ mark) = true :=
  fun _ hc => decide_eq_true (ne_of_mem_of_not_mem hc h)

theorem takeWhile_append_mark (h : mark ∉ plain) : (plain ++ mark :: following).takeWhile (· ≠ mark) = plain := by
  rw [List.takeWhile_append_of_pos (forall_ne_of_notMem h), List.takeWhile_cons_of_neg (by simp), List.append_nil]

theorem dropWhile_append_mark (h : mark ∉ plain) :
    (plain ++ mark :: following).dropWhile (· ≠ mark) = mark :: following := by
  rw [List.dropWhile_append_of_pos (forall_ne_of_notMem h), List.dropWhile_cons_of_neg (by simp)]

theorem cut_of_notMem (h : '<' ∉ plain) (pos : Nat) : cut pos plain = { pieces := [.text plain] } := by
  rw [cut.eq_def]
  split
  · rw [List.takeWhile_eq_self_iff.mpr (forall_ne_of_notMem h)]
  · rename_i hdrop
    cases hdrop.symm.trans (List.dropWhile_eq_nil_iff.mpr (forall_ne_of_notMem h))

theorem cut_text (h : '<' ∉ plain) {size : Nat} (hopen : afterOpen following = .text size) (pos : Nat) :
    cut pos (plain ++ '<' :: following) =
      (cut (pos + byteLength (plain ++ '<' :: following.take size)) (following.drop size)).after
        (.text (plain ++ '<' :: following.take size)) := by
  rw [cut.eq_def]
  split <;> rename_i hdrop <;> cases hdrop.symm.trans (dropWhile_append_mark h)
  simp only [hopen, takeWhile_append_mark h]

theorem cut_unfinished (h : '<' ∉ plain) (hopen : afterOpen following = .unfinished name) (pos : Nat) :
    cut pos (plain ++ '<' :: following) =
      { pieces := [.text plain], fault := some (.openTag (String.ofList name), pos + byteLength plain) } := by
  rw [cut.eq_def]
  split <;> rename_i hdrop <;> cases hdrop.symm.trans (dropWhile_append_mark h)
  simp only [hopen, takeWhile_append_mark h]

theorem Tag.Proper.afterOpen_eq {t : Tag} (h : t.Proper) (after : List Char) :
    afterOpen (slash t.closes ++ t.name ++ t.rest ++ ['>'] ++ after) = .tag t.closes t.name t.rest := by
  rw [List.append_assoc, List.append_assoc, List.singleton_append, afterOpen_slash h.name,
    tagNamed_tag h.name h.apart h.inside]

variable {name rest : List Char}

theorem cut_closing (h : '<' ∉ plain) (ht : (Tag.mk true name rest).Proper) (after : List Char) (pos : Nat) :
    ∃ here next, cut pos (plain ++ ((Tag.mk true name rest).chars ++ after)) =
      ((cut next after).after (.closing name rest here)).after (.text plain) := by
  have hsize : ∀ here, ((TagPiece.closing name rest here).chars.length - 1) =
      (slash true ++ name ++ rest ++ ['>']).length := fun here => rfl
  rw [Tag.chars, List.cons_append, cut.eq_def]
  split <;> rename_i hdrop <;> cases hdrop.symm.trans (dropWhile_append_mark h)
  simp only [ht.afterOpen_eq after, takeWhile_append_mark h, hsize, List.drop_left]
  exact ⟨_, _, rfl⟩

theorem cut_opening (h : '<' ∉ plain) (ht : (Tag.mk false name rest).Proper) {after : List Char} {raw? : Option Nat}
    (hraw : rawLength? (lowerAscii (String.ofList name)) rest after = raw?) (pos : Nat) :
    ∃ here fault, ∃ next : Nat → Nat, cut pos (plain ++ ((Tag.mk false name rest).chars ++ after)) =
      match raw? with
      | none => { pieces := [.text plain, .opening name rest here], fault := some fault }
      | some raw => (((cut (next raw) (after.drop raw)).after (.text (after.take raw))).after
          (.opening name rest here)).after (.text plain) := by
  have hsize : ∀ here, ((TagPiece.opening name rest here).chars.length - 1) =
      (slash false ++ name ++ rest ++ ['>']).length := fun here => rfl
  rw [Tag.chars, List.cons_append, cut.eq_def]
  split <;> rename_i hdrop <;> cases hdrop.symm.trans (dropWhile_append_mark h)
  simp only [ht.afterOpen_eq after, takeWhile_append_mark h, hsize, List.drop_left, hraw]
  exact ⟨_, _, _, rfl⟩

/-! ## Agreement -/

variable {t : Tag} {after : List Char} {items : List Scanned}

theorem rawLength?_of_opensText (h : t.opensText = true) (after : List Char) :
    rawLength? t.lowerName t.rest after = (beforeEnd? t.lowerName after).map List.length := by
  simp only [Tag.opensText, Bool.and_eq_true, Bool.not_eq_true'] at h
  rw [rawLength?, h.1.2, h.2]
  rfl

theorem rawLength?_of_not_opensText (h : t.opensText = false) (hcloses : t.closes = false) (after : List Char) :
    rawLength? t.lowerName t.rest after = some 0 := by
  simp only [Tag.opensText, hcloses, Bool.not_false, Bool.true_and] at h
  rw [rawLength?, if_pos]
  rw [← Bool.not_not (_ || _), Bool.not_or, Bool.not_not, h, Bool.not_false]

theorem agrees_text (h : '<' ∉ plain) {size : Nat} (hopen : afterOpen following = .text size)
    (hnext : ∀ pos, (cut pos (following.drop size)).Agrees items) (pos : Nat) :
    (cut pos (plain ++ '<' :: following)).Agrees items := by
  rw [cut_text h hopen]
  exact (hnext _).text _

theorem agrees_nil (h : '<' ∉ plain) (pos : Nat) : (cut pos plain).Agrees [] := by
  rw [cut_of_notMem h]
  exact ⟨rfl, ⟨nofun, fun _ => rfl⟩⟩

theorem agrees_tag (h : '<' ∉ plain) (ht : t.Proper) (htext : t.opensText = false)
    (hnext : ∀ pos, (cut pos after).Agrees items) (pos : Nat) :
    (cut pos (plain ++ (t.chars ++ after))).Agrees (.tag t after :: items) := by
  have hend : t.opensText = true → t.HasEnd after := fun hopens => absurd (hopens.symm.trans htext) (by decide)
  obtain ⟨closes, name, rest⟩ := t
  cases closes with
  | true =>
    obtain ⟨here, next, hcut⟩ := cut_closing h ht after pos
    rw [hcut]
    exact ((hnext next).tag rfl hend).text plain
  | false =>
    obtain ⟨here, fault, next, hcut⟩ := cut_opening h ht (rawLength?_of_not_opensText htext rfl after) pos
    rw [hcut]
    exact (((hnext (next 0)).text _).tag rfl hend).text plain

theorem agrees_textElement (h : '<' ∉ plain) (ht : t.Proper) (htext : t.opensText = true) {inside : List Char}
    (hmark : endMark t.lowerName <+: rest.map Char.toLower)
    (hfirst : ¬ endMark t.lowerName <:+: inside.map Char.toLower ++ (endMark t.lowerName).dropLast)
    (hnext : ∀ pos, (cut pos rest).Agrees items) (pos : Nat) :
    (cut pos (plain ++ (t.chars ++ (inside ++ rest)))).Agrees (.tag t (inside ++ rest) :: items) := by
  obtain ⟨later, hlater⟩ := hmark
  have hlower : (inside ++ rest).map Char.toLower = inside.map Char.toLower ++ endMark t.lowerName ++ later := by
    rw [List.map_append, ← hlater, List.append_assoc]
  have hend : t.HasEnd (inside ++ rest) := ⟨_, _, hlower.symm⟩
  have hbreak : breakOn? (endMark t.lowerName) ((inside ++ rest).map Char.toLower) =
      some (inside.map Char.toLower, later) := by
    rw [hlower]
    exact breakOn?_append (List.cons_ne_nil _ _) hfirst later
  have hraw : rawLength? t.lowerName t.rest (inside ++ rest) = some inside.length := by
    rw [rawLength?_of_opensText htext, beforeEnd?_eq, hbreak]
    simp
  obtain ⟨closes, name, listed⟩ := t
  cases closes with
  | true => cases htext
  | false =>
    obtain ⟨here, fault, next, hcut⟩ := cut_opening h ht hraw pos
    simp only [List.drop_left] at hcut
    rw [hcut]
    exact (((hnext (next inside.length)).text _).tag rfl fun _ => hend).text plain

theorem agrees_endless (h : '<' ∉ plain) (ht : t.Proper) (htext : t.opensText = true) (hend : ¬ t.HasEnd after)
    (pos : Nat) : (cut pos (plain ++ (t.chars ++ after))).Agrees [.tag t after] := by
  have hraw : rawLength? t.lowerName t.rest after = none := by
    rw [rawLength?_of_opensText htext, beforeEnd?_eq, breakOn?_eq_none hend]
    rfl
  obtain ⟨closes, name, listed⟩ := t
  cases closes with
  | true => cases htext
  | false =>
    obtain ⟨here, fault, next, hcut⟩ := cut_opening h ht hraw pos
    rw [hcut]
    refine ⟨rfl, ⟨nofun, fun hall => ?_⟩⟩
    exact absurd (hall _ List.mem_cons_self htext) hend

/-- The pieces of a markup are those of its scan. -/
theorem agrees_of_scans (hscans : Scans cs items) :
    ∀ {plain : List Char}, '<' ∉ plain → ∀ pos, (cut pos (plain ++ cs)).Agrees items := by
  -- the text that is already known to be plain grows with each character that is passed over
  induction hscans with
  | nil =>
    intro plain h pos
    rw [List.append_nil]
    exact agrees_nil h pos
  | @plain c cs items hc _ ih =>
    intro plain h pos
    rw [List.append_cons]
    exact ih (by simp [h, Ne.symm hc]) pos
  | @comment comment after items hcomment _ ih =>
    intro plain h pos
    refine agrees_text h (afterOpen_comment hcomment after) (fun next => ?_) pos
    rw [← List.append_assoc "!--".toList (comment ++ "-->".toList) after, List.drop_left]
    exact ih List.not_mem_nil next
  | openComment hcs =>
    intro plain h pos
    refine agrees_text h (afterOpen_openComment hcs) (fun next => ?_) pos
    rw [List.drop_length]
    exact agrees_nil List.not_mem_nil next
  | @declaration mark inner after items hmark hinner _ ih =>
    intro plain h pos
    have hgt : '>' ∉ mark :: inner := by simp [Ne.symm hmark.ne_gt, hinner]
    have hopen := (hmark.append_gt after).afterOpen_eq
    rw [← List.cons_append, takeWhile_append_mark hgt] at hopen
    have hsize : (mark :: inner).length + 1 = (mark :: inner ++ ['>']).length := by
      rw [List.length_append, List.length_singleton]
    refine agrees_text h hopen (fun next => ?_) pos
    rw [List.append_cons, hsize, List.drop_left]
    exact ih List.not_mem_nil next
  | @openDeclaration mark inner hmark hinner =>
    intro plain h pos
    have hgt : '>' ∉ mark :: inner := by simp [Ne.symm hmark.ne_gt, hinner]
    have hopen := hmark.afterOpen_eq
    rw [List.takeWhile_eq_self_iff.mpr (forall_ne_of_notMem hgt)] at hopen
    refine agrees_text h hopen (fun next => ?_) pos
    rw [List.drop_eq_nil_of_le (Nat.le_succ _)]
    exact agrees_nil List.not_mem_nil next
  | lone hlone _ ih =>
    intro plain h pos
    exact agrees_text h (afterOpen_lone hlone) (fun next => ih List.not_mem_nil next) pos
  | @unterminated closes name rest hname hrest hend =>
    intro plain h pos
    have hopen : afterOpen (slash closes ++ name ++ rest) = .unfinished name := by
      rw [afterOpen_slash hname, tagNamed_unfinished hname hrest hend]
    rw [cut_unfinished h hopen]
    exact ⟨rfl, ⟨nofun, fun hall => (hall _ List.mem_cons_self).elim⟩⟩
  | tag ht htext _ ih => exact fun h pos => agrees_tag h ht htext (fun next => ih List.not_mem_nil next) pos
  | textElement ht htext hmark hfirst _ ih =>
    exact fun h pos => agrees_textElement h ht htext hmark hfirst (fun next => ih List.not_mem_nil next) pos
  | endless ht htext hend => exact fun h pos => agrees_endless h ht htext hend pos

end

end PageCompiler.Markup
