import PageCompiler.Proofs.ExpressionOrigins
import PageCompiler.Proofs.Positions

/-!
# Positions of expressions

What is kept of a code is without its comments and without the blanks at its ends (`stored`), but its position is
taken before: a hole has the position after its brace. The first character that is kept follows the blanks and
comments at the start of the code (`leadOf`, `exists_kept`); it is no blank, so that it is in the file at the offset
that it has in the markup (`Markup.exists_places_of_mem_holes`). So a position is that of the first character exactly
if there is no such start (`positions_of_hole`), and the same holds for the spans of a code that is in the file from
its position on (`positions_of_span`).
-/

namespace PageCompiler.Text

theorem trimEnd_isPrefix (cs : List Char) : trimEnd cs <+: cs := by
  rw [trimEnd, ← List.reverse_suffix, List.reverse_reverse]
  exact List.dropWhile_suffix _

theorem allBlank_of_dropWhile_eq_nil {cs : List Char} (h : cs.dropWhile isBlank = []) : allBlank cs = true := by
  have hall := cs.takeWhile_append_dropWhile (p := isBlank)
  rw [h, List.append_nil] at hall
  rw [allBlank, ← hall]
  exact List.all_takeWhile

/-- The first character of a trimmed text is the first one of the text that is no blank. -/
theorem head?_trim (cs : List Char) : (trim cs).head? = (cs.dropWhile isBlank).head? := by
  rw [trim, trimStart]
  obtain ⟨rest, hrest⟩ := trimEnd_isPrefix (cs.dropWhile isBlank)
  cases hkept : trimEnd (cs.dropWhile isBlank) with
  | cons c kept =>
    rw [hkept] at hrest
    rw [← hrest]
    rfl
  | nil =>
    have hnot := List.head?_dropWhile_not isBlank cs
    cases hdrop : cs.dropWhile isBlank with
    | nil => rfl
    | cons c later =>
      rw [hdrop, trimEnd, List.reverse_eq_nil_iff] at hkept
      have hblank := List.all_eq_true.mp (allBlank_of_dropWhile_eq_nil hkept) c (by simp)
      simp [hdrop, hblank] at hnot

end PageCompiler.Text

namespace PageCompiler.Template

open Text

section
variable {cs before after comment rest : List Char}

theorem withoutComments_of_none (h : breakOn? "<!--".toList cs = none) : withoutComments cs = cs := by
  rw [withoutComments]
  split
  · rfl
  · rename_i heq
    rw [h] at heq
    cases heq

theorem withoutComments_of_open (h : breakOn? "<!--".toList cs = some (before, after))
    (hopen : breakOn? "-->".toList after = none) : withoutComments cs = cs := by
  rw [withoutComments]
  split
  · rfl
  · rename_i heq
    rw [h] at heq
    cases heq
    split
    · rfl
    · rename_i heq
      rw [hopen] at heq
      cases heq

theorem withoutComments_comment (h : breakOn? "<!--".toList cs = some (before, after))
    (hclose : breakOn? "-->".toList after = some (comment, rest)) :
    withoutComments cs = before ++ withoutComments rest := by
  rw [withoutComments]
  split
  · rename_i heq
    rw [h] at heq
    cases heq
  · rename_i heq
    rw [h] at heq
    cases heq
    split
    · rename_i heq
      rw [hclose] at heq
      cases heq
    · rename_i heq
      rw [hclose] at heq
      cases heq
      rfl

end

/-- The blanks and comments at the start of a code, which are not kept. -/
def leadOf (cs : List Char) : List Char :=
  match _h : breakOn? "<!--".toList cs with
  | none => cs.takeWhile isBlank
  | some (before, after) =>
    match _h2 : breakOn? "-->".toList after with
    | none => cs.takeWhile isBlank
    | some (comment, rest) =>
      if allBlank before then before ++ "<!--".toList ++ comment ++ "-->".toList ++ leadOf rest
      else before.takeWhile isBlank
termination_by cs.length
decreasing_by
  have h1 := congrArg List.length (append_of_breakOn? _h)
  have h2 := length_le_of_breakOn? _h2
  simp at h1
  omega

/-- After its lead, a code goes on with the first character that is kept. -/
theorem exists_kept (cs : List Char) : ∃ rest, cs = leadOf cs ++ rest ∧ rest.head? = (stored cs).head? := by
  have hplain : ∀ {cs : List Char}, withoutComments cs = cs →
      ∃ rest, cs = cs.takeWhile isBlank ++ rest ∧ rest.head? = (stored cs).head? := by
    intro cs h
    refine ⟨cs.dropWhile isBlank, List.takeWhile_append_dropWhile.symm, ?_⟩
    rw [stored, h, head?_trim]
  fun_induction leadOf cs with
  | case1 cs h => exact hplain (withoutComments_of_none h)
  | case2 cs before after h hopen => exact hplain (withoutComments_of_open h hopen)
  | case3 cs before after h comment rest hclose hblank ih =>
    obtain ⟨kept, hkept, hhead⟩ := ih
    have hbefore : ∀ c ∈ before, isBlank c = true := List.all_eq_true.mp hblank
    refine ⟨kept, ?_, ?_⟩
    · rw [append_of_breakOn? h, append_of_breakOn? hclose]
      nth_rewrite 1 [hkept]
      simp only [List.append_assoc]
    · rw [hhead, stored, stored, head?_trim, head?_trim, withoutComments_comment h hclose,
        List.dropWhile_append_of_pos hbefore]
  | case4 cs before after h comment rest hclose hblank =>
    have hne : (before.dropWhile isBlank).isEmpty = false := by
      rw [List.isEmpty_eq_false_iff]
      exact fun hnil => hblank (allBlank_of_dropWhile_eq_nil hnil)
    refine ⟨before.dropWhile isBlank ++ "<!--".toList ++ after, ?_, ?_⟩
    · rw [List.append_assoc, ← List.append_assoc, List.takeWhile_append_dropWhile, ← List.append_assoc]
      exact append_of_breakOn? h
    · rw [stored, head?_trim, withoutComments_comment h hclose, List.dropWhile_append, hne]
      cases hdrop : before.dropWhile isBlank with
      | nil => simp [hdrop] at hne
      | cons c kept => rfl

theorem not_isBlank_of_stored {cs : List Char} {c : Char} (h : (stored cs).head? = some c) : isBlank c = false := by
  have hnot := List.head?_dropWhile_not isBlank (withoutComments cs)
  rw [stored, head?_trim] at h
  simpa [h] using hnot

/-- A code that starts with what is kept and has no comment is kept from its start on. -/
theorem stored_isPrefix {cs : List Char} (hlead : leadOf cs = []) (hcomment : withoutComments cs = cs) :
    stored cs <+: cs := by
  have hstart : cs.dropWhile isBlank = cs := by
    obtain ⟨rest, hrest, hhead⟩ := exists_kept cs
    rw [hlead, List.nil_append] at hrest
    subst hrest
    cases cs with
    | nil => rfl
    | cons c cs =>
      have hblank := not_isBlank_of_stored hhead.symm
      rw [List.dropWhile_cons_of_neg (by simp [hblank])]
  rw [stored, hcomment, trim, trimStart, hstart]
  exact trimEnd_isPrefix cs

end PageCompiler.Template

namespace PageCompiler.Markup

open Text

theorem exists_braces_of_mem_holes {count pos source : Nat} {ps : List Piece} {key : String} {hole : Hole}
    (h : (key, hole) ∈ (mark count pos source ps).holes) :
    ∃ before after, ps.flatMap Piece.chars = before ++ '{' :: hole.code.toList ++ '}' :: after ∧
      hole.offset = source + byteLength before + 1 := by
  induction ps generalizing count pos source with
  | nil => cases h
  | cons p ps ih =>
    have hlater : ∀ {count pos : Nat},
        (key, hole) ∈ (mark count pos (source + byteLength p.chars) ps).holes →
        ∃ before after, (p :: ps).flatMap Piece.chars = before ++ '{' :: hole.code.toList ++ '}' :: after ∧
          hole.offset = source + byteLength before + 1 := by
      intro count pos hmem
      obtain ⟨before, after, hchars, hoffset⟩ := ih hmem
      refine ⟨p.chars ++ before, after, ?_, ?_⟩
      · rw [List.flatMap_cons, hchars]
        simp only [List.append_assoc]
      · rw [hoffset, byteLength_append, Nat.add_assoc source]
    cases p with
    | text chars => exact hlater h
    | hole code =>
      have hsize : source + 1 + byteLength code + 1 = source + byteLength (Piece.hole code).chars := by
        rw [byteLength_hole]
        omega
      by_cases hkept : isKept code = true
      · rw [mark_kept hkept, List.mem_cons, hsize] at h
        rcases h with h | h
        · obtain ⟨-, rfl⟩ := Prod.mk.inj h
          refine ⟨[], ps.flatMap Piece.chars, ?_, rfl⟩
          rw [List.flatMap_cons, String.toList_ofList, Piece.chars]
          simp
        · exact hlater h
      · rw [mark_dropped hkept, hsize] at h
        exact hlater h

/-- The hole is in the file as it is in the markup, and it has no comment in it. -/
def Hole.Unbroken (file : Source.File) (hole : Hole) : Prop :=
  Template.withoutComments hole.code.toList = hole.code.toList ∧
    ∃ before after, file.text = before ++ hole.code.toList ++ after ∧ byteLength before = hole.offset

/-- A hole starts at a boundary of the file, and so does what is kept of it; its first character is there. -/
theorem exists_places_of_mem_holes {file : Source.File} {b : Blocks} {m : Marked} {key : String} {hole : Hole}
    (hb : blocks file = .ok b) (hm : marked file b.markup = .ok m) (hhole : (key, hole) ∈ m.holes) :
    (∃ before after, file.text = before ++ after ∧ byteLength before = hole.offset) ∧
    ∃ before after, file.text = before ++ after ∧
      byteLength before = hole.offset + byteLength (Template.leadOf hole.code.toList) ∧
      ∀ c ∈ (Template.stored hole.code.toList).head?, after.head? = some c := by
  obtain ⟨ps, hps, h⟩ := Compiled.bind_eq_ok.mp hm
  obtain rfl := Except.ok.inj h
  obtain ⟨before, after, hchars, hoffset⟩ := exists_braces_of_mem_holes hhole
  obtain ⟨qs, es, hyields, hmarkup, -⟩ := exists_yields_of_blocks hb
  have htext : qs.flatMap SourcePiece.markup = before ++ '{' :: hole.code.toList ++ '}' :: after := by
    rw [← hmarkup, ← (cuts_of_pieces file 0 b.markup ps hps).1, Split.markup_ofPieces, hchars]
  -- Neither a brace nor the first character that is kept is a blank, so both stand in the file as well.
  have hbrace : '{'.utf8Size = 1 := rfl
  constructor
  · obtain ⟨start, rest, hsource, hlength⟩ := exists_source_of_markup (c := '{') (by decide)
      (htext.trans (by rw [List.append_assoc, List.cons_append]))
    refine ⟨start ++ ['{'], rest, ?_, ?_⟩
    · rw [← hyields.chars, hsource, List.append_assoc, List.singleton_append]
    · rw [byteLength_append, hlength, hoffset, Nat.zero_add, byteLength_cons, hbrace, byteLength_nil]
  · obtain ⟨rest, hrest, hhead⟩ := Template.exists_kept hole.code.toList
    obtain ⟨d, tail, hd, hfirst, hblank⟩ : ∃ d tail, rest ++ '}' :: after = d :: tail ∧
        (∀ c ∈ (Template.stored hole.code.toList).head?, c = d) ∧ d ≠ ' ' ∧ d ≠ '\n' := by
      cases rest with
      | nil => exact ⟨'}', after, rfl, by rw [← hhead]; exact nofun, by decide⟩
      | cons d rest =>
        have hnot := Template.not_isBlank_of_stored hhead.symm
        refine ⟨d, _, rfl, ?_, ?_, ?_⟩
        · rw [← hhead]
          rintro c ⟨⟩
          rfl
        · rintro rfl
          exact absurd hnot (by decide)
        · rintro rfl
          exact absurd hnot (by decide)
    have hplace : before ++ '{' :: hole.code.toList ++ '}' :: after =
        before ++ '{' :: Template.leadOf hole.code.toList ++ d :: tail := by
      rw [← hd]
      nth_rewrite 1 [hrest]
      simp only [List.append_assoc, List.cons_append]
    obtain ⟨start, later, hsource, hlength⟩ := exists_source_of_markup hblank (htext.trans hplace)
    refine ⟨start, d :: later, ?_, ?_, ?_⟩
    · rw [← hyields.chars, hsource]
    · rw [hlength, byteLength_append, byteLength_cons, hbrace, hoffset]
      omega
    · intro c hc
      rw [hfirst c hc]
      rfl

end PageCompiler.Markup

namespace PageCompiler

open Text Template

namespace Source.File

/-- The text of the file from the position on starts with the code. -/
def Exact (file : File) (p : Position) (code : List Char) : Prop :=
  ∃ before after, file.text = before ++ code ++ after ∧ p = ({} : Position).advance before

/-- The text of the file from the position on starts with the first character of the code. -/
def Starts (file : File) (p : Position) (code : List Char) : Prop :=
  ∃ before after, file.text = before ++ after ∧ p = ({} : Position).advance before ∧
    ∀ c ∈ code.head?, after.head? = some c

theorem exact_iff {file : File} {p : Position} {code : List Char} :
    file.Exact p code ↔ ∃ n ∈ List.range (file.text.length + 1),
      code.isPrefixOf (file.text.drop n) = true ∧ p = ({} : Position).advance (file.text.take n) := by
  constructor
  · rintro ⟨before, after, htext, rfl⟩
    have hlength := congrArg List.length htext
    rw [List.length_append, List.length_append] at hlength
    rw [List.append_assoc] at htext
    refine ⟨before.length, List.mem_range.mpr (by omega), ?_, ?_⟩
    · rw [htext, List.drop_left, List.isPrefixOf_iff_prefix]
      exact List.prefix_append _ _
    · rw [htext, List.take_left]
  · rintro ⟨n, -, hstart, rfl⟩
    obtain ⟨after, hafter⟩ := List.isPrefixOf_iff_prefix.mp hstart
    refine ⟨file.text.take n, after, ?_, rfl⟩
    rw [List.append_assoc, hafter, List.take_append_drop]

instance (file : File) (p : Position) (code : List Char) : Decidable (file.Exact p code) :=
  decidable_of_iff _ exact_iff.symm

end Source.File

section
variable {path : String} {source : String}

/-- The first character that is kept of a hole is after the blanks and comments at its start, so the hole has the
position of that character exactly if there are none. -/
theorem positions_of_hole {b : Markup.Blocks} {m : Markup.Marked} {key : String} {hole : Markup.Hole}
    (hb : Markup.blocks (.ofString path source) = .ok b)
    (hm : Markup.marked (.ofString path source) b.markup = .ok m) (hhole : (key, hole) ∈ m.holes) :
    let file := Source.File.ofString path source
    let raw := hole.code.toList
    let first := file.position (hole.offset + byteLength (leadOf raw))
    file.Starts first (stored raw) ∧ (file.position hole.offset = first ↔ leadOf raw = []) ∧
      (leadOf raw = [] → hole.Unbroken file → file.Exact (file.position hole.offset) (stored raw)) := by
  intro file raw first
  have hposition : ∀ {before after : List Char}, file.text = before ++ after →
      file.position (byteLength before) = ({} : Position).advance before := by
    intro before after htext
    have hfile : file = .ofText path (before ++ after) := congrArg (Source.File.ofText path) htext
    rw [hfile, Source.File.position_ofText]
  obtain ⟨⟨before, after, htext, hlength⟩, start, rest, hstart, hoffset, hhead⟩ :=
    Markup.exists_places_of_mem_holes hb hm hhole
  have hfirst : first = ({} : Position).advance start := by
    rw [← hposition hstart, hoffset]
  refine ⟨⟨start, rest, hstart, hfirst, hhead⟩, ?_, ?_⟩
  · rw [hfirst, ← hlength, hposition htext, Position.advance_inj ⟨after, htext.symm⟩ ⟨rest, hstart.symm⟩]
    constructor
    · rintro rfl
      apply Classical.not_not.mp
      intro hlead
      have hpos : 0 < byteLength (leadOf hole.code.toList) := byteLength_pos hlead
      omega
    · intro hlead
      have hsame : byteLength before = byteLength start := by
        rw [hlength, hoffset, show leadOf hole.code.toList = [] from hlead]
        rfl
      rw [← takeBytes_append before after, ← takeBytes_append start rest, ← htext, ← hstart, hsame]
  · rintro hlead ⟨hcomment, before, after, htext, hlength⟩
    obtain ⟨tail, htail⟩ := stored_isPrefix hlead hcomment
    refine ⟨before, tail ++ after, ?_, ?_⟩
    · rw [htext, List.append_assoc, List.append_assoc, ← List.append_assoc (stored raw), htail]
    · rw [← hlength, hposition (htext.trans (List.append_assoc ..))]

/-- In code that is in the file at its position, the first character that is kept of a span is after the blanks and
comments at its start. -/
theorem positions_of_span {file : Source.File} {c : Snippet} (hc : file.Exact c.start c.code) (span : Span) :
    let text := c.textOf span
    let first := c.start.advance (takeBytes span.start c.code ++ leadOf text)
    file.Starts first (stored text) ∧
      (∀ other : Span, c.positionOf other = first ↔
        takeBytes other.start c.code = takeBytes span.start c.code ++ leadOf text) ∧
      (leadOf text = [] → withoutComments text = text → file.Exact (c.positionOf span) (stored text)) := by
  intro text first
  obtain ⟨before, after, htext, hstart⟩ := hc
  obtain ⟨rest, hrest, hhead⟩ := exists_kept text
  let later := dropBytes (span.stop - span.start) (dropBytes span.start c.code)
  have hcode : c.code = takeBytes span.start c.code ++ (text ++ later) := by
    show c.code = _ ++ (slice span.start span.stop c.code ++ later)
    rw [slice, takeBytes_append_dropBytes, takeBytes_append_dropBytes]
  have hsplit : c.code = takeBytes span.start c.code ++ leadOf text ++ (rest ++ later) := by
    rw [List.append_assoc, ← List.append_assoc (leadOf text), ← hrest]
    exact hcode
  refine ⟨⟨before ++ (takeBytes span.start c.code ++ leadOf text), rest ++ later ++ after, ?_, ?_, ?_⟩, ?_, ?_⟩
  · rw [htext]
    nth_rewrite 1 [hsplit]
    simp only [List.append_assoc]
  · rw [Position.advance_append, ← hstart]
  · intro d hd
    rw [← hhead] at hd
    rw [List.append_assoc, List.head?_append, hd]
    rfl
  · intro other
    exact Position.advance_inj ⟨_, takeBytes_append_dropBytes other.start c.code⟩ ⟨_, hsplit.symm⟩
  · intro hlead hcomment
    obtain ⟨tail, htail⟩ := stored_isPrefix hlead hcomment
    have hkept : c.code = takeBytes span.start c.code ++ (stored text ++ (tail ++ later)) := by
      rw [← List.append_assoc (stored text), htail]
      exact hcode
    refine ⟨before ++ takeBytes span.start c.code, tail ++ later ++ after, ?_, ?_⟩
    · rw [htext]
      nth_rewrite 1 [hkept]
      simp only [List.append_assoc]
    · rw [Position.advance_append, ← hstart]
      rfl

end

namespace Page

/-- Every expression of a page that was read comes from a hole, from an attribute that is no hole, or from the code of
an expression that became markup. A hole has the position of its first character that is kept exactly if no blank and
no comment comes before it; a hole that is also in one piece is in the file from its position on. In code that is in
the file from its position on, a span has the position of its first character that is kept under the same condition,
and the value of an attribute has the position of the attribute instead. -/
theorem positions_of_read {source path : String} {p : Page} (h : read source path = .ok p) :
    let file := Source.File.ofString path source
    ∃ b m, Markup.blocks file = .ok b ∧ Markup.marked file b.markup = .ok m ∧
      (∀ e ∈ p.expressions, Origin file m.holes e) ∧
      (∀ key hole, (key, hole) ∈ m.holes →
        let raw := hole.code.toList
        let first := file.position (hole.offset + byteLength (leadOf raw))
        file.Starts first (stored raw) ∧ (file.position hole.offset = first ↔ leadOf raw = []) ∧
          (leadOf raw = [] → hole.Unbroken file → file.Exact (file.position hole.offset) (stored raw))) ∧
      ∀ c : Snippet, file.Exact c.start c.code → ∀ span : Span,
        let text := c.textOf span
        let first := c.start.advance (takeBytes span.start c.code ++ leadOf text)
        file.Starts first (stored text) ∧
          (∀ other : Span, c.positionOf other = first ↔
            takeBytes other.start c.code = takeBytes span.start c.code ++ leadOf text) ∧
          (leadOf text = [] → withoutComments text = text → file.Exact (c.positionOf span) (stored text)) := by
  intro file
  obtain ⟨b, m, hb, hm, horigin⟩ := exists_origin_of_read h
  exact ⟨b, m, hb, hm, horigin, fun _ _ hhole => positions_of_hole hb hm hhole, fun _ hc => positions_of_span hc⟩

/-- Markup in an expression: the condition and the child are in the file from their positions on, and the value of the
attribute has the position of the attribute. -/
theorem positions_of_read_nested :
    let source := "<p>\x7bok && <b id=\x7ba\x7d>\x7bé\x7d</b>\x7d</p>"
    let file := Source.File.ofString "page.zen" source
    let code : Snippet := ⟨"ok && <b id=\x7ba\x7d>\x7bé\x7d</b>".toList, ⟨1, 5⟩⟩
    ∃ p, read source "page.zen" = .ok p ∧
      (p.expressions.map (fun e => (e.code, e.place.position)) = [("ok", ⟨1, 5⟩), ("é", ⟨1, 22⟩), ("a", ⟨1, 14⟩)] ∧
        file.Exact ⟨1, 5⟩ "ok".toList ∧ file.Exact ⟨1, 22⟩ "é".toList ∧ ¬ file.Exact ⟨1, 14⟩ "a".toList) ∧
      ∃ b m, Markup.blocks file = .ok b ∧ Markup.marked file b.markup = .ok m ∧
        (∀ e ∈ p.expressions, Origin file m.holes e) ∧
        file.Exact (code.positionOf ⟨17, 19⟩) (stored (code.textOf ⟨17, 19⟩)) := by
  intro source file code
  obtain ⟨p, hp, hfacts⟩ := exists_eq_ok_of_any
    (show (read source "page.zen").toOption.any (fun p => decide
      (p.expressions.map (fun e => (e.code, e.place.position)) = [("ok", ⟨1, 5⟩), ("é", ⟨1, 22⟩), ("a", ⟨1, 14⟩)] ∧
        file.Exact ⟨1, 5⟩ "ok".toList ∧ file.Exact ⟨1, 22⟩ "é".toList ∧ ¬ file.Exact ⟨1, 14⟩ "a".toList)) = true
      by decide +kernel)
  obtain ⟨b, m, hb, hm, horigin, -, hspans⟩ := positions_of_read hp
  have hcode : file.Exact code.start code.code := by decide +kernel
  obtain ⟨-, -, hexact⟩ := hspans code hcode ⟨17, 19⟩
  exact ⟨p, hp, of_decide_eq_true hfacts, b, m, hb, hm, horigin, hexact (by decide +kernel) (by decide +kernel)⟩

/-- A code with blanks around it: it has the position after the brace, where the blank is. -/
theorem position_of_blank :
    let source := "<p>\x7b a \x7d</p>"
    let file := Source.File.ofString "page.zen" source
    ∃ p, read source "page.zen" = .ok p ∧
      p.expressions.map (fun e => (e.code, e.place.position)) = [("a", ⟨1, 5⟩)] ∧
      ¬ file.Exact ⟨1, 5⟩ "a".toList ∧ file.Exact ⟨1, 6⟩ "a".toList := by
  intro source file
  obtain ⟨p, hp, hfacts⟩ := exists_eq_ok_of_any
    (show (read source "page.zen").toOption.any (fun p => decide
      (p.expressions.map (fun e => (e.code, e.place.position)) = [("a", ⟨1, 5⟩)] ∧
      ¬ file.Exact ⟨1, 5⟩ "a".toList ∧ file.Exact ⟨1, 6⟩ "a".toList)) = true by decide +kernel)
  exact ⟨p, hp, of_decide_eq_true hfacts⟩

end Page

end PageCompiler
