import PageCompiler.Proofs.BraceGrammar
import PageCompiler.Proofs.Runs

/-!
# The marked text of a markup

A markup is text with codes in braces (`Split`). The pieces that the scan cuts it into are such a split, in which the
texts have braces in comments only and every code ends at the brace that closes it (`cuts_of_pieces`).

The marking of a list of pieces is the marking of its first part, followed by that of the rest from where the first
part ended (`mark_append`). So what stands in the marked text at some code, and the anchors there, can be read off the
marking from that code on, and what comes before tells only how many markers, how many bytes of text and how many
bytes of markup there are (`mark_at`). An offset belongs to the last anchor at or before it, whatever the others are.
-/

namespace PageCompiler.Text

theorem byteLength_toList (s : String) : byteLength s.toList = s.utf8ByteSize := by
  have hlist : ∀ cs : List Char, byteLength cs = (String.ofList cs).utf8ByteSize := by
    intro cs
    induction cs with
    | nil => rfl
    | cons c cs ih =>
      rw [byteLength_cons, ih, ← List.singleton_append, String.ofList_append, String.utf8ByteSize_append]
      simp
  rw [hlist, String.ofList_toList]

end PageCompiler.Text

namespace PageCompiler.Markup

open Text

/-! ## Splits -/

/-- Text that is copied: its braces are all in comments, and each comment ends where it first can. -/
inductive Copied : List Char → Prop
  | nil : Copied []
  | char {c : Char} {rest : List Char} (hopen : c ≠ '{') (hclose : c ≠ '}') (hcomment : ¬ "<!--".toList <+: c :: rest)
      (hrest : Copied rest) : Copied (c :: rest)
  | comment {inner rest : List Char} (hinner : ¬ "-->".toList <:+: inner ++ "--".toList) (hrest : Copied rest) :
      Copied ("<!--".toList ++ inner ++ "-->".toList ++ rest)

/-- Markup as text and code in braces: the text before the first code, then each code with the text after it. -/
structure Split where
  first : List Char
  later : List (List Char × List Char)

/-- How many of the codes have a marker. -/
def keptIn (later : List (List Char × List Char)) : Nat :=
  later.countP fun part => isKept part.1

/-- What stands for a code in the marked text if `count` codes before it have a marker. -/
def standIn (count : Nat) (code : List Char) : List Char :=
  if isKept code then (marker count).toList else []

/-- Codes and the texts after them with markers for the codes, if `count` codes before them have one. -/
def withMarkers (count : Nat) : List (List Char × List Char) → List Char
  | [] => []
  | part :: later => standIn count part.1 ++ part.2 ++ withMarkers (count + keptIn [part]) later

namespace Split

def markup (s : Split) : List Char :=
  s.first ++ s.later.flatMap fun part => '{' :: part.1 ++ '}' :: part.2

/-- The marked text: each code is replaced by what stands for it. -/
def text (s : Split) : List Char :=
  s.first ++ withMarkers 0 s.later

/-- The texts are copied, and each code ends at the brace that closes the one before it. -/
structure Proper (s : Split) : Prop where
  first : Copied s.first
  code : ∀ part ∈ s.later, Brace.Derives .code part.1
  chunk : ∀ part ∈ s.later, Copied part.2

/-- The pieces of a markup, with the texts between two holes put together. -/
def ofPieces : List Piece → Split
  | [] => ⟨[], []⟩
  | .text chars :: ps => ⟨chars ++ (ofPieces ps).first, (ofPieces ps).later⟩
  | .hole code :: ps => ⟨[], (code, (ofPieces ps).first) :: (ofPieces ps).later⟩

theorem markup_ofPieces (ps : List Piece) : (ofPieces ps).markup = ps.flatMap Piece.chars := by
  induction ps with
  | nil => rfl
  | cons p ps ih =>
    rw [List.flatMap_cons, ← ih]
    cases p with
    | text chars => simp [ofPieces, markup, Piece.chars]
    | hole code => simp [ofPieces, markup, Piece.chars]

theorem exists_pieces {ps : List Piece} {before after : List (List Char × List Char)} {code chunk : List Char}
    (h : (ofPieces ps).later = before ++ (code, chunk) :: after) :
    ∃ qs rs, ps = qs ++ .hole code :: rs ∧ ofPieces qs = ⟨(ofPieces ps).first, before⟩ ∧
      (ofPieces rs).first = chunk := by
  induction ps generalizing before with
  | nil => simp [ofPieces] at h
  | cons p ps ih =>
    cases p with
    | text chars =>
      obtain ⟨qs, rs, rfl, hqs, hrs⟩ := ih h
      exact ⟨.text chars :: qs, rs, rfl, by simp [ofPieces, hqs], hrs⟩
    | hole inner =>
      rw [ofPieces] at h
      cases before with
      | nil =>
        obtain ⟨hpart, -⟩ := List.cons.inj h
        obtain ⟨rfl, hchunk⟩ := Prod.mk.inj hpart
        exact ⟨[], ps, rfl, rfl, hchunk⟩
      | cons part before =>
        obtain ⟨hpart, hlater⟩ := List.cons.inj h
        obtain ⟨qs, rs, rfl, hqs, hrs⟩ := ih hlater
        refine ⟨.hole inner :: qs, rs, rfl, ?_, hrs⟩
        rw [ofPieces, hqs, hpart]
        rfl

end Split

/-! ## Marking -/

theorem byteLength_hole (code : List Char) : byteLength (Piece.hole code).chars = 1 + byteLength code + 1 := by
  have hopen : '{'.utf8Size = 1 := rfl
  have hclose : '}'.utf8Size = 1 := rfl
  simp [Piece.chars, hopen, hclose, Nat.add_assoc]

section
variable {code : List Char} {count pos source : Nat} {ps : List Piece}

theorem mark_kept (h : isKept code = true) :
    mark count pos source (.hole code :: ps) =
      let next := source + 1 + byteLength code + 1
      let after := pos + byteLength (marker count).toList
      let later := mark (count + 1) after next ps
      { text := (marker count).toList ++ later.text
        holes := (marker count, { code := String.ofList code, offset := source + 1 }) :: later.holes
        anchors := (pos, source) :: (after, next) :: later.anchors } := by
  rw [mark, if_pos h, byteLength_toList]

theorem mark_dropped (h : ¬ isKept code = true) :
    mark count pos source (.hole code :: ps) =
      let next := source + 1 + byteLength code + 1
      let later := mark count pos next ps
      { text := later.text, holes := later.holes, anchors := (pos, next) :: later.anchors } := by
  rw [mark, if_neg h]

end

/-- The rest is marked from where the first part ended. -/
theorem mark_append (count pos source : Nat) (ps qs : List Piece) :
    let m := mark count pos source ps
    let n := mark (count + m.holes.length) (pos + byteLength m.text) (source + byteLength (ps.flatMap Piece.chars)) qs
    mark count pos source (ps ++ qs) =
      { text := m.text ++ n.text, holes := m.holes ++ n.holes, anchors := m.anchors ++ n.anchors } := by
  induction ps generalizing count pos source with
  | nil => simp [mark]
  | cons p ps ih =>
    cases p with
    | text chars => simp [mark, ih, Piece.chars, Nat.add_assoc]
    | hole code =>
      by_cases hkept : isKept code = true
      · simp [mark_kept hkept, ih, byteLength_hole, Nat.add_assoc, Nat.add_comm, Nat.add_left_comm]
      · simp [mark_dropped hkept, ih, byteLength_hole, Nat.add_assoc]

theorem length_holes_mark (count pos source : Nat) (ps : List Piece) :
    (mark count pos source ps).holes.length = keptIn (Split.ofPieces ps).later := by
  induction ps generalizing count pos source with
  | nil => rfl
  | cons p ps ih =>
    cases p with
    | text chars => exact ih _ _ _
    | hole code =>
      by_cases hkept : isKept code = true
      · simp [mark_kept hkept, ih, hkept, keptIn, Split.ofPieces]
      · simp [mark_dropped hkept, ih, hkept, keptIn, Split.ofPieces]

theorem text_mark (count pos source : Nat) (ps : List Piece) :
    (mark count pos source ps).text = (Split.ofPieces ps).first ++ withMarkers count (Split.ofPieces ps).later := by
  induction ps generalizing count pos source with
  | nil => rfl
  | cons p ps ih =>
    cases p with
    | text chars => simp [mark, ih, Split.ofPieces]
    | hole code =>
      by_cases hkept : isKept code = true
      · simp [mark_kept hkept, ih, hkept, keptIn, Split.ofPieces, withMarkers, standIn]
      · simp [mark_dropped hkept, ih, hkept, keptIn, Split.ofPieces, withMarkers, standIn]

theorem le_of_mem_anchors_mark {count pos source : Nat} {ps : List Piece} {anchor : Nat × Nat}
    (h : anchor ∈ (mark count pos source ps).anchors) : pos + byteLength (Split.ofPieces ps).first ≤ anchor.1 := by
  induction ps generalizing count pos source with
  | nil => cases h
  | cons p ps ih =>
    cases p with
    | text chars =>
      have hle := ih h
      rw [Split.ofPieces, byteLength_append]
      omega
    | hole code =>
      rw [Split.ofPieces, byteLength_nil]
      by_cases hkept : isKept code = true
      · rw [mark_kept hkept, List.mem_cons, List.mem_cons] at h
        rcases h with rfl | rfl | h
        · exact Nat.le_refl _
        · exact Nat.le_add_right _ _
        · have hle := ih h
          omega
      · rw [mark_dropped hkept, List.mem_cons] at h
        rcases h with rfl | h
        · exact Nat.le_refl _
        · have hle := ih h
          omega

theorem Marked.sourceOffset_of_anchors {m : Marked} {earlier later : List (Nat × Nat)} {here source offset : Nat}
    (h : m.anchors = earlier ++ (here, source) :: later) (hhere : here ≤ offset)
    (hlater : ∀ anchor ∈ later, offset < anchor.1) : m.sourceOffset offset = source + (offset - here) := by
  have hnone : later.filter (·.1 ≤ offset) = [] := by
    rw [List.filter_eq_nil_iff]
    intro anchor hanchor
    simpa using hlater anchor hanchor
  rw [Marked.sourceOffset, h, List.filter_append, List.filter_cons_of_pos (by simpa using hhere), hnone,
    List.getLast?_append]
  rfl

theorem byteLength_marker_pos (n : Nat) : 0 < byteLength (marker n).toList := by
  have hend : 0 < byteLength (toString "__").toList := by decide
  rw [marker, String.toList_append, byteLength_append]
  omega

section
variable {m : Marked} {count pos source : Nat} {code : List Char} {ps : List Piece} {earlier : List (Nat × Nat)}

theorem Marked.sourceOffset_marker (h : m.anchors = earlier ++ (mark count pos source (.hole code :: ps)).anchors)
    (hkept : isKept code = true) : m.sourceOffset pos = source := by
  -- The marker is not empty, so the next anchor is after its first byte.
  have hpos := byteLength_marker_pos count
  rw [mark_kept hkept] at h
  have hlater : ∀ anchor ∈ (pos + byteLength (marker count).toList, source + 1 + byteLength code + 1) ::
      (mark (count + 1) (pos + byteLength (marker count).toList) (source + 1 + byteLength code + 1) ps).anchors,
      pos < anchor.1 := by
    intro anchor hanchor
    rcases List.mem_cons.mp hanchor with rfl | hanchor
    · dsimp only
      omega
    · have hle := le_of_mem_anchors_mark hanchor
      omega
  rw [Marked.sourceOffset_of_anchors h (Nat.le_refl _) hlater, Nat.sub_self, Nat.add_zero]

/-- In the text after a code, the offsets move alike from the end of what stands for the code. -/
theorem Marked.sourceOffset_chunk (h : m.anchors = earlier ++ (mark count pos source (.hole code :: ps)).anchors)
    {n : Nat} (hn : n < byteLength (Split.ofPieces ps).first) :
    m.sourceOffset (pos + byteLength (standIn count code) + n) = source + 1 + byteLength code + 1 + n := by
  -- A hole of either sort has an anchor where the text after it starts.
  have hanchors : ∃ before later,
      m.anchors = before ++ (pos + byteLength (standIn count code), source + 1 + byteLength code + 1) :: later ∧
        ∀ anchor ∈ later, pos + byteLength (standIn count code) + n < anchor.1 := by
    by_cases hkept : isKept code = true
    · rw [mark_kept hkept, ← List.concat_append] at h
      rw [standIn, if_pos hkept]
      exact ⟨_, _, h, fun anchor hanchor => Nat.lt_of_lt_of_le (by omega) (le_of_mem_anchors_mark hanchor)⟩
    · rw [mark_dropped hkept] at h
      rw [standIn, if_neg hkept]
      exact ⟨_, _, h, fun anchor hanchor => Nat.lt_of_lt_of_le (by simpa using hn) (le_of_mem_anchors_mark hanchor)⟩
  obtain ⟨before, later, hsplit, hlater⟩ := hanchors
  rw [Marked.sourceOffset_of_anchors hsplit (Nat.le_add_right _ _) hlater, Nat.add_sub_cancel_left]

end

/-! ## Cutting -/

theorem Copied.append_of_plain {plain rest : List Char} (hplain : ∀ c ∈ plain, c ≠ '<' ∧ c ≠ '{' ∧ c ≠ '}')
    (hrest : Copied rest) : Copied (plain ++ rest) := by
  induction plain with
  | nil => exact hrest
  | cons c plain ih =>
    obtain ⟨hc, hplain⟩ := List.forall_mem_cons.mp hplain
    refine .char hc.2.1 hc.2.2 (fun hcomment => hc.1 ?_) (ih hplain)
    exact (List.cons_prefix_cons.mp hcomment).1.symm

/-- The pieces make up the text, and they are those of a proper split. -/
def Cuts (ps : List Piece) (cs : List Char) : Prop :=
  (Split.ofPieces ps).markup = cs ∧ (Split.ofPieces ps).Proper

section
variable {ps : List Piece} {cs : List Char}

theorem cuts_nil : Cuts [] [] :=
  ⟨rfl, .nil, nofun, nofun⟩

theorem Cuts.text (h : Cuts ps cs) {chars : List Char} (hchars : Copied (chars ++ (Split.ofPieces ps).first)) :
    Cuts (.text chars :: ps) (chars ++ cs) := by
  obtain ⟨rfl, hproper⟩ := h
  exact ⟨by simp [Split.markup_ofPieces, Piece.chars], hchars, hproper.code, hproper.chunk⟩

/-- The characters before the next mark are copied. -/
theorem Cuts.plain (h : Cuts ps (cs.dropWhile fun c => c ≠ '<' && c ≠ '{' && c ≠ '}')) :
    Cuts (.text (cs.takeWhile fun c => c ≠ '<' && c ≠ '{' && c ≠ '}') :: ps) cs := by
  have hplain : ∀ c ∈ cs.takeWhile fun c => c ≠ '<' && c ≠ '{' && c ≠ '}', c ≠ '<' ∧ c ≠ '{' ∧ c ≠ '}' := by
    intro c hc
    simpa [and_assoc] using List.all_eq_true.mp List.all_takeWhile c hc
  have hcuts := h.text (h.2.first.append_of_plain hplain)
  rwa [List.takeWhile_append_dropWhile] at hcuts

theorem Cuts.comment (h : Cuts ps cs) {inner : List Char} (hinner : ¬ "-->".toList <:+: inner ++ "--".toList) :
    Cuts (.text ("<!--".toList ++ inner ++ "-->".toList) :: ps) ("<!--".toList ++ inner ++ "-->".toList ++ cs) :=
  h.text (.comment hinner h.2.first)

/-- An opening mark that opens no comment in the text opens none in the text before the next code. -/
theorem Cuts.mark (h : Cuts ps cs) (hcomment : ¬ "!--".toList <+: cs) : Cuts (.text ['<'] :: ps) ('<' :: cs) := by
  refine h.text (.char (by decide) (by decide) (fun hstart => hcomment ?_) h.2.first)
  rw [← h.1]
  exact (List.cons_prefix_cons.mp hstart).2.trans (List.prefix_append _ _)

/-- The code up to the brace that closes it starts a new part of the split. -/
theorem Cuts.hole (h : Cuts ps cs) {code : List Char} (hcode : Brace.Derives .code code) :
    Cuts (.hole code :: ps) ('{' :: code ++ '}' :: cs) := by
  obtain ⟨rfl, hproper⟩ := h
  refine ⟨by simp [Split.markup_ofPieces, Piece.chars], .nil, ?_, ?_⟩
  · exact List.forall_mem_cons.mpr ⟨hcode, hproper.code⟩
  · exact List.forall_mem_cons.mpr ⟨hproper.first, hproper.chunk⟩

end

theorem comment_of_strip? {rest inner comment after : List Char} (hinner : strip? "!--".toList rest = some inner)
    (hcomment : breakOn? "-->".toList inner = some (comment, after)) :
    '<' :: rest = "<!--".toList ++ comment ++ "-->".toList ++ after ∧
      '<' :: rest.take ("!--".length + comment.length + "-->".length) = "<!--".toList ++ comment ++ "-->".toList ∧
      rest.drop ("!--".length + comment.length + "-->".length) = after := by
  have hrest : rest = ("!--".toList ++ comment ++ "-->".toList) ++ after := by
    rw [strip?_eq_some_iff.mp hinner, append_of_breakOn? hcomment]
    simp only [List.append_assoc]
  have hsize : "!--".length + comment.length + "-->".length = ("!--".toList ++ comment ++ "-->".toList).length := by
    simp only [List.length_append, String.length_toList]
  rw [hsize, hrest, List.take_left, List.drop_left]
  exact ⟨rfl, rfl, rfl⟩

/-- The pieces of a text make it up, with braces in comments only outside of the codes. -/
theorem cuts_of_pieces (file : Source.File) (pos : Nat) (cs : List Char) :
    ∀ ps, pieces file pos cs = .ok ps → Cuts ps cs := by
  fun_induction pieces file pos cs with
  | case1 pos cs isPlain plain hend =>
    intro ps h
    cases h
    refine Cuts.plain ?_
    rw [hend]
    exact cuts_nil
  | case2 pos cs isPlain plain rest here inner hinner comment after hcomment size hrest chars ih =>
    intro ps h
    obtain ⟨later, hlater, h⟩ := Compiled.bind_eq_ok.mp h
    cases h
    obtain ⟨hmarkup, hchars, hafter⟩ := comment_of_strip? hinner hcomment
    rw [hafter] at hlater ih
    refine Cuts.plain ?_
    rw [hrest, hmarkup, show chars = _ from hchars]
    exact (ih later hlater).comment (not_infix_of_breakOn? (by decide) hcomment)
  | case4 pos cs isPlain plain rest here hcomment hrest ih =>
    intro ps h
    obtain ⟨later, hlater, h⟩ := Compiled.bind_eq_ok.mp h
    cases h
    have hnot : ¬ "!--".toList <+: rest := by
      rintro ⟨inner, rfl⟩
      rw [strip?_eq_some_iff.mpr rfl] at hcomment
      cases hcomment
    refine Cuts.plain ?_
    rw [hrest]
    exact (ih later hlater).mark hnot
  | case5 pos cs isPlain plain rest here size hsize hrest _ ih =>
    intro ps h
    obtain ⟨later, hlater, h⟩ := Compiled.bind_eq_ok.mp h
    cases h
    obtain ⟨code, after, rfl, rfl, hcode⟩ := closingBrace?_eq_some_iff.mp hsize
    rw [dropBytes_append] at hlater ih
    refine Cuts.plain ?_
    rw [hrest, takeBytes_append]
    exact (ih later hlater).hole hcode
  | case3 | case6 | case7 =>
    intro ps h
    cases h

/-! ## Offsets and holes of the marked text -/

theorem mark_at {ps : List Piece} {before after : List (List Char × List Char)} {code chunk : List Char}
    (h : (Split.ofPieces ps).later = before ++ (code, chunk) :: after) :
    let lead : Split := ⟨(Split.ofPieces ps).first, before⟩
    ∃ rs, (Split.ofPieces rs).first = chunk ∧
      let found := mark (keptIn before) (byteLength lead.text) (byteLength lead.markup) (.hole code :: rs)
      (∃ holes, holes.length = keptIn before ∧ (mark 0 0 0 ps).holes = holes ++ found.holes) ∧
      ∃ anchors, (mark 0 0 0 ps).anchors = anchors ++ found.anchors := by
  intro lead
  obtain ⟨qs, rs, hps, hqs, hrs⟩ := Split.exists_pieces h
  have hcount : (mark 0 0 0 qs).holes.length = keptIn before := by rw [length_holes_mark, hqs]
  have htext : (mark 0 0 0 qs).text = lead.text := by
    rw [text_mark, hqs]
    rfl
  have hmarkup : qs.flatMap Piece.chars = lead.markup := by rw [← Split.markup_ofPieces, hqs]
  have happend := mark_append 0 0 0 qs (.hole code :: rs)
  simp only [← hps, hcount, htext, hmarkup, Nat.zero_add] at happend
  rw [happend]
  exact ⟨rs, hrs, ⟨_, hcount, rfl⟩, _, rfl⟩

/-- A marked markup is cut at its codes, and the marked text has the same texts, with a marker for each code that says
anything and nothing for the others. The holes are the codes with a marker, in order, each with its place in the
markup. The offset of a byte of a text belongs to that byte in the markup, and the start of a marker to the brace
before its code. -/
theorem lossless_of_marked {file : Source.File} {markup : List Char} {m : Marked} (h : marked file markup = .ok m) :
    ∃ s : Split, s.Proper ∧ markup = s.markup ∧ m.text = s.text ∧ m.holes.length = keptIn s.later ∧
      (∀ n < byteLength s.first, m.sourceOffset n = n) ∧
      ∀ before code chunk after, s.later = before ++ (code, chunk) :: after →
        let lead : Split := ⟨s.first, before⟩
        let count := keptIn before
        (isKept code = true →
          m.holes[count]? = some (marker count, { code := String.ofList code, offset := byteLength lead.markup + 1 }) ∧
          m.sourceOffset (byteLength lead.text) = byteLength lead.markup) ∧
        ∀ n < byteLength chunk,
          m.sourceOffset (byteLength lead.text + byteLength (standIn count code) + n) =
            byteLength lead.markup + 1 + byteLength code + 1 + n := by
  obtain ⟨ps, hps, h⟩ := Compiled.bind_eq_ok.mp h
  obtain ⟨hmarkup, hproper⟩ := cuts_of_pieces file 0 markup ps hps
  obtain rfl := Except.ok.inj h
  refine ⟨Split.ofPieces ps, hproper, hmarkup.symm, text_mark _ _ _ _, length_holes_mark _ _ _ _, ?_, ?_⟩
  · intro n hn
    have hlater : ∀ anchor ∈ (mark 0 0 0 ps).anchors, n < anchor.1 := by
      intro anchor hanchor
      have hle := le_of_mem_anchors_mark hanchor
      omega
    rw [Marked.sourceOffset_of_anchors (List.nil_append _).symm (Nat.zero_le n) hlater]
    omega
  · intro before code chunk after hlater lead count
    obtain ⟨rs, rfl, ⟨holes, hcount, hholes⟩, anchors, hanchors⟩ := mark_at hlater
    have hall : (0, 0) :: (mark 0 0 0 ps).anchors = ((0, 0) :: anchors) ++ _ := congrArg (List.cons (0, 0)) hanchors
    refine ⟨fun hkept => ⟨?_, Marked.sourceOffset_marker hall hkept⟩, fun n hn => Marked.sourceOffset_chunk hall hn⟩
    rw [hholes, mark_kept hkept, List.getElem?_append_right (Nat.le_of_eq hcount), hcount, Nat.sub_self]
    rfl

/-- Three codes, the second of which is blank, between texts of which one has a brace in a comment. -/
theorem lossless_of_marked_greeting :
    let markup := "é\x7ba\x7d\x7b\x7d\x7bb\x7d<!-- \x7b -->".toList
    ∃ m, marked (.ofText "greeting.zen" markup) markup = .ok m ∧
      (m.text = "é__ZENITH_EXPR_0____ZENITH_EXPR_1__<!-- \x7b -->".toList ∧
        m.holes = [(marker 0, { code := "a", offset := 3 }), (marker 1, { code := "b", offset := 8 })] ∧
        [2, 19, 36].map m.sourceOffset = [2, 7, 10]) ∧
      ∃ s : Split, s.Proper ∧ markup = s.markup ∧ m.text = s.text ∧ m.holes.length = keptIn s.later := by
  intro markup
  obtain ⟨m, hm, hfacts⟩ := exists_eq_ok_of_any
    (show (marked (.ofText "greeting.zen" markup) markup).toOption.any (fun m => decide
      (m.text = "é__ZENITH_EXPR_0____ZENITH_EXPR_1__<!-- \x7b -->".toList ∧
        m.holes = [(marker 0, { code := "a", offset := 3 }), (marker 1, { code := "b", offset := 8 })] ∧
        [2, 19, 36].map m.sourceOffset = [2, 7, 10])) = true by decide +kernel)
  obtain ⟨s, hproper, hmarkup, htext, hholes, -⟩ := lossless_of_marked hm
  exact ⟨m, hm, of_decide_eq_true hfacts, s, hproper, hmarkup, htext, hholes⟩

end PageCompiler.Markup
