import PageCompiler.Proofs.BlockOffsets
import PageCompiler.Proofs.ScriptGrowth

/-!
# Positions by lines and by steps

A file finds the position of an offset in the list of its line starts; a block of script steps through its own text
from the position at which the block starts. Both count the line feeds of the text before the offset and the
characters after the last of them (`Position.advance_eq`), so they agree at every boundary between characters
(`Source.File.position_ofText`). As the content of a script block stands in its file where its offset says, a
position in the block is one in the file (`positions_agree`).
-/

namespace PageCompiler

open Text

/-! ## Steps -/

theorem Text.exists_lastLine (cs : List Char) :
    ∃ lines last, cs = lines ++ last ∧ '\n' ∉ last ∧ (lines = [] ∨ ∃ init, lines = init ++ ['\n']) := by
  induction cs with
  | nil => exact ⟨[], [], rfl, List.not_mem_nil, .inl rfl⟩
  | cons c cs ih =>
    obtain ⟨lines, last, rfl, hlast, hlines | ⟨init, rfl⟩⟩ := ih
    · subst hlines
      by_cases hc : c = '\n'
      · exact ⟨[c], last, rfl, hlast, .inr ⟨[], by rw [hc]; rfl⟩⟩
      · refine ⟨[], c :: last, rfl, ?_, .inl rfl⟩
        rw [List.mem_cons, not_or]
        exact ⟨Ne.symm hc, hlast⟩
    · exact ⟨c :: (init ++ ['\n']), last, rfl, hlast, .inr ⟨c :: init, rfl⟩⟩

namespace Position

variable {cs : List Char} {p : Position}

theorem line_advance (p : Position) (cs : List Char) : (p.advance cs).line = p.line + cs.count '\n' := by
  induction cs generalizing p with
  | nil => rfl
  | cons c cs ih =>
    have hcons : p.advance (c :: cs) = (p.step c).advance cs := rfl
    rw [hcons, ih, step]
    by_cases hc : c = '\n'
    · rw [if_pos hc, hc, List.count_cons_self]
      show p.line + 1 + _ = _
      omega
    · rw [if_neg hc, List.count_cons_of_ne hc]

theorem advance_of_notMem (p : Position) (h : '\n' ∉ cs) : p.advance cs = ⟨p.line, p.column + cs.length⟩ := by
  induction cs generalizing p with
  | nil => rfl
  | cons c cs ih =>
    simp only [List.mem_cons, not_or] at h
    have hcons : p.advance (c :: cs) = (p.step c).advance cs := rfl
    rw [hcons, ih _ h.2, step, if_neg (Ne.symm h.1), List.length_cons]
    congr 1
    show p.column + 1 + _ = _
    omega

theorem advance_newline (p : Position) (cs : List Char) :
    p.advance (cs ++ ['\n']) = ⟨p.line + cs.count '\n' + 1, 1⟩ := by
  rw [advance_append, ← line_advance]
  rfl

/-- The position after a text by its line feeds and what follows the last of them. -/
theorem advance_eq (p : Position) (cs : List Char) :
    p.advance cs = if '\n' ∈ cs then ⟨p.line + cs.count '\n', (cs.reverse.takeWhile (· ≠ '\n')).length + 1⟩
      else ⟨p.line, p.column + cs.length⟩ := by
  obtain ⟨lines, last, rfl, hlast, hlines | ⟨init, rfl⟩⟩ := exists_lastLine cs
  · rw [hlines, List.nil_append, if_neg hlast, advance_of_notMem p hlast]
  · have hkept : ∀ c ∈ last.reverse, decide (c ≠ '\n') = true := by
      intro c hc
      rw [decide_eq_true_eq]
      rintro rfl
      exact hlast (List.mem_reverse.mp hc)
    have hend : (init ++ ['\n'] ++ last).reverse.takeWhile (· ≠ '\n') = last.reverse := by
      rw [List.reverse_append, List.takeWhile_append_of_pos hkept, List.reverse_append, List.reverse_singleton,
        List.singleton_append, List.takeWhile_cons_of_neg (by simp), List.append_nil]
    have hcount : (init ++ ['\n'] ++ last).count '\n' = init.count '\n' + 1 := by
      rw [List.count_append, List.count_append, List.count_eq_zero.mpr hlast]
      rfl
    rw [if_pos (by simp), hend, hcount, advance_append, advance_newline, advance_of_notMem _ hlast, List.length_reverse,
      Nat.add_comm last.length, Nat.add_assoc]

/-- Only the empty text leads nowhere. -/
theorem advance_eq_self_iff : p.advance cs = p ↔ cs = [] := by
  constructor
  · intro h
    by_cases hmem : '\n' ∈ cs
    · have hline := line_advance p cs
      have hpos := List.count_pos_iff.mpr hmem
      rw [h] at hline
      omega
    · rw [advance_of_notMem p hmem] at h
      have hcolumn : p.column + cs.length = p.column := congrArg Position.column h
      exact List.length_eq_zero_iff.mp (by omega)
  · rintro rfl
    rfl

theorem advance_inj {before before' text : List Char} (h : before <+: text) (h' : before' <+: text) :
    p.advance before = p.advance before' ↔ before = before' := by
  constructor
  · intro heq
    rcases List.prefix_or_prefix_of_prefix h h' with ⟨more, rfl⟩ | ⟨more, rfl⟩
    · rw [advance_append] at heq
      rw [advance_eq_self_iff.mp heq.symm, List.append_nil]
    · rw [advance_append] at heq
      rw [advance_eq_self_iff.mp heq, List.append_nil]
  · rintro rfl
    rfl

end Position

/-! ## Line starts -/

namespace Source

variable {cs : List Char}

theorem laterLineStarts_append (n : Nat) (cs ds : List Char) :
    laterLineStarts n (cs ++ ds) = laterLineStarts n cs ++ laterLineStarts (n + byteLength cs) ds := by
  induction cs generalizing n with
  | nil => rfl
  | cons c cs ih =>
    rw [List.cons_append, laterLineStarts, laterLineStarts, byteLength_cons, ← Nat.add_assoc]
    by_cases hc : c = '\n'
    · rw [if_pos hc, if_pos hc, ih, List.cons_append]
    · rw [if_neg hc, if_neg hc, ih]

theorem laterLineStarts_of_notMem (n : Nat) (h : '\n' ∉ cs) : laterLineStarts n cs = [] := by
  induction cs generalizing n with
  | nil => rfl
  | cons c cs ih =>
    simp only [List.mem_cons, not_or] at h
    rw [laterLineStarts, if_neg (Ne.symm h.1), ih _ h.2]

theorem length_laterLineStarts (n : Nat) (cs : List Char) : (laterLineStarts n cs).length = cs.count '\n' := by
  induction cs generalizing n with
  | nil => rfl
  | cons c cs ih =>
    rw [laterLineStarts]
    by_cases hc : c = '\n'
    · rw [if_pos hc, List.length_cons, ih, hc, List.count_cons_self]
    · rw [if_neg hc, ih, List.count_cons_of_ne hc]

theorem bounds_of_mem_laterLineStarts {n start : Nat} (h : start ∈ laterLineStarts n cs) :
    n < start ∧ start ≤ n + byteLength cs := by
  induction cs generalizing n with
  | nil => cases h
  | cons c cs ih =>
    have hpos := c.utf8Size_pos
    rw [laterLineStarts] at h
    rw [byteLength_cons]
    by_cases hc : c = '\n'
    · rw [if_pos hc, List.mem_cons] at h
      rcases h with h | h
      · omega
      · have hlater := ih h
        omega
    · rw [if_neg hc] at h
      have hlater := ih h
      omega

namespace File

variable {lines last : List Char}

/-- The lines that start up to an offset are those of the text before it. -/
theorem takeWhile_starts (before after : List Char) :
    (0 :: laterLineStarts 0 (before ++ after)).takeWhile (· ≤ byteLength before) = 0 :: laterLineStarts 0 before := by
  have hbefore : ∀ start ∈ laterLineStarts 0 before, decide (start ≤ byteLength before) = true := by
    intro start hstart
    have hbounds := bounds_of_mem_laterLineStarts hstart
    rw [decide_eq_true_eq]
    omega
  have hafter : (laterLineStarts (0 + byteLength before) after).takeWhile (· ≤ byteLength before) = [] := by
    cases hstarts : laterLineStarts (0 + byteLength before) after with
    | nil => rfl
    | cons start starts =>
      have hbounds := bounds_of_mem_laterLineStarts (hstarts ▸ List.mem_cons_self)
      apply List.takeWhile_cons_of_neg
      rw [decide_eq_true_eq]
      omega
  rw [List.takeWhile_cons_of_pos (by simp), laterLineStarts_append, List.takeWhile_append_of_pos hbefore, hafter,
    List.append_nil]

theorem getLast?_starts (hlast : '\n' ∉ last) (hlines : lines = [] ∨ ∃ init, lines = init ++ ['\n']) :
    (0 :: laterLineStarts 0 (lines ++ last)).getLast? = some (byteLength lines) := by
  rw [laterLineStarts_append, laterLineStarts_of_notMem _ hlast, List.append_nil]
  rcases hlines with rfl | ⟨init, rfl⟩
  · rfl
  · have hnewline : laterLineStarts (0 + byteLength init) ['\n'] = [byteLength (init ++ ['\n'])] := by
      rw [laterLineStarts, if_pos rfl, laterLineStarts, byteLength_append, Nat.zero_add]
      rfl
    rw [laterLineStarts_append, hnewline, ← List.cons_append, List.getLast?_concat]

theorem lineAt_starts {after : List Char} (hlast : '\n' ∉ last) (hlines : lines = [] ∨ ∃ init, lines = init ++ ['\n']) :
    lineAt (0 :: laterLineStarts 0 (lines ++ last ++ after)) (byteLength (lines ++ last)) =
      (lines.count '\n', byteLength lines) := by
  rw [lineAt, takeWhile_starts, getLast?_starts hlast hlines, List.length_cons, length_laterLineStarts,
    List.count_append, List.count_eq_zero.mpr hlast]
  rfl

/-- At the end of a part of the text, the file has the position that is reached by reading that part. -/
theorem position_ofText (path : String) (before after : List Char) :
    (ofText path (before ++ after)).position (byteLength before) = ({} : Position).advance before := by
  obtain ⟨lines, last, rfl, hlast, hlines⟩ := exists_lastLine before
  have hle : byteLength (lines ++ last) ≤ byteLength (lines ++ last ++ after) := by
    rw [byteLength_append _ after]
    omega
  have hslice : slice? (byteLength lines) (byteLength (lines ++ last)) (lines ++ last ++ after) = some last := by
    have hfirst : isBoundary (byteLength lines) (lines ++ last ++ after) = true :=
      isBoundary_iff.mpr ⟨lines, last ++ after, List.append_assoc .., rfl⟩
    have hsecond : isBoundary (byteLength (lines ++ last)) (lines ++ last ++ after) = true :=
      isBoundary_iff.mpr ⟨lines ++ last, after, rfl, rfl⟩
    rw [slice?, hfirst, hsecond, slice, List.append_assoc, dropBytes_append, byteLength_append, Nat.add_sub_cancel_left,
      takeBytes_append]
    simp
  have hposition : (ofText path (lines ++ last ++ after)).position (byteLength (lines ++ last)) =
      ⟨lines.count '\n' + 1, last.length + 1⟩ := by
    simp only [position, ofText, Nat.min_eq_left hle, lineAt_starts hlast hlines, hslice]
  rw [hposition, Position.advance_append, Position.advance_of_notMem _ hlast, Position.line_advance]
  rcases hlines with rfl | ⟨init, rfl⟩
  · simp only [List.count_nil, Position.advance_nil, Nat.add_comm]
  · rw [Position.advance_newline]
    simp only [Nat.add_comm]

end File

end Source

/-! ## Blocks of script -/

namespace Script

variable {file : Source.File} {raws : List Markup.Block}

def ReadAs (file : Source.File) (raw : Markup.Block) (block : Block) : Prop :=
  block.raw = raw.content ∧ block.position = file.position raw.offset

theorem readAs_of_addBlocks {s s' : Script} {index : Nat} (h : Script.addBlocks file s index raws = .ok s') :
    ∃ added, s'.blocks = s.blocks ++ added ∧ List.Forall₂ (ReadAs file) raws added := by
  induction raws generalizing s index with
  | nil =>
    cases h
    exact ⟨[], by rw [List.append_nil], .nil⟩
  | cons raw raws ih =>
    rw [Script.addBlocks] at h
    obtain ⟨block, hread, h⟩ := Compiled.bind_eq_ok.mp h
    obtain ⟨s₁, hfirst, h⟩ := Compiled.bind_eq_ok.mp h
    obtain ⟨added, hblocks, hadded⟩ := ih h
    refine ⟨block :: added, ?_, .cons ⟨raw_of_read hread, position_of_read hread⟩ hadded⟩
    rw [hblocks, blocks_of_add hfirst, List.append_assoc, List.singleton_append]

theorem readAs_of_ofBlocks {script : Script} (h : Script.ofBlocks file raws = .ok (some script)) :
    List.Forall₂ (ReadAs file) raws script.blocks := by
  unfold Script.ofBlocks at h
  split at h
  · cases h
  · obtain ⟨added, hadded, h⟩ := Compiled.bind_eq_ok.mp h
    cases h
    obtain ⟨blocks, hblocks, hread⟩ := readAs_of_addBlocks hadded
    rw [List.nil_append] at hblocks
    rwa [hblocks]

theorem ReadAs.positionOf {path : String} {text before after : List Char} {raw : Markup.Block} {block : Block}
    (h : ReadAs (.ofText path text) raw block) (htext : text = before ++ raw.content.toList ++ after)
    (hoffset : raw.offset = byteLength before) {k : Nat} (hk : isBoundary k block.raw.toList = true) :
    block.positionOf k = (Source.File.ofText path text).position (raw.offset + k) := by
  obtain ⟨hraw, hposition⟩ := h
  rw [hraw] at hk
  obtain ⟨read, rest, hcontent, rfl⟩ := isBoundary_iff.mp hk
  have hstart : text = before ++ (read ++ rest ++ after) := by rw [htext, hcontent, List.append_assoc]
  have hplace : text = before ++ read ++ (rest ++ after) := by rw [hstart]; simp only [List.append_assoc]
  calc block.positionOf (byteLength read)
      = ((Source.File.ofText path text).position (byteLength before)).advance read := by
        rw [Block.positionOf, hposition, hraw, hoffset, hcontent, takeBytes_append]
    _ = (({} : Position).advance before).advance read := by rw [hstart, Source.File.position_ofText]
    _ = ({} : Position).advance (before ++ read) := (Position.advance_append ..).symm
    _ = (Source.File.ofText path text).position (raw.offset + byteLength read) := by
        rw [hplace, hoffset, ← byteLength_append, Source.File.position_ofText]

end Script

theorem Markup.exists_place_of_mem_scripts {file : Source.File} {b : Markup.Blocks} {raw : Markup.Block}
    (h : Markup.blocks file = .ok b) (hraw : raw ∈ b.scripts) :
    ∃ before after, file.text = before ++ raw.content.toList ++ after ∧ raw.offset = byteLength before := by
  obtain ⟨ps, es, hyields, -, hscripts, -⟩ := Markup.exists_yields_of_blocks h
  rw [hscripts] at hraw
  obtain ⟨e, he, rfl⟩ := List.mem_map.mp hraw
  obtain ⟨before, after, htext, hoffset⟩ := (hyields.extracts.isAt (List.mem_filter.mp he).1).content
  refine ⟨before, after, ?_, hoffset⟩
  rw [htext, Markup.Element.block, String.toList_ofList]

/-- At a boundary between characters, the position that a file looks up by its line starts is the one that is reached
by reading the text before it. Positions by reading are those by counting line feeds, and they compose; so in every
script block of a source, a position in the block is the one that the file has at the same character. -/
theorem positions_agree :
    (∀ (path : String) (text : List Char) (offset : Nat), isBoundary offset text = true →
      (Source.File.ofText path text).position offset = ({} : Position).advance (takeBytes offset text)) ∧
    (∀ (p : Position) (cs : List Char), p.advance cs =
      if '\n' ∈ cs then ⟨p.line + cs.count '\n', (cs.reverse.takeWhile (· ≠ '\n')).length + 1⟩
      else ⟨p.line, p.column + cs.length⟩) ∧
    (∀ (p : Position) (cs ds : List Char), p.advance (cs ++ ds) = (p.advance cs).advance ds) ∧
    ∀ (path source : String) (b : Markup.Blocks) (script : Script),
      let file := Source.File.ofString path source
      Markup.blocks file = .ok b → Script.ofBlocks file b.scripts = .ok (some script) →
      List.Forall₂ (fun raw block => block.raw = raw.content ∧ ∀ k, isBoundary k block.raw.toList = true →
        block.positionOf k = file.position (raw.offset + k)) b.scripts script.blocks := by
  refine ⟨?_, Position.advance_eq, Position.advance_append, ?_⟩
  · intro path text offset hoffset
    obtain ⟨before, after, rfl, rfl⟩ := isBoundary_iff.mp hoffset
    rw [Source.File.position_ofText, takeBytes_append]
  · intro path source b script file hblocks hscript
    have hplaced : List.Forall₂ (fun raw block => raw ∈ b.scripts ∧ Script.ReadAs file raw block)
        b.scripts script.blocks :=
      (List.forall₂_and_left b.scripts script.blocks).mpr ⟨fun _ h => h, Script.readAs_of_ofBlocks hscript⟩
    refine hplaced.imp ?_
    rintro raw block ⟨hraw, hread⟩
    obtain ⟨before, after, htext, hoffset⟩ := Markup.exists_place_of_mem_scripts hblocks hraw
    exact ⟨hread.1, fun k hk => hread.positionOf htext hoffset hk⟩

/-- A block in the second line of a file, with accents before the block and in it. -/
theorem positions_agree_accents :
    let file := Source.File.ofString "page.zen" "é\nà<script>à\nb</script>"
    (isBoundary 13 file.text = true ∧ file.position 13 = ({} : Position).advance "é\nà<script>".toList) ∧
    ∃ b script, Markup.blocks file = .ok b ∧ Script.ofBlocks file b.scripts = .ok (some script) ∧
      (b.scripts.map (·.offset) = [13] ∧ script.blocks.map (·.raw.toList) = ["à\nb".toList] ∧
        script.blocks.map (·.positionOf 2) = [⟨2, 11⟩] ∧ script.blocks.map (·.positionOf 3) = [⟨3, 1⟩]) ∧
      List.Forall₂ (fun raw block => block.raw = raw.content ∧ ∀ k, isBoundary k block.raw.toList = true →
        block.positionOf k = file.position (raw.offset + k)) b.scripts script.blocks := by
  intro file
  obtain ⟨hfile, -, -, hscripts⟩ := positions_agree
  have hboundary : isBoundary 13 file.text = true := by decide +kernel
  refine ⟨⟨hboundary, hfile "page.zen" file.text 13 hboundary⟩, ?_⟩
  obtain ⟨b, hb, hread⟩ := exists_eq_ok_of_any
    (show (Markup.blocks file).toOption.any (fun b => decide (b.scripts.map (·.offset) = [13]) &&
      (Script.ofBlocks file b.scripts).toOption.any fun script? => script?.any fun script => decide
        (script.blocks.map (·.raw.toList) = ["à\nb".toList] ∧ script.blocks.map (·.positionOf 2) = [⟨2, 11⟩] ∧
          script.blocks.map (·.positionOf 3) = [⟨3, 1⟩])) = true
      by decide +kernel)
  rw [Bool.and_eq_true, decide_eq_true_eq] at hread
  obtain ⟨script?, hscript, hfacts⟩ := exists_eq_ok_of_any hread.2
  obtain ⟨script, rfl, hfacts⟩ := (Option.any_eq_true _ _).mp hfacts
  exact ⟨b, script, hb, hscript, ⟨hread.1, of_decide_eq_true hfacts⟩, hscripts _ _ b script hb hscript⟩

end PageCompiler
