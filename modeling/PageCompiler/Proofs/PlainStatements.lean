import Mathlib.Data.List.Forall2
import PageCompiler.Proofs.TokenReplacement
import PageCompiler.Script.Block

/-!
# Statements of a block and of its plain text

In the plain text of a block, `let` and blanks stand for `state` and `prop`, so that every other token is where it was.
The two texts have the same statements, from the same byte to the same byte (`Aligned`). What declared a state or a prop
declares a name by `let`. It need not be the only one: the names are those that come after the commas outside of all
brackets as well, and a comma between type arguments is counted as one of these.
-/

namespace PageCompiler.Script

open Text (byteLength)

variable {source : List Char} {t t' : Token} {g g' ts ts' : List Token} {word new : String}

/-! ## Declarations -/

def Statement.declaredName? : Statement → Option String
  | .state name _ _ _ => some name
  | .prop name _ _ => some name
  | _ => none

def plainTokens (g : List Token) : List Token :=
  if declares "state" g || declares "prop" g then g.modifyHead Token.plain else g

/-- What is known of the statement that some tokens are: whether it declares a state or prop, and by which words. -/
inductive Classified (source : List Char) (g : List Token) : Prop
  | declared {word new : String} {t name : Token} {rest : List Token} (hword : Keyword word new) (hg : g = t :: name :: rest)
      (ht : t.isWord word = true) (hname : name.kind = .word)
      (hedit : Block.plainEdit? (classify source g) = some ⟨⟨t.start, t.start + byteLength word.toList⟩, new⟩)
      (hdeclared : (classify source g).declaredName? = some name.text) (hplain : plainTokens g = t.plain :: name :: rest)
  | other (hedit : Block.plainEdit? (classify source g) = none) (hdeclared : (classify source g).declaredName? = none)
      (hplain : plainTokens g = g) (hsame : ∀ other, classify other g = classify source g)

theorem exists_of_declares (h : declares word g = true) :
    ∃ t name rest, g = t :: name :: rest ∧ t.isWord word = true ∧ name.kind = .word := by
  obtain _ | ⟨t, _ | ⟨name, rest⟩⟩ := g
  · cases h
  · cases h
  · simp only [declares, Bool.and_eq_true, beq_iff_eq] at h
    exact ⟨t, name, rest, rfl, h.1.1, h.1.2⟩

theorem isWord_ne {w : String} (h : t.isWord word = true) (hne : word ≠ w) : t.isWord w = false := by
  simp_all [Token.isWord]

theorem exists_classify_state (h : declares "state" g = true) : ∃ t name rest, g = t :: name :: rest ∧
    t.isWord "state" = true ∧ name.kind = .word ∧
      ∀ source, ∃ value, classify source g = .state name.text value ⟨t.start, name.stop⟩ (spanOf g) := by
  obtain ⟨t, name, rest, rfl, ht, hname⟩ := exists_of_declares h
  refine ⟨t, name, rest, rfl, ht, hname, fun source => ?_⟩
  simp [classify, h, isWord_ne ht (by decide : "state" ≠ "export")]

theorem exists_classify_prop (h : declares "prop" g = true) : ∃ t name rest, g = t :: name :: rest ∧
    t.isWord "prop" = true ∧ name.kind = .word ∧
      ∀ source, ∃ fallback, classify source g = .prop name.text fallback (spanOf g) := by
  obtain ⟨t, name, rest, rfl, ht, hname⟩ := exists_of_declares h
  have hstate : declares "state" (t :: name :: rest) = false := by
    simp [declares, isWord_ne ht (by decide : "prop" ≠ "state")]
  refine ⟨t, name, rest, rfl, ht, hname, fun source => ?_⟩
  simp [classify, h, hstate, isWord_ne ht (by decide : "prop" ≠ "export")]

theorem classify_eq (hstate : declares "state" g = false) (hprop : declares "prop" g = false) (source other : List Char) :
    classify other g = classify source g := by
  induction g with
  | nil => rfl
  | cons first rest ih =>
    unfold classify
    rw [hstate, hprop]
    dsimp only
    split
    · -- an exported declaration of a state or prop is neither
      by_cases hs : declares "state" rest = true
      · obtain ⟨_, _, _, -, -, -, hclass⟩ := exists_classify_state hs
        obtain ⟨⟨_, h₁⟩, _, h₂⟩ := And.intro (hclass source) (hclass other)
        rw [h₁, h₂]
      by_cases hp : declares "prop" rest = true
      · obtain ⟨_, _, _, -, -, -, hclass⟩ := exists_classify_prop hp
        obtain ⟨⟨_, h₁⟩, _, h₂⟩ := And.intro (hclass source) (hclass other)
        rw [h₁, h₂]
      rw [ih (Bool.eq_false_iff.mpr hs) (Bool.eq_false_iff.mpr hp)]
    · rfl

theorem declaredName?_classify (hstate : declares "state" g = false) (hprop : declares "prop" g = false)
    (source : List Char) :
    Block.plainEdit? (classify source g) = none ∧ (classify source g).declaredName? = none := by
  cases g with
  | nil => exact ⟨rfl, rfl⟩
  | cons first rest =>
    unfold classify
    rw [hstate, hprop]
    dsimp only
    repeat' split
    all_goals first | exact ⟨rfl, rfl⟩ | simp_all

theorem classified (source : List Char) (g : List Token) : Classified source g := by
  by_cases hstate : declares "state" g = true
  · obtain ⟨t, name, rest, rfl, ht, hname, hclass⟩ := exists_classify_state hstate
    obtain ⟨value, hclass⟩ := hclass source
    exact .declared .state rfl ht hname (by rw [hclass]; rfl) (by rw [hclass]; rfl) (by simp [plainTokens, hstate])
  by_cases hprop : declares "prop" g = true
  · obtain ⟨t, name, rest, rfl, ht, hname, hclass⟩ := exists_classify_prop hprop
    obtain ⟨value, hclass⟩ := hclass source
    have hspan : (spanOf (t :: name :: rest)).start = t.start := by simp [spanOf, List.getLast?_cons]
    refine .declared .prop rfl ht hname ?_ (by rw [hclass]; rfl) (by simp [plainTokens, hprop])
    rw [hclass, Block.plainEdit?, hspan]
    rfl
  rw [Bool.not_eq_true] at hstate hprop
  obtain ⟨hedit, hdeclared⟩ := declaredName?_classify hstate hprop source
  exact .other hedit hdeclared (by simp [plainTokens, hstate, hprop]) (classify_eq hstate hprop source)

/-- Making the edits of statements one by one leads to their tokens in the plain text. -/
theorem tokens_foldl (source : List Char) (groups : List (List Token)) {done : List Token} {cs : List Char}
    (h : tokens cs = .ok (done ++ groups.flatten)) :
    let plain := ((groups.map (classify source)).filterMap Block.plainEdit?).foldl (fun cs e => e.apply cs) cs
    tokens plain = .ok (done ++ (groups.map plainTokens).flatten) ∧ byteLength plain = byteLength cs := by
  induction groups generalizing done cs with
  | nil => exact ⟨h, rfl⟩
  | cons g gs ih =>
    rw [List.flatten_cons] at h
    rw [List.map_cons, List.map_cons, List.flatten_cons, ← List.append_assoc]
    cases classified source g with
    | declared hword hg ht _ hedit _ hplain =>
      rw [hg, List.cons_append] at h
      obtain ⟨htokens, hsize⟩ := tokens_apply hword ht h
      rw [← List.cons_append, ← hplain, ← List.append_assoc] at htokens
      rw [List.filterMap_cons_some hedit, List.foldl_cons, ← hsize]
      exact ih htokens
    | other hedit _ hplain _ =>
      rw [← List.append_assoc] at h
      rw [List.filterMap_cons_none hedit, hplain]
      exact ih h

/-! ## Statements of alike tokens -/

/-- The second token is the first, or the word `let` for a keyword. -/
def Alike (t t' : Token) : Prop :=
  t' = t ∨ t' = t.plain ∧ ∃ word new, Keyword word new ∧ t.isWord word = true

namespace Alike

theorem newlineBefore (h : Alike t t') : t'.newlineBefore = t.newlineBefore := by
  obtain rfl | ⟨rfl, -⟩ := h <;> rfl

theorem isPunct (h : Alike t t') (p : String) : t'.isPunct p = t.isPunct p := by
  obtain rfl | ⟨rfl, _, _, -, ht⟩ := h
  · rfl
  · have hkind : t.kind = .word := by simpa using (Bool.and_eq_true_iff.mp ht).1
    rw [Token.isPunct, Token.isPunct, show t.plain.kind = .word from hkind, hkind]
    rfl

theorem depth (h : Alike t t') : t'.depth = t.depth := by
  obtain rfl | ⟨rfl, _, _, -, ht⟩ := h
  · rfl
  · simp_all [Token.depth, Token.isWord, Token.plain]

theorem isWord (h : Alike t t') {w : String} (hw : w ∉ ["state", "prop", "let"]) : t'.isWord w = t.isWord w := by
  obtain rfl | ⟨rfl, word, _, hword, ht⟩ := h
  · rfl
  · have hne : word ≠ w := by
      rintro rfl
      cases hword <;> simp at hw
    have hlet : "let" ≠ w := by
      rintro rfl
      simp at hw
    rw [isWord_ne ht hne, Token.isWord, Bool.and_eq_false_imp]
    exact fun _ => beq_eq_false_iff_ne.mpr hlet

theorem continues {u u' : Token} (h : Alike t t') (hu : Alike u u') : continues t' u' = continues t u := by
  have hlast : ∀ u, Script.continues t' u = Script.continues t u := by
    obtain rfl | ⟨rfl, _, _, -, ht⟩ := h
    · exact fun _ => rfl
    · simp_all [Script.continues, Token.isWord, Token.plain]
  rw [hlast]
  obtain rfl | ⟨rfl, _, _, hword, ht⟩ := hu
  · rfl
  · cases hword <;> simp_all [Script.continues, Token.isWord, Token.plain]

end Alike

theorem endsWithBlock_alike (h : List.Forall₂ Alike g g') : endsWithBlock g' = endsWithBlock g := by
  induction h with
  | nil => rfl
  | @cons t t' rest rest' ht hrest ih =>
    have hhead : (rest'.head?.map (·.isWord "function")).getD false = (rest.head?.map (·.isWord "function")).getD false := by
      cases hrest with
      | nil => rfl
      | cons hu _ => exact hu.isWord (by decide)
    simp only [endsWithBlock, ht.isWord (w := "function") (by decide), ht.isWord (w := "class") (by decide),
      ht.isWord (w := "async") (by decide), ht.isWord (w := "export") (by decide), ih, hhead]

theorem isComplete_alike (hg : List.Forall₂ Alike g g') (ht : Alike t t') (hts : List.Forall₂ Alike ts ts') :
    isComplete g' t' ts'.head? = isComplete g t ts.head? := by
  unfold isComplete
  rw [ht.isPunct, ht.isPunct, endsWithBlock_alike hg]
  cases hts with
  | nil => rfl
  | cons hu _ => simp only [List.head?_cons, hu.isPunct, hu.newlineBefore, ht.continues hu]

theorem length_groupFrom_alike (hg : List.Forall₂ Alike g g') {depth : Nat} (hts : List.Forall₂ Alike ts ts') :
    (groupFrom g' depth ts').map List.length = (groupFrom g depth ts).map List.length := by
  induction hts generalizing g g' depth with
  | nil =>
    cases hg with
    | nil => rfl
    | cons _ h => simp [groupFrom, h.length_eq]
  | @cons t t' ts ts' ht hts ih =>
    have hgroup := List.Forall₂.cons ht hg
    rw [groupFrom, groupFrom, ht.depth, isComplete_alike (List.forall₂_reverse_iff.mpr hgroup) ht hts]
    split
    · rw [List.map_cons, List.map_cons, ih .nil, List.length_reverse, List.length_reverse, hgroup.length_eq]
    · exact ih hgroup

theorem forall₂_plainTokens (g : List Token) : List.Forall₂ Alike g (plainTokens g) := by
  have hrefl : ∀ ts : List Token, List.Forall₂ Alike ts ts := fun ts => List.forall₂_same.mpr fun _ _ => .inl rfl
  cases classified [] g with
  | declared hword hg ht _ _ _ hplain =>
    rw [hplain, hg]
    exact .cons (.inr ⟨rfl, _, _, hword, ht⟩) (hrefl _)
  | other _ _ hplain _ =>
    rw [hplain]
    exact hrefl g

/-- The statements of the plain text are those of the block in the plain text. -/
theorem group_plain (ts : List Token) : group ((group ts).map plainTokens).flatten = (group ts).map plainTokens := by
  have hflatten : (group ts).flatten = ts := flatten_groupFrom
  have halike : List.Forall₂ Alike ts ((group ts).map plainTokens).flatten := by
    conv => arg 2; rw [← hflatten]
    generalize group ts = groups
    induction groups with
    | nil => exact .nil
    | cons g groups ih => exact List.rel_append (forall₂_plainTokens g) ih
  rw [List.eq_iff_flatten_eq]
  refine ⟨flatten_groupFrom, ?_⟩
  rw [group, length_groupFrom_alike .nil halike, List.map_map]
  exact List.map_congr_left fun g _ => (forall₂_plainTokens g).length_eq

/-! ## Names that a declaration binds -/

def bindingAt : List Token → List String
  | [] => []
  | t :: rest =>
    if t.kind == .word then [t.text]
    else if t.isPunct "\x7b" || t.isPunct "[" then patternNames (t :: rest)
    else []

def depthAfter (depth : Int) (ts : List Token) : Int :=
  ts.foldl (fun depth t => depth + t.depth) depth

/-- A name is bound after a comma that is outside of all brackets; angles of type arguments are no brackets. -/
def BindsMore (depth : Int) (ts : List Token) : Prop :=
  ∃ before comma rest, ts = before ++ comma :: rest ∧ comma.isPunct "," = true ∧ depthAfter depth before = 0 ∧
    bindingAt rest ≠ []

theorem declaratorNames_true (ts : List Token) :
    declaratorNames true 0 ts = bindingAt ts ++ declaratorNames false 0 ts := by
  cases ts with
  | nil => rfl
  | cons t ts => simp [declaratorNames, bindingAt]

theorem bindsMore_cons {depth : Int} : BindsMore depth (t :: ts) ↔
    (t.isPunct "," = true ∧ depth = 0 ∧ bindingAt ts ≠ []) ∨ BindsMore (depth + t.depth) ts := by
  constructor
  · rintro ⟨before, comma, rest, heq, hcomma, hdepth, hbinds⟩
    cases before with
    | nil =>
      cases heq
      exact .inl ⟨hcomma, hdepth, hbinds⟩
    | cons _ before =>
      cases heq
      exact .inr ⟨before, comma, rest, rfl, hcomma, hdepth, hbinds⟩
  · rintro (⟨hcomma, hdepth, hbinds⟩ | ⟨before, comma, rest, rfl, hcomma, hdepth, hbinds⟩)
    · exact ⟨[], t, ts, rfl, hcomma, hdepth, hbinds⟩
    · exact ⟨t :: before, comma, rest, rfl, hcomma, hdepth, hbinds⟩

theorem declaratorNames_eq_nil_iff {depth : Int} : declaratorNames false depth ts = [] ↔ ¬ BindsMore depth ts := by
  induction ts generalizing depth with
  | nil => simp [declaratorNames, BindsMore]
  | cons t ts ih =>
    have hstep : declaratorNames false depth (t :: ts) =
        declaratorNames (depth + t.depth == 0 && t.isPunct ",") (depth + t.depth) ts := by
      simp [declaratorNames]
    rw [hstep, bindsMore_cons, not_or, ← ih]
    by_cases hcomma : t.isPunct "," = true
    · have hflat : t.depth = 0 := by simp_all [Token.isPunct, Token.depth]
      rw [hflat, Int.add_zero]
      by_cases hdepth : depth = 0
      · subst hdepth
        simp [hcomma, declaratorNames_true]
      · simp [hcomma, hdepth, beq_eq_false_iff_ne.mpr hdepth]
    · simp [hcomma]

theorem classify_let {t name : Token} {rest : List Token} (hkind : t.kind = .word) (hname : name.kind = .word)
    (source : List Char) : ∃ isFunction, classify source (t.plain :: name :: rest) =
      .names (name.text :: declaratorNames false 0 (name :: rest)) isFunction (spanOf (t.plain :: name :: rest)) := by
  refine ⟨initialisesFunction (t.plain :: name :: rest), ?_⟩
  have hlet : ∀ w, t.plain.isWord w = ("let" == w) := by
    intro w
    rw [Token.isWord, show t.plain.kind = .word from hkind]
    rfl
  have hnames : declaratorNames true 0 (name :: rest) = name.text :: declaratorNames false 0 (name :: rest) := by
    rw [declaratorNames_true, bindingAt, hname]
    rfl
  simp [classify, declares, declaredFunction?, hlet, hnames]

/-! ## Two views of a block -/

/-- Tokens of a statement and their counterpart in the plain text. All tokens but the first are the same, and the
statement is from the same byte to the same byte. What declares a state or prop becomes names declared by `let`, this
name first, and alone exactly if nothing is bound after a comma; all other statements stay what they are. -/
structure Aligned (source plain : List Char) (g g' : List Token) : Prop where
  length : g'.length = g.length
  tail : g'.tail = g.tail
  span : spanOf g' = spanOf g
  kept : (classify source g).declaredName? = none → classify plain g' = classify source g
  declared : ∀ name, (classify source g).declaredName? = some name → ∃ more isFunction,
    classify plain g' = .names (name :: more) isFunction (spanOf g) ∧ (more = [] ↔ ¬ BindsMore 0 g.tail)

theorem aligned_plainTokens (source plain : List Char) (g : List Token) : Aligned source plain g (plainTokens g) := by
  cases classified source g with
  | @declared word new t name rest hword hg ht hname _ hdeclared hplain =>
    have hspan : spanOf (t.plain :: name :: rest) = spanOf (t :: name :: rest) := by
      simp [spanOf, Token.plain, List.getLast?_cons]
    have hkind : t.kind = .word := by simpa using (Bool.and_eq_true_iff.mp ht).1
    subst hg
    rw [hplain]
    refine ⟨rfl, rfl, hspan, fun hnone => absurd hnone (by simp [hdeclared]), fun name' hname' => ?_⟩
    obtain ⟨isFunction, hclass⟩ := classify_let hkind hname plain
    rw [hdeclared, Option.some.injEq] at hname'
    rw [hclass, hspan, ← hname']
    exact ⟨_, _, rfl, declaratorNames_eq_nil_iff⟩
  | other _ hdeclared hplain hsame =>
    rw [hplain]
    exact ⟨rfl, rfl, rfl, fun _ => hsame plain, fun name hname => absurd hname (by simp [hdeclared])⟩

/-- A block that is read and its plain text have the same size, and their tokens are grouped into statements alike. -/
theorem plain_aligned {index : Nat} {raw : String} {attributes : Ordered String} {position : Position} {file : String}
    {block : Block} (h : Block.read index raw attributes position file = .ok block) :
    byteLength block.plain = byteLength raw.toList ∧ ∃ ts ts', tokens raw.toList = .ok ts ∧ tokens block.plain = .ok ts' ∧
      block.statements = (group ts).map (classify raw.toList) ∧
      List.Forall₂ (Aligned raw.toList block.plain) (group ts) (group ts') := by
  have hread : block.raw = raw ∧ statements raw.toList = .ok block.statements := by
    unfold Block.read at h
    split at h
    · cases h
    · rename_i statements hstatements
      dsimp only at h
      split at h
      · cases h
      · cases h
        exact ⟨rfl, hstatements⟩
  obtain ⟨rfl, hstatements⟩ := hread
  obtain ⟨ts, hts, hclass⟩ := map_eq_ok hstatements
  have hflatten : (group ts).flatten = ts := flatten_groupFrom
  obtain ⟨htokens, hsize⟩ := @tokens_foldl block.raw.toList (group ts) [] _ (by rw [List.nil_append, hflatten, hts])
  rw [hclass] at htokens hsize
  refine ⟨hsize, ts, _, hts, htokens, hclass.symm, ?_⟩
  rw [List.nil_append, group_plain, List.forall₂_map_right_iff, List.forall₂_same]
  exact fun g _ => aligned_plainTokens _ _ g

/-- Two declarations, one with commas inside of brackets. -/
theorem plain_aligned_two : ∃ block, Block.read 0 "state a = f(b, c)\nprop d" [] {} "c.zen" = .ok block ∧
    byteLength block.plain = 24 ∧ statements block.plain = .ok [.names ["a"] false ⟨0, 17⟩, .names ["d"] false ⟨18, 24⟩] ∧
    ∃ ts ts', tokens "state a = f(b, c)\nprop d".toList = .ok ts ∧ tokens block.plain = .ok ts' ∧
      List.Forall₂ (Aligned "state a = f(b, c)\nprop d".toList block.plain) (group ts) (group ts') := by
  have hread : (Block.read 0 "state a = f(b, c)\nprop d" [] {} "c.zen").toOption.any (fun block =>
      (statements block.plain).toOption.any (· = [.names ["a"] false ⟨0, 17⟩, .names ["d"] false ⟨18, 24⟩])) = true := by
    decide +kernel
  obtain ⟨block, hblock, hstatements⟩ := exists_eq_ok_of_any hread
  obtain ⟨hsize, ts, ts', hts, hts', -, haligned⟩ := plain_aligned hblock
  obtain ⟨found, hfound, hsame⟩ := exists_eq_ok_of_any hstatements
  exact ⟨block, hblock, hsize, by rw [hfound, of_decide_eq_true hsame], ts, ts', hts, hts', haligned⟩

/-- The comma between two type arguments makes a declaration of the second one. -/
theorem type_argument_is_declared : ∃ block, Block.read 0 "state m = new Map<string, number>()" [] {} "c.zen" = .ok block ∧
    block.statements.map Statement.declaredName? = [some "m"] ∧
    statements block.plain = .ok [.names ["m", "number"] false ⟨0, 35⟩] := by
  have hread : (Block.read 0 "state m = new Map<string, number>()" [] {} "c.zen").toOption.any (fun block =>
      block.statements.map Statement.declaredName? == [some "m"] &&
        (statements block.plain).toOption.any (· = [.names ["m", "number"] false ⟨0, 35⟩])) = true := by
    decide +kernel
  obtain ⟨block, hblock, htest⟩ := exists_eq_ok_of_any hread
  rw [Bool.and_eq_true, beq_iff_eq] at htest
  obtain ⟨found, hfound, hsame⟩ := exists_eq_ok_of_any htest.2
  exact ⟨block, hblock, htest.1, by rw [hfound, of_decide_eq_true hsame]⟩

end PageCompiler.Script
