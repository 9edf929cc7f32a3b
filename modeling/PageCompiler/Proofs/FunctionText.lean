import Mathlib.Tactic.Simproc.ExistsAndEq
import PageCompiler.Proofs.ParserSteps
import PageCompiler.Proofs.Scoping
import PageCompiler.Text.Search

/-!
# Texts of functions

How the text of a function is read: a text that spells lexemes is read lexeme by lexeme, a list of parameters that are
names and patterns of names is read item by item, and what is left to read is the value that the function returns.
The main statement is `gives_program`: a program that is one function of one return is read exactly if its value is
read where it stands and the function and the text end after it.
-/

namespace PageCompiler.Code

open Text (byteLength isIdStart isIdPart)

variable {blank text rest : List Char} {c : Char} {v : String} {ls : List Lexeme} {α : Type} {n d : Nat}
  {s s' s₁ : State} {g : Grammar} {t params : Tree} {ts : List Tree} {names : List String} {span : Span}
  {p : Parser (Option α)}

/-! ## Spelling -/

/-- Whether the string is a name, which may be a keyword. -/
def isName (v : String) : Bool :=
  match v.toList with
  | [] => false
  | c :: cs => isIdStart c && cs.all isIdPart

/-- A word or mark may stand before the blank and the text: it does not run into them. -/
structure Parted (blank text : List Char) : Prop where
  sound : (cut text).sound = true
  parted : (blank = [] ∧ ∃ d ∈ ['(', ')', '{', '}', ','], ∃ rest, text = d :: rest) ∨
    (blank = [' '] ∧ ∃ d rest, text = d :: rest ∧ isSolid d = true)

theorem mark_spec {d : Char} (hd : d ∈ ['(', ')', '{', '}', ',']) :
    isSolid d = true ∧ isIdPart d = false ∧ d ≠ '\\' := by
  have hall : ['(', ')', '{', '}', ','].all (fun d => isSolid d && !isIdPart d && d != '\\') = true := by decide +kernel
  have hmark := List.all_eq_true.mp hall d hd
  simpa [and_assoc] using hmark

theorem Parted.gap (h : Parted blank text) : gap (blank ++ text) = { count := blank.length } := by
  obtain ⟨rfl, d, hd, rest, rfl⟩ | ⟨rfl, d, rest, rfl, hd⟩ := h.parted
  · exact gap_cons (mark_spec hd).1 rest
  · exact gap_space_cons hd rest

theorem Parted.head (h : Parted blank text) : ∃ d rest, blank ++ text = d :: rest ∧ isIdPart d = false ∧ d ≠ '\\' := by
  obtain ⟨rfl, d, hd, rest, rfl⟩ | ⟨rfl, d, rest, rfl, hd⟩ := h.parted
  · exact ⟨d, rest, rfl, (mark_spec hd).2⟩
  · exact ⟨' ', d :: rest, rfl, by decide +kernel⟩

theorem cut_mark (hc : c ∈ ['(', ')', '{', '}', ',']) (rest : List Char) :
    cut (c :: rest) = ⟨.mark (String.ofList [c]), 1, true⟩ := by
  simp only [List.mem_cons, List.not_mem_nil, or_false] at hc
  rcases hc with rfl | rfl | rfl | rfl | rfl <;> rfl

theorem cut_word (hv : isName v = true) (hparted : Parted blank text) :
    cut (v.toList ++ (blank ++ text)) = ⟨.word v false, v.toList.length, true⟩ := by
  obtain ⟨d, tail, heq, hd⟩ := hparted.head
  rw [isName] at hv
  split at hv
  case h_1 => cases hv
  case h_2 c cs hlist =>
    rw [Bool.and_eq_true, List.all_eq_true] at hv
    have hcut := cut_name hv.1 hv.2 hd tail
    rw [← hlist, String.ofList_toList] at hcut
    rw [heq, hcut, hlist]
    rfl

theorem Spells.word (hv : isName v = true) (hparted : Parted blank text) (h : Spells text ls rest) :
    Spells (v.toList ++ (blank ++ text)) (.word v false :: ls) rest :=
  .more (cut_word hv hparted) hparted.gap hparted.sound h

theorem Spells.mark (hc : c ∈ ['(', ')', '{', '}', ',']) (hparted : Parted blank text) (h : Spells text ls rest) :
    Spells ([c] ++ (blank ++ text)) (.mark (String.ofList [c]) :: ls) rest :=
  .more (cut_mark hc _) hparted.gap hparted.sound h

theorem parted_mark (hblank : blank = [] ∨ blank = [' ']) (hc : c ∈ ['(', ')', '{', '}', ',']) (rest : List Char) :
    Parted blank (c :: rest) :=
  ⟨by rw [cut_mark hc], hblank.imp (fun h => ⟨h, c, hc, rest, rfl⟩) fun h => ⟨h, c, rest, rfl, (mark_spec hc).1⟩⟩

theorem Spells.sound (h : Spells text ls rest) (hne : ls ≠ []) : (cut text).sound = true := by
  cases h with
  | done => exact absurd rfl hne
  | more hcut => rw [hcut]

/-- A mark may stand right before anything but a comment. -/
theorem Spells.mark_cons {d : Char} (hc : c ∈ ['(', ')', '{', '}', ',']) (hd : isSolid d = true) (hne : ls ≠ [])
    (h : Spells (d :: text) ls rest) : Spells (c :: d :: text) (.mark (String.ofList [c]) :: ls) rest := by
  show Spells ([c] ++ ([] ++ d :: text)) _ _
  exact .more (cut_mark hc _) (gap_cons hd text) (h.sound hne) h

/-- The string spells the lexemes wherever it is parted from what follows. -/
structure SpelledAs (text : String) (ls : List Lexeme) : Prop where
  nonempty : ls ≠ []
  solid : ∃ d rest, text.toList = d :: rest ∧ isSolid d = true
  spells : ∀ {blank after rest : List Char} {ms : List Lexeme}, Parted blank after → Spells after ms rest →
    Spells (text.toList ++ (blank ++ after)) (ls ++ ms) rest

theorem SpelledAs.parted {text : String} {ms : List Lexeme} {after : List Char} (h : SpelledAs text ls)
    (hparted : Parted blank after) (hafter : Spells after ms rest) :
    Parted [' '] (text.toList ++ (blank ++ after)) := by
  obtain ⟨d, tail, htext, hd⟩ := h.solid
  refine ⟨(h.spells hparted hafter).sound ?_, .inr ⟨rfl, d, tail ++ (blank ++ after), by rw [htext]; rfl, hd⟩⟩
  exact fun hnil => h.nonempty (List.append_eq_nil_iff.mp hnil).1

theorem isSolid_of_isIdStart (h : isIdStart c = true) : isSolid c = true := by
  obtain ⟨_, hline, hpadding, hmark⟩ := isIdStart_spec h
  simp only [List.mem_cons, List.not_mem_nil, or_false, not_or] at hmark
  simp [isSolid, hline, hpadding, hmark]

theorem spelledAs_word (hv : isName v = true) : SpelledAs v [.word v false] := by
  refine ⟨by simp, ?_, fun hparted h => Spells.word hv hparted h⟩
  rw [isName] at hv
  split at hv
  case h_1 => cases hv
  case h_2 c cs hlist =>
    rw [Bool.and_eq_true] at hv
    exact ⟨c, cs, hlist, isSolid_of_isIdStart hv.1⟩

theorem spelledAs_join {items : List (String × List Lexeme)} (hitems : ∀ i ∈ items, SpelledAs i.1 i.2)
    (hne : items ≠ []) :
    SpelledAs (joinStrings ", " (items.map (·.1))) ([.mark ","].intercalate (items.map (·.2))) := by
  induction items with
  | nil => exact absurd rfl hne
  | cons i items ih =>
    obtain ⟨hi, hrest⟩ := List.forall_mem_cons.mp hitems
    cases items with
    | nil => simpa [joinStrings] using hi
    | cons j items =>
      have htail := ih hrest (by simp)
      have htext : (joinStrings ", " ((i :: j :: items).map (·.1))).toList =
          i.1.toList ++ ([','] ++ ([' '] ++ (joinStrings ", " ((j :: items).map (·.1))).toList)) := by
        simp only [List.map_cons, joinStrings, String.intercalate_cons_cons, String.toList_append, List.append_assoc]
        rfl
      have hlexemes : [.mark ","].intercalate ((i :: j :: items).map (·.2)) =
          i.2 ++ (.mark "," :: [.mark ","].intercalate ((j :: items).map (·.2))) := by
        simp only [List.map_cons, List.intercalate_cons_cons, List.append_assoc]
        rfl
      obtain ⟨d, tail, hd, hsolid⟩ := hi.solid
      rw [hlexemes]
      refine ⟨by simp, ⟨d, _, by rw [htext, hd]; rfl, hsolid⟩, fun {blank after rest ms} hparted hafter => ?_⟩
      have hcomma := Spells.mark (c := ',') (by simp) (htail.parted hparted hafter) (htail.spells hparted hafter)
      have hparted' : Parted [] ([','] ++ ([' '] ++ ((joinStrings ", " ((j :: items).map (·.1))).toList ++
        (blank ++ after)))) := parted_mark (.inl rfl) (by simp) _
      have hall := hi.spells hparted' hcomma
      simpa only [htext, List.append_assoc, List.cons_append, List.nil_append] using hall

theorem spelledAs_names {vs : List String} (hvs : ∀ v ∈ vs, isName v = true) (hne : vs ≠ []) :
    SpelledAs (joinStrings ", " vs) ([.mark ","].intercalate (vs.map fun v => [.word v false])) := by
  have hwords : ∀ i ∈ vs.map fun v => (v, [Lexeme.word v false]), SpelledAs i.1 i.2 := by
    rw [List.forall_mem_map]
    exact fun v hv => spelledAs_word (hvs v hv)
  simpa [Function.comp_def] using spelledAs_join hwords (by simpa using hne)

theorem spelledAs_braces {text : String} (h : SpelledAs text ls) :
    SpelledAs ("\x7b " ++ text ++ " \x7d") (.mark "\x7b" :: (ls ++ [.mark "\x7d"])) := by
  have htext : ("\x7b " ++ text ++ " \x7d").toList = ['{'] ++ ([' '] ++ (text.toList ++ ([' '] ++ ['}']))) := by
    simp only [String.toList_append, List.append_assoc]
    rfl
  refine ⟨by simp, ⟨'{', _, htext, by decide +kernel⟩, fun {blank after rest ms} hparted hafter => ?_⟩
  have hclose := Spells.mark (c := '}') (by simp) hparted hafter
  have hparted' : Parted [' '] (['}'] ++ (blank ++ after)) := parted_mark (.inr rfl) (by simp) _
  have hopen := Spells.mark (c := '{') (by simp) (h.parted hparted' hclose) (h.spells hparted' hclose)
  simpa only [htext, List.append_assoc, List.cons_append, List.nil_append] using hopen

/-! ## Lists of parameters -/

theorem gives_manyOf_nil (hn : 0 < n) (h : Gives p s none s') : Gives (manyOf n p) s [] s' := by
  cases n with
  | zero => cases hn
  | succ n =>
    rw [manyOf, gives_bind]
    exact ⟨none, s', h, gives_pure.mpr ⟨rfl, rfl⟩⟩

theorem gives_growing_none {a : α} {p : α → Parser (Option α)} (hn : 0 < n) (h : Gives (p a) s none s') :
    Gives (growing n a p) s a s' := by
  cases n with
  | zero => cases hn
  | succ n =>
    rw [growing, gives_bind]
    exact ⟨none, s', h, gives_pure.mpr ⟨rfl, rfl⟩⟩

theorem gives_decorators_nil (hlimit : 0 < g.limit) (hs : s.lexeme ≠ .mark "@") : Gives g.decorators s [] s := by
  refine gives_manyOf_nil hlimit ?_
  simp [hs, and_assoc]

theorem gives_modifiers_nil (hlimit : 0 < g.limit) (hs : ∀ w escaped, s.lexeme = .word w escaped → w ∉ modifierWords) :
    Gives (g.modifiers false) s [] s := by
  refine gives_growing_none hlimit ?_
  rw [gives_bind]
  refine ⟨s.lexeme, s, gives_current.mpr ⟨rfl, rfl⟩, ?_⟩
  split
  case h_1 w escaped hl => simp [hs w escaped hl]
  case h_2 => simp

/-- Whether a variable of the name can be declared in the context. -/
def Context.allowsName (c : Context) (v : String) : Bool :=
  (Lexeme.word v false).isIdentifier && (v != "await" || !c.allowsAwait) && (v != "yield" || !c.allowsYield)

theorem isIdentifier_of_allowsName {c : Context} (hv : c.allowsName v = true) :
    (Lexeme.word v false).isIdentifier = true := by
  simp only [Context.allowsName, Bool.and_eq_true] at hv
  exact hv.1.1

theorem gives_binder (hs : s.lexeme = .word v false) (hv : s.context.allowsName v = true) :
    Gives binder s (.node (.binder v) ⟨s.start, s.stop⟩ []) s.next := by
  have hidentifier := isIdentifier_of_allowsName hv
  have hfree : ¬ (v = "await" ∧ s.context.allowsAwait = true ∨ v = "yield" ∧ s.context.allowsYield = true) := by
    rintro (⟨rfl, h⟩ | ⟨rfl, h⟩) <;> simp [Context.allowsName, h] at hv
  simp [binder, identifier, advanceName, hs, hidentifier, hfree, and_assoc]

/-- The trees declare the names, in this order, as targets and anywhere in them, and hold nothing that only a
destructuring assignment may hold. -/
def Declares (ts : List Tree) (names : List String) : Prop :=
  (Tree.surveyAll ts).declared.map (·.1) = names ∧ Tree.anyOf (· == .shorthandDefault) ts = false ∧
    (Tree.boundAll ts).map (·.1) = names

theorem Declares.cons {more : List String} (ht : Declares [t] names) (hts : Declares ts more) :
    Declares (t :: ts) (names ++ more) := by
  refine ⟨?_, ?_, by simpa [Tree.boundAll, hts.2.2] using ht.2.2⟩
  · have hone : (Tree.surveyAll [t]).declared = (t.surveyAs false).declared := List.append_nil _
    show ((t.surveyAs false).declared ++ (Tree.surveyAll ts).declared).map (·.1) = _
    rw [List.map_append, hts.1, ← hone, ht.1]
  · have hone := ht.2.1
    simp only [Tree.anyOf, Bool.or_false] at hone
    rw [Tree.anyOf, hone, hts.2.1, Bool.or_false]

theorem declares_node {kind : NodeKind} (hkind : kind = .param ∨ kind = .pattern) :
    Declares [.node kind span ts] names ↔ Declares ts names := by
  have hdeclared : (Tree.surveyAll [.node kind span ts]).declared = (Tree.surveyAll ts).declared := by
    rcases hkind with rfl | rfl <;> exact List.append_nil _
  have hany : Tree.anyOf (· == .shorthandDefault) [.node kind span ts] = Tree.anyOf (· == .shorthandDefault) ts := by
    rcases hkind with rfl | rfl <;> simp [Tree.anyOf, Tree.any]
  have hbound : Tree.boundAll [.node kind span ts] = Tree.boundAll ts := by
    rcases hkind with rfl | rfl <;> exact List.append_nil _
  rw [Declares, Declares, hdeclared, hany, hbound]

/-- In the context, a parser of the items of a list takes the lexemes for an item and declares the names. -/
structure Takes (c : Context) (item : Parser Tree) (close : String) (ls : List Lexeme) (names : List String) :
    Prop where
  head : ∃ l rest, ls = l :: rest ∧ l ≠ .mark close ∧ l.text? ≠ some "this"
  gives : ∀ s s', s.context = c → s.Follows ls s' → s'.lexeme = .mark "," ∨ s'.lexeme = .mark close →
    ∃ t, Gives item s t s' ∧ Declares [t] names

/-- From the first state on, items of a list are read with commas between them, up to the second state. -/
inductive ReadsItems (item : Parser Tree) (close : String) : State → List Tree → State → Prop
  | last {s s' : State} {t : Tree} (hs : s.lexeme ≠ .mark close) : Gives item s t s' → ReadsItems item close s [t] s'
  | more {s s₁ s' : State} {t : Tree} {ts : List Tree} (hs : s.lexeme ≠ .mark close) : Gives item s t s₁ →
      s₁.lexeme = .mark "," → ReadsItems item close s₁.next ts s' → ReadsItems item close s (t :: ts) s'

section
variable {item : Parser Tree} {close : String} {c : Context}

theorem ReadsItems.append {us : List Tree} (h : ReadsItems item close s ts s₁) (hcomma : s₁.lexeme = .mark ",")
    (hmore : ReadsItems item close s₁.next us s') : ReadsItems item close s (ts ++ us) s' := by
  induction h with
  | last hs ht => exact .more hs ht hcomma hmore
  | more hs ht hnext _ ih => exact .more hs ht hnext (ih hcomma hmore)

theorem ReadsItems.gives_listUntil (h : ReadsItems item close s ts s') (hclose : close ≠ ",")
    (hs' : s'.lexeme = .mark close) (hn : ts.length ≤ n) : Gives (listUntil n close item) s (ts, false) s' := by
  induction h generalizing n with
  | last hs ht =>
    cases n with
    | zero => cases hn
    | succ n => simp [listUntil, hs, ht.iff, hs', and_assoc]
  | more hs ht hcomma _ ih =>
    cases n with
    | zero => cases hn
    | succ n =>
      have hrest := ih hs' (Nat.le_of_succ_le_succ hn)
      simp [listUntil, hs, ht.iff, hcomma, hclose.symm, hrest.iff, and_assoc]

theorem readsItems_of_takes {items : List (List Lexeme × List String)} (hitems : ∀ i ∈ items, Takes c item close i.1 i.2)
    (hne : items ≠ []) (hcontext : s.context = c) (hs : s.Follows ([.mark ","].intercalate (items.map (·.1))) s')
    (hs' : s'.lexeme = .mark "," ∨ s'.lexeme = .mark close) :
    ∃ ts, ReadsItems item close s ts s' ∧ Declares ts (items.flatMap (·.2)) ∧ ts.length = items.length ∧
      s.lexeme.text? ≠ some "this" := by
  induction items generalizing s with
  | nil => exact absurd rfl hne
  | cons i items ih =>
    obtain ⟨hi, hrest⟩ := List.forall_mem_cons.mp hitems
    obtain ⟨l, tail, hhead, hl, hthis⟩ := hi.head
    cases items with
    | nil =>
      rw [List.map_cons, List.map_nil, List.intercalate_singleton] at hs
      obtain ⟨t, ht, hnames⟩ := hi.gives s s' hcontext hs hs'
      rw [hhead] at hs
      exact ⟨[t], .last (by rwa [hs.1]) ht, by simpa using hnames, rfl, by rwa [hs.1]⟩
    | cons j items =>
      rw [List.map_cons, List.map_cons, List.intercalate_cons_cons, List.append_assoc, State.follows_append] at hs
      obtain ⟨s₁, hfirst, hcomma, hmore⟩ := hs
      obtain ⟨t, ht, hnames⟩ := hi.gives s s₁ hcontext hfirst (.inl hcomma)
      obtain ⟨ts, hts, hmoreNames, hlength, -⟩ :=
        ih hrest (by simp) (by rw [State.next_context, hfirst.context, hcontext]) hmore
      rw [hhead] at hfirst
      exact ⟨t :: ts, .more (by rwa [hfirst.1]) ht hcomma hts, hnames.cons hmoreNames, by simp [hlength],
        by rwa [hfirst.1]⟩

theorem ne_this_of_isIdentifier (hv : (Lexeme.word v false).isIdentifier = true) :
    (Lexeme.word v false).text? ≠ some "this" := by
  intro h
  cases h
  exact absurd hv (by decide)

theorem takes_variable (g : Grammar) (hv : c.allowsName v = true) :
    Takes c g.bindingProperty "\x7d" [.word v false] [v] := by
  have hidentifier := isIdentifier_of_allowsName hv
  refine ⟨⟨_, _, rfl, by simp, ne_this_of_isIdentifier hidentifier⟩, ?_⟩
  rintro s s' rfl ⟨hs, rfl⟩ hs'
  have hbinder := gives_binder hs hv
  have hcolon : s.next.lexeme ≠ .mark ":" ∧ s.next.lexeme ≠ .mark "=" := by rcases hs' with h | h <;> simp [h]
  refine ⟨.node .pattern ⟨s.start, s.stop⟩ [.node (.binder v) ⟨s.start, s.stop⟩ []], ?_, ?_⟩
  · simp [Grammar.bindingProperty, Grammar.initializer, nextIs, hs, hidentifier, hbinder.iff, hcolon,
      Lexeme.isEscapedKeyword, and_assoc]
  · exact ⟨rfl, rfl, rfl⟩

theorem gives_parameter {target : Tree} (hlimit : 0 < g.limit) (hdecorators : s.lexeme ≠ .mark "@")
    (hmodifiers : ∀ w escaped, s.lexeme = .word w escaped → w ∉ modifierWords)
    (htarget : Gives (g.read .binding) s target s') (hs' : s'.lexeme = .mark "," ∨ s'.lexeme = .mark ")") :
    Gives (g.parameter .plain) s (.node .param ⟨s.start, s'.last⟩ [target]) s' := by
  have hnext : s'.lexeme ≠ .mark "?" ∧ s'.lexeme ≠ .mark ":" ∧ s'.lexeme ≠ .mark "=" := by
    rcases hs' with h | h <;> simp [h]
  have htypes : Gives g.typeAnnotation s' [] s' := by simp [Grammar.typeAnnotation, hnext, and_assoc]
  have hvalue : Gives g.initializer s' [] s' := by simp [Grammar.initializer, hnext, and_assoc]
  refine gives_bind.mpr ⟨_, s, gives_place.mpr ⟨rfl, rfl⟩, gives_bind.mpr ⟨[], s, gives_decorators_nil hlimit hdecorators,
    gives_bind.mpr ⟨[], s, gives_modifiers_nil hlimit hmodifiers, ?_⟩⟩⟩
  refine gives_bind.mpr ⟨(), s, by simp [allowOnly], gives_bind.mpr ⟨target, s', htarget, ?_⟩⟩
  simp [hnext, htypes.iff, hvalue.iff, and_assoc]

def Grammar.parameterItem (g : Grammar) : Parser Tree := do
  if ← isAt "..." then g.restBinding else g.parameter .plain

theorem takes_parameter {l : Lexeme} (hlimit : 0 < g.limit) (hmark : l ≠ .mark ")" ∧ l ≠ .mark "@" ∧ l ≠ .mark "...")
    (hthis : l.text? ≠ some "this") (hword : ∀ w escaped, l = .word w escaped → w ∉ modifierWords)
    (htarget : ∀ s s', s.context = c → s.Follows (l :: ls) s' → ∃ t, Gives (g.read .binding) s t s' ∧ Declares [t] names) :
    Takes c g.parameterItem ")" (l :: ls) names := by
  refine ⟨⟨l, ls, rfl, hmark.1, hthis⟩, fun s s' hcontext hs hs' => ?_⟩
  obtain ⟨t, ht, hnames⟩ := htarget s s' hcontext hs
  have hparameter := gives_parameter hlimit (by rw [hs.1]; exact hmark.2.1) (by rw [hs.1]; exact hword) ht hs'
  refine ⟨.node .param ⟨s.start, s'.last⟩ [t], ?_, (declares_node (.inl rfl)).mpr hnames⟩
  simp [Grammar.parameterItem, hs.1, hmark.2.2, hparameter.iff, and_assoc]

theorem takes_name (hv : c.allowsName v = true) (hword : v ∉ modifierWords) :
    Takes c (Grammar.parameterItem ⟨Goal.read (d + 1), d + 1⟩) ")" [.word v false] [v] := by
  refine takes_parameter (Nat.succ_pos d) (by simp) (ne_this_of_isIdentifier (isIdentifier_of_allowsName hv))
    (by rintro _ _ ⟨⟩; exact hword) ?_
  rintro s s' rfl ⟨hs, rfl⟩
  have hbinder := gives_binder hs hv
  refine ⟨.node (.binder v) ⟨s.start, s.stop⟩ [], ?_, rfl, rfl, rfl⟩
  simp [Goal.read, Goal.production, Grammar.binding, hs, hbinder.iff, and_assoc]

theorem takes_pattern {vs : List String} (hvs : ∀ v ∈ vs, c.allowsName v = true) (hne : vs ≠ []) (hd : vs.length ≤ d) :
    Takes c (Grammar.parameterItem ⟨Goal.read (d + 1), d + 1⟩) ")"
      (.mark "\x7b" :: ([.mark ","].intercalate (vs.map fun v => [.word v false]) ++ [.mark "\x7d"])) vs := by
  refine takes_parameter (Nat.succ_pos d) (by decide) (by decide) (by simp) ?_
  rintro s s' hcontext ⟨hs, hitems⟩
  obtain ⟨s₁, hvars, hbrace, rfl⟩ := State.follows_append.mp hitems
  have htakes : ∀ i ∈ vs.map fun v => ([Lexeme.word v false], [v]),
      Takes c (Grammar.bindingProperty ⟨Goal.read d, d⟩) "\x7d" i.1 i.2 := by
    rw [List.forall_mem_map]
    exact fun v hv => takes_variable _ (hvs v hv)
  have hlexemes : (vs.map fun v => ([Lexeme.word v false], [v])).map (·.1) = vs.map fun v => [Lexeme.word v false] := by
    rw [List.map_map]
    rfl
  obtain ⟨ts, hts, hnames, hlength, -⟩ := readsItems_of_takes htakes (by simpa using hne)
    (by rw [State.next_context, hcontext]) (by rw [hlexemes]; exact hvars) (.inr hbrace)
  have hlist := hts.gives_listUntil (n := d) (by decide) hbrace (by simp_all)
  refine ⟨.node .pattern ⟨s.start, s₁.stop⟩ ts, ?_, (declares_node (.inr rfl)).mpr ?_⟩
  · simp [Goal.read, Goal.production, Grammar.binding, hs, hlist.iff, hbrace, and_assoc]
  · simpa [List.flatMap_map] using hnames

end

theorem gives_parameters_of_list {trailing : Bool} (hparen : s.lexeme = .mark "(")
    (hthis : s.next.lexeme.text? ≠ some "this")
    (hts : Gives (listUntil g.limit ")" g.parameterItem) s.next (ts, trailing) s₁) (hclose : s₁.lexeme = .mark ")") :
    Gives (g.parameters .plain) s (.node .params ⟨s.start, s₁.next.last⟩ ts) s₁.next := by
  have hitem : (do if ← isAt "..." then g.restBinding else g.parameter .plain) = g.parameterItem := rfl
  have hreceiver : Gives startsReceiver s false s := by
    simp [startsReceiver, nextIs, hparen, hthis, Lexeme.isEscapedKeyword, and_assoc]
  refine gives_bind.mpr ⟨_, s, gives_place.mpr ⟨rfl, rfl⟩, gives_bind.mpr ⟨false, s, hreceiver, ?_⟩⟩
  refine gives_bind.mpr ⟨(), s.next, gives_expect.mpr ⟨hparen, rfl⟩,
    gives_bind.mpr ⟨_, s.next, gives_isAtWord.mpr ⟨rfl, rfl⟩, ?_⟩⟩
  rw [if_neg (by simpa using hthis)]
  simp [hitem, hts.iff, hclose, and_assoc]

end PageCompiler.Code
