import PageCompiler.Code.Grammar.Program

/-!
# Steps of a parser

What the basic parsers give from a state, and how a parser goes from lexeme to lexeme through a text that is known.
`State.reach` is the state at the first lexeme of a text; `next_reach` takes it to the next lexeme.
-/

namespace PageCompiler.Code

open Text (byteLength isIdStart isIdPart)

variable {α β : Type}

variable {a : α} {s s' : State} {p : Parser α} {u : Unit} {b : Bool} {m : String} {c : Char}

/-! ## Runs -/

/-- From the state `s` the parser gives `a` and leaves the state `s'`. -/
def Gives (p : Parser α) (s : State) (a : α) (s' : State) : Prop :=
  p s = .ok (a, s')

@[simp] theorem gives_pure {b : α} : Gives (pure a) s b s' ↔ b = a ∧ s' = s := by
  constructor
  · intro h
    cases h
    exact ⟨rfl, rfl⟩
  · rintro ⟨rfl, rfl⟩
    rfl

@[simp] theorem gives_bind {f : α → Parser β} {s'' : State} {b : β} :
    Gives (p >>= f) s b s'' ↔ ∃ a s', Gives p s a s' ∧ Gives (f a) s' b s'' := by
  simp only [Gives, bind, StateT.bind, Except.bind]
  constructor
  · intro h
    match hp : p s with
    | .ok (a, s') =>
      rw [hp] at h
      exact ⟨a, s', rfl, h⟩
    | .error e =>
      rw [hp] at h
      cases h
  · rintro ⟨a, s', hp, hf⟩
    rw [hp]
    exact hf

@[simp] theorem gives_map {f : α → β} {b : β} : Gives (f <$> p) s b s' ↔ ∃ a, Gives p s a s' ∧ b = f a := by
  rw [← bind_pure_comp, gives_bind]
  constructor
  · rintro ⟨a, s₁, hp, hf⟩
    obtain ⟨rfl, rfl⟩ := gives_pure.mp hf
    exact ⟨a, hp, rfl⟩
  · rintro ⟨a, hp, rfl⟩
    exact ⟨a, s', hp, gives_pure.mpr ⟨rfl, rfl⟩⟩

@[simp] theorem gives_ite {c : Prop} [Decidable c] {q : Parser α} :
    Gives (if c then p else q) s a s' ↔ if c then Gives p s a s' else Gives q s a s' := by
  split <;> rfl

@[simp] theorem gives_get {a : State} : Gives (get : Parser State) s a s' ↔ a = s ∧ s' = s :=
  gives_pure

@[simp] theorem gives_modify {f : State → State} : Gives (modify f : Parser Unit) s u s' ↔ s' = f s := by
  constructor
  · intro h
    cases h
    rfl
  · rintro rfl
    rfl

@[simp] theorem gives_fail : ¬ Gives fail s a s' := by
  intro h
  cases h

/-! ## Looking at the current lexeme -/

@[simp] theorem gives_current {l : Lexeme} : Gives current s l s' ↔ l = s.lexeme ∧ s' = s := by
  simp [current, and_comm]

@[simp] theorem gives_place {n : Nat} : Gives place s n s' ↔ n = s.start ∧ s' = s := by
  simp [place, and_comm]

@[simp] theorem gives_onNewLine : Gives onNewLine s b s' ↔ b = s.newline ∧ s' = s := by
  simp [onNewLine, and_comm]

@[simp] theorem gives_context {c : Context} : Gives context s c s' ↔ c = s.context ∧ s' = s := by
  simp [context, and_comm]

@[simp] theorem gives_isAt : Gives (isAt m) s b s' ↔ b = (s.lexeme == .mark m) ∧ s' = s := by
  simp [isAt, and_comm, and_assoc]

@[simp] theorem gives_isAtWord {w : String} : Gives (isAtWord w) s b s' ↔ b = (s.lexeme.text? == some w) ∧ s' = s := by
  simp [isAtWord, and_comm, and_assoc]

@[simp] theorem gives_isAtFinish : Gives isAtFinish s b s' ↔ b = (s.lexeme == .finish) ∧ s' = s := by
  simp [isAtFinish, and_comm, and_assoc]

def Lexeme.isMarkOf (marks : List String) : Lexeme → Bool
  | .mark m => marks.contains m
  | _ => false

@[simp] theorem gives_isAtAny {marks : List String} :
    Gives (isAtAny marks) s b s' ↔ b = s.lexeme.isMarkOf marks ∧ s' = s := by
  simp only [isAtAny, gives_bind, gives_current, and_assoc]
  cases h : s.lexeme <;> simp [Lexeme.isMarkOf]

/-! ## Taking lexemes -/

@[simp] theorem gives_spoil : Gives spoil s u s' ↔ s' = s.spoil s.start := by
  simp [spoil]

@[simp] theorem gives_advance :
    Gives advance s u s' ↔ s' = (if s.lexeme.isEscapedKeyword then s.spoil s.start else s).next := by
  by_cases h : s.lexeme.isEscapedKeyword <;> simp [advance, h, and_assoc]

@[simp] theorem gives_eat :
    Gives (eat m) s b s' ↔ b = (s.lexeme == .mark m) ∧ s' = if s.lexeme == .mark m then s.next else s := by
  by_cases h : s.lexeme = .mark m
  · simp [eat, h, and_assoc, and_comm, Lexeme.isEscapedKeyword]
  · have hfalse : (s.lexeme == .mark m) = false := by simpa using h
    simp [eat, hfalse, and_assoc, and_comm]

@[simp] theorem gives_expect : Gives (expect m) s u s' ↔ s.lexeme = .mark m ∧ s' = s.next := by
  by_cases h : s.lexeme = .mark m <;> simp [expect, h, and_assoc]

@[simp] theorem gives_finish {kind : NodeKind} {start : Nat} {parts : List Tree} {t : Tree} :
    Gives (finish kind start parts) s t s' ↔ t = .node kind ⟨start, s.last⟩ parts ∧ s' = s := by
  simp [finish, and_comm, and_assoc]

@[simp] theorem gives_lookahead : Gives (lookahead p) s a s' ↔ s' = s ∧ ∃ s₁, Gives p s a s₁ := by
  simp only [Gives, lookahead, bind, Except.bind]
  cases h : p s with
  | error e => simp
  | ok r => simp [pure, Except.pure, Prod.ext_iff, eq_comm, and_comm]

def State.withContext (s : State) (c : Context) : State :=
  { s with context := c }

@[simp] theorem gives_within {change : Context → Context} :
    Gives (within change p) s a s' ↔
      ∃ s₁, Gives p (s.withContext (change s.context)) a s₁ ∧ s' = s₁.withContext s.context := by
  simp only [within, gives_bind, gives_get, gives_modify, gives_pure, and_assoc, exists_eq_left, exists_and_left,
    exists_const]
  constructor
  · rintro ⟨a, s₁, h, rfl, rfl⟩
    exact ⟨s₁, h, rfl⟩
  · rintro ⟨s₁, h, rfl⟩
    exact ⟨a, s₁, h, rfl, rfl⟩

theorem Gives.iff {s'' : State} {b : α} (h : Gives p s a s') : Gives p s b s'' ↔ b = a ∧ s'' = s' := by
  rw [Gives] at h
  rw [Gives, h, Except.ok.injEq, Prod.mk.injEq, eq_comm, @eq_comm _ s']

/-! ## From lexeme to lexeme -/

namespace State

variable {s : State} {ls : List Lexeme}

@[simp] theorem next_last (s : State) : s.next.last = s.stop := by
  simp only [next, nextBy, retake, State.spoil]
  split <;> split <;> rfl

@[simp] theorem next_context (s : State) : s.next.context = s.context := by
  simp only [next, nextBy, retake, State.spoil]
  split <;> split <;> rfl

@[simp] theorem withContext_context (s : State) (c : Context) : (s.withContext c).context = c := rfl

@[simp] theorem withContext_start (s : State) (c : Context) : (s.withContext c).start = s.start := rfl

@[simp] theorem withContext_newline (s : State) (c : Context) : (s.withContext c).newline = s.newline := rfl

@[simp] theorem withContext_flaw (s : State) (c : Context) : (s.withContext c).flaw = s.flaw := rfl

@[simp] theorem withContext_next (s : State) (c : Context) : (s.withContext c).next = s.next.withContext c := by
  by_cases hgap : (gap s.rest).closed = true <;> by_cases hcut : (cut (s.rest.drop (gap s.rest).count)).sound = true <;>
    simp [next, nextBy, retake, State.spoil, withContext, hgap, hcut]

def Follows (s : State) : List Lexeme → State → Prop
  | [], s' => s' = s
  | l :: ls, s' => s.lexeme = l ∧ Follows s.next ls s'

theorem follows_append {s'' : State} {ms : List Lexeme} :
    s.Follows (ls ++ ms) s'' ↔ ∃ s', s.Follows ls s' ∧ s'.Follows ms s'' := by
  induction ls generalizing s with
  | nil => simp [Follows]
  | cons l ls ih => simp [Follows, ih, and_assoc]

theorem Follows.withContext {s' : State} (h : s.Follows ls s') (c : Context) :
    (s.withContext c).Follows ls (s'.withContext c) := by
  induction ls generalizing s with
  | nil =>
    cases h
    rfl
  | cons l ls ih =>
    refine ⟨h.1, ?_⟩
    rw [withContext_next]
    exact ih h.2

theorem Follows.context {s' : State} (h : s.Follows ls s') : s'.context = s.context := by
  induction ls generalizing s with
  | nil =>
    cases h
    rfl
  | cons l ls ih => rw [ih h.2, next_context]

/-- The state at the first lexeme of a text that starts at `pos`; the lexeme before it ends at `last`, on the same
line. -/
def reach (c : Context) (last pos : Nat) (text : List Char) : State where
  lexeme := (cut text).lexeme
  start := pos
  stop := pos + byteLength (text.take (cut text).count)
  here := text
  rest := text.drop (cut text).count
  last
  context := c

theorem next_reach {c : Context} {last pos : Nat} {l : Lexeme} {word blank text : List Char}
    (hcut : cut (word ++ (blank ++ text)) = ⟨l, word.length, true⟩)
    (hgap : gap (blank ++ text) = { count := blank.length }) (hsound : (cut text).sound = true) :
    (reach c last pos (word ++ (blank ++ text))).next =
      reach c (pos + byteLength word) (pos + byteLength word + byteLength blank) text := by
  simp only [next, nextBy, retake, reach, hcut, List.take_left, List.drop_left, hgap, hsound, if_true]

end State

/-- The text spells the lexemes, blanks between them apart, and then goes on as `rest`. -/
inductive Spells : List Char → List Lexeme → List Char → Prop
  | done {text : List Char} : Spells text [] text
  | more {l : Lexeme} {ls : List Lexeme} {word blank text rest : List Char}
      (hcut : cut (word ++ (blank ++ text)) = ⟨l, word.length, true⟩)
      (hgap : gap (blank ++ text) = { count := blank.length }) (hsound : (cut text).sound = true) :
      Spells text ls rest → Spells (word ++ (blank ++ text)) (l :: ls) rest

theorem Spells.follows {text rest : List Char} {ls : List Lexeme} (h : Spells text ls rest) (c : Context)
    (last pos : Nat) : ∃ last' lead, text = lead ++ rest ∧
      (State.reach c last pos text).Follows ls (State.reach c last' (pos + byteLength lead) rest) := by
  induction h generalizing last pos with
  | @done text => exact ⟨last, [], rfl, rfl⟩
  | @more l ls word blank text rest hcut hgap hsound _ ih =>
    obtain ⟨last', lead, rfl, hfollows⟩ := ih (pos + byteLength word) (pos + byteLength word + byteLength blank)
    refine ⟨last', word ++ (blank ++ lead), by simp, ?_, ?_⟩
    · show (cut _).lexeme = l
      rw [hcut]
    · rw [State.next_reach hcut hgap hsound]
      simpa only [Text.byteLength_append, Nat.add_assoc] using hfollows

/-! ## Names and marks -/

/-- The codes of digits, line ends, blanks and of the marks that are read in a way of their own. -/
def apartCodes : List Nat :=
  List.range' 0x30 10 ++ [0x0A, 0x0D, 0x2028, 0x2029] ++ List.range' 0x2000 12 ++
    [0x20, 0x09, 0x0B, 0x0C, 0xA0, 0xFEFF, 0x85, 0x1680, 0x180E, 0x202F, 0x205F, 0x3000] ++
    ['"', '\'', '\x60', '#', '?', '/', '.', '\\'].map Char.toNat

theorem isIdStart_of_mem_apartCodes (hc : c.toNat ∈ apartCodes) : isIdStart c = false := by
  have hall : ∀ n ∈ apartCodes, isIdStart (Char.ofNat n) = false := by decide +kernel
  have h := hall c.toNat hc
  rwa [Char.ofNat_toNat] at h

/-- What the reading of lexemes asks of the first character of a name. -/
theorem isIdStart_spec (h : isIdStart c = true) :
    c.isDigit = false ∧ isLineEnd c = false ∧ isPadding c = false ∧
      c ∉ ['"', '\'', '\x60', '#', '?', '/', '.', '\\'] := by
  have hapart : c.toNat ∉ apartCodes := by
    intro hc
    rw [isIdStart_of_mem_apartCodes hc] at h
    cases h
  simp only [apartCodes, List.mem_append, not_or] at hapart
  obtain ⟨⟨⟨⟨hdigit, hline⟩, hspaces⟩, hblanks⟩, hmarks⟩ := hapart
  refine ⟨?_, ?_, ?_, fun hc => hmarks (List.mem_map_of_mem hc)⟩
  · rw [List.mem_range'_1] at hdigit
    refine Bool.eq_false_iff.mpr fun hc => hdigit ?_
    simp only [Char.isDigit, Bool.and_eq_true, decide_eq_true_eq, ge_iff_le, UInt32.le_iff_toNat_le] at hc
    exact ⟨hc.1, Nat.lt_succ_of_le hc.2⟩
  · have hbreak : c ≠ '\n' ∧ c ≠ '\r' := ⟨fun hc => hline (by simp [hc]), fun hc => hline (by simp [hc])⟩
    simp only [List.mem_cons, List.not_mem_nil, or_false, not_or] at hline
    simp [isLineEnd, hbreak, hline]
  · rw [List.mem_range'_1] at hspaces
    simp only [List.mem_cons, List.not_mem_nil, or_false, not_or] at hblanks
    have hrange : 0x2000 ≤ c.toNat → 0x200B < c.toNat := by omega
    simpa [isPadding, hblanks] using hrange

theorem ne_backslash_of_isIdPart (h : isIdPart c = true) : c ≠ '\\' := by
  rintro rfl
  cases h

theorem readName_append {name : List Char} (hname : ∀ c ∈ name, isIdPart c = true) {d : Char}
    (hd : isIdPart d = false ∧ d ≠ '\\') (rest : List Char) (count : Nat) (c : Char) (before : List Char) :
    readName count (c :: before) false true (name ++ d :: rest) =
      (count + name.length, name.reverse ++ c :: before, false, true) := by
  induction name generalizing count c before with
  | nil =>
    rw [List.nil_append, readName.eq_2]
    · simp [hd.1]
    · rintro rest rfl
      exact absurd rfl hd.2
  | cons e name ih =>
    obtain ⟨he, hname⟩ := List.forall_mem_cons.mp hname
    rw [List.cons_append, readName.eq_2]
    · simp [he, ih hname, Nat.add_assoc, Nat.add_comm 1]
    · rintro rest rfl
      exact absurd rfl (ne_backslash_of_isIdPart he)

theorem cut_name {name : List Char} (hc : isIdStart c = true) (hname : ∀ d ∈ name, isIdPart d = true) {d : Char}
    (hd : isIdPart d = false ∧ d ≠ '\\') (rest : List Char) :
    cut (c :: name ++ d :: rest) = ⟨.word (String.ofList (c :: name)) false, name.length + 1, true⟩ := by
  obtain ⟨hdigit, _, _, hmark⟩ := isIdStart_spec hc
  have hread : readName 0 [] false true (c :: name ++ d :: rest) = (name.length + 1, (c :: name).reverse, false, true) := by
    rw [List.cons_append, readName.eq_2]
    · rw [if_pos (by simpa using hc), readName_append hname hd]
      simp [Nat.add_comm]
    · rintro tail rfl
      simp at hmark
  have hword : cutWord (c :: name ++ d :: rest) = ⟨.word (String.ofList (c :: name)) false, name.length + 1, true⟩ := by
    simp only [cutWord, hread, List.reverse_reverse]
  simp only [List.mem_cons, List.not_mem_nil, or_false, not_or] at hmark
  rw [List.cons_append] at hword ⊢
  rw [cut.eq_def]
  split
  case h_7 =>
    rename_i heq
    cases heq
    simp [hdigit, hmark, hc, hword]
  all_goals simp_all

def isSolid (c : Char) : Bool :=
  !isLineEnd c && !isPadding c && c != '/'

theorem readGap_solid (hc : isSolid c = true) (g : Gap) (rest : List Char) : readGap .between g (c :: rest) = g := by
  simp only [isSolid, Bool.and_eq_true, Bool.not_eq_true', bne_iff_ne] at hc
  rw [readGap.eq_3]
  · simp [hc.1]
  · rintro tail rfl
    exact absurd rfl hc.2
  · rintro tail rfl
    exact absurd rfl hc.2

theorem gap_cons (hc : isSolid c = true) (rest : List Char) : gap (c :: rest) = {} :=
  readGap_solid hc _ rest

theorem gap_space_cons (hc : isSolid c = true) (rest : List Char) : gap (' ' :: c :: rest) = { count := 1 } := by
  have hspace : isLineEnd ' ' = false ∧ isPadding ' ' = true := by decide
  rw [gap, readGap.eq_3 _ _ _ (by simp) (by simp), if_neg (by simp [hspace.1]), if_pos hspace.2]
  exact readGap_solid hc _ rest

end PageCompiler.Code
