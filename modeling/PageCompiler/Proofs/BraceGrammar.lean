import PageCompiler.Brace

/-!
# The grammar of balanced code

What can stand between two matching braces (`Derives .code`), and between the marks of a template literal
(`Derives .template`), said without a scan: code is a sequence of plain characters, quoted texts, template
literals, comments and codes in braces, and a template literal may hold code again.

The scan of `Brace.close?` has a stack of open frames. It passes over a derived text with the stack unchanged
(`close?_append`); and if it ends, what it has read is, for each frame of the stack from the top, a derived text and
the mark that closes the frame (`closesFrom_of_close?`). So the brace that it finds is the one that the grammar
allows, and there is at most one of them.
-/

namespace PageCompiler.Brace

open Text (byteLength)

variable {stack : List Frame} {c : Char} {cs text rest : List Char} {frame : Frame}

variable {quote : Char} {inner lead : List Char} {pos : Nat} {below : List Frame}

/-! ## The grammar -/

/-- The inside of a quoted text: no raw line end, no raw quote, and anything after a backslash. -/
inductive Quoted (quote : Char) : List Char → Prop
  | empty : Quoted quote []
  | escape {c : Char} {rest : List Char} : Quoted quote rest → Quoted quote ('\\' :: c :: rest)
  | char {c : Char} {rest : List Char} (hescape : c ≠ '\\') (hquote : c ≠ quote) (hline : c ≠ '\n') :
      Quoted quote rest → Quoted quote (c :: rest)

def startsComment : List Char → Bool
  | '/' :: '/' :: _ => true
  | '/' :: '*' :: _ => true
  | _ => false

/-- Characters of code that neither open nor close anything by themselves. -/
def isPlain (c : Char) : Bool :=
  c != '\'' && c != '"' && c != '`' && c != '{' && c != '}'

/-- What a text is the inside of. -/
inductive Level where
  | code
  | template
deriving DecidableEq, Repr

/-- The texts that are balanced as code, or as the inside of a template literal. -/
inductive Derives : Level → List Char → Prop
  | empty {level : Level} : Derives level []
  | plain {c : Char} {rest : List Char} (hc : isPlain c = true) (hcomment : startsComment (c :: rest) = false) :
      Derives .code rest → Derives .code (c :: rest)
  | quoted {quote : Char} {inner rest : List Char} (hquote : quote = '\'' ∨ quote = '"')
      (hinner : Quoted quote inner) : Derives .code rest → Derives .code (quote :: inner ++ quote :: rest)
  | literal {items rest : List Char} :
      Derives .template items → Derives .code rest → Derives .code ('`' :: items ++ '`' :: rest)
  | lineComment {text rest : List Char} (htext : '\n' ∉ text) :
      Derives .code rest → Derives .code ('/' :: '/' :: text ++ '\n' :: rest)
  /-- The comment ends with the first mark that can end it. -/
  | blockComment {text rest : List Char} (htext : ¬ ['*', '/'] <:+: text ++ ['*']) :
      Derives .code rest → Derives .code ('/' :: '*' :: text ++ '*' :: '/' :: rest)
  | braces {inner rest : List Char} :
      Derives .code inner → Derives .code rest → Derives .code ('{' :: inner ++ '}' :: rest)
  | escape {c : Char} {rest : List Char} : Derives .template rest → Derives .template ('\\' :: c :: rest)
  | interpolation {inner rest : List Char} :
      Derives .code inner → Derives .template rest → Derives .template ('$' :: '{' :: inner ++ '}' :: rest)
  | other {c : Char} {rest : List Char} (hescape : c ≠ '\\') (hclose : c ≠ '`')
      (hopen : c = '$' → rest.head? ≠ some '{') : Derives .template rest → Derives .template (c :: rest)

/-- The byte at `opening` is a brace that the brace at byte `c` closes: what is between them is balanced. -/
def Encloses (src : List Char) (opening c : Nat) : Prop :=
  ∃ before inner after, src = before ++ '{' :: (inner ++ '}' :: after) ∧ byteLength before = opening ∧
    opening + 1 + byteLength inner = c ∧ Derives .code inner

/-! ## Steps of the scan -/

/-- Code, and not the text of a template literal, is read on top of the frames. -/
def InCode (stack : List Frame) : Prop :=
  ∀ below, stack ≠ .template :: below

theorem close?_code (pos : Nat) :
    InCode stack → startsComment (c :: cs) = false →
    close? .code stack pos (c :: cs) =
      if c = '\'' || c = '"' then close? (.quoted c) stack (pos + c.utf8Size) cs
      else if c = '`' then close? .code (.template :: stack) (pos + c.utf8Size) cs
      else if c = '{' then close? .code (.brace :: stack) (pos + c.utf8Size) cs
      else if c = '}' then
        match stack with
        | _ :: below :: rest => close? .code (below :: rest) (pos + c.utf8Size) cs
        | _ => some pos
      else close? .code stack (pos + c.utf8Size) cs := by
  intro hstack hcomment
  rw [close?.eq_def]
  split
  case h_11 =>
    rename_i heq
    cases heq
    rfl
  all_goals simp_all [InCode, startsComment]

theorem close?_plain (hstack : InCode stack) (hc : isPlain c = true) (hcomment : startsComment (c :: cs) = false)
    (pos : Nat) : close? .code stack pos (c :: cs) = close? .code stack (pos + c.utf8Size) cs := by
  rw [close?_code pos hstack hcomment]
  simp_all [isPlain]

theorem close?_quote (hstack : InCode stack) (hquote : quote = '\'' ∨ quote = '"') (pos : Nat) (cs : List Char) :
    close? .code stack pos (quote :: cs) = close? (.quoted quote) stack (pos + 1) cs := by
  rcases hquote with rfl | rfl
  · exact close?_code pos hstack rfl
  · exact close?_code pos hstack rfl

theorem close?_backtick (hstack : InCode stack) (pos : Nat) (cs : List Char) :
    close? .code stack pos ('`' :: cs) = close? .code (.template :: stack) (pos + 1) cs :=
  close?_code pos hstack rfl

theorem close?_openBrace (hstack : InCode stack) (pos : Nat) (cs : List Char) :
    close? .code stack pos ('{' :: cs) = close? .code (.brace :: stack) (pos + 1) cs :=
  close?_code pos hstack rfl

theorem close?_closeBrace (h : frame ≠ .template) (below : Frame) (rest : List Frame) (pos : Nat) (cs : List Char) :
    close? .code (frame :: below :: rest) pos ('}' :: cs) = close? .code (below :: rest) (pos + 1) cs :=
  close?_code pos (fun _ heq => h (List.cons.inj heq).1) rfl

theorem close?_lastBrace (h : frame ≠ .template) (pos : Nat) (cs : List Char) :
    close? .code [frame] pos ('}' :: cs) = some pos :=
  close?_code pos (fun _ heq => h (List.cons.inj heq).1) rfl

/-! ## Scanning over a derived text -/

/-- The scan passes over a quoted text to the code after it. -/
theorem close?_quoted (h : Quoted quote inner) (hquote : quote = '\'' ∨ quote = '"') (stack : List Frame) (pos : Nat)
    (tail : List Char) :
    close? (.quoted quote) stack pos (inner ++ quote :: tail) =
      close? .code stack (pos + byteLength inner + 1) tail := by
  have hend : quote ≠ '\\' ∧ quote ≠ '\n' ∧ quote.utf8Size = 1 := by
    rcases hquote with rfl | rfl <;> decide
  induction h generalizing pos with
  | empty =>
    rw [List.nil_append, close?.eq_2 _ _ _ _ _ fun _ _ heq => absurd heq hend.1, if_neg hend.2.1, if_pos rfl,
      hend.2.2]
    rfl
  | @escape c rest _ ih =>
    show close? (.quoted quote) stack pos ('\\' :: c :: (rest ++ quote :: tail)) = _
    rw [close?.eq_1, ih]
    have hsize : ('\\' : Char).utf8Size = 1 := rfl
    simp only [Text.byteLength_cons, hsize, Nat.add_assoc]
  | @char c rest hescape hne hline _ ih =>
    show close? (.quoted quote) stack pos (c :: (rest ++ quote :: tail)) = _
    rw [close?.eq_2 _ _ _ _ _ fun _ _ heq => absurd heq hescape, if_neg hline, if_neg hne, ih]
    simp only [Text.byteLength_cons, Nat.add_assoc]

/-- A comment ends before the line end that is after it, or at the end of the text. -/
theorem close?_lineComment (h : '\n' ∉ text) (hrest : ∀ c ∈ rest.head?, c = '\n') (hstack : InCode stack) (pos : Nat) :
    close? .lineComment stack pos (text ++ rest) = close? .code stack (pos + byteLength text) rest := by
  induction text generalizing pos with
  | nil =>
    cases rest with
    | nil => exact (close?_nil _ _ _).trans (close?_nil _ _ _).symm
    | cons c rest =>
      obtain rfl := hrest c rfl
      rw [List.nil_append, close?.eq_3, if_pos rfl]
      exact (close?_plain hstack rfl rfl pos).symm
  | cons c text ih =>
    rw [List.mem_cons, not_or] at h
    rw [List.cons_append, close?.eq_3, if_neg (Ne.symm h.1), ih h.2]
    simp only [Text.byteLength_cons, Nat.add_assoc]

theorem close?_blockComment (h : ¬ ['*', '/'] <:+: text ++ ['*']) (stack : List Frame) (pos : Nat) (tail : List Char) :
    close? .blockComment stack pos (text ++ '*' :: '/' :: tail) =
      close? .code stack (pos + byteLength text + 2) tail := by
  induction text generalizing pos with
  | nil => rw [List.nil_append, close?.eq_4]; rfl
  | cons c text ih =>
    have hnext : ∀ ds, c = '*' → text ++ '*' :: '/' :: tail = '/' :: ds → False := by
      rintro ds rfl heq
      cases text with
      | nil => cases heq
      | cons d text =>
        cases heq
        exact h ⟨[], text ++ ['*'], rfl⟩
    have hrest : ¬ ['*', '/'] <:+: text ++ ['*'] := fun hin => h (hin.trans (List.suffix_cons _ _).isInfix)
    rw [List.cons_append, close?.eq_5 _ _ _ _ hnext, ih hrest]
    simp only [Text.byteLength_cons, Nat.add_assoc]

/-! ## Texts that the scan passes over -/

/-- The scan passes over `lead` when `rest` follows: all that is opened there is closed there. -/
def Passes (lead rest : List Char) : Prop :=
  ∀ stack pos, InCode stack →
    close? .code stack pos (lead ++ rest) = close? .code stack (pos + byteLength lead) rest

theorem Passes.append {mid : List Char} (hlead : Passes lead (mid ++ rest)) (hmid : Passes mid rest) :
    Passes (lead ++ mid) rest := by
  intro stack pos hstack
  rw [List.append_assoc, hlead stack pos hstack, hmid stack _ hstack, Text.byteLength_append, Nat.add_assoc]

theorem Passes.scan {tail : List Char} (h : Passes lead (rest ++ tail)) (hstack : InCode stack)
    (htext : text = lead ++ rest)
    (hrest : ∀ pos, close? .code stack pos (rest ++ tail) = close? .code stack (pos + byteLength rest) tail) :
    close? .code stack pos (text ++ tail) = close? .code stack (pos + byteLength text) tail := by
  rw [htext, List.append_assoc, h stack pos hstack, hrest, Text.byteLength_append, Nat.add_assoc]

theorem passes_char (hc : isPlain c = true) (hcomment : startsComment (c :: rest) = false) : Passes [c] rest := by
  intro stack pos hstack
  exact close?_plain hstack hc hcomment pos

theorem passes_quoted (hquote : quote = '\'' ∨ quote = '"') (h : Quoted quote inner) (rest : List Char) :
    Passes (quote :: inner ++ [quote]) rest := by
  intro stack pos hstack
  have hsize : quote.utf8Size = 1 := by rcases hquote with rfl | rfl <;> rfl
  rw [List.append_assoc, List.cons_append, close?_quote hstack hquote, List.singleton_append,
    close?_quoted h hquote, List.cons_append, Text.byteLength_cons, Text.byteLength_append, Text.byteLength_cons, hsize]
  congr 1
  simp only [Text.byteLength_nil]
  omega

theorem passes_lineComment (htext : '\n' ∉ text) (hrest : ∀ c ∈ rest.head?, c = '\n') :
    Passes ('/' :: '/' :: text) rest := by
  intro stack pos hstack
  rw [List.cons_append, List.cons_append, close?.eq_9 _ _ _ hstack, close?_lineComment htext hrest hstack, Nat.add_assoc]
  have hsize : ('/' : Char).utf8Size = 1 := rfl
  simp only [Text.byteLength_cons, hsize, ← Nat.add_assoc]

theorem passes_blockComment (htext : ¬ ['*', '/'] <:+: text ++ ['*']) (rest : List Char) :
    Passes ('/' :: '*' :: text ++ ['*', '/']) rest := by
  intro stack pos hstack
  have hsize : byteLength ('/' :: '*' :: text ++ ['*', '/']) = 2 + byteLength text + 2 := by
    rw [Text.byteLength_append]
    show 1 + (1 + byteLength text) + 2 = _
    omega
  rw [hsize, List.append_assoc, List.cons_append, List.cons_append, close?.eq_10 _ _ _ hstack]
  refine (close?_blockComment htext stack (pos + 2) rest).trans ?_
  congr 1
  omega

def Level.closer : Level → Char
  | .code => '}'
  | .template => '`'

def Frame.level : Frame → Level
  | .brace => .code
  | .template => .template
  | .interpolation => .code

theorem inCode_of_level (h : frame.level = .code) (below : List Frame) : InCode (frame :: below) := by
  rintro rest heq
  cases heq
  cases h

theorem startsComment_cons_cons (c d : Char) (cs : List Char) :
    startsComment (c :: d :: cs) = (c == '/' && (d == '/' || d == '*')) := by
  unfold startsComment
  split <;> simp_all

/-- A character that starts no comment in a text starts none with a brace after the text. -/
theorem startsComment_append (h : startsComment (c :: rest) = false) (tail : List Char) :
    startsComment (c :: (rest ++ Level.code.closer :: tail)) = false := by
  cases rest with
  | nil => simp [startsComment_cons_cons, Level.closer]
  | cons d rest =>
    rw [List.cons_append, startsComment_cons_cons]
    rwa [startsComment_cons_cons] at h

/-- At the mark that closes a template literal the scan goes on below its frame. -/
theorem close?_endTemplate (stack : List Frame) (pos : Nat) (cs : List Char) :
    close? .code (.template :: stack) pos ('`' :: cs) = close? .code stack (pos + 1) cs := by
  rw [close?.eq_8 _ _ _ _ (by simp) (by simp), if_pos rfl]
  rfl

/-- A template literal is passed over if the scan passes over its inside. -/
theorem passes_literal {items : List Char}
    (h : ∀ below pos tail, close? .code (.template :: below) pos (items ++ '`' :: tail) =
      close? .code (.template :: below) (pos + byteLength items) ('`' :: tail)) (rest : List Char) :
    Passes ('`' :: items ++ ['`']) rest := by
  intro stack pos hstack
  have hsize : ('`' : Char).utf8Size = 1 := rfl
  rw [List.append_assoc, List.cons_append, close?_backtick hstack, List.singleton_append, h, close?_endTemplate,
    List.cons_append, Text.byteLength_cons, Text.byteLength_append, Text.byteLength_cons, hsize]
  congr 1
  simp only [Text.byteLength_nil]
  omega

/-- The scan passes over a derived text, up to the mark that closes it, and leaves the stack as it was. -/
theorem close?_append {level : Level} {w : List Char} (h : Derives level w) (hframe : frame.level = level)
    (below : List Frame) (pos : Nat) (tail : List Char) :
    close? .code (frame :: below) pos (w ++ level.closer :: tail) =
      close? .code (frame :: below) (pos + byteLength w) (level.closer :: tail) := by
  have hone : ('\\' : Char).utf8Size = 1 ∧ ('$' : Char).utf8Size = 1 ∧ ('{' : Char).utf8Size = 1 ∧
      ('}' : Char).utf8Size = 1 := by decide
  induction h generalizing frame below pos tail with
  | empty => rfl
  | plain hc hcomment _ ih =>
    exact (passes_char hc (startsComment_append hcomment tail)).scan (inCode_of_level hframe below) rfl
      fun pos => ih hframe below pos tail
  | quoted hquote hinner _ ih =>
    exact (passes_quoted hquote hinner _).scan (inCode_of_level hframe below) (by simp)
      fun pos => ih hframe below pos tail
  | literal _ _ ihitems ih =>
    exact (passes_literal (fun below pos tail => ihitems rfl below pos tail) _).scan (inCode_of_level hframe below)
      (by simp) fun pos => ih hframe below pos tail
  | @lineComment text rest htext _ ih =>
    have hline : Passes ['\n'] (rest ++ Level.code.closer :: tail) := passes_char rfl rfl
    have hcomment : Passes ('/' :: '/' :: text) (['\n'] ++ (rest ++ Level.code.closer :: tail)) :=
      passes_lineComment htext (by simp)
    exact (hcomment.append hline).scan (inCode_of_level hframe below) (by simp) fun pos => ih hframe below pos tail
  | blockComment htext _ ih =>
    exact (passes_blockComment htext _).scan (inCode_of_level hframe below) (by simp)
      fun pos => ih hframe below pos tail
  | @braces inner rest _ _ ihinner ih =>
    have hsplit : '{' :: inner ++ '}' :: rest ++ Level.code.closer :: tail =
        '{' :: (inner ++ Level.code.closer :: (rest ++ Level.code.closer :: tail)) := by
      simp [Level.closer]
    rw [hsplit, close?_openBrace (inCode_of_level hframe below), ihinner rfl]
    show close? .code (.brace :: frame :: below) _ ('}' :: _) = _
    rw [close?_closeBrace (by simp), ih hframe]
    congr 1
    simp only [List.cons_append, Text.byteLength_cons, Text.byteLength_append, hone]
    omega
  | @escape c rest _ ih =>
    obtain rfl : frame = .template := by cases frame <;> simp_all [Frame.level]
    show close? .code (.template :: below) pos ('\\' :: c :: (rest ++ _)) = _
    rw [close?.eq_6, ih hframe]
    congr 1
    simp only [Text.byteLength_cons, hone]
    omega
  | @interpolation inner rest _ _ ihinner ih =>
    obtain rfl : frame = .template := by cases frame <;> simp_all [Frame.level]
    have hsplit : '$' :: '{' :: inner ++ '}' :: rest ++ Level.template.closer :: tail =
        '$' :: '{' :: (inner ++ Level.code.closer :: (rest ++ Level.template.closer :: tail)) := by
      simp [Level.closer]
    rw [hsplit, close?.eq_7, @ihinner .interpolation rfl]
    show close? .code (.interpolation :: .template :: below) _ ('}' :: _) = _
    rw [close?_closeBrace (by simp), ih hframe]
    congr 1
    simp only [List.cons_append, Text.byteLength_cons, Text.byteLength_append, hone]
    omega
  | @other c rest hescape hclose hopen _ ih =>
    obtain rfl : frame = .template := by cases frame <;> simp_all [Frame.level]
    have hnext : ∀ ds, c = '$' → rest ++ Level.template.closer :: tail = '{' :: ds → False := by
      rintro ds rfl heq
      cases rest with
      | nil => cases heq
      | cons d rest =>
        cases heq
        exact hopen rfl rfl
    rw [List.cons_append, close?.eq_8 _ _ _ _ (fun _ _ heq => absurd heq hescape) hnext, if_neg hclose, ih hframe,
      Text.byteLength_cons, Nat.add_assoc]

/-! ## What a scan has read -/

/-- The text closes all frames, from the top of the stack, and leaves the rest: for each frame it has a derived text
and the mark that closes the frame. -/
def Closes : List Frame → List Char → List Char → Prop
  | [], text, rest => text = rest
  | frame :: below, text, rest => ∃ inner after, text = inner ++ frame.level.closer :: after ∧
      Derives frame.level inner ∧ Closes below after rest

def ClosesFrom : Inside → List Frame → List Char → List Char → Prop
  | .code, stack, text, rest => Closes stack text rest
  | .quoted quote, stack, text, rest =>
    ∃ inner after, text = inner ++ quote :: after ∧ Quoted quote inner ∧ Closes stack after rest
  | .lineComment, stack, text, rest =>
    ∃ inner after, text = inner ++ '\n' :: after ∧ '\n' ∉ inner ∧ Closes stack after rest
  | .blockComment, stack, text, rest =>
    ∃ inner after, text = inner ++ '*' :: '/' :: after ∧ ¬ ['*', '/'] <:+: inner ++ ['*'] ∧ Closes stack after rest

def Rooted (stack : List Frame) : Prop :=
  stack.getLast? = some .brace

theorem Rooted.push (h : Rooted stack) (frame : Frame) : Rooted (frame :: stack) := by
  rw [Rooted, List.getLast?_cons, h]
  rfl

theorem Rooted.pop {below : Frame} {rest : List Frame} (h : Rooted (frame :: below :: rest)) :
    Rooted (below :: rest) := by
  rwa [Rooted, List.getLast?_cons_cons] at h

theorem Rooted.of_template (h : Rooted (.template :: stack)) : Rooted stack := by
  cases stack with
  | nil => cases h
  | cons frame below => exact h.pop

theorem Rooted.exists_cons (h : Rooted stack) (hcode : InCode stack) :
    ∃ frame below, frame.level = .code ∧ stack = frame :: below := by
  cases stack with
  | nil => cases h
  | cons frame below =>
    cases frame with
    | brace => exact ⟨.brace, below, rfl, rfl⟩
    | template => exact absurd rfl (hcode below)
    | interpolation => exact ⟨.interpolation, below, rfl, rfl⟩

/-- A text that goes on as one that closes the frames does so itself, if what it starts with can stand before any text
of the top frame. -/
theorem Closes.extend (lead : List Char) (h : Closes (frame :: below) cs rest) (htext : text = lead ++ cs)
    (hlead : ∀ inner after, cs = inner ++ frame.level.closer :: after → Derives frame.level inner →
      Derives frame.level (lead ++ inner)) : Closes (frame :: below) text rest := by
  obtain ⟨inner, after, rfl, hinner, hafter⟩ := h
  exact ⟨lead ++ inner, after, htext.trans (List.append_assoc _ _ _).symm, hlead inner after rfl hinner, hafter⟩

/-- In a frame of code, what the text starts with has to stand before any code. -/
theorem Closes.extend_code (lead : List Char) (hstack : Rooted stack) (hcode : InCode stack) (h : Closes stack cs rest)
    (htext : text = lead ++ cs) (hlead : ∀ code, Derives .code code → Derives .code (lead ++ code)) :
    Closes stack text rest := by
  obtain ⟨frame, below, hframe, rfl⟩ := hstack.exists_cons hcode
  refine h.extend lead htext fun code _ _ hcode => ?_
  rw [hframe] at hcode ⊢
  exact hlead code hcode

theorem Closes.plain (hframe : frame.level = .code) (hc : isPlain c = true)
    (hcomment : startsComment (c :: cs) = false) (h : Closes (frame :: below) cs rest) :
    Closes (frame :: below) (c :: cs) rest := by
  refine h.extend [c] rfl fun inner after heq hinner => ?_
  subst heq
  rw [hframe] at hinner ⊢
  refine Derives.plain hc ?_ hinner
  cases inner with
  | nil => simp [startsComment]
  | cons d inner =>
    rw [List.cons_append, startsComment_cons_cons] at hcomment
    show startsComment (c :: d :: inner) = false
    rw [startsComment_cons_cons, hcomment]

/-- No mark that ends a comment starts with a character that no such mark follows. -/
theorem not_infix_cons {after : List Char} (h : ¬ ['*', '/'] <:+: text ++ ['*'])
    (hend : ∀ ds, c = '*' → text ++ '*' :: '/' :: after = '/' :: ds → False) :
    ¬ ['*', '/'] <:+: c :: text ++ ['*'] := by
  rw [List.cons_append, List.infix_cons_iff]
  rintro (hstart | hinfix)
  · rw [List.cons_prefix_cons] at hstart
    obtain ⟨hc, htext⟩ := hstart
    cases text with
    | nil => simp at htext
    | cons d text =>
      rw [List.cons_append, List.cons_prefix_cons] at htext
      obtain rfl := htext.1
      exact hend _ hc.symm rfl
  · exact h hinfix

/-- What the scan has read when it ends: it has closed all that was open. -/
theorem closesFrom_of_close? {inside : Inside} {c : Nat} (hstack : Rooted stack)
    (h : close? inside stack pos cs = some c) : ∃ rest, ClosesFrom inside stack cs rest := by
  fun_induction close? inside stack pos cs with
  | case1 quote stack pos d ds ih =>
    obtain ⟨rest, inner, after, rfl, hinner, hafter⟩ := ih hstack h
    exact ⟨rest, '\\' :: d :: inner, after, rfl, .escape hinner, hafter⟩
  | case2 => cases h
  | case3 stack pos quote cs hescape hline ih =>
    obtain ⟨rest, hrest⟩ := ih hstack h
    exact ⟨rest, [], cs, rfl, .empty, hrest⟩
  | case4 quote stack pos d cs hescape hline hquote ih =>
    obtain ⟨rest, inner, after, rfl, hinner, hafter⟩ := ih hstack h
    have hd : d ≠ '\\' := by
      rintro rfl
      cases inner <;> exact hescape _ _ rfl rfl
    exact ⟨rest, d :: inner, after, rfl, .char hd hquote hline hinner, hafter⟩
  | case5 stack pos cs ih =>
    obtain ⟨rest, hrest⟩ := ih hstack h
    exact ⟨rest, [], cs, rfl, List.not_mem_nil, hrest⟩
  | case6 stack pos d cs hline ih =>
    obtain ⟨rest, inner, after, rfl, hinner, hafter⟩ := ih hstack h
    exact ⟨rest, d :: inner, after, rfl, by simp [Ne.symm hline, hinner], hafter⟩
  | case7 stack pos ds ih =>
    obtain ⟨rest, hrest⟩ := ih hstack h
    exact ⟨rest, [], ds, rfl, by decide, hrest⟩
  | case8 stack pos d cs hend ih =>
    obtain ⟨rest, inner, after, rfl, hinner, hafter⟩ := ih hstack h
    exact ⟨rest, d :: inner, after, rfl, not_infix_cons hinner hend, hafter⟩
  | case9 stack pos d ds ih =>
    obtain ⟨rest, hrest⟩ := ih hstack h
    exact ⟨rest, Closes.extend ['\\', d] hrest rfl fun _ _ _ hinner => .escape hinner⟩
  | case10 stack pos ds ih =>
    obtain ⟨rest, inner, after, rfl, hinner, hafter⟩ := ih (hstack.push _) h
    refine ⟨rest, hafter.extend ('$' :: '{' :: inner ++ ['}']) (by simp [Frame.level, Level.closer])
      fun items _ _ hitems => ?_⟩
    simpa [Frame.level] using Derives.interpolation hinner hitems
  | case11 stack pos cs _ _ ih =>
    obtain ⟨rest, hrest⟩ := ih hstack.of_template h
    exact ⟨rest, [], cs, rfl, .empty, hrest⟩
  | case12 stack pos d cs hescape hopen hclose ih =>
    obtain ⟨rest, hrest⟩ := ih hstack h
    refine ⟨rest, Closes.extend [d] hrest rfl fun inner after heq hinner => ?_⟩
    subst heq
    refine Derives.other ?_ hclose ?_ hinner
    · rintro rfl
      cases inner <;> exact hescape _ _ rfl rfl
    · rintro rfl hhead
      obtain ⟨tail, rfl⟩ := List.head?_eq_some_iff.mp hhead
      exact hopen _ rfl rfl
  | case13 stack pos ds hcode ih =>
    obtain ⟨rest, inner, after, rfl, hinner, hafter⟩ := ih hstack h
    refine ⟨rest, hafter.extend_code ('/' :: '/' :: inner ++ ['\n']) hstack hcode (by simp) fun code hcode => ?_⟩
    simpa using Derives.lineComment hinner hcode
  | case14 stack pos ds hcode ih =>
    obtain ⟨rest, inner, after, rfl, hinner, hafter⟩ := ih hstack h
    refine ⟨rest, hafter.extend_code ('/' :: '*' :: inner ++ ['*', '/']) hstack hcode (by simp) fun code hcode => ?_⟩
    simpa using Derives.blockComment hinner hcode
  | case15 stack pos quote cs _ _ hcode _ _ hquote ih =>
    obtain ⟨rest, inner, after, rfl, hinner, hafter⟩ := ih hstack h
    refine ⟨rest, hafter.extend_code (quote :: inner ++ [quote]) hstack hcode (by simp) fun code hcode => ?_⟩
    simpa using Derives.quoted (by simpa using hquote) hinner hcode
  | case16 stack pos cs hcode _ _ _ _ _ ih =>
    obtain ⟨rest, inner, after, rfl, hinner, hafter⟩ := ih (hstack.push _) h
    refine ⟨rest, hafter.extend_code ('`' :: inner ++ ['`']) hstack hcode (by simp [Frame.level, Level.closer])
      fun code hcode => ?_⟩
    simpa using Derives.literal hinner hcode
  | case17 stack pos cs hcode _ _ _ _ _ _ ih =>
    obtain ⟨rest, inner, after, rfl, hinner, hafter⟩ := ih (hstack.push _) h
    refine ⟨rest, hafter.extend_code ('{' :: inner ++ ['}']) hstack hcode (by simp [Frame.level, Level.closer])
      fun code hcode => ?_⟩
    simpa using Derives.braces hinner hcode
  | case18 pos cs frame below rest hcode _ _ _ _ _ _ _ ih =>
    obtain ⟨left, hleft⟩ := ih hstack.pop h
    obtain ⟨_, _, hframe, heq⟩ := hstack.exists_cons hcode
    cases heq
    exact ⟨left, [], cs, by rw [hframe]; rfl, .empty, hleft⟩
  | case19 stack pos cs hcode htwo =>
    obtain ⟨frame, below, hframe, rfl⟩ := hstack.exists_cons hcode
    obtain rfl : below = [] := by
      cases below with
      | nil => rfl
      | cons second rest => exact absurd rfl (htwo frame second rest)
    cases h
    exact ⟨cs, [], cs, by rw [hframe]; rfl, .empty, rfl⟩
  | case20 stack pos d cs _ _ hcode hline hblock hquote hbacktick hopen hclose ih =>
    obtain ⟨rest, hrest⟩ := ih hstack h
    obtain ⟨frame, below, hframe, rfl⟩ := hstack.exists_cons hcode
    have hcomment : startsComment (d :: cs) = false := by
      cases cs with
      | nil => simp [startsComment]
      | cons e cs =>
        rw [startsComment_cons_cons]
        simp_all
    exact ⟨rest, Closes.plain hframe (by simp_all [isPlain]) hcomment hrest⟩
  | case21 => cases h

end PageCompiler.Brace

namespace PageCompiler

open Brace
open Text (byteLength)

variable {cs : List Char} {c : Nat}

/-! ## Matching braces -/

theorem close?_brace {inner : List Char} (h : Derives .code inner) (pos : Nat) (after : List Char) :
    close? .code [.brace] pos (inner ++ '}' :: after) = some (pos + byteLength inner) := by
  have hlevel : Frame.level .brace = .code := rfl
  have happend := close?_append h hlevel [] pos after
  rwa [Level.closer, close?_lastBrace (by simp)] at happend

theorem close?_eq_some_iff {pos : Nat} :
    close? .code [.brace] pos cs = some c ↔
      ∃ inner after, cs = inner ++ '}' :: after ∧ pos + byteLength inner = c ∧ Derives .code inner := by
  constructor
  · intro h
    have hroot : Rooted [.brace] := rfl
    obtain ⟨_, inner, after, rfl, hinner, rfl⟩ := closesFrom_of_close? hroot h
    refine ⟨inner, after, rfl, ?_, hinner⟩
    exact Option.some.inj ((close?_brace hinner pos after).symm.trans h)
  · rintro ⟨inner, after, rfl, rfl, hinner⟩
    exact close?_brace hinner pos after

theorem closingBrace?_eq_some_iff {n : Nat} :
    closingBrace? cs = some n ↔
      ∃ inner after, cs = inner ++ '}' :: after ∧ byteLength inner = n ∧ Derives .code inner := by
  simp only [closingBrace?, close?_eq_some_iff, Nat.zero_add]

theorem matchingBrace?_append (before rest : List Char) :
    matchingBrace? (byteLength before) (before ++ '{' :: rest) =
      close? .code [.brace] (byteLength before + 1) rest := by
  rw [matchingBrace?, if_pos (Text.isBoundary_iff.mpr ⟨before, _, rfl, rfl⟩), Text.dropBytes_append]
  ext c
  show (closingBrace? rest).map _ = some c ↔ _
  rw [Option.map_eq_some_iff, close?_eq_some_iff]
  constructor
  · rintro ⟨n, hn, rfl⟩
    obtain ⟨inner, after, rfl, rfl, hinner⟩ := closingBrace?_eq_some_iff.mp hn
    exact ⟨inner, after, rfl, rfl, hinner⟩
  · rintro ⟨inner, after, rfl, rfl, hinner⟩
    exact ⟨_, closingBrace?_eq_some_iff.mpr ⟨inner, after, rfl, rfl, hinner⟩, rfl⟩

theorem matchingBrace?_eq_some_iff {src : List Char} {opening : Nat} :
    matchingBrace? opening src = some c ↔ Encloses src opening c := by
  constructor
  · intro h
    rw [matchingBrace?] at h
    split at h
    case isFalse => cases h
    case isTrue hboundary =>
      obtain ⟨before, tail, rfl, rfl⟩ := Text.isBoundary_iff.mp hboundary
      rw [Text.dropBytes_append] at h
      split at h
      · obtain ⟨n, hn, rfl⟩ := Option.map_eq_some_iff.mp h
        obtain ⟨inner, after, rfl, rfl, hinner⟩ := closingBrace?_eq_some_iff.mp hn
        exact ⟨before, inner, after, rfl, rfl, rfl, hinner⟩
      · cases h
  · rintro ⟨before, inner, after, rfl, rfl, rfl, hinner⟩
    rw [matchingBrace?_append, close?_eq_some_iff]
    exact ⟨inner, after, rfl, rfl, hinner⟩

/-- The brace that closes an open one is the one that the grammar of balanced code allows: it is found whenever there
is one, there is at most one, and nothing else is found. -/
theorem matchingBrace?_exact (src : List Char) (opening : Nat) :
    (∀ c, matchingBrace? opening src = some c ↔ Encloses src opening c) ∧
    (∀ c c', Encloses src opening c → Encloses src opening c' → c = c') ∧
    (matchingBrace? opening src = none ↔ ∀ c, ¬ Encloses src opening c) := by
  refine ⟨fun c => matchingBrace?_eq_some_iff, fun c c' h h' => ?_, ?_⟩
  · rw [← matchingBrace?_eq_some_iff] at h h'
    exact Option.some.inj (h.symm.trans h')
  · rw [Option.eq_none_iff_forall_ne_some]
    exact forall_congr' fun c => not_congr matchingBrace?_eq_some_iff

end PageCompiler
