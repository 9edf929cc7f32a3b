import PageCompiler.Proofs.TreeLayout

/-!
# Places of what a parser reads

A parser reads from left to right, so the trees that it makes lie in the text one after the other: each of them between
the first lexeme that it reads and the last one that it takes. `Lays p` says this of a parser, and `LaysFrom lo held p`
of the rest of one, which may put trees that are read already into its result: `held` are these trees, in chunks, and
they all lie from `lo` on. The rules for both are instances that follow the steps of a parser, so that for most parsers
they are found by unfolding the parser.
-/

namespace PageCompiler.Code

-- an instance for a parser is as large as the parser
set_option synthInstance.maxSize 1000000000000000

open Text (byteLength)
open Code.Tree (At Fit Keeps)

variable {α β γ δ : Type}

/-! ## Where a parser is -/

/-- A unit at the front of a text: a word takes some of it, and a mark starts as the text does. -/
structure Cut.IsFront (c : Cut) (cs : List Char) : Prop where
  word : c.lexeme.isWord = true → 0 < byteLength (cs.take c.count)
  mark : ∀ m, c.lexeme = .mark m → cs.head? = m.toList.head?

def Lexeme.isOther : Lexeme → Bool
  | word .. => false
  | mark _ => false
  | _ => true

theorem isOther_cutQuoted (quote : Char) (cs : List Char) : (cutQuoted quote cs).lexeme.isOther = true := by
  unfold cutQuoted
  split <;> rfl

theorem isOther_cutRawQuoted (quote : Char) (cs : List Char) : (cutRawQuoted quote cs).lexeme.isOther = true := by
  unfold cutRawQuoted
  dsimp only
  split <;> rfl

theorem isOther_cutTemplate (cs : List Char) : (cutTemplate cs).lexeme.isOther = true := by
  unfold cutTemplate
  split <;> rfl

theorem isOther_cutPattern (cs : List Char) : (cutPattern cs).lexeme.isOther = true := by
  unfold cutPattern
  split <;> rfl

section

variable {cs : List Char}

theorem Cut.IsFront.of_isOther {c : Cut} (h : c.lexeme.isOther = true) : c.IsFront cs := by
  obtain ⟨lexeme, count, sound⟩ := c
  cases lexeme with
  | word | mark => cases h
  | _ => exact ⟨nofun, nofun⟩

theorem Cut.IsFront.of_mark {m : String} {count : Nat} {sound : Bool} (h : cs.head? = m.toList.head?) :
    Cut.IsFront ⟨.mark m, count, sound⟩ cs :=
  ⟨nofun, fun _ hm => by cases hm; exact h⟩

theorem isFront_of_mark? {marks : List String} {m : String} (h : mark? marks cs = some m) (hmarks : "" ∉ marks) :
    Cut.IsFront ⟨.mark m, m.length, true⟩ cs := by
  unfold mark? at h
  have hfound := List.find?_some h
  obtain ⟨rest, rfl⟩ := List.isPrefixOf_iff_prefix.mp hfound
  have hne : m.toList ≠ [] := fun hnil => hmarks (String.toList_eq_nil_iff.mp hnil ▸ List.mem_of_find?_eq_some h)
  exact .of_mark (by rw [List.head?_append, List.head?_eq_some_head hne, Option.some_or])

theorem isFront_cut (cs : List Char) : (cut cs).IsFront cs := by
  fun_cases cut cs with
  | case2 | case3 => exact .of_isOther (isOther_cutQuoted _ _)
  | case4 => exact .of_isOther (isOther_cutTemplate _)
  | case8 | case9 => exact .of_mark rfl
  | case11 _ _ word _ _ _ _ _ _ _ hcount =>
    rw [if_pos hcount]
    exact .of_isOther rfl
  | case12 c rest word _ _ _ _ _ _ _ hcount =>
    rw [if_neg hcount]
    refine ⟨fun _ => Text.byteLength_pos fun hnil => ?_, nofun⟩
    rcases List.take_eq_nil_iff.mp hnil with h | h
    · exact hcount h
    · cases h
  | case13 _ _ _ _ _ _ _ _ _ m hmark =>
    rw [hmark]
    exact isFront_of_mark? hmark (by decide)
  | case14 _ _ _ _ _ _ _ _ _ hmark =>
    rw [hmark]
    exact .of_isOther rfl
  | _ => exact .of_isOther rfl

theorem isFront_cutChild (cs : List Char) : (cutChild cs).IsFront cs := by
  fun_cases cutChild cs with
  | case1 | case4 => exact .of_isOther rfl
  | case2 | case3 => exact .of_mark rfl

end

theorem Tree.At.drop {code cs : List Char} {place : Nat} (h : At code place cs) (count : Nat) :
    At code (place + byteLength (cs.take count)) (cs.drop count) := by
  obtain ⟨before, rfl, rfl⟩ := h
  exact ⟨before ++ cs.take count, by rw [List.append_assoc, List.take_append_drop], Text.byteLength_append _ _⟩

namespace State

/-- The current lexeme lies in the code after the last one that was taken, and is at the front of what is there. -/
structure Sound (code : List Char) (s : State) : Prop where
  last_le : s.last ≤ s.start
  start_le : s.start ≤ s.stop
  start_lt : s.lexeme.isWord = true → s.start < s.stop
  here : At code s.start s.here
  rest : At code s.stop s.rest
  mark : ∀ m, s.lexeme = .mark m → s.here.head? = m.toList.head?

/-- A parser can go on from the one state to the other. -/
structure Leads (code : List Char) (s s' : State) : Prop where
  sound : s'.Sound code
  start_le : s.start ≤ s'.start
  last_le : s.last ≤ s'.last

section

variable {code : List Char} {s s' s'' : State} {cutter : List Char → Cut}

theorem Sound.leads (h : s.Sound code) : s.Leads code s :=
  ⟨h, Nat.le_refl _, Nat.le_refl _⟩

theorem Leads.trans (h : s.Leads code s') (h' : s'.Leads code s'') : s.Leads code s'' :=
  ⟨h'.sound, Nat.le_trans h.start_le h'.start_le, Nat.le_trans h.last_le h'.last_le⟩

theorem Sound.spoil (h : s.Sound code) (n : Nat) : (s.spoil n).Sound code := { h with }

theorem Sound.withContext (h : s.Sound code) (c : Context) : (s.withContext c).Sound code := { h with }

theorem sound_retake {start : Nat} {here : List Char} (hcut : (cutter here).IsFront here) (hlast : s.last ≤ start)
    (hhere : At code start here) : (s.retake cutter start here).Sound code := by
  have hsound : Sound code { s with
      lexeme := (cutter here).lexeme
      start
      stop := start + byteLength (here.take (cutter here).count)
      here
      rest := here.drop (cutter here).count } :=
    ⟨hlast, Nat.le_add_right _ _, fun hword => Nat.lt_add_of_pos_right (hcut.word hword), hhere, hhere.drop _, hcut.mark⟩
  unfold retake
  dsimp only
  split
  · exact hsound
  · exact hsound.spoil _

@[simp] theorem retake_start (start : Nat) (here : List Char) : (s.retake cutter start here).start = start := by
  unfold retake
  dsimp only
  split <;> rfl

@[simp] theorem retake_last (start : Nat) (here : List Char) : (s.retake cutter start here).last = s.last := by
  unfold retake
  dsimp only
  split <;> rfl

theorem Sound.leads_recut (h : s.Sound code) (hcut : (cutter s.here).IsFront s.here) :
    s.Leads code (s.retake cutter s.start s.here) where
  sound := sound_retake hcut h.last_le h.here
  start_le := Nat.le_of_eq (retake_start _ _).symm
  last_le := Nat.le_of_eq (retake_last _ _).symm

/-- The next lexeme is there wherever the text after the current one is. -/
theorem sound_nextBy (hcutter : ∀ cs, (cutter cs).IsFront cs) (hrest : At code s.stop s.rest) :
    (s.nextBy cutter).Sound code := by
  unfold nextBy
  dsimp only
  split <;> exact sound_retake (hcutter _) (Nat.le_add_right _ _) (hrest.drop _)

theorem Sound.leads_nextBy (h : s.Sound code) (hcutter : ∀ cs, (cutter cs).IsFront cs) :
    s.Leads code (s.nextBy cutter) := by
  refine ⟨sound_nextBy hcutter h.rest, ?_, ?_⟩ <;> unfold nextBy <;> dsimp only
  · rw [retake_start]
    exact Nat.le_add_right_of_le h.start_le
  · rw [retake_last]
    split <;> exact Nat.le_trans h.last_le h.start_le

theorem Sound.leads_next (h : s.Sound code) : s.Leads code s.next :=
  h.leads_nextBy isFront_cut

theorem Sound.leads_nextChild (h : s.Sound code) : s.Leads code s.nextChild where
  sound := sound_retake (isFront_cutChild _) (Nat.le_refl _) h.rest
  start_le := by
    rw [nextChild, retake_start]
    exact h.start_le
  last_le := by
    rw [nextChild, retake_last]
    exact Nat.le_trans h.last_le h.start_le

end

end State

/-! ## Trees in results -/

/-- Results that hold trees. -/
class Treed (α : Type) where
  trees : α → List Tree

open Treed (trees)

/-- Results without trees. -/
class Bare (α : Type) [Treed α] : Prop where
  trees_eq : ∀ a : α, trees a = []

instance : Treed Tree := ⟨fun t => [t]⟩
instance [Treed α] : Treed (Option α) := ⟨fun a => (a.map trees).getD []⟩
instance [Treed α] : Treed (List α) := ⟨fun l => l.flatMap trees⟩
instance [Treed α] [Treed β] : Treed (α × β) := ⟨fun p => trees p.1 ++ trees p.2⟩
instance : Treed MemberKey := ⟨MemberKey.code⟩

instance : Treed Unit := ⟨fun _ => []⟩
instance : Treed Bool := ⟨fun _ => []⟩
instance : Treed Nat := ⟨fun _ => []⟩
instance : Treed String := ⟨fun _ => []⟩
instance : Treed Lexeme := ⟨fun _ => []⟩
instance : Treed Context := ⟨fun _ => []⟩
instance : Treed State := ⟨fun _ => []⟩
instance : Treed NodeKind := ⟨fun _ => []⟩
instance : Treed Likely := ⟨fun _ => []⟩
instance : Treed ImportMark := ⟨fun _ => []⟩

instance : Bare Unit := ⟨fun _ => rfl⟩
instance : Bare Bool := ⟨fun _ => rfl⟩
instance : Bare Nat := ⟨fun _ => rfl⟩
instance : Bare String := ⟨fun _ => rfl⟩
instance : Bare Lexeme := ⟨fun _ => rfl⟩
instance : Bare Context := ⟨fun _ => rfl⟩
instance : Bare State := ⟨fun _ => rfl⟩
instance : Bare NodeKind := ⟨fun _ => rfl⟩
instance : Bare Likely := ⟨fun _ => rfl⟩
instance : Bare ImportMark := ⟨fun _ => rfl⟩
instance [Treed α] [Bare α] : Bare (List α) := ⟨fun _ => List.flatMap_eq_nil_iff.mpr fun a _ => Bare.trees_eq a⟩

/-! ## Trees that are held -/

/-- Facts that are found by unfolding. -/
class Known (p : Prop) : Prop where
  out : p

instance : Known True := ⟨trivial⟩

/-- The trees are among those that are held, and the others are left. -/
class Pops (held : List (List Tree)) (chunk : List Tree) (rest : outParam (List (List Tree))) : Prop where
  keeps : Keeps held.flatten (chunk ++ rest.flatten)

/-- All of the trees are among those that are held, and the others are left. -/
class Gathers (held : List (List Tree)) (parts : List Tree) (rest : outParam (List (List Tree))) : Prop where
  keeps : Keeps held.flatten (parts ++ rest.flatten)

/-- The trees in a result. -/
class Holds [Treed α] (a : α) (parts : outParam (List Tree)) : Prop where
  trees_eq : trees a = parts

theorem trees_list (ts : List Tree) : trees ts = ts :=
  List.flatMap_singleton' ts

section

variable {held mid rest : List (List Tree)} {chunk parts others : List Tree}

variable {t : Tree}

theorem Pops.of_eq (h : chunk = parts) : Pops (chunk :: held) parts held :=
  ⟨h ▸ .refl _⟩

instance : Pops (trees t :: held) [t] held := .of_eq rfl
instance {ts : List Tree} : Pops (trees ts :: held) ts held := .of_eq (trees_list ts)
instance {key : MemberKey} : Pops (trees key :: held) key.code held := .of_eq rfl
instance {t : Option Tree} : Pops (trees t :: held) t.toList held := .of_eq (by cases t <;> rfl)

instance {ts : List (List Tree)} : Pops (trees ts :: held) ts.flatten held :=
  .of_eq (by rw [List.flatten_eq_flatMap]; exact congrArg (List.flatMap · ts) (funext trees_list))

instance {ts : List (Tree × Bool)} : Pops (trees ts :: held) (ts.map (·.1)) held :=
  .of_eq (by rw [List.map_eq_flatMap]; rfl)

instance {ts : List (String × List Tree)} : Pops (trees ts :: held) (ts.flatMap (·.2)) held :=
  .of_eq (congrArg (List.flatMap · ts) (funext fun p => trees_list p.2))

instance (priority := low) [h : Pops held chunk rest] : Pops (parts :: held) chunk (parts :: rest) where
  keeps := by
    rw [List.flatten_cons, List.flatten_cons]
    refine ((Keeps.refl parts).append h.keeps).trans (.of_perm ?_)
    exact List.perm_append_comm_assoc _ _ _

instance (priority := low) : Pops (chunk :: held) chunk held := .of_eq rfl

instance : Pops ((t :: parts) :: held) [t] (parts :: held) := ⟨.refl _⟩
instance : Pops ((t :: parts) :: held) parts ([t] :: held) := ⟨.of_perm List.perm_middle.symm⟩

instance {kind : NodeKind} {span : Span} [hkind : Known kind.Plain] [h : Gathers held parts rest] :
    Pops held [.node kind span parts] rest where
  keeps := h.keeps.trans ((Tree.keeps_node hkind.out).append (.refl _))

instance : Gathers held [] held := ⟨.refl _⟩

instance [hparts : Gathers held parts mid] [ht : Pops mid [t] rest] : Gathers held (t :: parts) rest where
  keeps := by
    refine (hparts.keeps.trans ((Keeps.refl parts).append ht.keeps)).trans (.of_perm ?_)
    exact List.perm_append_comm_assoc _ _ _

instance [hothers : Gathers held others mid] [hparts : Gathers mid parts rest] :
    Gathers held (parts ++ others) rest where
  keeps := by
    refine (hothers.keeps.trans ((Keeps.refl others).append hparts.keeps)).trans (.of_perm ?_)
    rw [List.append_assoc]
    exact List.perm_append_comm_assoc _ _ _

instance {c : Prop} [Decidable c] [hparts : Gathers held parts mid] [hothers : Gathers held others rest] :
    Gathers held (if c then parts else others) (if c then mid else rest) where
  keeps := by
    split
    · exact hparts.keeps
    · exact hothers.keeps

instance {c : Prop} [Decidable c] [hparts : Gathers held parts rest] [hothers : Gathers held others rest] :
    Gathers held (if c then parts else others) rest where
  keeps := by
    split
    · exact hparts.keeps
    · exact hothers.keeps

instance (priority := low) [h : Pops held parts rest] : Gathers held parts rest := ⟨h.keeps⟩

theorem Gathers.fit [h : Gathers held parts rest] {code : List Char} {lo hi : Nat} (hfit : Fit code lo hi held.flatten) :
    Fit code lo hi parts :=
  (h.keeps.trans .left).fit hfit

instance (priority := low) [Treed α] {a : α} : Holds a (trees a) := ⟨rfl⟩
instance (priority := low) [Treed α] [Bare α] {a : α} : Holds a [] := ⟨Bare.trees_eq a⟩
instance {name : Option String} {isPrivate : Bool} : Holds (MemberKey.mk name isPrivate parts) parts := ⟨rfl⟩
instance [Treed α] : Holds (none : Option α) [] := ⟨rfl⟩
instance [Treed α] {a : α} [h : Holds a parts] : Holds (some a) parts := ⟨h.trees_eq⟩
instance [Treed α] : Holds ([] : List α) [] := ⟨rfl⟩
instance [Treed α] {a : α} {l : List α} [ha : Holds a parts] [hl : Holds l others] : Holds (a :: l) (parts ++ others) :=
  ⟨by rw [← ha.trees_eq, ← hl.trees_eq]; rfl⟩
instance [Treed α] [Treed β] {a : α} {b : β} [ha : Holds a parts] [hb : Holds b others] :
    Holds (a, b) (parts ++ others) :=
  ⟨by rw [← ha.trees_eq, ← hb.trees_eq]; rfl⟩
instance : Holds t [t] := ⟨rfl⟩
instance {ts : List Tree} : Holds ts ts := ⟨trees_list ts⟩

end

/-! ## Rules -/

/-- What the parser reads lies between the first lexeme that it reads and the last one that it takes. -/
class Lays [Treed α] (p : Parser α) : Prop where
  spec : ∀ {code : List Char} {s s' : State} {a : α}, s.Sound code → Gives p s a s' →
    s.Leads code s' ∧ Fit code s.start s'.last (trees a)

/-- What the parser gives, with trees that are read already and lie from `lo` on, lies there too. -/
class LaysFrom [Treed α] (lo : Nat) (held : List (List Tree)) (p : Parser α) : Prop where
  spec : ∀ {code : List Char} {s s' : State} {a : α}, s.Sound code → lo ≤ s.start → Fit code lo s.last held.flatten →
    Gives p s a s' → s.Leads code s' ∧ Fit code lo s'.last (trees a)

section
variable {p item : Parser α} {a : α} {f : α → Parser β} {code : List Char} {s s' : State} {kind : NodeKind}
  {start fuel : Nat} {change : Context → Context} {word mark : String}

variable [Treed α] [Treed β] [Treed γ] {lo : Nat} {held rest : List (List Tree)} {parts : List Tree}

theorem Lays.of_from (h : ∀ lo, LaysFrom lo [] p) : Lays p where
  spec hs hgives := (h _).spec hs (Nat.le_refl _) .nil hgives

theorem Lays.steps {p : Parser δ} {f : δ → Parser α} [h : Lays (p >>= f)] : Lays (p >>= f) := h

theorem Lays.place_then {f : Nat → Parser α} (h : ∀ lo, LaysFrom lo [] (f lo)) : Lays (place >>= f) where
  spec hs hgives := by
    obtain ⟨n, s₁, hplace, hf⟩ := gives_bind.mp hgives
    obtain ⟨rfl, rfl⟩ := gives_place.mp hplace
    exact (h _).spec hs (Nat.le_refl _) .nil hf

theorem LaysFrom.of_lays (h : Lays p) : LaysFrom lo held p where
  spec hs hlo _ hgives := by
    obtain ⟨hleads, hfit⟩ := h.spec hs hgives
    exact ⟨hleads, hfit.mono hlo (Nat.le_refl _)⟩

theorem LaysFrom.of_keeps {held' : List (List Tree)} (hkeeps : Keeps held.flatten held'.flatten)
    (h : LaysFrom lo held' p) : LaysFrom lo held p where
  spec hs hlo hheld hgives := h.spec hs hlo (hkeeps.fit hheld) hgives

theorem LaysFrom.of_keeps_head {t : Tree} {ts : List Tree} (hkeeps : Keeps [t] ts) (h : LaysFrom lo (ts :: held) p) :
    LaysFrom lo (trees t :: held) p :=
  .of_keeps (hkeeps.append (.refl _)) h

/-- Of a pair only the first result holds trees. -/
theorem LaysFrom.of_fst [Bare β] {b : β} {p : Parser γ} (h : LaysFrom lo [trees a] p) :
    LaysFrom lo [trees (a, b)] p := by
  refine .of_keeps ?_ h
  rw [List.flatten_singleton, List.flatten_singleton]
  exact .left

theorem LaysFrom.of_gathers (hparts : Gathers held parts rest) (h : LaysFrom lo [parts] p) : LaysFrom lo held p :=
  .of_keeps (by
    rw [List.flatten_singleton]
    exact hparts.keeps.trans .left) h

theorem LaysFrom.bind_from (hp : LaysFrom lo held p) (hf : ∀ a, LaysFrom lo [trees a] (f a)) :
    LaysFrom lo held (p >>= f) where
  spec hs hlo hheld hgives := by
    obtain ⟨a, s₁, hpa, hfa⟩ := gives_bind.mp hgives
    obtain ⟨hleads, hfit⟩ := hp.spec hs hlo hheld hpa
    obtain ⟨hleads', hfit'⟩ := (hf a).spec hleads.sound (Nat.le_trans hlo hleads.start_le)
      (by rwa [List.flatten_singleton]) hfa
    exact ⟨hleads.trans hleads', hfit'⟩

theorem LaysFrom.bind_from_pair [Bare β] {p : Parser (α × β)} {f : α × β → Parser γ} (hp : LaysFrom lo held p)
    (hf : ∀ a b, LaysFrom lo [trees a] (f (a, b))) : LaysFrom lo held (p >>= f) := by
  refine .bind_from hp ?_
  rintro ⟨a, b⟩
  exact .of_fst (hf a b)

/-- What is read next lies after what is read already. -/
theorem Lays.push (hp : Lays p) {ts : List Tree} (hs : s.Sound code) (hlo : lo ≤ s.start) (hts : Fit code lo s.last ts)
    (hgives : Gives p s a s') : s.Leads code s' ∧ lo ≤ s'.start ∧ Fit code lo s'.last (ts ++ trees a) := by
  obtain ⟨hleads, hfit⟩ := hp.spec hs hgives
  exact ⟨hleads, Nat.le_trans hlo hleads.start_le, hts.append hfit hs.last_le hlo hleads.last_le⟩

theorem LaysFrom.bind_spec {P : α → Prop} (hp : Lays p) (hP : ∀ {s s' : State} {a : α}, Gives p s a s' → P a)
    (hf : ∀ a, P a → LaysFrom lo (trees a :: held) (f a)) :
    LaysFrom lo held (p >>= f) where
  spec hs hlo hheld hgives := by
    obtain ⟨a, s₁, hpa, hfa⟩ := gives_bind.mp hgives
    obtain ⟨hleads, hlo', hfit⟩ := hp.push hs hlo hheld hpa
    obtain ⟨hleads', hfit'⟩ := (hf a (hP hpa)).spec hleads.sound hlo' (hfit.perm List.perm_append_comm) hfa
    exact ⟨hleads.trans hleads', hfit'⟩

theorem LaysFrom.bind (hp : Lays p) (hf : ∀ a, LaysFrom lo (trees a :: held) (f a)) : LaysFrom lo held (p >>= f) :=
  .bind_spec hp (fun _ => trivial) fun a _ => hf a

theorem LaysFrom.bind_none [hp : Lays p] (hf : ∀ a, LaysFrom lo held (f a)) : LaysFrom lo held (p >>= f) :=
  .bind hp fun a => .of_keeps ((Keeps.of_perm List.perm_append_comm).trans .left) (hf a)

theorem LaysFrom.bind_pair {p : Parser (α × β)} {f : α × β → Parser γ} (hp : Lays p)
    (hf : ∀ a b, LaysFrom lo (trees b :: trees a :: held) (f (a, b))) : LaysFrom lo held (p >>= f) := by
  refine .bind hp ?_
  rintro ⟨a, b⟩
  refine .of_keeps ?_ (hf a b)
  simp only [List.flatten_cons, trees, ← List.append_assoc]
  exact .of_perm (List.perm_append_comm.append_right _)

theorem LaysFrom.bind_option {p : Parser (Option α)} {f : Option α → Parser β} (hp : Lays p)
    (hsome : ∀ a, LaysFrom lo (trees a :: held) (f (some a))) (hnone : LaysFrom lo held (f none)) :
    LaysFrom lo held (p >>= f) := by
  refine .bind hp fun a => ?_
  cases a with
  | none => exact .of_keeps (show Keeps ([] ++ held.flatten) held.flatten from .refl _) hnone
  | some a => exact hsome a

theorem LaysFrom.bind_list {p : Parser (List α)} {f : List α → Parser β} (hp : Lays p) (hnil : LaysFrom lo held (f []))
    (hcons : ∀ a l, LaysFrom lo (trees (a :: l) :: held) (f (a :: l))) : LaysFrom lo held (p >>= f) := by
  refine .bind hp fun l => ?_
  cases l with
  | nil => exact .of_keeps (show Keeps ([] ++ held.flatten) held.flatten from .refl _) hnil
  | cons a l => exact hcons a l

omit [Treed α] in
theorem LaysFrom.pure_bind (h : LaysFrom lo held (f a)) : LaysFrom lo held (pure a >>= f) := by
  rwa [LawfulMonad.pure_bind]

theorem LaysFrom.ite {c : Prop} [Decidable c] {q : Parser α} (hp : LaysFrom lo held p) (hq : LaysFrom lo held q) :
    LaysFrom lo held (if c then p else q) := by
  split
  · exact hp
  · exact hq

theorem LaysFrom.pure (ha : Holds a parts) (hparts : Gathers held parts rest) :
    LaysFrom lo held (pure a : Parser α) where
  spec hs _ hheld hgives := by
    obtain ⟨rfl, rfl⟩ := gives_pure.mp hgives
    rw [ha.trees_eq]
    exact ⟨hs.leads, hparts.fit hheld⟩

theorem LaysFrom.finish_bind {f : Tree → Parser α} (hkind : kind.Plain) (hparts : Gathers held parts rest)
    (hf : ∀ t, LaysFrom lo (trees t :: rest) (f t)) :
    LaysFrom lo held (finish kind start parts >>= f) where
  spec hs hlo hheld hgives := by
    obtain ⟨t, s₁, hfinish, hft⟩ := gives_bind.mp hgives
    obtain ⟨rfl, rfl⟩ := gives_finish.mp hfinish
    refine (hf _).spec hs hlo (Keeps.fit ?_ hheld) hft
    exact hparts.keeps.trans ((Tree.keeps_node hkind).append (.refl _))

theorem LaysFrom.finish (hkind : kind.Plain) (hparts : Gathers held parts rest) :
    LaysFrom lo held (finish kind start parts) where
  spec hs _ hheld hgives := by
    obtain ⟨rfl, rfl⟩ := gives_finish.mp hgives
    exact ⟨hs.leads, (Tree.keeps_node hkind).fit (hparts.fit hheld)⟩

theorem LaysFrom.within (h : LaysFrom lo held p) :
    LaysFrom lo held (within change p) where
  spec hs hlo hheld hgives := by
    obtain ⟨s₁, hp, rfl⟩ := gives_within.mp hgives
    obtain ⟨hleads, hfit⟩ := h.spec (hs.withContext (change _)) hlo hheld hp
    exact ⟨⟨hleads.sound.withContext _, hleads.start_le, hleads.last_le⟩, hfit⟩

theorem Lays.within (h : Lays p) : Lays (within change p) :=
  .of_from fun _ => .within (.of_lays h)

/-- A parser that reads nothing and gives no trees. -/
theorem Lays.of_same [Bare α] (h : ∀ {s s' : State} {a : α}, Gives p s a s' → s' = s) : Lays p where
  spec hs hgives := by
    obtain rfl := h hgives
    rw [Bare.trees_eq]
    exact ⟨hs.leads, .nil⟩

theorem Lays.of_leads [Bare α]
    (h : ∀ {code : List Char} {s s' : State} {a : α}, s.Sound code → Gives p s a s' → s.Leads code s') : Lays p where
  spec hs hgives := by
    rw [Bare.trees_eq]
    exact ⟨h hs hgives, .nil⟩

theorem Lays.lookahead [Bare α] : Lays (lookahead p) :=
  .of_same fun hgives => (gives_lookahead.mp hgives).1

theorem Lays.fail : Lays (fail : Parser α) where
  spec _ hgives := absurd hgives gives_fail

instance (priority := low) [h : ∀ lo, LaysFrom lo [] p] : Lays p := .of_from h
instance {f : Nat → Parser α} [h : ∀ lo, LaysFrom lo [] (f lo)] : Lays (place >>= f) := .place_then h
instance [h : Lays p] : Lays (within change p) := .within h

instance [h : Lays p] : Lays (attempt p) where
  spec := by
    intro code s s' a hs hgives
    unfold Code.attempt Gives at hgives
    dsimp only at hgives
    split at hgives
    next b s₁ hp =>
      cases hgives
      exact h.spec hs hp
    next =>
      cases hgives
      exact ⟨hs.leads, .nil⟩

instance [h : Lays p] : Lays (discard p) :=
  .of_leads fun hs hgives => by
    obtain ⟨a, hp, -⟩ := gives_map.mp hgives
    exact (h.spec hs hp).1

instance [Bare α] : Lays (lookahead p) := .lookahead
instance {test : Parser Bool} : Lays (nextIs test) := .lookahead
instance : Lays (fail : Parser α) := .fail

instance (priority := low) [h : Lays p] : LaysFrom lo held p := .of_lays h

instance {c : Prop} [Decidable c] {q : Parser α} [hp : LaysFrom lo held p] [hq : LaysFrom lo held q] :
    LaysFrom lo held (if c then p else q) :=
  .ite hp hq

instance [h : LaysFrom lo held p] : LaysFrom lo held (within change p) :=
  .within h

instance [ha : Holds a parts] [hparts : Gathers held parts rest] : LaysFrom lo held (pure a : Parser α) :=
  .pure ha hparts

instance [hkind : Known kind.Plain] [hparts : Gathers held parts rest] :
    LaysFrom lo held (finish kind start parts) :=
  .finish hkind.out hparts

instance {isExpression : Bool} [hparts : Gathers held parts rest] :
    LaysFrom lo held (finish (.arrow isExpression) lo parts) where
  spec hs _ hheld hgives := by
    obtain ⟨rfl, rfl⟩ := gives_finish.mp hgives
    exact ⟨hs.leads, (hparts.fit hheld).arrow⟩

instance {c : Prop} [Decidable c] {kind' : NodeKind} [h : LaysFrom lo held (finish kind start parts)]
    [h' : LaysFrom lo held (finish kind' start parts)] :
    LaysFrom lo held (finish (if c then kind else kind') start parts) := by
  split
  · exact h
  · exact h'

-- of the rules for a step before others, the later ones are tried first

instance (priority := low) {f : Tree → Parser α} [hf : ∀ t, LaysFrom lo held (f t)] :
    LaysFrom lo held (finish kind start parts >>= f) where
  spec hs hlo hheld hgives := by
    obtain ⟨t, s₁, hfinish, hft⟩ := gives_bind.mp hgives
    obtain ⟨rfl, rfl⟩ := gives_finish.mp hfinish
    exact (hf _).spec hs hlo hheld hft

instance (priority := low) [hp : LaysFrom lo held p]
    [hf : ∀ a, LaysFrom lo [trees a] (f a)] : LaysFrom lo held (p >>= f) :=
  .bind_from hp hf

instance [hp : Lays p] [hf : ∀ a, LaysFrom lo (trees a :: held) (f a)] :
    LaysFrom lo held (p >>= f) :=
  .bind hp hf

instance {p : Parser (α × β)} {f : α × β → Parser γ} [hp : Lays p]
    [hf : ∀ a b, LaysFrom lo (trees b :: trees a :: held) (f (a, b))] : LaysFrom lo held (p >>= f) :=
  .bind_pair hp hf

instance [Treed δ] {p : Parser (α × β × γ)} {f : α × β × γ → Parser δ} [hp : Lays p]
    [hf : ∀ a b c, LaysFrom lo (trees c :: trees b :: trees a :: held) (f (a, b, c))] :
    LaysFrom lo held (p >>= f) := by
  refine .bind_pair hp ?_
  rintro a ⟨b, c⟩
  refine .of_keeps ?_ (hf a b c)
  simp only [List.flatten_cons, trees, ← List.append_assoc]
  exact .of_perm ((List.perm_append_comm.append_right _).append_right _)

instance {p : Parser (Option α)} {f : Option α → Parser β} [hp : Lays p]
    [hsome : ∀ a, LaysFrom lo (trees a :: held) (f (some a))] [hnone : LaysFrom lo held (f none)] :
    LaysFrom lo held (p >>= f) :=
  .bind_option hp hsome hnone

instance [Bare α] [hp : Lays p] [hf : ∀ a, LaysFrom lo held (f a)] :
    LaysFrom lo held (p >>= f) :=
  .bind_none hf

instance {f : Tree → Parser α} [hkind : Known kind.Plain]
    [hparts : Gathers held parts rest] [hf : ∀ t, LaysFrom lo (trees t :: rest) (f t)] :
    LaysFrom lo held (finish kind start parts >>= f) :=
  .finish_bind hkind.out hparts hf

omit [Treed α] in
instance [h : LaysFrom lo held (f a)] : LaysFrom lo held (pure a >>= f) := .pure_bind h

omit [Treed α] in
instance : LaysFrom lo held (fail >>= f) where
  spec _ _ _ hgives := by
    obtain ⟨a, s₁, hfail, -⟩ := gives_bind.mp hgives
    exact absurd hfail gives_fail

/-! ## Taking lexemes -/

instance : Lays (get : Parser State) := .of_same fun h => (gives_get.mp h).2
instance : Lays current := .of_same fun h => (gives_current.mp h).2
instance : Lays place := .of_same fun h => (gives_place.mp h).2
instance : Lays onNewLine := .of_same fun h => (gives_onNewLine.mp h).2
instance : Lays context := .of_same fun h => (gives_context.mp h).2
instance : Lays (isAt mark) := .of_same fun h => (gives_isAt.mp h).2
instance {marks : List String} : Lays (isAtAny marks) := .of_same fun h => (gives_isAtAny.mp h).2
instance : Lays (isAtWord word) := .of_same fun h => (gives_isAtWord.mp h).2
instance : Lays isAtFinish := .of_same fun h => (gives_isAtFinish.mp h).2

theorem Lays.modify {f : State → State} (h : ∀ {code : List Char} {s : State}, s.Sound code → s.Leads code (f s)) :
    Lays (modify f : Parser Unit) :=
  .of_leads fun hs hgives => by
    rw [gives_modify.mp hgives]
    exact h hs

instance : Lays spoil := .modify fun hs => ⟨hs.spoil _, Nat.le_refl _, Nat.le_refl _⟩
instance : Lays advanceName := .modify fun hs => hs.leads_next
instance : Lays advanceChild := .modify fun hs => hs.leads_nextChild

theorem Lays.recut {cutter : List Char → Cut} (h : ∀ cs, (cutter cs).IsFront cs) : Lays (recut cutter) :=
  .modify fun hs => hs.leads_recut (h _)

instance : Lays advance := by
  have hnext : Lays (modify State.next : Parser Unit) := .modify fun hs => hs.leads_next
  unfold advance
  infer_instance

instance : Lays (eat mark) := .steps
instance : Lays (eatWord word) := .steps
instance : Lays (expect mark) := .steps
instance : Lays (expectWord word) := .steps
instance : Lays endStatement := .steps
instance [Known kind.Plain] : Lays (leaf kind) := .steps

theorem LaysFrom.current_then {f : Lexeme → Parser α} (h : ∀ l, LaysFrom lo held (f l)) :
    LaysFrom lo held (current >>= f) :=
  .bind_none h

theorem Lays.current_then {f : Lexeme → Parser α} (h : ∀ l, Lays (f l)) : Lays (current >>= f) :=
  .of_from fun _ => .current_then fun l => .of_lays (h l)

instance {words : List String} : Lays (isAtAnyWord words) := by
  refine .current_then fun l => ?_
  split <;> infer_instance

instance : Lays anyWord := by
  refine .current_then fun l => ?_
  split <;> infer_instance

instance : Lays identifier := by
  refine .current_then fun l => ?_
  split <;> infer_instance

instance : Lays wordNode := .steps

instance : Lays joinAngles := by
  refine .of_from fun _ => .bind_none fun _ => .ite (.of_lays (.recut fun cs => ?_)) inferInstance
  split
  next m hm => exact isFront_of_mark? hm (by decide)
  next => exact isFront_cut cs

instance : Lays splitAngles :=
  .of_leads fun {code s s' u} hs hgives => by
    obtain ⟨b, s₁, hisAt, h⟩ := gives_bind.mp hgives
    obtain ⟨rfl, rfl⟩ := gives_isAtAny.mp hisAt
    split at h
    next hmark =>
      rw [gives_modify.mp h]
      refine hs.leads_recut (.of_mark ?_)
      cases hl : s₁.lexeme with
      | mark m =>
        rw [hs.mark m hl]
        rw [hl] at hmark
        have hsplit : ∀ m ∈ ["<<", "<<=", "<="], m.toList.head? = "<".toList.head? := by decide
        exact hsplit m (List.contains_iff_mem.mp hmark)
      | _ =>
        rw [hl] at hmark
        cases hmark
    next =>
      obtain ⟨-, rfl⟩ := gives_pure.mp h
      exact hs.leads

/-! ## Markup -/

/-- Markup starts with the angle that is read first. The angle is held as a fragment without parts. -/
theorem Lays.opening_then {f : Nat → Parser α} (h : ∀ lo, LaysFrom lo [[.node .fragment ⟨lo, lo⟩ []]] (f lo)) :
    Lays (place >>= fun start => expect "<" >>= fun _ => f start) where
  spec hs hgives := by
    obtain ⟨n, s₁, hplace, hf⟩ := gives_bind.mp hgives
    obtain ⟨rfl, rfl⟩ := gives_place.mp hplace
    obtain ⟨u, s₂, hexpect, hf⟩ := gives_bind.mp hf
    obtain ⟨hl, rfl⟩ := gives_expect.mp hexpect
    have hhead : s₁.here.head? = some '<' := hs.mark _ hl
    obtain ⟨text, htext⟩ := List.head?_eq_some_iff.mp hhead
    have hleads := hs.leads_next
    obtain ⟨hleads', hfit⟩ := (h _).spec hleads.sound hleads.start_le
      ⟨trivial, List.forall_mem_singleton.mpr ⟨text, htext ▸ hs.here⟩⟩ hf
    exact ⟨hleads.trans hleads', hfit⟩

instance {mid : List (List Tree)} [hkind : Known kind.Marks]
    [hopening : Pops held [.node .fragment ⟨lo, lo⟩ []] mid] [hparts : Gathers mid parts rest] :
    LaysFrom lo held (finish kind lo parts) where
  spec hs _ hheld hgives := by
    obtain ⟨rfl, rfl⟩ := gives_finish.mp hgives
    have hkeeps := hopening.keeps.trans ((Keeps.refl _).append (hparts.keeps.trans .left))
    exact ⟨hs.leads, (Tree.keeps_markup hkind.out).fit (hkeeps.fit hheld)⟩

/-! ## Names -/

/-- A parser that takes a word. -/
class TakesWord (p : Parser α) : Prop where
  start_lt : ∀ {code : List Char} {s s' : State} {a : α}, s.Sound code → Gives p s a s' → s.start < s'.last

theorem start_lt_of_advanceName {u : Unit} (hs : s.Sound code) (hword : s.lexeme.isWord = true)
    (h : Gives advanceName s u s') : s.start < s'.last := by
  rw [gives_modify.mp h, State.next_last]
  exact hs.start_lt hword

instance : TakesWord anyWord where
  start_lt hs h := by
    obtain ⟨l, s₁, hcurrent, h⟩ := gives_bind.mp h
    obtain ⟨rfl, rfl⟩ := gives_current.mp hcurrent
    split at h
    next text escaped heq =>
      obtain ⟨u, s₂, hadvance, h⟩ := gives_bind.mp h
      obtain ⟨rfl, rfl⟩ := gives_pure.mp h
      exact start_lt_of_advanceName hs (by rw [heq]; rfl) hadvance
    next => exact absurd h gives_fail

theorem LaysFrom.current_or_word {f : Lexeme → Parser α} (hother : ∀ l, l.isWord = false → LaysFrom lo held (f l))
    (hword : ∀ text escaped, ∃ g, f (.word text escaped) = (advanceName >>= g) ∧
      LaysFrom lo held (anyWord >>= fun _ => g ())) : LaysFrom lo held (current >>= f) where
  spec {code s s' a} hs hlo hheld hgives := by
    obtain ⟨l, s₁, hcurrent, hf⟩ := gives_bind.mp hgives
    obtain ⟨rfl, rfl⟩ := gives_current.mp hcurrent
    cases hl : s₁.lexeme with
    | word text escaped =>
      obtain ⟨g, heq, hg⟩ := hword text escaped
      rw [hl, heq] at hf
      obtain ⟨u, s₂, hadvance, hf⟩ := gives_bind.mp hf
      have hany : Gives anyWord s₁ text s₂ := by
        refine gives_bind.mpr ⟨_, s₁, gives_current.mpr ⟨hl.symm, rfl⟩, ?_⟩
        exact gives_bind.mpr ⟨u, s₂, hadvance, gives_pure.mpr ⟨rfl, rfl⟩⟩
      exact hg.spec hs hlo hheld (gives_bind.mpr ⟨text, s₂, hany, hf⟩)
    | _ => exact (hother _ (by rw [hl]; rfl)).spec hs hlo hheld hf

instance : TakesWord identifier where
  start_lt hs h := by
    obtain ⟨l, s₁, hcurrent, h⟩ := gives_bind.mp h
    obtain ⟨rfl, rfl⟩ := gives_current.mp hcurrent
    split at h
    next text escaped heq =>
      have hword : s₁.lexeme.isWord = true := by rw [heq]; rfl
      simp only [gives_ite, gives_bind, gives_fail, gives_context, gives_pure, gives_spoil, advanceName,
        gives_modify] at h
      split at h
      · obtain ⟨c, s₂, ⟨-, rfl⟩, hnext⟩ := h
        split at hnext
        · obtain ⟨-, s₃, rfl, -, s₄, rfl, -, rfl⟩ := hnext
          rw [State.next_last]
          exact hs.start_lt hword
        · obtain ⟨-, s₃, rfl, -, rfl⟩ := hnext
          rw [State.next_last]
          exact hs.start_lt hword
      · obtain ⟨-, -, hfalse, -⟩ := h
        exact hfalse.elim
    next => exact absurd h gives_fail

theorem LaysFrom.name_bind {kind : α → NodeKind} {f : Tree → Parser β} (hp : TakesWord p) (hlays : Lays p)
    (hkind : ∀ a, (kind a).Names) (hf : ∀ t, LaysFrom lo [trees t] (f t)) :
    LaysFrom lo held (p >>= fun a => Code.finish (kind a) lo [] >>= f) where
  spec hs hlo _ hgives := by
    obtain ⟨a, s₁, hpa, h⟩ := gives_bind.mp hgives
    obtain ⟨t, s₂, hfinish, h⟩ := gives_bind.mp h
    obtain ⟨rfl, rfl⟩ := gives_finish.mp hfinish
    have hleads := (hlays.spec hs hpa).1
    have hlt := Nat.lt_of_le_of_lt hlo (hp.start_lt hs hpa)
    obtain ⟨hleads', hfit⟩ := (hf _).spec hleads.sound (Nat.le_trans hlo hleads.start_le)
      (.name (hkind a) (Nat.le_refl _) hlt) h
    exact ⟨hleads.trans hleads', hfit⟩

/-- A word as a name that starts where all that is held lies. -/
theorem LaysFrom.name {kind : α → NodeKind} (hp : TakesWord p) (hlays : Lays p) (hkind : ∀ a, (kind a).Names) :
    LaysFrom lo held (p >>= fun a => Code.finish (kind a) lo []) := by
  have h : LaysFrom lo held (p >>= fun a => Code.finish (kind a) lo [] >>= fun t => Pure.pure t) :=
    .name_bind hp hlays hkind inferInstance
  simpa only [bind_pure] using h

instance {kind : α → NodeKind} {f : Tree → Parser β} [hp : TakesWord p] [hlays : Lays p]
    [hkind : ∀ a, Known (kind a).Names] [hf : ∀ t, LaysFrom lo [trees t] (f t)] :
    LaysFrom lo held (p >>= fun a => finish (kind a) lo [] >>= f) :=
  .name_bind hp hlays (fun a => (hkind a).out) hf

instance : Lays reference := .place_then fun _ => .name inferInstance inferInstance fun _ => trivial
instance : Lays binder := .place_then fun _ => .name inferInstance inferInstance fun _ => trivial

/-! ## Loops -/

instance {p : Parser (Option α)} [h : Lays p] : Lays (manyOf fuel p) := by
  induction fuel with
  | zero => exact .fail
  | succ fuel ih => exact .of_from fun lo => .bind_option h (fun a => .bind ih fun l => inferInstance) inferInstance

theorem Lays.listUntil (h : Lays item) (fuel : Nat) (close : String) : Lays (listUntil fuel close item) := by
  induction fuel with
  | zero => exact .fail
  | succ fuel ih =>
    unfold Code.listUntil
    infer_instance

instance [h : Lays item] : Lays (separated fuel item) := by
  induction fuel with
  | zero => exact .fail
  | succ fuel ih =>
    unfold Code.separated
    infer_instance

instance {code : Parser Tree} [h : Lays code] : Lays (templateCodes fuel code) := by
  have hrecut : Lays (Code.recut fun cs => cutTemplate (cs.drop 1)) :=
    .recut fun _ => .of_isOther (isOther_cutTemplate _)
  induction fuel with
  | zero => exact .fail
  | succ fuel ih =>
    refine .of_from fun lo => .bind h fun t => .bind_none fun _ => ?_
    refine .ite ?_ (.bind_none fun _ => ?_)
    all_goals
      refine .bind_none fun _ => .current_then fun l => ?_
      split <;> infer_instance

instance {code : Parser Tree} [h : Lays code] : Lays (templateParts fuel code) := by
  refine .current_then fun l => ?_
  split <;> infer_instance

theorem LaysFrom.growing {p : α → Parser (Option α)} (h : ∀ a, LaysFrom lo [trees a] (p a)) (fuel : Nat) (a : α) :
    LaysFrom lo [trees a] (growing fuel a p) := by
  induction fuel generalizing a with
  | zero => exact .of_lays .fail
  | succ fuel ih =>
    constructor
    intro code s s' b hs hlo hheld hgives
    unfold Code.growing at hgives
    obtain ⟨next, s₁, hpa, hnext⟩ := gives_bind.mp hgives
    obtain ⟨hleads, hfit⟩ := (h a).spec hs hlo hheld hpa
    cases next with
    | none =>
      obtain ⟨rfl, rfl⟩ := gives_pure.mp hnext
      rw [List.flatten_singleton] at hheld
      exact ⟨hleads, hheld.mono (Nat.le_refl _) hleads.last_le⟩
    | some a' =>
      have hheld' : Fit code lo s₁.last [trees a'].flatten := by rwa [List.flatten_singleton]
      obtain ⟨hleads', hfit'⟩ := (ih a').spec hleads.sound (Nat.le_trans hlo hleads.start_le) hheld' hnext
      exact ⟨hleads.trans hleads', hfit'⟩

instance {close : String} [h : Lays p] : Lays (listUntil fuel close p) := .listUntil h _ _

theorem LaysFrom.growing_of_gathers {p : α → Parser (Option α)} (ha : Holds a parts)
    (hparts : Gathers held parts rest) (h : ∀ a, LaysFrom lo [trees a] (p a)) :
    LaysFrom lo held (Code.growing fuel a p) := by
  refine .of_keeps ?_ (.growing h fuel a)
  rw [List.flatten_singleton, ha.trees_eq]
  exact hparts.keeps.trans .left

instance {p : α → Parser (Option α)} [ha : Holds a parts] [hparts : Gathers held parts rest]
    [h : ∀ a, LaysFrom lo [trees a] (p a)] : LaysFrom lo held (growing fuel a p) :=
  .growing_of_gathers ha hparts h

/-! ## Targets -/

/-- A conversion of trees that adds no names, functions and markup. -/
class Converts (convert : Tree → Option Tree) : Prop where
  among : ∀ {t u : Tree}, convert t = some u → Tree.Among [u] [t]

instance : Converts Tree.simpleTarget? := ⟨Tree.simpleTarget?_among⟩
instance : Converts Tree.target? := ⟨Tree.target?_among _⟩

instance {c : Prop} [Decidable c] {f g : Tree → Option Tree} [hf : Converts f] [hg : Converts g] :
    Converts (if c then f else g) where
  among h := by
    split at h
    · exact hf.among h
    · exact hg.among h

instance {convert : Tree → Option Tree} {t : Tree} {f : Tree → Parser α} [hconvert : Converts convert]
    [ht : Pops held [t] rest] [hf : ∀ u, LaysFrom lo (trees u :: rest) (f u)] :
    LaysFrom lo held (asTarget convert t >>= f) where
  spec hs hlo hheld hgives := by
    obtain ⟨u, s₁, htarget, hfu⟩ := gives_bind.mp hgives
    unfold asTarget at htarget
    split at htarget
    next u' hu =>
      obtain ⟨rfl, rfl⟩ := gives_pure.mp htarget
      have hkeeps := ht.keeps.trans ((Keeps.of_among (hconvert.among hu)).append (.refl _))
      exact (hf u).spec hs hlo (hkeeps.fit hheld) hfu
    next => cases htarget

/-! ## What a parser gives -/

/-- All results of the parser have the property. -/
class Ensures (P : α → Prop) (p : Parser α) : Prop where
  spec : ∀ {s s' : State} {a : α}, Gives p s a s' → P a

section

omit [Treed α] [Treed β]

variable {P : β → Prop}

theorem Ensures.pure {b : β} (h : P b) : Ensures P (pure b) where
  spec hgives := by
    obtain ⟨rfl, -⟩ := gives_pure.mp hgives
    exact h

theorem Ensures.bind (h : ∀ a, Ensures P (f a)) : Ensures P (p >>= f) where
  spec hgives := by
    obtain ⟨a, s₁, -, hf⟩ := gives_bind.mp hgives
    exact (h a).spec hf

theorem Ensures.ite {c : Prop} [Decidable c] {p q : Parser β} (hp : Ensures P p) (hq : Ensures P q) :
    Ensures P (if c then p else q) := by
  split
  · exact hp
  · exact hq

theorem Ensures.finish_bind {f : Tree → Parser β}
    (h : ∀ stop, Ensures P (f (.node kind ⟨start, stop⟩ parts))) : Ensures P (finish kind start parts >>= f) where
  spec hgives := by
    obtain ⟨t, s₁, hfinish, hf⟩ := gives_bind.mp hgives
    obtain ⟨rfl, -⟩ := gives_finish.mp hfinish
    exact (h _).spec hf

theorem Ensures.finish {P : Tree → Prop}
    (h : ∀ stop, P (.node kind ⟨start, stop⟩ parts)) : Ensures P (finish kind start parts) where
  spec hgives := by
    obtain ⟨rfl, -⟩ := gives_finish.mp hgives
    exact h _

theorem Ensures.within {p : Parser β} (h : Ensures P p) : Ensures P (within change p) where
  spec hgives := by
    obtain ⟨s₁, hp, -⟩ := gives_within.mp hgives
    exact h.spec hp

instance {b : β} [h : Known (P b)] : Ensures P (pure b) := .pure h.out

instance [h : ∀ a, Ensures P (f a)] : Ensures P (p >>= f) := .bind h

omit [Treed γ] in
instance {p : Parser (α × γ)} {f : α × γ → Parser β} [h : ∀ a c, Ensures P (f (a, c))] : Ensures P (p >>= f) := by
  refine .bind ?_
  rintro ⟨a, c⟩
  exact h a c

instance {c : Prop} [Decidable c] {p q : Parser β} [hp : Ensures P p] [hq : Ensures P q] :
    Ensures P (if c then p else q) :=
  .ite hp hq

end

/-! ## Functions -/

omit [Treed α] in
theorem of_mem_listUntil {P : α → Prop} (h : ∀ {s s' : State} {a : α}, Gives item s a s' → P a)
    {close : String} {r : List α × Bool} (hgives : Gives (listUntil fuel close item) s r s') : ∀ a ∈ r.1, P a := by
  induction fuel generalizing s s' r with
  | zero => exact absurd hgives gives_fail
  | succ fuel ih =>
    simp only [listUntil, gives_bind, gives_isAt, gives_ite, gives_pure, gives_expect] at hgives
    obtain ⟨b, s₁, ⟨-, rfl⟩, hgives⟩ := hgives
    split at hgives
    · obtain ⟨rfl, -⟩ := hgives
      exact List.forall_mem_nil _
    · obtain ⟨a, s₂, hitem, b, s₃, ⟨-, rfl⟩, hgives⟩ := hgives
      split at hgives
      · obtain ⟨rfl, -⟩ := hgives
        intro a' ha'
        rw [List.mem_singleton.mp ha']
        exact h hitem
      · obtain ⟨-, s₄, -, ⟨l, trailing⟩, s₅, hlist, hgives⟩ := hgives
        obtain ⟨rfl, -⟩ := hgives
        exact List.forall_mem_cons.mpr ⟨h hitem, ih hlist⟩

/-- The rest of a parser that makes a function of parts that are read already. -/
class LaysFunction (lo : Nat) (parts : List Tree) (p : Parser Tree) : Prop where
  spec : ∀ {code : List Char} {s s' : State} {t : Tree}, s.Sound code → Tree.FunctionFits code lo s.last parts → Gives p s t s' →
    s.Leads code s' ∧ Fit code lo s'.last [t]

instance {isDeclaration : Bool} :
    LaysFunction lo parts (finish (.function isDeclaration) start parts) where
  spec hs hfits hgives := by
    obtain ⟨rfl, rfl⟩ := gives_finish.mp hgives
    exact ⟨hs.leads, hfits.fit⟩

instance {f : α → Parser Tree} [hp : Lays p] [hf : ∀ a, LaysFunction lo parts (f a)] :
    LaysFunction lo parts (p >>= f) where
  spec hs hfits hgives := by
    obtain ⟨a, s₁, hpa, hfa⟩ := gives_bind.mp hgives
    obtain ⟨hleads, -⟩ := hp.spec hs hpa
    obtain ⟨hleads', hfit⟩ := (hf a).spec hleads.sound (hfits.mono hleads.last_le) hfa
    exact ⟨hleads.trans hleads', hfit⟩

instance {c : Prop} [Decidable c] {p q : Parser Tree} [hp : LaysFunction lo parts p] [hq : LaysFunction lo parts q] :
    LaysFunction lo parts (if c then p else q) := by
  split
  · exact hp
  · exact hq

end

end PageCompiler.Code
