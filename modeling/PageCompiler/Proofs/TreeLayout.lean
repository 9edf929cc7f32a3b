import PageCompiler.Proofs.FunctionScope
import PageCompiler.Proofs.ParserSteps

/-!
# Places of trees

Trees fit between two places of a code if the names and functions in them do, apart from each other, and markup in them
starts with an angle (`Fit`). Other trees can take their place if they fit wherever these do (`Keeps`): parts of them in
any order, a node around them, or what the grammar makes of an expression that turns out to be a target, a parameter or
an application.
-/

namespace PageCompiler.Code

/-! ## Items in places -/

namespace Item

theorem Apart.symm {i j : Item} (h : i.Apart j) : j.Apart i :=
  Or.symm h

theorem fitAll_iff {lo hi : Nat} {items : List Item} :
    FitAll lo hi items ↔ (∀ i ∈ items, i.Fits lo hi) ∧ items.Pairwise Apart := by
  induction items with
  | nil => simp [FitAll]
  | cons i items ih =>
    rw [FitAll, ih, List.forall_mem_cons, List.pairwise_cons]
    constructor
    · rintro ⟨hi, ⟨hall, hpairs⟩, hapart⟩
      exact ⟨⟨hi, hall⟩, hapart, hpairs⟩
    · rintro ⟨⟨hi, hall⟩, hapart, hpairs⟩
      exact ⟨hi, ⟨hall, hpairs⟩, hapart⟩

theorem Fits.mono {lo lo' hi hi' : Nat} {i : Item} (h : i.Fits lo hi) (hlo : lo' ≤ lo) (hhi : hi ≤ hi') :
    i.Fits lo' hi' := by
  cases i with
  | use name span => exact ⟨Nat.le_trans hlo h.1, Nat.lt_of_lt_of_le h.2 hhi⟩
  | decl name span => exact ⟨Nat.le_trans hlo h.1, Nat.lt_of_lt_of_le h.2 hhi⟩
  | frame span items => exact ⟨Nat.le_trans hlo h.1, Nat.le_trans h.2.1 hhi, h.2.2⟩

theorem FitAll.append {lo m m' hi : Nat} {is js : List Item} (his : FitAll lo m is) (hjs : FitAll m' hi js)
    (hm : m ≤ m') (hlo : lo ≤ m') (hhi : m ≤ hi) : FitAll lo hi (is ++ js) := by
  obtain ⟨hall, hpairs⟩ := fitAll_iff.mp his
  obtain ⟨hall', hpairs'⟩ := fitAll_iff.mp hjs
  refine fitAll_iff.mpr ⟨fun i hi' => ?_, List.pairwise_append.mpr ⟨hpairs, hpairs', fun i hi' j hj => ?_⟩⟩
  · rcases List.mem_append.mp hi' with hi' | hi'
    · exact (hall i hi').mono (Nat.le_refl _) hhi
    · exact (hall' i hi').mono hlo (Nat.le_refl _)
  · have hbefore := (hall i hi').extent
    have hafter := (hall' j hj).extent
    exact .inl (by omega)

end Item

namespace Tree

@[simp] theorem itemsOf_append (ts us : List Tree) : itemsOf (ts ++ us) = itemsOf ts ++ itemsOf us := by
  induction ts with
  | nil => rfl
  | cons t ts ih => simp [itemsOf, ih]

theorem itemsOf_perm {ts us : List Tree} (h : ts.Perm us) : (itemsOf ts).Perm (itemsOf us) := by
  induction h with
  | nil => exact .nil
  | cons t _ ih => exact ih.append_left _
  | swap t u ts =>
    simp only [itemsOf, ← List.append_assoc]
    exact List.perm_append_comm.append_right _
  | trans _ _ ih₁ ih₂ => exact ih₁.trans ih₂

mutual

def openings : Tree → List Nat
  | node (.element _) span parts => span.start :: openingsOf parts
  | node .fragment span parts => span.start :: openingsOf parts
  | node _ _ parts => openingsOf parts

def openingsOf : List Tree → List Nat
  | [] => []
  | t :: ts => openings t ++ openingsOf ts

end

theorem openingsOf_append (ts us : List Tree) : openingsOf (ts ++ us) = openingsOf ts ++ openingsOf us := by
  induction ts with
  | nil => rfl
  | cons t ts ih => simp [openingsOf, ih]

theorem mem_openingsOf {n : Nat} {ts : List Tree} : n ∈ openingsOf ts ↔ ∃ t ∈ ts, n ∈ t.openings := by
  induction ts with
  | nil => simp [openingsOf]
  | cons t ts ih => simp [openingsOf, ih]

/-- The code goes on with a text at the given place. -/
def At (code : List Char) (place : Nat) (text : List Char) : Prop :=
  ∃ before, code = before ++ text ∧ Text.byteLength before = place

/-- The items of the trees lie between two places, apart from each other, and markup in them starts with an angle. -/
structure Fit (code : List Char) (lo hi : Nat) (ts : List Tree) : Prop where
  items : Item.FitAll lo hi (itemsOf ts)
  openings : ∀ n ∈ openingsOf ts, ∃ text, At code n ('<' :: text)

section

variable {code : List Char} {lo lo' hi hi' : Nat} {ts us : List Tree}

theorem Fit.nil : Fit code lo hi [] :=
  ⟨trivial, List.forall_mem_nil _⟩

theorem Fit.mono (h : Fit code lo hi ts) (hlo : lo' ≤ lo) (hhi : hi ≤ hi') : Fit code lo' hi' ts := by
  obtain ⟨hall, hpairs⟩ := Item.fitAll_iff.mp h.items
  exact ⟨Item.fitAll_iff.mpr ⟨fun i hi => (hall i hi).mono hlo hhi, hpairs⟩, h.openings⟩

theorem Fit.perm (h : Fit code lo hi ts) (hperm : ts.Perm us) : Fit code lo hi us := by
  obtain ⟨hall, hpairs⟩ := Item.fitAll_iff.mp h.items
  have hitems := itemsOf_perm hperm
  refine ⟨Item.fitAll_iff.mpr ⟨fun i hi => hall i (hitems.mem_iff.mpr hi), (hitems.pairwise_iff .symm).mp hpairs⟩, ?_⟩
  intro n hn
  obtain ⟨t, ht, hn⟩ := mem_openingsOf.mp hn
  exact h.openings n (mem_openingsOf.mpr ⟨t, hperm.mem_iff.mpr ht, hn⟩)

theorem Fit.fitAll {t : Tree} (h : Fit code lo hi [t]) : Item.FitAll lo hi t.items := by
  simpa [itemsOf] using h.items

theorem Fit.append {m m' : Nat} (hts : Fit code lo m ts) (hus : Fit code m' hi us) (hm : m ≤ m') (hlo : lo ≤ m')
    (hhi : m ≤ hi) : Fit code lo hi (ts ++ us) := by
  constructor
  · rw [itemsOf_append]
    exact Item.FitAll.append hts.items hus.items hm hlo hhi
  · rw [openingsOf_append]
    exact List.forall_mem_append.mpr ⟨hts.openings, hus.openings⟩

end

/-! ## Trees in the place of others -/

/-- Where the first trees fit, beside whatever others, the second ones do. -/
def Keeps (ts us : List Tree) : Prop :=
  ∀ code lo hi rest, Fit code lo hi (ts ++ rest) → Fit code lo hi (us ++ rest)

/-- Names, functions and markup of the first trees are among those of the second ones. -/
structure Among (us ts : List Tree) : Prop where
  items : (itemsOf us).Sublist (itemsOf ts)
  openings : openingsOf us ⊆ openingsOf ts

namespace Among

variable {t u : Tree} {ts us vs : List Tree}

theorem of_eq (h : itemsOf us = itemsOf ts) (h' : openingsOf us = openingsOf ts) : Among us ts :=
  ⟨h ▸ .refl _, h' ▸ List.Subset.refl _⟩

theorem refl (ts : List Tree) : Among ts ts :=
  .of_eq rfl rfl

theorem trans (h : Among us ts) (h' : Among vs us) : Among vs ts :=
  ⟨h'.items.trans h.items, List.Subset.trans h'.openings h.openings⟩

theorem nil : Among [] ts :=
  ⟨List.nil_sublist _, List.nil_subset _⟩

theorem append {ts' us' : List Tree} (h : Among us ts) (h' : Among us' ts') : Among (us ++ us') (ts ++ ts') := by
  constructor
  · rw [itemsOf_append, itemsOf_append]
    exact h.items.append h'.items
  · rw [openingsOf_append, openingsOf_append]
    exact List.append_subset.mpr ⟨List.subset_append_of_subset_left _ h.openings,
      List.subset_append_of_subset_right _ h'.openings⟩

theorem cons (h : Among [u] [t]) (hs : Among us ts) : Among (u :: us) (t :: ts) :=
  h.append hs

theorem tail : Among ts (t :: ts) :=
  (nil : Among [] [t]).append (.refl ts)

end Among

namespace Keeps

variable {code : List Char} {lo hi : Nat} {ts ts' us us' vs : List Tree}

theorem refl (ts : List Tree) : Keeps ts ts :=
  fun _ _ _ _ hfit => hfit

theorem trans (h : Keeps ts us) (h' : Keeps us vs) : Keeps ts vs :=
  fun code lo hi rest hfit => h' code lo hi rest (h code lo hi rest hfit)

theorem fit (h : Keeps ts us) (hfit : Fit code lo hi ts) : Fit code lo hi us := by
  have hall := h code lo hi [] (by rwa [List.append_nil])
  rwa [List.append_nil] at hall

theorem of_perm (h : ts.Perm us) : Keeps ts us :=
  fun _ _ _ _ hfit => hfit.perm (h.append_right _)

theorem of_among (h : Among us ts) : Keeps ts us := by
  intro code lo hi rest hfit
  obtain ⟨hall, hpairs⟩ := Item.fitAll_iff.mp hfit.items
  have hwith := h.append (.refl rest)
  exact ⟨Item.fitAll_iff.mpr ⟨fun i hi => hall i (hwith.items.subset hi), hpairs.sublist hwith.items⟩,
    fun n hn => hfit.openings n (hwith.openings hn)⟩

theorem append (h : Keeps ts us) (h' : Keeps ts' us') : Keeps (ts ++ ts') (us ++ us') := by
  intro code lo hi rest hfit
  rw [List.append_assoc] at hfit ⊢
  have hfirst : Fit code lo hi (ts' ++ (rest ++ us)) := (h _ _ _ _ hfit).perm (by
    rw [← List.append_assoc ts']
    exact List.perm_append_comm)
  refine (h' _ _ _ _ hfirst).perm ?_
  rw [← List.append_assoc us']
  exact List.perm_append_comm

theorem left : Keeps (ts ++ us) ts := by
  have h := Among.append (.refl ts) (.nil : Among [] us)
  rw [List.append_nil] at h
  exact .of_among h

end Keeps

end Tree

/-! ## Nodes -/

abbrev NodeKind.Plain : NodeKind → Prop
  | name _ => False
  | binder _ => False
  | function _ => False
  | arrow _ => False
  | element _ => False
  | fragment => False
  | _ => True

abbrev NodeKind.Names : NodeKind → Prop
  | name _ => True
  | binder _ => True
  | _ => False

abbrev NodeKind.Marks : NodeKind → Prop
  | element _ => True
  | fragment => True
  | _ => False

namespace Tree

section

variable {code : List Char} {lo hi : Nat} {kind kind' : NodeKind} {span span' : Span} {parts parts' : List Tree}

theorem itemsOf_node (h : kind.Plain ∨ kind.Marks) : itemsOf [node kind span parts] = itemsOf parts := by
  rw [itemsOf, itemsOf, List.append_nil]
  cases kind <;> first | exact h.elim False.elim False.elim | rfl

theorem openingsOf_node (h : kind.Plain) : openingsOf [node kind span parts] = openingsOf parts := by
  rw [openingsOf, openingsOf, List.append_nil]
  cases kind <;> first | exact h.elim | rfl

theorem among_node (h : kind.Plain) : Among [node kind span parts] parts :=
  .of_eq (itemsOf_node (.inl h)) (openingsOf_node h)

theorem among_parts (h : kind.Plain) : Among parts [node kind span parts] :=
  .of_eq (itemsOf_node (.inl h)).symm (openingsOf_node h).symm

/-- Nodes around trees that are among others. -/
theorem Among.node (h : Among parts' parts) (hkind : kind.Plain) (hkind' : kind'.Plain) :
    Among [node kind' span' parts'] [node kind span parts] :=
  ((among_parts hkind).trans h).trans (among_node hkind')

theorem keeps_node (h : kind.Plain) : Keeps parts [node kind span parts] :=
  .of_among (among_node h)

theorem keeps_parts (h : kind.Plain) : Keeps [node kind span parts] parts :=
  .of_among (among_parts h)

/-- Markup around trees, whose start is the start of markup. -/
theorem keeps_markup {place : Nat} (h : kind.Marks) :
    Keeps (.node .fragment ⟨place, place⟩ [] :: parts) [node kind ⟨place, hi⟩ parts] := by
  refine .of_among ⟨?_, ?_⟩
  · rw [itemsOf_node (.inr h)]
    exact .refl _
  · cases kind <;> first | exact h.elim | simp [openingsOf, openings]

/-- An arrow function around trees from its start on. -/
theorem Fit.arrow {isExpression : Bool} (h : Fit code lo hi parts) :
    Fit code lo hi [.node (.arrow isExpression) ⟨lo, hi⟩ parts] where
  items := ⟨⟨Nat.le_refl _, Nat.le_refl _, h.items⟩, trivial, nofun⟩
  openings := by simpa [openingsOf, Tree.openings] using h.openings

theorem Fit.name (h : kind.Names) (hlo : lo ≤ span.start) (hhi : span.start < hi) :
    Fit code lo hi [.node kind span []] := by
  cases kind with
  | name text => exact ⟨⟨⟨hlo, hhi⟩, trivial, nofun⟩, nofun⟩
  | binder text => exact ⟨⟨⟨hlo, hhi⟩, trivial, nofun⟩, nofun⟩
  | _ => exact h.elim

end

/-! ## Targets -/

theorem simpleTarget?_among {t u : Tree} (h : t.simpleTarget? = some u) : Among [u] [t] := by
  fun_induction simpleTarget? t with
  | case4 span inner ih => exact (among_parts trivial).trans (ih h)
  | case6 => cases h
  | case7 => cases h
  | _ =>
    cases h
    exact .refl _

mutual

theorem target?_among : (t : Tree) → {u : Tree} → t.target? = some u → Among [u] [t]
  | node kind span parts, u, h => by
    unfold target? at h
    split at h
    next heq =>
      cases heq
      obtain ⟨us, hus, rfl⟩ := Option.map_eq_some_iff.mp h
      exact (elementTargets?_among parts hus).node trivial trivial
    next heq =>
      cases heq
      obtain ⟨us, hus, rfl⟩ := Option.map_eq_some_iff.mp h
      exact (memberTargets?_among parts hus).node trivial trivial
    next => exact simpleTarget?_among h

theorem elementTargets?_among : (ts : List Tree) → {us : List Tree} → elementTargets? ts = some us →
    Among us ts
  | [], us, h => by
    cases h
    exact .refl _
  | t :: ts, us, h => by
    unfold elementTargets? at h
    split at h
    next heq => cases heq
    next heq =>
      cases heq
      exact Among.tail.trans (elementTargets?_among ts h)
    next inner _ heq =>
      cases heq
      split at h
      next =>
        obtain ⟨u, hu, rfl⟩ := Option.map_eq_some_iff.mp h
        exact .cons ((Among.cons (target?_among inner hu) (.refl _)).node trivial trivial) .nil
      next => cases h
    next heq =>
      cases heq
      split at h
      next u us' hu hus =>
        cases h
        exact .cons (defaulted?_among t hu) (elementTargets?_among ts hus)
      next => cases h

theorem memberTargets?_among : (ts : List Tree) → {us : List Tree} → memberTargets? ts = some us →
    Among us ts
  | [], us, h => by
    cases h
    exact .refl _
  | t :: ts, us, h => by
    unfold memberTargets? at h
    split at h
    next heq => cases heq
    next inner _ heq =>
      cases heq
      split at h
      next =>
        obtain ⟨u, hu, rfl⟩ := Option.map_eq_some_iff.mp h
        exact .cons ((Among.cons (simpleTarget?_among hu) (.refl _)).node trivial trivial) .nil
      next => cases h
    next heq =>
      cases heq
      obtain ⟨us', hus, rfl⟩ := Option.map_eq_some_iff.mp h
      exact .cons (.node (.refl _) trivial trivial) (memberTargets?_among ts hus)
    next heq =>
      cases heq
      obtain ⟨us', hus, rfl⟩ := Option.map_eq_some_iff.mp h
      exact .cons (.node (.refl _) trivial trivial) (memberTargets?_among ts hus)
    next key value _ heq =>
      cases heq
      split at h
      next u us' hu hus =>
        cases h
        refine .cons (.node ?_ trivial trivial) (memberTargets?_among ts hus)
        exact .cons (.refl _) (.cons (defaulted?_among value hu) (.refl _))
      next => cases h
    next => cases h

theorem defaulted?_among : (t : Tree) → {u : Tree} → t.defaulted? = some u → Among [u] [t]
  | node kind span parts, u, h => by
    unfold defaulted? at h
    split at h
    next heq =>
      cases heq
      cases h
      exact (Among.refl _).node trivial trivial
    next heq =>
      cases heq
      obtain ⟨us, hus, rfl⟩ := Option.map_eq_some_iff.mp h
      exact (elementTargets?_among parts hus).node trivial trivial
    next heq =>
      cases heq
      obtain ⟨us, hus, rfl⟩ := Option.map_eq_some_iff.mp h
      exact (memberTargets?_among parts hus).node trivial trivial
    next => exact simpleTarget?_among h

end

/-! ## Other readings of an expression -/

theorem keeps_nameAsParams (t : Tree) : Keeps [t] [nameAsParams t] := by
  unfold nameAsParams
  split
  next text span parts =>
    exact fun _ _ _ _ hfit => ⟨hfit.items, fun n hn => hfit.openings n (List.mem_append_right _ hn)⟩
  next => exact .of_among ⟨List.nil_sublist _, List.nil_subset _⟩

theorem keeps_applied (t : Tree) : Keeps [t] (t.applied.1 :: t.applied.2) := by
  unfold applied
  split
  next => exact keeps_parts trivial
  next => exact .refl _

theorem among_markDirectives (ts : List Tree) : Among (markDirectives ts) ts := by
  fun_induction markDirectives ts with
  | case1 span value inner parts ts ih => exact .cons (.node (.refl _) trivial trivial) ih
  | case2 => exact .refl _

/-! ## Functions -/

theorem itemsOfFunction_append {ts us : List Tree} (stop : Nat) (h : ∀ t ∈ ts, t.kind ≠ .params) :
    itemsOfFunction stop (ts ++ us) = itemsOf ts ++ itemsOfFunction stop us := by
  induction ts with
  | nil => rfl
  | cons t ts ih =>
    obtain ⟨ht, hts⟩ := List.forall_mem_cons.mp h
    rw [List.cons_append, itemsOfFunction, if_neg (by simpa using ht), ih hts, itemsOf, List.append_assoc]

/-- The parts of a function that ends at `hi`: what is from its parameters on lies after what stands before them. -/
structure FunctionFits (code : List Char) (lo hi : Nat) (parts : List Tree) : Prop where
  exists_params : ∃ (m : Nat) (before : List Tree) (params : Tree) (after : List Tree),
    parts = before ++ params :: after ∧ (∀ t ∈ before, t.kind ≠ .params) ∧ params.kind = .params ∧
      Fit code lo m before ∧ Fit code params.span.start hi (params :: after) ∧ m ≤ params.span.start ∧ lo ≤ params.span.start ∧
      m ≤ hi

namespace FunctionFits

variable {code : List Char} {lo lo' m hi hi' start : Nat} {isDeclaration : Bool} {ts parts : List Tree}

theorem mono (h : FunctionFits code lo hi parts) (hhi : hi ≤ hi') : FunctionFits code lo hi' parts := by
  obtain ⟨m, before, params, after, hparts, hkinds, hkind, hbefore, hafter, hm, hlo, hmhi⟩ := h
  exact ⟨m, before, params, after, hparts, hkinds, hkind, hbefore, hafter.mono (Nat.le_refl _) hhi, hm, hlo,
    Nat.le_trans hmhi hhi⟩

theorem append (hts : Fit code lo m ts) (hkinds : ∀ t ∈ ts, t.kind ≠ .params) (h : FunctionFits code lo' hi parts) (hm : m ≤ lo')
    (hlo : lo ≤ lo') (hhi : m ≤ hi) : FunctionFits code lo hi (ts ++ parts) := by
  obtain ⟨m', before, params, after, rfl, hkinds', hkind, hbefore, hafter, hm', hlo', hhi'⟩ := h
  refine ⟨max m m', ts ++ before, params, after, by simp, ?_, hkind, ?_, hafter, ?_, ?_, Nat.max_le.mpr ⟨hhi, hhi'⟩⟩
  · intro t ht
    rcases List.mem_append.mp ht with ht | ht
    · exact hkinds t ht
    · exact hkinds' t ht
  · exact hts.append (hbefore.mono (Nat.le_refl _) (Nat.le_max_right _ _)) hm hlo (Nat.le_max_left _ _)
  · exact Nat.max_le.mpr ⟨Nat.le_trans hm hlo', hm'⟩
  · exact Nat.le_trans hlo hlo'

theorem fit (h : FunctionFits code lo hi parts) : Fit code lo hi [node (.function isDeclaration) ⟨start, hi⟩ parts] := by
  obtain ⟨m, before, params, after, rfl, hkinds, hkind, hbefore, hafter, hm, hlo, hhi⟩ := h
  have hitems : itemsOf [node (.function isDeclaration) ⟨start, hi⟩ (before ++ params :: after)] =
      itemsOf before ++ [.frame ⟨params.span.start, hi⟩ (itemsOf (params :: after))] := by
    rw [itemsOf, itemsOf, List.append_nil, items, itemsOfFunction_append _ hkinds, itemsOfFunction,
      if_pos (by simpa using hkind), itemsOf]
  constructor
  · rw [hitems]
    refine Item.FitAll.append hbefore.items ?_ hm hlo hhi
    exact ⟨⟨Nat.le_refl _, Nat.le_refl _, hafter.items⟩, trivial, List.forall_mem_nil _⟩
  · have hopenings := List.forall_mem_append.mpr ⟨hbefore.openings, hafter.openings⟩
    rw [← openingsOf_append] at hopenings
    simpa [openingsOf, openings] using hopenings

end FunctionFits

end Tree

end PageCompiler.Code
