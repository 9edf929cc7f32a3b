import PageCompiler.Proofs.Scoping

/-!
# Scope by functions

The references of a code are found by functions alone: what a function declares anywhere in its own code, in whatever
block or loop, hides the name in the whole function, and what no function declares hides nothing. `Item` keeps what
matters of a tree for this, `Item.uses` says what the functions around a use declare, and `Survey.Finds.isHidden_iff`
says that comparing spans comes to the same, if the functions of the tree are nested in the text as they are in the tree
(`FitAll`).
-/

namespace PageCompiler.Code

/-- A use of a name, a declaration of one, or a function with what is in it. -/
inductive Item where
  | use (name : String) (span : Span)
  | decl (name : String) (span : Span)
  | frame (span : Span) (items : List Item)

namespace Item

variable {d : String × Span} {g : Span} {locals : List (String × Span)} {u : Use}

/-- An item is a name, or a function around items of which the property is known. -/
@[elab_as_elim]
theorem induction {P : Item → Prop} (use : ∀ name span, P (.use name span)) (decl : ∀ name span, P (.decl name span))
    (frame : ∀ span items, (∀ i ∈ items, P i) → P (.frame span items)) (i : Item) : P i :=
  Item.rec use decl frame (List.forall_mem_nil _) (fun _ _ hi his => List.forall_mem_cons.mpr ⟨hi, his⟩) i

variable {i : Item} {n lo hi : Nat} {items : List Item}

/-! ## Uses and what functions around them declare -/

def declared? : Item → Option (String × Span)
  | decl name span => some (name, span)
  | _ => none

mutual

/-- The uses in an item, `locals` being what the functions around it declare. -/
def uses (locals : List (String × Span)) : Item → List Use
  | use name span => [⟨name, span, locals⟩]
  | decl _ _ => []
  | frame _ items => usesOf (items.filterMap declared? ++ locals) items

def usesOf (locals : List (String × Span)) : List Item → List Use
  | [] => []
  | i :: is => i.uses locals ++ usesOf locals is

end

mutual

def decls : Item → List (String × Span)
  | use _ _ => []
  | decl name span => [(name, span)]
  | frame _ items => declsOf items

def declsOf : List Item → List (String × Span)
  | [] => []
  | i :: is => i.decls ++ declsOf is

end

mutual

def frames : Item → List Span
  | use _ _ => []
  | decl _ _ => []
  | frame span items => span :: framesOf items

def framesOf : List Item → List Span
  | [] => []
  | i :: is => i.frames ++ framesOf is

end

/-! ## Items in their places -/

/-- What an item takes of the text: of a name, the place where it starts. -/
def extent : Item → Span
  | use _ span => ⟨span.start, span.start + 1⟩
  | decl _ span => ⟨span.start, span.start + 1⟩
  | frame span _ => span

/-- Whether two stretches of the text have nothing in common. -/
def Apart (i j : Item) : Prop :=
  i.extent.stop ≤ j.extent.start ∨ j.extent.stop ≤ i.extent.start

mutual

/-- The item stands between two places of the text, and what is in it stands within it, apart from each other. -/
def Fits (lo hi : Nat) : Item → Prop
  | use _ span => lo ≤ span.start ∧ span.start < hi
  | decl _ span => lo ≤ span.start ∧ span.start < hi
  | frame span items => lo ≤ span.start ∧ span.stop ≤ hi ∧ FitAll span.start span.stop items

/-- The items stand between two places of the text, apart from each other. -/
def FitAll (lo hi : Nat) : List Item → Prop
  | [] => True
  | i :: is => i.Fits lo hi ∧ FitAll lo hi is ∧ ∀ j ∈ is, i.Apart j

end

def Covers (i : Item) (n : Nat) : Prop :=
  i.extent.start ≤ n ∧ n < i.extent.stop

theorem Apart.not_covers {j : Item} (h : i.Apart j) (hi : i.Covers n) : ¬ j.Covers n := by
  intro hj
  unfold Covers at hi hj
  unfold Apart at h
  omega

theorem Fits.extent (h : i.Fits lo hi) : lo ≤ i.extent.start ∧ i.extent.stop ≤ hi := by
  cases i with
  | use name span => exact ⟨h.1, h.2⟩
  | decl name span => exact ⟨h.1, h.2⟩
  | frame span items => exact ⟨h.1, h.2.1⟩

theorem Fits.of_covers (h : i.Fits lo hi) (hn : i.Covers n) : lo ≤ n ∧ n < hi := by
  have hextent := h.extent
  unfold Covers at hn
  omega

theorem FitAll.fits (h : FitAll lo hi items) (hi' : i ∈ items) : i.Fits lo hi := by
  induction items with
  | nil => cases hi'
  | cons j items ih =>
    rcases List.mem_cons.mp hi' with rfl | hi'
    · exact h.1
    · exact ih h.2.1 hi'

theorem mem_declsOf : d ∈ declsOf items ↔ ∃ i ∈ items, d ∈ i.decls := by
  induction items with
  | nil => simp [declsOf]
  | cons i items ih => simp [declsOf, ih]

theorem mem_framesOf : g ∈ framesOf items ↔ ∃ i ∈ items, g ∈ i.frames := by
  induction items with
  | nil => simp [framesOf]
  | cons i items ih => simp [framesOf, ih]

theorem mem_usesOf : u ∈ usesOf locals items ↔ ∃ i ∈ items, u ∈ i.uses locals := by
  induction items with
  | nil => simp [usesOf]
  | cons i items ih => simp [usesOf, ih]

theorem covers_of_mem_decls (h : i.Fits lo hi) (hd : d ∈ i.decls) : i.Covers d.2.start := by
  induction i using induction generalizing lo hi with
  | use name span => cases hd
  | decl name span =>
    rw [List.mem_singleton.mp hd]
    exact ⟨Nat.le_refl _, Nat.lt_succ_self _⟩
  | frame span items ih =>
    obtain ⟨i, hi, hd⟩ := mem_declsOf.mp hd
    exact (h.2.2.fits hi).of_covers (ih i hi (h.2.2.fits hi) hd)

theorem covers_of_mem_uses (h : i.Fits lo hi) (hu : u ∈ i.uses locals) : i.Covers u.span.start := by
  induction i using induction generalizing lo hi locals with
  | use name span =>
    rw [List.mem_singleton.mp hu]
    exact ⟨Nat.le_refl _, Nat.lt_succ_self _⟩
  | decl name span => cases hu
  | frame span items ih =>
    obtain ⟨i, hi, hu⟩ := mem_usesOf.mp hu
    exact (h.2.2.fits hi).of_covers (ih i hi (h.2.2.fits hi) hu)

theorem contains_iff {s : Span} : s.contains n = true ↔ s.start ≤ n ∧ n < s.stop := by
  simp [Span.contains]

theorem within_of_mem_frames (h : i.Fits lo hi) (hg : g ∈ i.frames) :
    i.extent.start ≤ g.start ∧ g.stop ≤ i.extent.stop := by
  induction i using induction generalizing lo hi with
  | use name span => cases hg
  | decl name span => cases hg
  | frame span items ih =>
    rcases List.mem_cons.mp hg with rfl | hg
    · exact ⟨Nat.le_refl _, Nat.le_refl _⟩
    · obtain ⟨i, hi, hg⟩ := mem_framesOf.mp hg
      have hextent := (h.2.2.fits hi).extent
      have hwithin := ih i hi (h.2.2.fits hi) hg
      exact ⟨Nat.le_trans hextent.1 hwithin.1, Nat.le_trans hwithin.2 hextent.2⟩

theorem covers_of_mem_frames (hn : g.contains n = true) (h : i.Fits lo hi) (hg : g ∈ i.frames) : i.Covers n := by
  have hwithin := within_of_mem_frames h hg
  have hcontains := contains_iff.mp hn
  unfold Covers
  omega

/-! ## Declarations that hide names -/

/-- Some declaration of the name is in a function, and the functions around the declaration are around the byte too. -/
def Hides (items : List Item) (name : String) (n : Nat) : Prop :=
  ∃ d ∈ declsOf items, d.1 = name ∧ (∃ g ∈ framesOf items, g.contains d.2.start = true) ∧
    ∀ g ∈ framesOf items, g.contains d.2.start = true → g.contains n = true

section
variable {d : String × Span} {n : Nat} {name : String}

variable {lo hi : Nat} {i : Item} {items : List Item}

theorem FitAll.not_covers_of_mem_declsOf (h : FitAll lo hi (i :: items)) (hd : d ∈ declsOf items) :
    ¬ i.Covers d.2.start := by
  obtain ⟨j, hj, hd⟩ := mem_declsOf.mp hd
  intro hcovers
  exact (h.2.2 j hj).not_covers hcovers (covers_of_mem_decls (h.2.1.fits hj) hd)

theorem FitAll.not_covers_of_mem_usesOf (h : FitAll lo hi (i :: items)) {locals : List (String × Span)} {u : Use}
    (hu : u ∈ usesOf locals items) : ¬ i.Covers u.span.start := by
  obtain ⟨j, hj, hu⟩ := mem_usesOf.mp hu
  intro hcovers
  exact (h.2.2 j hj).not_covers hcovers (covers_of_mem_uses (h.2.1.fits hj) hu)

theorem FitAll.not_covers_of_mem_framesOf (h : FitAll lo hi (i :: items)) {g : Span} (hg : g ∈ framesOf items)
    (hn : g.contains n = true) : ¬ i.Covers n := by
  obtain ⟨j, hj, hg⟩ := mem_framesOf.mp hg
  intro hcovers
  exact (h.2.2 j hj).not_covers hcovers (covers_of_mem_frames hn (h.2.1.fits hj) hg)

/-- For a byte of the first item, the others hide nothing. -/
theorem hides_cons_of_covers (h : FitAll lo hi (i :: items)) (hn : i.Covers n) :
    Hides (i :: items) name n ↔ Hides [i] name n := by
  have hframes : framesOf [i] = i.frames := List.append_nil _
  have hdecls : declsOf [i] = i.decls := List.append_nil _
  unfold Hides
  rw [hframes, hdecls]
  constructor
  · rintro ⟨d, hd, hname, ⟨g, hg, hin⟩, hall⟩
    have hgn : g.contains n = true := hall g hg hin
    rcases List.mem_append.mp hg with hg | hg
    · have hcovers := covers_of_mem_frames hin h.1 hg
      rcases List.mem_append.mp hd with hd | hd
      · exact ⟨d, hd, hname, ⟨g, hg, hin⟩, fun g hg => hall g (List.mem_append_left _ hg)⟩
      · exact absurd hcovers (h.not_covers_of_mem_declsOf hd)
    · exact absurd hn (h.not_covers_of_mem_framesOf hg hgn)
  · rintro ⟨d, hd, hname, ⟨g, hg, hin⟩, hall⟩
    refine ⟨d, List.mem_append_left _ hd, hname, ⟨g, List.mem_append_left _ hg, hin⟩, fun f hf hfd => ?_⟩
    rcases List.mem_append.mp hf with hf | hf
    · exact hall f hf hfd
    · exact absurd (covers_of_mem_decls h.1 hd) (h.not_covers_of_mem_framesOf hf hfd)

/-- For a byte outside of the first item, it hides nothing. -/
theorem hides_cons_of_not_covers (h : FitAll lo hi (i :: items)) (hn : ¬ i.Covers n) :
    Hides (i :: items) name n ↔ Hides items name n := by
  unfold Hides
  constructor
  · rintro ⟨d, hd, hname, ⟨g, hg, hin⟩, hall⟩
    have hgn : g.contains n = true := hall g hg hin
    rcases List.mem_append.mp hg with hg | hg
    · exact absurd (covers_of_mem_frames hgn h.1 hg) hn
    · rcases List.mem_append.mp hd with hd | hd
      · exact absurd (covers_of_mem_decls h.1 hd) (h.not_covers_of_mem_framesOf hg hin)
      · exact ⟨d, hd, hname, ⟨g, hg, hin⟩, fun g hg => hall g (List.mem_append_right _ hg)⟩
  · rintro ⟨d, hd, hname, ⟨g, hg, hin⟩, hall⟩
    refine ⟨d, List.mem_append_right _ hd, hname, ⟨g, List.mem_append_right _ hg, hin⟩, fun f hf hfd => ?_⟩
    rcases List.mem_append.mp hf with hf | hf
    · exact absurd (covers_of_mem_frames hfd h.1 hf) (h.not_covers_of_mem_declsOf hd)
    · exact hall f hf hfd

theorem FitAll.declared_or_in_frame (h : FitAll lo hi items) (hd : d ∈ declsOf items) :
    d ∈ items.filterMap declared? ∨ ∃ g ∈ framesOf items, g.contains d.2.start = true := by
  obtain ⟨i, hi, hd⟩ := mem_declsOf.mp hd
  have hfits := h.fits hi
  cases i with
  | use name span => cases hd
  | decl name span =>
    rw [List.mem_singleton.mp hd]
    exact .inl (List.mem_filterMap.mpr ⟨_, hi, rfl⟩)
  | frame span inner =>
    refine .inr ⟨span, mem_framesOf.mpr ⟨_, hi, List.mem_cons_self⟩, ?_⟩
    exact contains_iff.mpr (covers_of_mem_decls hfits hd)

theorem FitAll.not_in_frame (h : FitAll lo hi items) (hd : d ∈ items.filterMap declared?) :
    ∀ g ∈ framesOf items, g.contains d.2.start = false := by
  induction items with
  | nil => cases hd
  | cons i items ih =>
    intro g hg
    rw [← Bool.not_eq_true]
    intro hin
    obtain ⟨j, hj, hdecl⟩ := List.mem_filterMap.mp hd
    have hdj : j = .decl d.1 d.2 := by
      cases j with
      | decl name span => cases hdecl; rfl
      | use name span => cases hdecl
      | frame span inner => cases hdecl
    subst hdj
    rcases List.mem_cons.mp hj with rfl | hj
    · have hcovers : Covers (.decl d.1 d.2) d.2.start := ⟨Nat.le_refl _, Nat.lt_succ_self _⟩
      exact h.not_covers_of_mem_framesOf (g := g) (by simpa [framesOf, frames] using hg) hin hcovers
    · have hdrest : d ∈ items.filterMap declared? := List.mem_filterMap.mpr ⟨_, hj, rfl⟩
      rcases List.mem_append.mp hg with hg | hg
      · refine h.not_covers_of_mem_declsOf (d := d) ?_ (covers_of_mem_frames hin h.1 hg)
        exact mem_declsOf.mpr ⟨_, hj, List.mem_singleton.mpr rfl⟩
      · rw [ih h.2.1 hdrest g hg] at hin
        cases hin

/-- In a function a name is hidden by what the function declares, and by what functions in it do. -/
theorem hides_frame {span : Span} (h : FitAll span.start span.stop items) (hn : span.contains n = true) :
    Hides [.frame span items] name n ↔ (∃ d ∈ items.filterMap declared?, d.1 = name) ∨ Hides items name n := by
  have hframes : framesOf [.frame span items] = span :: framesOf items := List.append_nil _
  have hdecls : declsOf [.frame span items] = declsOf items := List.append_nil _
  have hspan : ∀ d ∈ declsOf items, span.contains d.2.start = true :=
    fun d hd => contains_iff.mpr (covers_of_mem_decls (i := .frame span items) ⟨Nat.le_refl _, Nat.le_refl _, h⟩ hd)
  unfold Hides
  rw [hframes, hdecls]
  constructor
  · rintro ⟨d, hd, hname, -, hall⟩
    rcases h.declared_or_in_frame hd with hdeclared | hin
    · exact .inl ⟨d, hdeclared, hname⟩
    · exact .inr ⟨d, hd, hname, hin, fun g hg => hall g (List.mem_cons_of_mem _ hg)⟩
  · rintro (⟨d, hdeclared, hname⟩ | ⟨d, hd, hname, -, hall⟩)
    · obtain ⟨j, hj, hdecl⟩ := List.mem_filterMap.mp hdeclared
      have hd : d ∈ declsOf items := by
        refine mem_declsOf.mpr ⟨j, hj, ?_⟩
        cases j with
        | decl name span =>
          cases hdecl
          exact List.mem_singleton.mpr rfl
        | use name span => cases hdecl
        | frame span inner => cases hdecl
      refine ⟨d, hd, hname, ⟨span, List.mem_cons_self, hspan d hd⟩, fun g hg hin => ?_⟩
      rcases List.mem_cons.mp hg with rfl | hg
      · exact hn
      · rw [h.not_in_frame hdeclared g hg] at hin
        cases hin
    · refine ⟨d, hd, hname, ⟨span, List.mem_cons_self, hspan d hd⟩, fun g hg hin => ?_⟩
      rcases List.mem_cons.mp hg with rfl | hg
      · exact hn
      · exact hall g hg hin

end

/-- A use in one of several items is local by function if its name is local around them or they hide it. -/
theorem isLocal_iff_of_mem_usesOf (hone : ∀ i ∈ items, ∀ locals, u ∈ i.uses locals →
      (u.isLocal = true ↔ (∃ d ∈ locals, d.1 = u.name) ∨ Hides [i] u.name u.span.start)) (h : FitAll lo hi items)
    (hu : u ∈ usesOf locals items) :
    u.isLocal = true ↔ (∃ d ∈ locals, d.1 = u.name) ∨ Hides items u.name u.span.start := by
  induction items with
  | nil => cases hu
  | cons i items ih =>
    obtain ⟨hi, hrest⟩ := List.forall_mem_cons.mp hone
    rcases List.mem_append.mp hu with hu | hu
    · rw [hi locals hu, hides_cons_of_covers h (covers_of_mem_uses h.1 hu)]
    · rw [ih hrest h.2.1 hu, hides_cons_of_not_covers h (h.not_covers_of_mem_usesOf hu)]

theorem isLocal_iff (h : i.Fits lo hi) (hu : u ∈ i.uses locals) :
    u.isLocal = true ↔ (∃ d ∈ locals, d.1 = u.name) ∨ Hides [i] u.name u.span.start := by
  induction i using induction generalizing lo hi locals with
  | use name span =>
    rw [List.mem_singleton.mp hu]
    simp [Use.isLocal, Hides, declsOf, decls]
  | decl name span => cases hu
  | frame span items ih =>
    have hn := contains_iff.mpr (covers_of_mem_uses h hu)
    rw [isLocal_iff_of_mem_usesOf (fun i hi locals => ih i hi (h.2.2.fits hi)) h.2.2 hu, hides_frame h.2.2 hn]
    simp only [List.mem_append, or_and_right, exists_or]
    rw [or_assoc, or_left_comm]

/-! ## Nested functions -/

/-- Of two functions around one byte, one is within the other. -/
def Nested (frames : List Span) : Prop :=
  ∀ f ∈ frames, ∀ g ∈ frames, ∀ n, f.contains n = true → g.contains n = true →
    f.start ≤ g.start ∧ g.stop ≤ f.stop ∨ g.start ≤ f.start ∧ f.stop ≤ g.stop

theorem nested_framesOf (hone : ∀ i ∈ items, Nested i.frames) (h : FitAll lo hi items) : Nested (framesOf items) := by
  induction items with
  | nil => simp [Nested, framesOf]
  | cons i items ih =>
    obtain ⟨hi, hrest⟩ := List.forall_mem_cons.mp hone
    intro f hf g hg n hfn hgn
    rcases List.mem_append.mp hf with hf | hf <;> rcases List.mem_append.mp hg with hg | hg
    · exact hi f hf g hg n hfn hgn
    · exact absurd (covers_of_mem_frames hfn h.1 hf) (h.not_covers_of_mem_framesOf hg hgn)
    · exact absurd (covers_of_mem_frames hgn h.1 hg) (h.not_covers_of_mem_framesOf hf hfn)
    · exact ih hrest h.2.1 f hf g hg n hfn hgn

theorem nested_frames (h : i.Fits lo hi) : Nested i.frames := by
  induction i using induction generalizing lo hi with
  | use name span => simp [Nested, frames]
  | decl name span => simp [Nested, frames]
  | frame span items ih =>
    have hnested := nested_framesOf (fun i hi => ih i hi (h.2.2.fits hi)) h.2.2
    have hwithin : ∀ g ∈ framesOf items, span.start ≤ g.start ∧ g.stop ≤ span.stop :=
      fun g hg => within_of_mem_frames h (List.mem_cons_of_mem _ hg)
    intro f hf g hg n hfn hgn
    rcases List.mem_cons.mp hf with hspan | hf <;> rcases List.mem_cons.mp hg with hspan' | hg
    · rw [hspan, hspan']
      exact .inl ⟨Nat.le_refl _, Nat.le_refl _⟩
    · exact .inl (hspan ▸ hwithin g hg)
    · exact .inr (hspan' ▸ hwithin f hf)
    · exact hnested f hf g hg n hfn hgn

end Item

/-! ## The innermost function -/

namespace Survey

/-- The innermost frame is found by keeping the shorter one of the best so far and the next. -/
theorem innermost?_eq_foldl : ∃ shorter : Option Span → Span → Option Span,
    (∀ (s : Survey) n, s.innermost? n = (s.frames.filter (·.contains n)).foldl shorter none) ∧
    (∀ g, shorter none g = some g) ∧
    ∀ b g, shorter (some b) g = if g.stop - g.start < b.stop - b.start then some g else some b :=
  ⟨_, fun _ _ => rfl, fun _ => rfl, fun _ _ => rfl⟩

/-- Of frames that hold a byte and are nested, keeping the shorter one finds one that all others are around. -/
theorem foldl_innermost {shorter : Option Span → Span → Option Span}
    (hshorter : ∀ b g, shorter (some b) g = if g.stop - g.start < b.stop - b.start then some g else some b)
    {frames : List Span} (hnested : Item.Nested frames) {n : Nat} (hn : ∀ f ∈ frames, f.contains n = true)
    {rest : List Span} (hrest : ∀ f ∈ rest, f ∈ frames) {best : Span} (hbest : best ∈ frames) :
    ∃ f ∈ frames, rest.foldl shorter (some best) = some f ∧
      ∀ g ∈ best :: rest, g.start ≤ f.start ∧ f.stop ≤ g.stop := by
  induction rest generalizing best with
  | nil =>
    refine ⟨best, hbest, rfl, fun g hg => ?_⟩
    rw [List.mem_singleton.mp hg]
    exact ⟨Nat.le_refl _, Nat.le_refl _⟩
  | cons g rest ih =>
    have hg : g ∈ frames := hrest g List.mem_cons_self
    have hrest' : ∀ f ∈ rest, f ∈ frames := fun f hf => hrest f (List.mem_cons_of_mem _ hf)
    have hgn := Item.contains_iff.mp (hn g hg)
    have hbn := Item.contains_iff.mp (hn best hbest)
    have hboth := hnested g hg best hbest n (hn g hg) (hn best hbest)
    rw [List.foldl_cons, hshorter]
    -- the shorter of two nested frames is within the other
    split
    next hless =>
      obtain ⟨f, hf, hfold, hin⟩ := ih hrest' hg
      refine ⟨f, hf, hfold, fun k hk => ?_⟩
      have hfg := hin g List.mem_cons_self
      rcases List.mem_cons.mp hk with rfl | hk
      · omega
      · exact hin k hk
    next hless =>
      obtain ⟨f, hf, hfold, hin⟩ := ih hrest' hbest
      refine ⟨f, hf, hfold, fun k hk => ?_⟩
      have hfb := hin best List.mem_cons_self
      rcases List.mem_cons.mp hk with rfl | hk
      · exact hfb
      rcases List.mem_cons.mp hk with rfl | hk
      · omega
      · exact hin k (List.mem_cons_of_mem _ hk)

/-- The innermost frame around a byte holds another byte if some frame is around the first and all that are hold the
other too. -/
theorem innermost?_contains {s : Survey} (hnested : Item.Nested s.frames) (m n : Nat) :
    ((s.innermost? m).map (·.contains n)).getD false = true ↔
      (∃ g ∈ s.frames, g.contains m = true) ∧ ∀ g ∈ s.frames, g.contains m = true → g.contains n = true := by
  have hmem : ∀ g, g ∈ s.frames.filter (·.contains m) ↔ g ∈ s.frames ∧ g.contains m = true :=
    fun g => List.mem_filter
  have hnested' : Item.Nested (s.frames.filter (·.contains m)) :=
    fun f hf g hg => hnested f ((hmem f).mp hf).1 g ((hmem g).mp hg).1
  obtain ⟨shorter, hfoldl, hfirst, hshorter⟩ := innermost?_eq_foldl
  rw [hfoldl]
  cases hframes : s.frames.filter (·.contains m) with
  | nil =>
    refine iff_of_false Bool.false_ne_true ?_
    rintro ⟨⟨g, hg, hgm⟩, -⟩
    have hin := (hmem g).mpr ⟨hg, hgm⟩
    rw [hframes] at hin
    cases hin
  | cons best rest =>
    rw [hframes] at hmem hnested'
    have hrest : ∀ f ∈ rest, f ∈ best :: rest := fun f hf => List.mem_cons_of_mem _ hf
    obtain ⟨f, hf, hfold, hin⟩ :=
      foldl_innermost hshorter hnested' (fun g hg => ((hmem g).mp hg).2) hrest List.mem_cons_self
    rw [List.foldl_cons, hfirst, hfold]
    constructor
    · intro hfn
      refine ⟨⟨f, (hmem f).mp hf⟩, fun g hg hgm => ?_⟩
      have hfn := Item.contains_iff.mp hfn
      have hfg := hin g ((hmem g).mpr ⟨hg, hgm⟩)
      exact Item.contains_iff.mpr ⟨by omega, by omega⟩
    · rintro ⟨-, hall⟩
      exact hall f ((hmem f).mp hf).1 ((hmem f).mp hf).2

end Survey

/-! ## The items of a tree -/

namespace Tree

mutual

/-- The items of a tree, in order. -/
def items : Tree → List Item
  | node (.name name) span _ => [.use name span]
  | node (.binder name) span _ => [.decl name span]
  | node (.function _) span parts => itemsOfFunction span.stop parts
  | node (.arrow _) span parts => [.frame span (itemsOf parts)]
  | node _ _ parts => itemsOf parts

def itemsOf : List Tree → List Item
  | [] => []
  | t :: ts => t.items ++ itemsOf ts

/-- The items of the parts of a function: what is from its parameters on is in it, and what is before them, such as its
name, is not. -/
def itemsOfFunction (stop : Nat) : List Tree → List Item
  | [] => []
  | t :: ts =>
    if t.kind == .params then [.frame ⟨t.span.start, stop⟩ (t.items ++ itemsOf ts)]
    else t.items ++ itemsOfFunction stop ts

end

end Tree

namespace Item

@[simp] theorem declsOf_append (is js : List Item) : declsOf (is ++ js) = declsOf is ++ declsOf js := by
  induction is with
  | nil => rfl
  | cons i is ih => simp [declsOf, ih]

@[simp] theorem framesOf_append (is js : List Item) : framesOf (is ++ js) = framesOf is ++ framesOf js := by
  induction is with
  | nil => rfl
  | cons i is ih => simp [framesOf, ih]

@[simp] theorem usesOf_append (locals : List (String × Span)) (is js : List Item) :
    usesOf locals (is ++ js) = usesOf locals is ++ usesOf locals js := by
  induction is with
  | nil => rfl
  | cons i is ih => simp [usesOf, ih]

end Item

@[simp] theorem Survey.declared_append (a b : Survey) : (a ++ b).declared = a.declared ++ b.declared := rfl

@[simp] theorem Survey.frames_append (a b : Survey) : (a ++ b).frames = a.frames ++ b.frames := rfl

/-- Items and a survey find the same. -/
structure Survey.Finds (s : Survey) (items : List Item) : Prop where
  declared : s.declared = Item.declsOf items
  mem_frames : ∀ g, g ∈ s.frames ↔ g ∈ Item.framesOf items
  map_uses : ∀ locals, (Item.usesOf locals items).map (fun u => (u.name, u.span)) =
    s.used.map fun r => (r.name, r.span)

namespace Survey.Finds

variable {a b : Survey} {is js : List Item}

theorem append (ha : a.Finds is) (hb : b.Finds js) : (a ++ b).Finds (is ++ js) where
  declared := by simp [ha.declared, hb.declared]
  mem_frames g := by simp [ha.mem_frames, hb.mem_frames]
  map_uses locals := by simp [ha.map_uses, hb.map_uses]

theorem frame (ha : a.Finds is) (span : Span) : ({ frames := [span] } ++ a : Survey).Finds [.frame span is] where
  declared := by simp [ha.declared, Item.declsOf, Item.decls]
  mem_frames g := by simp [ha.mem_frames, Item.framesOf, Item.frames]
  map_uses locals := by simp [ha.map_uses, Item.usesOf, Item.uses]

/-- Functions may be found in another order. -/
theorem of_mem_frames (ha : a.Finds is) (hdeclared : b.declared = a.declared) (hused : b.used = a.used)
    (hframes : ∀ g, g ∈ b.frames ↔ g ∈ a.frames) : b.Finds is where
  declared := by rw [hdeclared, ha.declared]
  mem_frames g := by rw [hframes, ha.mem_frames]
  map_uses locals := by rw [ha.map_uses, hused]

end Survey.Finds

namespace Tree

mutual

theorem finds_items (written : Bool) : (t : Tree) → (t.surveyAs written).Finds t.items
  | node kind span parts => by
    unfold surveyAs
    split
    case h_5 target value heq =>
      cases heq
      exact (finds_items true target).append (finds_itemsOf value)
    case h_6 target others heq =>
      cases heq
      exact (finds_items true target).append (finds_itemsOf others)
    case h_7 hname _ _ hbinder _ _ heq =>
      cases heq
      have hparts := finds_itemsOf parts
      unfold items
      split
      next heq =>
        cases heq
        exact (hname _ rfl).elim
      next heq =>
        cases heq
        exact (hbinder _ rfl).elim
      next heq =>
        cases heq
        exact finds_itemsOfFunction span.stop parts
      next heq =>
        cases heq
        exact hparts.frame span
      next hfunction harrow heq =>
        cases heq
        have hnone : (node kind span parts).frame? = none := by
          unfold frame?
          split
          · rename_i heq
            cases heq
            exact (hfunction _ rfl).elim
          · rename_i heq
            cases heq
            exact (harrow _ rfl).elim
          · rfl
        rw [hnone]
        exact hparts
    all_goals
      rename_i heq
      cases heq
      exact ⟨rfl, fun _ => Iff.rfl, fun _ => rfl⟩

theorem finds_itemsOf : (ts : List Tree) → (surveyAll ts).Finds (itemsOf ts)
  | [] => ⟨rfl, fun _ => Iff.rfl, fun _ => rfl⟩
  | t :: ts => (finds_items false t).append (finds_itemsOf ts)

theorem finds_itemsOfFunction (stop : Nat) : (parts : List Tree) →
    ({ frames := ((parts.find? (·.kind == .params)).map fun params => (⟨params.span.start, stop⟩ : Span)).toList } ++
      surveyAll parts : Survey).Finds (itemsOfFunction stop parts)
  | [] => ⟨rfl, fun _ => Iff.rfl, fun _ => rfl⟩
  | t :: ts => by
    have ht := finds_items false t
    rw [itemsOfFunction, List.find?_cons]
    cases t.kind == .params with
    | true => exact (ht.append (finds_itemsOf ts)).frame _
    | false =>
      refine (ht.append (finds_itemsOfFunction stop ts)).of_mem_frames ?_ ?_ fun g => ?_
      · rfl
      · rfl
      · simp only [surveyAll, Survey.frames_append, List.mem_append]
        rw [or_left_comm]

end

end Tree

namespace Survey.Finds

variable {s : Survey} {items : List Item} {lo hi : Nat}

/-- Names are hidden as the items say, if these are in their places. -/
theorem isHidden_iff (h : s.Finds items) (hfit : Item.FitAll lo hi items) {name : String} {n : Nat} :
    s.isHidden name n = true ↔ Item.Hides items name n := by
  have hnested : Item.Nested s.frames := by
    intro f hf g hg
    exact Item.nested_framesOf (fun i hi => Item.nested_frames (hfit.fits hi)) hfit f ((h.mem_frames f).mp hf) g ((h.mem_frames g).mp hg)
  simp only [isHidden, List.any_eq_true, Bool.and_eq_true, beq_iff_eq, innermost?_contains hnested, h.declared,
    h.mem_frames, Item.Hides]

theorem isHidden_eq_isLocal (h : s.Finds items) (hfit : Item.FitAll lo hi items) {u : Use}
    (hu : u ∈ Item.usesOf [] items) : s.isHidden u.name u.span.start = u.isLocal := by
  rw [Bool.eq_iff_iff, h.isHidden_iff hfit, Item.isLocal_iff_of_mem_usesOf (fun i hi _ => Item.isLocal_iff (hfit.fits hi)) hfit hu]
  simp

/-- What is left are the uses that no function around them declares. -/
theorem map_free (h : s.Finds items) (hfit : Item.FitAll lo hi items) :
    s.free.map (fun r => (r.name, r.span)) =
      ((Item.usesOf [] items).filter fun u => !u.isLocal).map fun u => (u.name, u.span) := by
  have hfilter := congrArg (List.filter fun p => !s.isHidden p.1 p.2.start) (h.map_uses [])
  rw [List.filter_map, List.filter_map] at hfilter
  refine Eq.trans hfilter.symm ?_
  congr 1
  refine List.filter_congr fun u hu => ?_
  rw [← h.isHidden_eq_isLocal hfit hu]
  rfl

end Survey.Finds

end PageCompiler.Code
