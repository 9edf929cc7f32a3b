import PageCompiler.Component.Inline

/-!
# Runs of computations

Reading a file changes a registry, putting components into a page changes an assembly, and both may
stop at a fault. A run of a sequence that ends well is a run of its first part followed by a run of
the rest; a run that fails does so in its first part or after it. All later statements about such
computations open them by these rules and by nothing else.
-/

namespace PageCompiler

variable {α β : Type}

variable {x : Compiled α}

/-! ## Results -/

theorem Compiled.bind_eq_ok {ε : Type} {x : Except ε α} {f : α → Except ε β} {b : β} :
    (x >>= f) = .ok b ↔ ∃ a, x = .ok a ∧ f a = .ok b := by
  cases x with
  | error d => simp [bind, Except.bind]
  | ok a => simp [bind, Except.bind]

theorem Compiled.bind_eq_error {f : α → Compiled β} {d : Diagnostic} :
    (x >>= f) = .error d ↔ x = .error d ∨ ∃ a, x = .ok a ∧ f a = .error d := by
  cases x with
  | error d => simp [bind, Except.bind]
  | ok a => simp [bind, Except.bind]

/-- A result that is there is what it gives, whatever would stand in its place. -/
theorem Compiled.eq_ok_getD (h : x.toOption.isSome = true) (d : α) :
    x = .ok (x.toOption.getD d) := by
  cases x with
  | error e => cases h
  | ok a => rfl

theorem Compiled.exists_eq_ok (h : x.toOption.isSome = true) : ∃ a, x = .ok a := by
  cases x with
  | error e => cases h
  | ok a => exact ⟨a, rfl⟩

theorem exists_eq_ok_of_any {ε : Type} {x : Except ε α} {test : α → Bool}
    (h : x.toOption.any test = true) : ∃ a, x = .ok a ∧ test a = true := by
  cases x with
  | error e => cases h
  | ok a => exact ⟨a, rfl, h⟩

/-! ## Reading -/

namespace Template

variable {a : α} {r r' : Registry}

/-- From the registry `r` the reading gives `a` and leaves the registry `r'`. -/
def Gives (p : Reading α) (r : Registry) (a : α) (r' : Registry) : Prop :=
  p.run.run r = (.ok a, r')

@[simp] theorem gives_pure {b : α} : Gives (pure a) r b r' ↔ a = b ∧ r = r' := by
  constructor
  · intro h
    cases h
    exact ⟨rfl, rfl⟩
  · rintro ⟨rfl, rfl⟩
    rfl

@[simp] theorem gives_bind {p : Reading α} {f : α → Reading β} {r'' : Registry} {b : β} :
    Gives (p >>= f) r b r'' ↔ ∃ a r', Gives p r a r' ∧ Gives (f a) r' b r'' := by
  simp only [Gives, bind, ExceptT.run, ExceptT.bind, ExceptT.mk, StateT.run, StateT.bind]
  constructor
  · intro h
    match hp : p r with
    | (.ok a, r') =>
      refine ⟨a, r', rfl, ?_⟩
      rw [hp] at h
      exact h
    | (.error d, r') =>
      rw [hp] at h
      cases h
  · rintro ⟨a, r', hp, hf⟩
    rw [hp]
    exact hf

theorem gives_bind_pure {p : Reading α} {f : α → β} {b : β} :
    Gives (p >>= fun a => pure (f a)) r b r' ↔ ∃ a, Gives p r a r' ∧ f a = b := by
  rw [gives_bind]
  constructor
  · rintro ⟨a, r₁, hp, hf⟩
    obtain ⟨rfl, rfl⟩ := gives_pure.mp hf
    exact ⟨a, hp, rfl⟩
  · rintro ⟨a, hp, rfl⟩
    exact ⟨a, r', hp, gives_pure.mpr ⟨rfl, rfl⟩⟩

@[simp] theorem gives_map {p : Reading α} {f : α → β} {b : β} :
    Gives (f <$> p) r b r' ↔ ∃ a, Gives p r a r' ∧ f a = b := by
  rw [← bind_pure_comp, gives_bind_pure]

@[simp] theorem gives_get {a : Registry} :
    Gives (get : Reading Registry) r a r' ↔ a = r ∧ r' = r := by
  constructor
  · intro h
    cases h
    exact ⟨rfl, rfl⟩
  · rintro ⟨rfl, rfl⟩
    rfl

@[simp] theorem gives_modify {f : Registry → Registry} {u : Unit} :
    Gives (modify f : Reading Unit) r u r' ↔ r' = f r := by
  constructor
  · intro h
    cases h
    rfl
  · rintro rfl
    rfl

@[simp] theorem gives_failAt {fault : Fault} {position : Position} :
    ¬ Gives (failAt fault position : Reading α) r a r' := by
  intro h
  cases h

end Template

/-! ## Assembling -/

namespace Component

variable {x : α} {a a' : Assembly} {d : Diagnostic} {f : α → Assembling β}

/-- From the assembly `a` the computation gives `x` and leaves the assembly `a'`. -/
def Builds (p : Assembling α) (a : Assembly) (x : α) (a' : Assembly) : Prop :=
  p.run a = .ok (x, a')

def Stops (p : Assembling α) (a : Assembly) (d : Diagnostic) : Prop :=
  p.run a = .error d

@[simp] theorem builds_pure {y : α} : Builds (pure x) a y a' ↔ x = y ∧ a = a' := by
  constructor
  · intro h
    cases h
    exact ⟨rfl, rfl⟩
  · rintro ⟨rfl, rfl⟩
    rfl

@[simp] theorem stops_pure : ¬ Stops (pure x) a d := by
  intro h
  cases h

@[simp] theorem builds_bind {p : Assembling α} {a'' : Assembly} {y : β} :
    Builds (p >>= f) a y a'' ↔ ∃ x a', Builds p a x a' ∧ Builds (f x) a' y a'' := by
  simp only [Builds, bind, StateT.run, StateT.bind, Except.bind]
  cases hp : p a with
  | error d => simp
  | ok xa =>
    obtain ⟨x, a'⟩ := xa
    constructor
    · intro h
      exact ⟨x, a', rfl, h⟩
    · rintro ⟨x', b, h, hf⟩
      cases h
      exact hf

@[simp] theorem stops_bind {p : Assembling α} :
    Stops (p >>= f) a d ↔ Stops p a d ∨ ∃ x a', Builds p a x a' ∧ Stops (f x) a' d := by
  simp only [Builds, Stops, bind, StateT.run, StateT.bind, Except.bind]
  cases hp : p a with
  | error d => simp
  | ok xa =>
    obtain ⟨x, a'⟩ := xa
    constructor
    · intro h
      exact .inr ⟨x, a', rfl, h⟩
    · rintro (h | ⟨x', b, h, hf⟩)
      · cases h
      · cases h
        exact hf

@[simp] theorem builds_get {x : Assembly} :
    Builds (get : Assembling Assembly) a x a' ↔ x = a ∧ a' = a := by
  constructor
  · intro h
    cases h
    exact ⟨rfl, rfl⟩
  · rintro ⟨rfl, rfl⟩
    rfl

@[simp] theorem stops_get : ¬ Stops (get : Assembling Assembly) a d := by
  intro h
  cases h

@[simp] theorem builds_modify {f : Assembly → Assembly} {u : Unit} :
    Builds (modify f : Assembling Unit) a u a' ↔ a' = f a := by
  constructor
  · intro h
    cases h
    rfl
  · rintro rfl
    rfl

@[simp] theorem stops_modify {f : Assembly → Assembly} :
    ¬ Stops (modify f : Assembling Unit) a d := by
  intro h
  cases h

@[simp] theorem builds_throw : ¬ Builds (throw d : Assembling α) a x a' := by
  intro h
  cases h

@[simp] theorem stops_throw {e : Diagnostic} : Stops (throw d : Assembling α) a e ↔ d = e := by
  constructor
  · intro h
    cases h
    rfl
  · rintro rfl
    rfl

@[simp] theorem builds_lift {x : Compiled α} {y : α} :
    Builds (liftM x : Assembling α) a y a' ↔ x = .ok y ∧ a' = a := by
  cases x with
  | error d =>
    constructor
    · intro h
      cases h
    · rintro ⟨h, -⟩
      cases h
  | ok y =>
    constructor
    · intro h
      cases h
      exact ⟨rfl, rfl⟩
    · rintro ⟨h, rfl⟩
      cases h
      rfl

@[simp] theorem stops_lift {x : Compiled α} :
    Stops (liftM x : Assembling α) a d ↔ x = .error d := by
  cases x with
  | error e =>
    constructor
    · intro h
      cases h
      rfl
    · intro h
      cases h
      rfl
  | ok y =>
    constructor
    · intro h
      cases h
    · intro h
      cases h

theorem builds_or_stops (p : Assembling α) (a : Assembly) :
    (∃ x a', Builds p a x a') ∨ ∃ d, Stops p a d := by
  cases h : p.run a with
  | error d => exact .inr ⟨d, h⟩
  | ok result => exact .inl ⟨result.1, result.2, h⟩

theorem stops_mapM {items : List α} :
    Stops (items.mapM f) a d ↔ ∃ before x after ys a', items = before ++ x :: after ∧
      Builds (before.mapM f) a ys a' ∧ Stops (f x) a' d := by
  induction items generalizing a with
  | nil =>
    constructor
    · intro h
      exact absurd h stops_pure
    · rintro ⟨before, x, after, ys, a', h, -⟩
      simp at h
  | cons y items ih =>
    simp only [List.mapM_cons, stops_bind, stops_pure, and_false, exists_false, or_false, ih]
    constructor
    · rintro (h | ⟨z, a₁, hfirst, before, x, after, ys, a', rfl, hbefore, h⟩)
      · exact ⟨[], y, items, [], a, rfl, builds_pure.mpr ⟨rfl, rfl⟩, h⟩
      · refine ⟨y :: before, x, after, z :: ys, a', rfl, ?_, h⟩
        simp only [List.mapM_cons, builds_bind, builds_pure]
        exact ⟨z, a₁, hfirst, ys, a', hbefore, rfl, rfl⟩
    · rintro ⟨before, x, after, ys, a', hitems, hbefore, h⟩
      cases before with
      | nil =>
        obtain ⟨rfl, rfl⟩ := List.cons.inj hitems
        obtain ⟨-, rfl⟩ := builds_pure.mp hbefore
        exact .inl h
      | cons z before =>
        obtain ⟨rfl, rfl⟩ := List.cons.inj hitems
        simp only [List.mapM_cons, builds_bind, builds_pure] at hbefore
        obtain ⟨w, a₁, hfirst, ws, a₂, hrest, -, rfl⟩ := hbefore
        exact .inr ⟨w, a₁, hfirst, before, x, after, ws, a₂, rfl, hrest, h⟩

end Component

end PageCompiler
