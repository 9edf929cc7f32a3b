import Mathlib.Data.Option.Basic
import PageCompiler.Proofs.AssemblyChanges
import PageCompiler.Proofs.Records

/-!
# Names of instances

Each copy of a component has a number, and the names of its script get that number as part of them. The number can be
read back from a name (`owner?_instanceName`), and no other name that a compilation makes has the same form
(`not_givenBesides`). In a run the numbers of copies grow (`Trace.renames_eq`), so different copies never share a name.
-/

namespace PageCompiler.Component

open Emit (owner? records recordOf ownerId)
open Template (Node liftedName decimal?_toDigits strip?_append)

variable {n : Nat} {script : Option Script} {r : String × String} {u : Use} {s s' : Stage}
  {entries : List (Use × Rebinding)}

variable {role : Role} {r' : String × String} {a a' : Assembly} {b : Rebinding} {count : Nat} {options : Options}
  {p : Page}

/-! ## Names with numbers -/

def numberedName (stem : String) (n : Nat) (x : String) : String :=
  stem ++ toString n ++ "_" ++ x

/-- The name that `x` has in the `n`-th instance of a component. -/
def instanceName : Nat → String → String :=
  numberedName "__zen_comp_"

/-- The name that a handler has in the `n`-th layout; `x` is what follows the stem of its own name. -/
def layoutName : Nat → String → String :=
  numberedName "__zen_layout_"

theorem toList_numberedName (stem : String) (n : Nat) (x : String) :
    (numberedName stem n x).toList = stem.toList ++ (Nat.toDigits 10 n ++ '_' :: x.toList) := by
  simp [numberedName, toString, Nat.toList_repr]

/-- The digits of a number end where an underscore follows them. -/
theorem takeWhile_toDigits (n : Nat) (rest : List Char) :
    (Nat.toDigits 10 n ++ '_' :: rest).takeWhile Text.isDecimal = Nat.toDigits 10 n := by
  rw [List.takeWhile_append_of_pos]
  · have hend : Text.isDecimal '_' = false := by decide
    rw [List.takeWhile_cons, hend]
    simp
  · intro c hc
    exact Text.isDecimal_of_isDigit (Nat.isDigit_of_mem_toDigits (by decide) (by decide) hc)

theorem numberedName_inj {stem : String} {m : Nat} {x y : String} (h : numberedName stem n x = numberedName stem m y) :
    n = m ∧ x = y := by
  have hlist := congrArg String.toList h
  rw [toList_numberedName, toList_numberedName, List.append_cancel_left_eq] at hlist
  have hdigits := congrArg (List.takeWhile Text.isDecimal) hlist
  rw [takeWhile_toDigits, takeWhile_toDigits] at hdigits
  have hnumber : n = m := by
    have hn := decimal?_toDigits n
    rw [hdigits, decimal?_toDigits] at hn
    exact (Option.some.inj hn).symm
  rw [hdigits, List.append_cancel_left_eq, List.cons.injEq] at hlist
  exact ⟨hnumber, String.toList_inj.mp hlist.2⟩

theorem owner?_instanceName (hn : n < UInt64.size) (x : String) : owner? (instanceName n x) = some n := by
  rw [owner?, instanceName, toList_numberedName, strip?_append]
  simp [takeWhile_toDigits, decimal?_toDigits, hn]

/-- A name that is given to something else than the `n`-th instance: another instance, a handler that is written in
markup, a handler that a use passes on, or a layout. -/
inductive GivenBesides (n : Nat) : String → Prop
  | toInstance {m : Nat} (x : String) : m ≠ n → GivenBesides n (instanceName m x)
  | toMarkup (k : Nat) : GivenBesides n (liftedName k)
  | toUse (k : Nat) : GivenBesides n (forwardedName k)
  | toLayout (i : Nat) (x : String) : GivenBesides n (layoutName i x)

theorem not_givenBesides (n : Nat) (x : String) : ¬ GivenBesides n (instanceName n x) := by
  intro h
  generalize hname : instanceName n x = name at h
  have hstart := congrArg (·.toList.take 7) hname
  rw [instanceName, toList_numberedName] at hstart
  cases h with
  | toInstance y hne => exact hne (numberedName_inj hname).1.symm
  | toMarkup k => simp [liftedName, toString] at hstart
  | toUse k => simp [forwardedName, toString] at hstart
  | toLayout i y =>
    rw [layoutName, toList_numberedName] at hstart
    simp at hstart

/-! ## The names in a copy -/

/-- The new names in the copy of a script with a number. -/
def namesOf (role : Role) (n : Nat) (script : Option Script) : Ordered String :=
  match role with
  | .component => (script.map (instanceRenames n)).getD []
  | .layout => (script.map (layoutRenames n)).getD []

theorem copiedNames_eq (role : Role) (a : Assembly) (script : Option Script) :
    copiedNames role a script = namesOf role (a.number role) script := by
  cases role <;> rfl

theorem namesOf_none (role : Role) (n : Nat) : namesOf role n none = [] := by
  cases role <;> rfl

theorem eq_instanceName_of_mem (h : r ∈ namesOf .component n script) : r.2 = instanceName n r.1 := by
  cases script with
  | none => simp [namesOf] at h
  | some s =>
    obtain ⟨x, -, rfl⟩ := List.mem_map.mp h
    rfl

/-- A handler that is renamed in a layout has the stem of lifted names, and what follows it in its new name. -/
theorem eq_layoutName_of_mem (h : r ∈ namesOf .layout n script) :
    ∃ x, r.1.toList = "__zen_".toList ++ x.toList ∧ r.2 = layoutName n x := by
  cases script with
  | none => simp [namesOf] at h
  | some s =>
    obtain ⟨name, hname, rfl⟩ := List.mem_map.mp h
    have hlifted := (List.mem_filter.mp hname).2
    rw [isLiftedName, Text.strip?] at hlifted
    refine ⟨String.ofList (name.toList.drop "__zen_".length), ?_, rfl⟩
    split at hlifted
    · rename_i digits hstrip
      have hlead : "__zen_h".toList.isPrefixOf name.toList = true := by
        by_contra hlead
        rw [if_neg hlead] at hstrip
        cases hstrip
      obtain ⟨rest, hrest⟩ := List.isPrefixOf_iff_prefix.mp hlead
      have hlength : "__zen_".length = 6 := by decide
      rw [← hrest, hlength]
      simp
    · cases hlifted

/-- Different names of a script get different names in its copy. -/
theorem namesOf_injective (h : r ∈ namesOf role n script) (h' : r' ∈ namesOf role n script) (heq : r.2 = r'.2) :
    r.1 = r'.1 := by
  cases role with
  | component =>
    rw [eq_instanceName_of_mem h, eq_instanceName_of_mem h'] at heq
    exact (numberedName_inj heq).2
  | layout =>
    obtain ⟨x, hx, hr⟩ := eq_layoutName_of_mem h
    obtain ⟨x', hx', hr'⟩ := eq_layoutName_of_mem h'
    rw [hr, hr'] at heq
    rw [(numberedName_inj heq).2, ← hx'] at hx
    exact String.toList_inj.mp hx

/-- Copies with different roles or numbers share no name. -/
theorem ne_of_mem_namesOf {role' : Role} {n' : Nat} {script' : Option Script} (h : r ∈ namesOf role n script)
    (h' : r' ∈ namesOf role' n' script') (hne : role = role' → n ≠ n') : r.2 ≠ r'.2 := by
  intro heq
  cases role with
  | component =>
    rw [eq_instanceName_of_mem h] at heq
    cases role' with
    | component =>
      rw [eq_instanceName_of_mem h'] at heq
      exact hne rfl (numberedName_inj heq).1
    | layout =>
      obtain ⟨x, -, hr⟩ := eq_layoutName_of_mem h'
      rw [hr] at heq
      exact not_givenBesides n r.1 (heq ▸ .toLayout n' x)
  | layout =>
    obtain ⟨x, -, hr⟩ := eq_layoutName_of_mem h
    rw [hr] at heq
    cases role' with
    | component =>
      rw [eq_instanceName_of_mem h'] at heq
      exact not_givenBesides n' r'.1 (heq ▸ .toLayout n x)
    | layout =>
      obtain ⟨x', -, hr'⟩ := eq_layoutName_of_mem h'
      rw [hr'] at heq
      exact hne rfl (numberedName_inj heq).1

/-! ## The numbers of copies -/

/-- Whether the use is counted among those with a role. The copy of a layout without a script has no names and no
number. -/
def Use.counts (u : Use) (role : Role) : Bool :=
  u.role == role && (role == .component || u.component.page.script.isSome)

theorem number_of_copyNames {names : Ordered String × List String}
    (h : Builds (copyNames u.role u.component.page.script) a names a') (role : Role) :
    a'.number role = a.number role + if u.counts role then 1 else 0 := by
  rw [(builds_copyNames h).2, counted.eq_def]
  split
  · rename_i hrole
    cases role <;> simp [Use.counts, hrole, Assembly.number]
  · rename_i hrole hscript
    cases role <;> simp [Use.counts, hrole, hscript]
  · rename_i hrole hscript
    cases role <;> simp [Use.counts, hrole, hscript, Assembly.number]

/-- The names in the copy become what the rebinding says when the use is replaced. -/
def Rebinds (file : String) (s : Stage) (u : Use) (b : Rebinding) : Prop :=
  ∃ copied a, Builds (copyTemplate file u.role u.component u.usage) s.parts (b, copied) a

variable {catalogs : Catalogs} {file : String}

theorem Step.number (h : Step catalogs file s u s') (role : Role) :
    s'.parts.number role = s.parts.number role + if u.counts role then 1 else 0 := by
  obtain ⟨names, a, hnames, hchanges⟩ := h.changes
  rw [number_of_changes hchanges, number_of_copyNames hnames]

theorem Step.exists_rebinds (h : Step catalogs file s u s') : ∃ b, Rebinds file s u b := by
  obtain ⟨copy, hinline, -⟩ := h.replaced
  simp only [inline, builds_bind] at hinline
  obtain ⟨⟨b, copied⟩, a₁, hcopy, -⟩ := hinline
  exact ⟨b, copied, a₁, hcopy⟩

theorem Rebinds.renames_eq (h : Rebinds file s u b) :
    b.renames = namesOf u.role (s.parts.number u.role) u.component.page.script := by
  obtain ⟨copied, a, hcopy⟩ := h
  rw [(builds_copyTemplate hcopy).renames, copiedNames_eq]

/-! ## The names in a run -/

/-- A sequence of replacements leads from one stage to another; each comes with what names in its copy become. -/
inductive Trace (catalogs : Catalogs) (file : String) : Stage → List (Use × Rebinding) → Stage → Prop
  | done (s : Stage) : Trace catalogs file s [] s
  | step {s s' s'' : Stage} {u : Use} {b : Rebinding} {entries : List (Use × Rebinding)} :
      Step catalogs file s u s' → Rebinds file s u b → Trace catalogs file s' entries s'' →
      Trace catalogs file s ((u, b) :: entries) s''

theorem Run.exists_trace {taken : List String} (h : Run catalogs file s n taken s') :
    ∃ entries, Trace catalogs file s entries s' ∧ entries.length = n := by
  induction h with
  | done s => exact ⟨[], .done s, rfl⟩
  | step hstep _ ih =>
    obtain ⟨entries, htrace, hlength⟩ := ih
    obtain ⟨b, hb⟩ := hstep.exists_rebinds
    exact ⟨_, .step hstep hb htrace, by rw [List.length_cons, hlength]⟩

/-- The names in a copy have the number of copies with its role that were counted before it. -/
theorem Trace.renames_eq {before after : List (Use × Rebinding)} (h : Trace catalogs file s entries s')
    (hentries : entries = before ++ (u, b) :: after) :
    b.renames = namesOf u.role (s.parts.number u.role + before.countP (·.1.counts u.role))
      u.component.page.script := by
  induction h generalizing before with
  | done s => simp at hentries
  | step hstep hb _ ih =>
    cases before with
    | nil =>
      obtain ⟨hhead, -⟩ := List.cons.inj hentries
      cases hhead
      exact hb.renames_eq
    | cons entry before =>
      obtain ⟨rfl, hrest⟩ := List.cons.inj hentries
      rw [ih hrest, hstep.number, List.countP_cons, Nat.add_assoc, Nat.add_comm (List.countP _ _)]

/-- Different copies share no name. -/
theorem Trace.pairwise (h : Trace catalogs file s entries s') :
    entries.Pairwise fun e e' => ∀ r ∈ e.2.renames, ∀ r' ∈ e'.2.renames, r.2 ≠ r'.2 := by
  induction h with
  | done s => exact .nil
  | @step s s₁ s'' u b entries hstep hb htrace ih =>
    refine List.pairwise_cons.mpr ⟨?_, ih⟩
    rintro ⟨u', b'⟩ hmem r hr r' hr'
    obtain ⟨before, after, hsplit⟩ := List.append_of_mem hmem
    rw [hb.renames_eq] at hr
    rw [htrace.renames_eq hsplit, hstep.number] at hr'
    refine ne_of_mem_namesOf hr hr' ?_
    rintro hrole
    -- A copy that is not counted has no names at all.
    have hcounts : u.counts u'.role = true := by
      rw [Use.counts, ← hrole]
      cases hscript : u.component.page.script with
      | none =>
        rw [hscript, namesOf_none] at hr
        cases hr
      | some script => simp
    rw [if_pos hcounts, ← hrole]
    omega

/-- The replacements that a resolution makes one after the other, up to its end or to any stage before it. -/
def Replaces (catalogs : Catalogs) (options : Options) (p : Page) (entries : List (Use × Rebinding)) : Prop :=
  entries.length ≤ options.maxReplacements ∧ ∃ s, Trace catalogs p.file (.ofPage p) entries s

theorem count_le_of_resolveNodes {limit left : Nat} {nodes nodes' : List Node}
    (h : Builds (resolveNodes catalogs file limit left nodes) a (count, nodes') a') : count ≤ left := by
  induction left generalizing nodes nodes' a a' count with
  | zero =>
    rw [resolveNodes, builds_bind] at h
    obtain ⟨target, a₀, -, h⟩ := h
    cases target with
    | none =>
      cases (builds_pure.mp h).1
      exact Nat.le_refl 0
    | some target => exact absurd h builds_throw
  | succ left ih =>
    rw [resolveNodes, builds_bind] at h
    obtain ⟨target, a₀, -, h⟩ := h
    cases target with
    | none =>
      cases (builds_pure.mp h).1
      exact Nat.zero_le _
    | some target =>
      simp only [builds_bind, builds_pure] at h
      obtain ⟨nodes₁, a₁, -, ⟨count', nodes₂⟩, a₂, hrest, hpair, -⟩ := h
      cases hpair
      exact Nat.succ_le_succ (ih hrest)

theorem exists_replaces_of_resolve {page : Page} (h : resolve catalogs options p = .ok (count, page)) :
    ∃ entries, Replaces catalogs options p entries ∧ entries.length = count := by
  obtain ⟨⟨⟨count', nodes⟩, a⟩, hresolve, hpage⟩ := Compiled.bind_eq_ok.mp h
  cases hpage
  obtain ⟨taken, hrun, -⟩ := run_of_resolveNodes hresolve
  obtain ⟨entries, htrace, rfl⟩ := hrun.exists_trace
  exact ⟨entries, ⟨count_le_of_resolveNodes hresolve, _, htrace⟩, rfl⟩

/-- The copies have names of their own: within a copy different names stay different, different copies share none, and
the names in a copy of a component are those of the instance with its number, counted from zero. -/
structure Isolated (entries : List (Use × Rebinding)) : Prop where
  injective : ∀ e ∈ entries, ∀ r ∈ e.2.renames, ∀ r' ∈ e.2.renames, r.2 = r'.2 → r.1 = r'.1
  disjoint : entries.Pairwise fun e e' => ∀ r ∈ e.2.renames, ∀ r' ∈ e'.2.renames, r.2 ≠ r'.2
  owned : ∀ before u b after, entries = before ++ (u, b) :: after → u.role = .component → ∀ r ∈ b.renames,
    r.2 = instanceName (before.countP (·.1.role == .component)) r.1 ∧
      owner? r.2 = some (before.countP (·.1.role == .component))

theorem Replaces.isolated (hmax : options.maxReplacements ≤ UInt64.size) (h : Replaces catalogs options p entries) :
    Isolated entries := by
  obtain ⟨hlength, s, htrace⟩ := h
  refine ⟨?_, htrace.pairwise, ?_⟩
  · rintro ⟨u, b⟩ he r hr r' hr'
    obtain ⟨before, after, hsplit⟩ := List.append_of_mem he
    rw [htrace.renames_eq hsplit] at hr hr'
    exact namesOf_injective hr hr'
  · intro before u b after hsplit hrole r hr
    have hcount : before.countP (·.1.counts .component) = before.countP (·.1.role == .component) :=
      List.countP_congr fun e _ => by simp [Use.counts]
    rw [htrace.renames_eq hsplit, hrole, hcount] at hr
    have hname := eq_instanceName_of_mem hr
    have hzero : (Stage.ofPage p).parts.number .component = 0 := rfl
    rw [hzero, Nat.zero_add] at hname
    have hlt : before.countP (·.1.role == .component) < UInt64.size := by
      have hle : before.countP (·.1.role == .component) ≤ before.length := List.countP_le_length
      rw [hsplit, List.length_append, List.length_cons] at hlength
      omega
    exact ⟨hname, by rw [hname, owner?_instanceName hlt]⟩

/-- Names of instances are isolated in every resolution that makes no more replacements than a word can count. No name
of an instance is given to anything else, and each state and each handler is registered by one owner. -/
theorem isolated_of_resolve (options : Options) (hmax : options.maxReplacements ≤ UInt64.size)
    (catalogs : Catalogs) (p : Page) :
    (∀ count page, resolve catalogs options p = .ok (count, page) →
      ∃ entries, Replaces catalogs options p entries ∧ entries.length = count) ∧
    (∀ entries, Replaces catalogs options p entries → Isolated entries) ∧
    (∀ n x, ¬ GivenBesides n (instanceName n x)) ∧
    ∀ states handlers,
      (∀ x ∈ states, (records states handlers).filter (·.2.states.contains x) =
        [(ownerId (owner? x), recordOf states handlers (owner? x))]) ∧
      ∀ x ∈ handlers, (records states handlers).filter (·.2.handlers.contains x) =
        [(ownerId (owner? x), recordOf states handlers (owner? x))] := by
  refine ⟨fun count page => exists_replaces_of_resolve, fun entries => Replaces.isolated hmax, not_givenBesides, ?_⟩
  intro states handlers
  exact ⟨fun x => Emit.filter_records_states, fun x => Emit.filter_records_handlers⟩

def counterSources : List (String × String) :=
  [("Counter.zen", "<script>state n = 0; function f() \x7b n++ \x7d</script><p onclick=\x7bf\x7d>\x7bn\x7d</p>")]

def counterCatalogs : Catalogs where
  components := (Catalog.ofSources counterSources).toOption.getD {}

/-- Two copies of a component with a state are replaced one after the other, and their names are isolated. -/
theorem isolated_of_resolve_counters :
    Options.maxReplacements {} ≤ UInt64.size ∧
    ∃ p entries, Page.read "<Counter /><Counter />" "page.zen" = .ok p ∧
      Replaces counterCatalogs {} p entries ∧ entries.length = 2 ∧ Isolated entries := by
  have hmax : Options.maxReplacements {} ≤ UInt64.size := by decide
  have hresolves : ((Page.read "<Counter /><Counter />" "page.zen").toOption.any fun p =>
      (resolve counterCatalogs {} p).toOption.any (·.1 == 2)) = true := by
    decide +kernel
  obtain ⟨p, hp, hresolves⟩ := exists_eq_ok_of_any hresolves
  obtain ⟨⟨count, page⟩, hresolve, hcount⟩ := exists_eq_ok_of_any hresolves
  obtain ⟨hruns, hisolated, -, -⟩ := isolated_of_resolve {} hmax counterCatalogs p
  obtain ⟨entries, hreplaces, hlength⟩ := hruns count page hresolve
  refine ⟨hmax, p, entries, hp, hreplaces, ?_, hisolated entries hreplaces⟩
  rw [hlength]
  exact beq_iff_eq.mp hcount

end PageCompiler.Component
