import Mathlib.Logic.Relation
import PageCompiler.Proofs.ResolutionRun

/-!
# Changes to a page under assembly

Once the names of a copy are made, putting it into a page does two kinds of things: a block that was read joins the
script, or the script stays and something else changes (`Change`). `Step.changes` says so of a whole replacement. What
each block that joins keeps therefore holds of the script of every resolved page (`holds_of_resolve`).
-/

namespace PageCompiler.Component

open Relation (ReflTransGen)
open Template (Node)

/-- How many copies with a role were counted. -/
def Assembly.number (a : Assembly) : Role → Nat
  | .component => a.instances
  | .layout => a.layouts

/-- A change to a page under assembly that counts no copy. -/
inductive Change (a a' : Assembly) : Prop
  | apart : a'.script = a.script → a'.number = a.number → Change a a'
  | joins {block : Script.Block} {file : String} {s : Script} : block.IsRead →
      (a.script.getD {}).add block file = .ok s → a'.script = some s → a'.number = a.number → Change a a'

theorem number_of_changes {a a' : Assembly} (h : ReflTransGen Change a a') : a'.number = a.number := by
  induction h with
  | refl => rfl
  | tail _ hlast ih =>
    rw [← ih]
    cases hlast with
    | apart _ hnumber => exact hnumber
    | joins _ _ _ hnumber => exact hnumber

/-! ## Computations that count no copies -/

section

variable {α β : Type}

/-- The computation does nothing but change the page in these ways. -/
def Changes (p : Assembling α) : Prop :=
  ∀ a x a', Builds p a x a' → ReflTransGen Change a a'

theorem changes_pure (x : α) : Changes (pure x : Assembling α) := by
  intro a y a' h
  rw [(builds_pure.mp h).2]

theorem changes_throw (d : Diagnostic) : Changes (throw d : Assembling α) :=
  fun _ _ _ h => absurd h builds_throw

theorem changes_get : Changes (get : Assembling Assembly) := by
  intro a y a' h
  rw [(builds_get.mp h).2]

theorem changes_modify {f : Assembly → Assembly} (hscript : ∀ a, (f a).script = a.script)
    (hnumber : ∀ a, (f a).number = a.number) : Changes (modify f : Assembling Unit) := by
  intro a y a' h
  rw [builds_modify.mp h]
  exact .single (.apart (hscript a) (hnumber a))

theorem Changes.bind {p : Assembling α} {f : α → Assembling β} (hp : Changes p) (hf : ∀ x, Changes (f x)) :
    Changes (p >>= f) := by
  intro a y a' h
  obtain ⟨x, a₁, hfirst, hrest⟩ := builds_bind.mp h
  exact (hp a x a₁ hfirst).trans (hf x a₁ y a' hrest)

theorem Changes.mapM {f : α → Assembling β} (hf : ∀ x, Changes (f x)) (items : List α) :
    Changes (items.mapM f) := by
  induction items with
  | nil => exact changes_pure _
  | cons item items ih =>
    rw [List.mapM_cons]
    exact (hf item).bind fun _ => ih.bind fun _ => changes_pure _

theorem Changes.forM {f : α → Assembling Unit} (hf : ∀ x, Changes (f x)) (items : List α) :
    Changes (items.forM f) := by
  induction items with
  | nil => exact changes_pure _
  | cons item items ih =>
    rw [List.forM_eq_forM, List.forM_cons]
    exact (hf item).bind fun _ => ih

end

theorem changes_takeExpression (file id : String) : Changes (takeExpression file id) := by
  refine changes_get.bind fun a => ?_
  split
  · exact changes_throw _
  · exact (changes_modify (fun _ => by rfl) fun _ => by rfl).bind fun _ => changes_pure _

theorem changes_propCodes (file : String) (usage : Usage) (props : Ordered (Option String)) :
    Changes (propCodes file usage props) := by
  refine changes_get.bind fun a => Changes.mapM (fun p => ?_) props
  refine Changes.bind ?_ fun _ => changes_pure _
  unfold propCode
  split
  · exact changes_pure _
  · exact changes_pure _
  · exact (changes_takeExpression _ _).bind fun _ => changes_pure _
  · exact changes_pure _

theorem changes_newIds (expressions : List Template.Expression) : Changes (newIds expressions) :=
  changes_get.bind fun _ => (changes_modify (fun _ => by rfl) fun _ => by rfl).bind fun _ => changes_pure _

theorem changes_addExpression (component : Component) (b : Rebinding) (usage : Usage) (e : Template.Expression) :
    Changes (addExpression component b usage e) := by
  unfold addExpression
  split
  · exact changes_throw _
  · exact changes_modify (fun _ => rfl) fun _ => rfl

/-- Code that is passed on as a handler joins the script as a block. -/
theorem changes_liftForwarded (file : String) (usage : Usage) (position : Position) (code : String) :
    Changes (liftForwarded file usage position code) := by
  intro a name a' h
  unfold liftForwarded at h
  split at h
  · exact changes_pure _ _ _ _ h
  · simp only [builds_bind, builds_get, builds_lift, builds_modify, builds_pure] at h
    obtain ⟨_, _, ⟨rfl, rfl⟩, script, _, ⟨hadd, rfl⟩, _, _, rfl, -, rfl⟩ := h
    obtain ⟨block, hread, hadd⟩ := Script.exists_add_of_addHandler hadd
    exact .single (.joins hread hadd rfl rfl)

theorem changes_forwarded (file : String) (usage : Usage) (a : Template.Attribute) :
    Changes (forwarded file usage a) := by
  unfold forwarded
  split
  · refine Changes.bind ?_ fun _ => changes_pure _
    unfold forwardedHandler
    split
    · exact changes_pure _
    · exact changes_liftForwarded _ _ _ _
    · exact (changes_takeExpression _ _).bind fun _ => changes_liftForwarded _ _ _ _
  · exact changes_pure _

theorem changes_forwardAttributes (file : String) (usage : Usage) (props : List String) (nodes : List Node) :
    Changes (forwardAttributes file usage props nodes) := by
  unfold forwardAttributes
  split
  · exact changes_pure _
  · exact (Changes.mapM (changes_forwarded file usage) _).bind fun _ => changes_pure _

theorem changes_addBlock (component : Component) (b : Rebinding) (block : Script.Block) :
    Changes (addBlock component b block) := by
  intro a u a' h
  unfold addBlock at h
  split at h
  · exact absurd h builds_throw
  · simp only [builds_bind, builds_get, builds_lift, builds_modify] at h
    obtain ⟨_, _, ⟨rfl, rfl⟩, copy, _, ⟨hread, rfl⟩, script, _, ⟨hadd, rfl⟩, rfl⟩ := h
    have hprogram : copy.IsRead := Script.isRead_of_read hread
    have hcopy : Script.Block.IsRead
        { copy with lifted := block.lifted, file := some (block.file.getD component.file) } := hprogram
    exact .single (.joins hcopy hadd rfl rfl)

theorem changes_addStyles (role : Role) (component : Component) : Changes (addStyles role component) := by
  refine changes_get.bind fun a => ?_
  split
  · exact changes_pure _
  · exact changes_modify (fun _ => rfl) fun _ => rfl

/-! ## Replacements -/

theorem script_of_copyNames {role : Role} {script : Option Script} {names : Ordered String × List String}
    {a a' : Assembly} (h : Builds (copyNames role script) a names a') : a'.script = a.script := by
  rw [(builds_copyNames h).2, counted.eq_def]
  split <;> rfl

theorem changes_of_copyTemplate {file : String} {role : Role} {component : Component} {usage : Usage}
    {copied : Rebinding × List Node} {a a' : Assembly}
    (h : Builds (copyTemplate file role component usage) a copied a') :
    ∃ names a₁, Builds (copyNames role component.page.script) a names a₁ ∧ ReflTransGen Change a₁ a' := by
  simp only [copyTemplate, builds_bind, builds_get] at h
  obtain ⟨_, _, ⟨rfl, rfl⟩, names, a₁, hnames, props, a₂, hprops, ids, a₃, hids, _, a₄, hadd, h⟩ := h
  have hlast : a' = a₄ := by
    split at h
    · exact absurd h builds_throw
    · exact (builds_pure.mp h).2.symm
  rw [hlast]
  refine ⟨names, a₁, hnames, (changes_propCodes _ _ _ _ _ _ hprops).trans ?_⟩
  exact (changes_newIds _ _ _ _ hids).trans (Changes.forM (changes_addExpression _ _ _) _ _ _ _ hadd)

variable {catalogs : Catalogs} {file : String}

/-- A replacement makes the names of the copy, and then changes the page without counting copies. -/
theorem Step.changes {s s' : Stage} {u : Use} (h : Step catalogs file s u s') :
    ∃ names a, Builds (copyNames u.role u.component.page.script) s.parts names a ∧ ReflTransGen Change a s'.parts := by
  obtain ⟨copy, hinline, -⟩ := h.replaced
  simp only [inline, builds_bind] at hinline
  obtain ⟨⟨b, copied⟩, a₁, hcopy, hinline⟩ := hinline
  obtain ⟨names, a₀, hnames, hchanges⟩ := changes_of_copyTemplate hcopy
  refine ⟨names, a₀, hnames, hchanges.trans ?_⟩
  have hrest (role : Role) (blocks : List Script.Block) (nodes : List Node) : Changes (do
      blocks.forM (addBlock u.component b)
      addStyles role u.component
      return nodes) :=
    (Changes.forM (changes_addBlock _ _) _).bind fun _ => (changes_addStyles _ _).bind fun _ => changes_pure _
  revert hinline
  cases u.role with
  | component =>
    exact Changes.bind (changes_forwardAttributes _ _ _ _) (hrest _ _) _ _ _
  | layout =>
    exact Changes.bind (changes_pure _) (hrest _ _) _ _ _

/-! ## What the blocks of a script keep -/

section

variable {P : Script → Prop}
  (hadd : ∀ {s s' : Script} {block : Script.Block} {file : String},
    P s → block.IsRead → s.add block file = .ok s' → P s')
include hadd

theorem holds_of_changes {a a' : Assembly} (h : ReflTransGen Change a a') (ha : P (a.script.getD {})) :
    P (a'.script.getD {}) := by
  induction h with
  | refl => exact ha
  | tail _ hlast ih =>
    cases hlast with
    | apart hscript _ =>
      rw [hscript]
      exact ih
    | joins hread hjoin hscript _ =>
      rw [hscript]
      exact hadd ih hread hjoin

theorem Step.holds {s s' : Stage} {u : Use} (h : Step catalogs file s u s') (hs : P (s.parts.script.getD {})) :
    P (s'.parts.script.getD {}) := by
  obtain ⟨names, a, hnames, hchanges⟩ := h.changes
  refine holds_of_changes hadd hchanges ?_
  rw [script_of_copyNames hnames]
  exact hs

theorem Run.holds {s s' : Stage} {n : Nat} {taken : List String} (h : Run catalogs file s n taken s')
    (hs : P (s.parts.script.getD {})) : P (s'.parts.script.getD {}) := by
  induction h with
  | done s => exact hs
  | step hstep _ ih => exact ih (hstep.holds hadd hs)

/-- What holds of no script and is kept by each block that was read holds of the script of every resolved page. -/
theorem holds_of_resolve (hempty : P {}) {source path : String} {options : Options} {p page : Page} {count : Nat}
    (hp : Page.read source path = .ok p) (h : resolve catalogs options p = .ok (count, page)) :
    P (page.script.getD {}) := by
  obtain ⟨taken, a, hrun, -, hpage⟩ := run_of_resolve h
  rw [hpage]
  exact hrun.holds hadd (Script.holds_of_read hadd hempty hp)

end

end PageCompiler.Component
