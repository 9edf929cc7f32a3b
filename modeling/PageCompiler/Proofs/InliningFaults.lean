import PageCompiler.Proofs.Inlining

/-!
# Faults of an inlining

Putting one component into a page can stop for six causes and for no other (`inlinesOnly_inline`): an expression is not
there or cannot be read, content is passed to a slot that the component lacks, or a block of script cannot be read or
declares a state again.
-/

namespace PageCompiler

open Template (Node)

/-- The faults at which putting a component into a page can stop. -/
inductive Fault.OfInlining : Fault → Prop
  | danglingAttribute (id : String) : OfInlining (.danglingAttribute id)
  | unreadableExpression (cause : SyntaxError) : OfInlining (.unreadableExpression cause)
  | unmatchedSlot (component slot : String) : OfInlining (.unmatchedSlot component slot)
  | ofScript {fault : Fault} (h : fault.OfScript) : OfInlining fault

theorem Fault.OfInlining.not_stalled {fault : Fault} (h : fault.OfInlining) : fault.kind ≠ .resolutionStalled := by
  cases h with
  | ofScript h => cases h <;> nofun
  | _ => nofun

namespace Component

variable {α β : Type} {P : Fault → Prop}

/-- The computation stops only at faults with the property. -/
structure StopsOnly (P : Fault → Prop) (p : Assembling α) : Prop where
  fault : ∀ {a d}, Stops p a d → P d.fault

namespace StopsOnly

theorem pure (x : α) : StopsOnly P (pure x) :=
  ⟨fun h => absurd h stops_pure⟩

theorem get : StopsOnly P get :=
  ⟨fun h => absurd h stops_get⟩

theorem modify (f : Assembly → Assembly) : StopsOnly P (modify f) :=
  ⟨fun h => absurd h stops_modify⟩

theorem throw {d : Diagnostic} (h : P d.fault) : StopsOnly P (throw d : Assembling α) :=
  ⟨fun hstops => stops_throw.mp hstops ▸ h⟩

theorem lift {x : Compiled α} (h : ∀ d, x = .error d → P d.fault) : StopsOnly P (liftM x : Assembling α) :=
  ⟨fun hstops => h _ (stops_lift.mp hstops)⟩

theorem bind {p : Assembling α} {f : α → Assembling β} (hp : StopsOnly P p) (hf : ∀ x, StopsOnly P (f x)) :
    StopsOnly P (p >>= f) := by
  refine ⟨fun h => ?_⟩
  rcases stops_bind.mp h with h | ⟨x, a', -, h⟩
  · exact hp.fault h
  · exact (hf x).fault h

theorem mapM {f : α → Assembling β} (hf : ∀ x, StopsOnly P (f x)) (items : List α) : StopsOnly P (items.mapM f) := by
  refine ⟨fun h => ?_⟩
  obtain ⟨before, x, after, ys, a', -, -, h⟩ := stops_mapM.mp h
  exact (hf x).fault h

theorem forM {f : α → Assembling Unit} (hf : ∀ x, StopsOnly P (f x)) (items : List α) :
    StopsOnly P (items.forM f) := by
  induction items with
  | nil => exact pure _
  | cons x items ih => exact bind (hf x) fun _ => ih

end StopsOnly

section
variable {component : Component} {b : Rebinding} {usage : Usage} {file : String}

theorem stopsOnly_liftForwarded {code : String} {position : Position} (h : ∀ {fault : Fault}, fault.OfScript → P fault) :
    StopsOnly P (liftForwarded file usage position code) := by
  unfold liftForwarded
  split
  · exact .pure _
  · refine .bind .get fun s => .bind (.lift fun d hadd => h (Script.ofScript_of_addHandler hadd)) fun script => ?_
    exact .bind (.modify _) fun _ => .pure _

theorem stopsOnly_addExpression {e : Template.Expression} (h : ∀ cause, P (.unreadableExpression cause)) :
    StopsOnly P (addExpression component b usage e) := by
  unfold addExpression
  split
  · exact .throw (h _)
  · exact .modify _

theorem stopsOnly_addBlock {block : Script.Block} (h : ∀ {fault : Fault}, fault.OfScript → P fault) :
    StopsOnly P (addBlock component b block) := by
  unfold addBlock
  split
  · exact .throw (h (.badScript _))
  · refine .bind .get fun a => .bind (.lift fun d hread => h (Script.ofScript_of_read hread)) fun copy => ?_
    exact .bind (.lift fun d hadd => h (Script.ofScript_of_add hadd)) fun script => .modify _

end

abbrev InlinesOnly (p : Assembling α) : Prop :=
  StopsOnly Fault.OfInlining p

theorem inlinesOnly_takeExpression (file id : String) : InlinesOnly (takeExpression file id) := by
  refine ⟨fun h => ?_⟩
  rw [(stops_takeExpression.mp h).2]
  exact .danglingAttribute id

theorem inlinesOnly_forwardAttributes (file : String) (usage : Usage) (props : List String) (nodes : List Node) :
    InlinesOnly (forwardAttributes file usage props nodes) := by
  unfold forwardAttributes
  split
  · exact .pure _
  · refine .bind (.mapM (fun a => ?_) _) fun found => .pure _
    unfold forwarded
    split
    · refine .bind ?_ fun _ => .pure _
      unfold forwardedHandler
      split
      · exact .pure _
      · exact stopsOnly_liftForwarded .ofScript
      · exact .bind (inlinesOnly_takeExpression ..) fun code => stopsOnly_liftForwarded .ofScript
    · exact .pure _

theorem inlinesOnly_propCodes (file : String) (usage : Usage) (props : Ordered (Option String)) :
    InlinesOnly (propCodes file usage props) := by
  refine .bind .get fun a => .mapM (fun prop => .bind ?_ fun _ => .pure _) _
  unfold propCode
  split
  · exact .pure _
  · exact .pure _
  · exact .bind (inlinesOnly_takeExpression ..) fun code => .pure _
  · exact .pure _

theorem inlinesOnly_copyNames (role : Role) (script : Option Script) : InlinesOnly (copyNames role script) := by
  refine .bind .get fun a => ?_
  split
  · exact .bind (.modify _) fun _ => .pure _
  · exact .pure _
  · exact .bind (.modify _) fun _ => .pure _

theorem inlinesOnly_copyTemplate (file : String) (role : Role) (component : Component) (usage : Usage) :
    InlinesOnly (copyTemplate file role component usage) := by
  refine .bind .get fun a => .bind (inlinesOnly_copyNames ..) fun names => ?_
  refine .bind (inlinesOnly_propCodes ..) fun props => .bind ?_ fun ids => ?_
  · exact .bind .get fun a => .bind (.modify _) fun _ => .pure _
  · refine .bind (.forM (fun e => stopsOnly_addExpression .unreadableExpression) _) fun _ => ?_
    dsimp only
    generalize (slotContent usage.name usage.children).unmatched? _ = unmatched
    cases unmatched with
    | some slot => exact .throw (.unmatchedSlot ..)
    | none => exact .pure _

theorem inlinesOnly_addStyles (role : Role) (component : Component) : InlinesOnly (addStyles role component) := by
  refine .bind .get fun a => ?_
  split
  · exact .pure _
  · exact .modify _

/-- Putting a component into a page stops only at faults of an inlining. -/
theorem inlinesOnly_inline (file : String) (role : Role) (component : Component) (usage : Usage) :
    InlinesOnly (inline file role component usage) := by
  refine .bind (inlinesOnly_copyTemplate ..) fun copied => ?_
  cases role with
  | component =>
    refine .bind (inlinesOnly_forwardAttributes ..) fun nodes => .bind (.forM (fun _ => stopsOnly_addBlock .ofScript) _) fun _ => ?_
    exact .bind (inlinesOnly_addStyles ..) fun _ => .pure _
  | layout =>
    refine .bind (.pure _) fun nodes => .bind (.forM (fun _ => stopsOnly_addBlock .ofScript) _) fun _ => ?_
    exact .bind (inlinesOnly_addStyles ..) fun _ => .pure _

end Component

end PageCompiler
