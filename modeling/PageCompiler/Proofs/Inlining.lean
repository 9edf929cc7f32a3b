import Mathlib.Data.List.Basic
import PageCompiler.Proofs.Registration
import PageCompiler.Proofs.ScriptGrowth

/-!
# One inlining

What putting one component into a page does to the expressions of the page: those that are bound to
props or become handlers are taken out (`Takes`), and a copy of each expression of the component joins
them under the next free id (`CopyOf`); the blocks of its script are copied too (`CopiesBlock`). Everything that is
stated about a whole resolution rests on
`builds_copyTemplate` and `builds_inline`.
-/

namespace PageCompiler.Component

open Template (Node Attribute Expression LoopScope expressionId freshIds)

variable {a a' a'' : Assembly} {id file : String} {usage : Usage} {component : Component} {b : Rebinding} {u : Unit}
  {role : Role} {nodes : List Node}

variable {code name : String} {expressions : List Expression} {script : Option Script}
  {names : Ordered String × List String}

/-- The ids of the expressions of a page under assembly. -/
def Assembly.ids (a : Assembly) : List String :=
  a.expressions.map (·.id)

/-- The blocks of the script of a page under assembly. -/
def Assembly.blocks (a : Assembly) : List Script.Block :=
  (a.script.getD {}).blocks

/-! ## Blocks that join -/

def Joins (a a' : Assembly) : Prop :=
  ∃ added, (∀ block ∈ added, block.IsRead) ∧ a'.blocks = a.blocks ++ added

theorem Joins.nothing (h : a'.script = a.script) : Joins a a' :=
  ⟨[], nofun, by rw [Assembly.blocks, h, Assembly.blocks, List.append_nil]⟩

theorem Joins.trans (h : Joins a a') (h' : Joins a' a'') : Joins a a'' := by
  obtain ⟨added, hread, hblocks⟩ := h
  obtain ⟨added', hread', hblocks'⟩ := h'
  refine ⟨added ++ added', ?_, by rw [hblocks', hblocks, List.append_assoc]⟩
  intro block hblock
  rcases List.mem_append.mp hblock with hold | hnew
  · exact hread block hold
  · exact hread' block hnew

theorem Joins.isRead (h : Joins a a') (ha : ∀ block ∈ a.blocks, block.IsRead) : ∀ block ∈ a'.blocks, block.IsRead := by
  obtain ⟨added, hread, hblocks⟩ := h
  intro block hblock
  rw [hblocks] at hblock
  rcases List.mem_append.mp hblock with hold | hnew
  · exact ha block hold
  · exact hread block hnew

/-! ## Expressions that are taken out -/

/-- On the way from `a` to `a'` the expressions with the given ids, all of which were there, were taken
out; the other expressions, the next free number and the blocks that were there stayed. -/
structure Takes (ids : List String) (a a' : Assembly) : Prop where
  present : ∀ id ∈ ids, id ∈ a.ids
  left : a'.expressions = a.expressions.filter (fun e => !ids.contains e.id)
  nextId : a'.nextId = a.nextId
  joins : Joins a a'

theorem Takes.nothing (he : a'.expressions = a.expressions) (hn : a'.nextId = a.nextId) (hj : Joins a a') :
    Takes [] a a' :=
  ⟨by simp, by simp [he], hn, hj⟩

theorem Takes.mem_ids {ids : List String} (h : Takes ids a a') : id ∈ a'.ids ↔ id ∈ a.ids ∧ id ∉ ids := by
  simp only [Assembly.ids, h.left, List.mem_map, List.mem_filter, Bool.not_eq_true',
    List.contains_eq_mem, decide_eq_false_iff_not]
  constructor
  · rintro ⟨e, ⟨he, hout⟩, rfl⟩
    exact ⟨⟨e, he, rfl⟩, hout⟩
  · rintro ⟨⟨e, he, rfl⟩, hout⟩
    exact ⟨e, ⟨he, hout⟩, rfl⟩

theorem Takes.append {l m : List String} (h : Takes l a a') (h' : Takes m a' a'') : Takes (l ++ m) a a'' where
  present := by
    intro id hid
    rcases List.mem_append.mp hid with hid | hid
    · exact h.present id hid
    · exact (h.mem_ids.mp (h'.present id hid)).1
  left := by
    rw [h'.left, h.left, List.filter_filter]
    refine List.filter_congr fun e _ => ?_
    simp [Bool.and_comm]
  nextId := h'.nextId.trans h.nextId
  joins := h.joins.trans h'.joins

theorem builds_takeExpression (h : Builds (takeExpression file id) a code a') :
    ∃ e, a.expressions.find? (·.id == id) = some e ∧ code = trimString e.code ∧ Takes [id] a a' := by
  simp only [takeExpression, builds_bind, builds_get] at h
  obtain ⟨_, _, ⟨rfl, rfl⟩, h⟩ := h
  split at h
  · simp at h
  · rename_i a _ e hfind
    simp only [builds_bind, builds_modify, builds_pure] at h
    obtain ⟨_, _, rfl, rfl, rfl⟩ := h
    have hid : e.id = id := by simpa using List.find?_some hfind
    have hmem : e ∈ a.expressions := List.mem_of_find?_eq_some hfind
    refine ⟨e, hfind, rfl, ?_, ?_, rfl, .nothing rfl⟩
    · intro id' hid'
      rw [List.mem_singleton] at hid'
      rw [hid', ← hid]
      exact List.mem_map_of_mem hmem
    · refine List.filter_congr fun e' _ => ?_
      by_cases heq : e'.id = id <;> simp [heq]

theorem stops_takeExpression {d : Diagnostic} :
    Stops (takeExpression file id) a d ↔
      id ∉ a.ids ∧ d = { fault := .danglingAttribute id, file } := by
  simp only [takeExpression, stops_bind, stops_get, false_or, builds_get]
  constructor
  · rintro ⟨_, _, ⟨rfl, rfl⟩, h⟩
    split at h
    · rename_i a hfind
      rw [stops_throw] at h
      refine ⟨?_, h.symm⟩
      intro hid
      obtain ⟨e, he, rfl⟩ := List.mem_map.mp hid
      have := List.find?_eq_none.mp hfind e he
      simp at this
    · simp only [stops_bind, stops_modify, stops_pure, and_false, exists_false, or_false] at h
  · rintro ⟨hid, rfl⟩
    refine ⟨a, a, ⟨rfl, rfl⟩, ?_⟩
    have hfind : a.expressions.find? (·.id == id) = none := by
      rw [List.find?_eq_none]
      intro e he heq
      refine hid (List.mem_map.mpr ⟨e, he, ?_⟩)
      simpa using heq
    rw [hfind]
    simp

/-! ## Props -/

def boundId? (usage : Usage) (prop : String) : Option String :=
  (usage.attributes.find? (·.name == prop)).bind (·.value.id?)

def boundIds (usage : Usage) (props : Ordered (Option String)) : List String :=
  props.filterMap fun (name, _) => boundId? usage name

theorem boundIds_cons (usage : Usage) (p : String × Option String)
    (props : Ordered (Option String)) :
    boundIds usage (p :: props) = (boundId? usage p.1).toList ++ boundIds usage props := by
  cases h : boundId? usage p.1 <;> simp [boundIds, h]

/-- Where the code for a prop was written: at the use, inside loops with these variables, or in the component, as
the default of the prop. -/
inductive Written where
  | atUse (loops : List String)
  | asDefault
deriving DecidableEq, Repr

/-- The code for a prop as it was written, if the use or the component gives some. -/
def passed? (a : Assembly) (usage : Usage) (prop : String) (fallback : Option String) :
    Option (Written × String) :=
  match usage.attributes.find? (·.name == prop) with
  | some attr =>
    let written := Written.atUse (LoopScope.variablesOf attr.place.scope)
    match attr.value with
    | .fixed text => some (written, quote text)
    | .handler name => some (written, name)
    | .expression id => (a.expressions.find? (·.id == id)).map fun e => (written, trimString e.code)
  | none => fallback.map fun code => (.asDefault, code)

/-- The text is what the copy of a component holds in the place of a prop: the code that was written for it, possibly
in parentheses. -/
def PutFor (passed : Option (Written × String)) (text : String) : Prop :=
  match passed with
  | some (_, code) => text = code ∨ text = "(" ++ code ++ ")"
  | none => text = "undefined"

theorem builds_propCode {text : String} {scope : Scope} {fallback : Option String}
    (h : Builds (propCode file scope usage name fallback) a text a') :
    PutFor (passed? a usage name fallback) text ∧ Takes (boundId? usage name).toList a a' := by
  unfold propCode at h
  unfold boundId? passed?
  split at h
  · rename_i hfind
    obtain ⟨rfl, rfl⟩ := builds_pure.mp h
    rw [hfind]
    exact ⟨.inl rfl, .nothing rfl rfl (.nothing rfl)⟩
  · rename_i hfind
    obtain ⟨rfl, rfl⟩ := builds_pure.mp h
    rw [hfind]
    exact ⟨.inl rfl, .nothing rfl rfl (.nothing rfl)⟩
  · rename_i hfind
    simp only [builds_bind, builds_pure] at h
    obtain ⟨taken, a₁, htake, rfl, rfl⟩ := h
    obtain ⟨e, he, rfl, htakes⟩ := builds_takeExpression htake
    rw [hfind]
    refine ⟨?_, htakes⟩
    simp only [he, Option.map_some, PutFor]
    split
    · exact .inl rfl
    · exact .inr rfl
  · rename_i hfind
    obtain ⟨rfl, rfl⟩ := builds_pure.mp h
    rw [hfind]
    cases fallback with
    | none => exact ⟨rfl, .nothing rfl rfl (.nothing rfl)⟩
    | some code => exact ⟨.inr rfl, .nothing rfl rfl (.nothing rfl)⟩

/-- What was taken out before does not change the code for a prop whose own expression is still there. -/
theorem Takes.passed?_eq {ids : List String} (h : Takes ids a a') {prop : String}
    (hbound : ∀ id ∈ (boundId? usage prop).toList, id ∈ a'.ids) (fallback : Option String) :
    passed? a' usage prop fallback = passed? a usage prop fallback := by
  unfold passed?
  split
  · rename_i attr hattr
    cases hvalue : attr.value with
    | fixed text => rfl
    | handler name => rfl
    | expression id =>
      have hid : id ∈ a'.ids := by
        refine hbound id ?_
        simp [boundId?, hattr, hvalue, Template.Value.id?]
      have hout : id ∉ ids := (h.mem_ids.mp hid).2
      simp only [h.left, List.find?_filter]
      congr 2
      funext e
      by_cases heq : e.id = id
      · simp [heq, hout]
      · simp [heq]
  · rfl

/-- An entry of the copy's props belongs to a declared prop: it has the same name, and holds the code that is given for
the prop. -/
structure Fills (a : Assembly) (usage : Usage) (p : String × Option String) (entry : String × String) : Prop where
  name : entry.1 = p.1
  bound : ∀ id ∈ (boundId? usage p.1).toList, id ∈ a.ids
  text : PutFor (passed? a usage p.1 p.2) entry.2

theorem Fills.of_takes {ids : List String} (h : Takes ids a a') {p : String × Option String} {entry : String × String}
    (hfills : Fills a' usage p entry) :
    Fills a usage p entry where
  name := hfills.name
  bound id hid := (h.mem_ids.mp (hfills.bound id hid)).1
  text := h.passed?_eq hfills.bound p.2 ▸ hfills.text

/-- Binding the props of a use gives the code for each, and takes out the expressions that are bound to them. -/
theorem builds_propCodes {props : Ordered (Option String)} {entries : Ordered String}
    (h : Builds (propCodes file usage props) a entries a') :
    List.Forall₂ (Fills a usage) props entries ∧ Takes (boundIds usage props) a a' := by
  simp only [propCodes, builds_bind, builds_get] at h
  obtain ⟨_, _, ⟨rfl, rfl⟩, h⟩ := h
  rename_i a
  generalize Scope.ofScript a.script = scope at h
  induction props generalizing a entries a' with
  | nil =>
    rw [List.mapM_nil, builds_pure] at h
    obtain ⟨rfl, rfl⟩ := h
    exact ⟨.nil, .nothing rfl rfl (.nothing rfl)⟩
  | cons p props ih =>
    simp only [List.mapM_cons, builds_bind, builds_pure] at h
    obtain ⟨_, a₁, ⟨text, a₂, htext, rfl, rfl⟩, _, a₃, hrest, rfl, rfl⟩ := h
    obtain ⟨hput, htakes⟩ := builds_propCode htext
    obtain ⟨hfills, htakes'⟩ := ih _ hrest
    rw [boundIds_cons]
    refine ⟨.cons ⟨rfl, htakes.present, hput⟩ ?_, htakes.append htakes'⟩
    exact hfills.imp fun _ _ => .of_takes htakes

/-! ## Copies of expressions -/

/-- One expression is the copy of another for a use. -/
structure Copies (b : Rebinding) (usage : Usage) (e copy : Expression) : Prop where
  id : copy.id = b.id e.id
  code : Code.renamedExpression e.code (b.reference? e.place.scope) = .ok copy.code
  place : copy.place = b.place usage.place.scope e.place

theorem builds_newIds {ids : Ordered String} :
    Builds (newIds expressions) a ids a' ↔
      a' = { a with nextId := a.nextId + expressions.length } ∧
        ids = expressions.zipIdx.map fun (e, i) => (e.id, expressionId (a.nextId + i)) := by
  simp only [newIds, builds_bind, builds_get, builds_modify, builds_pure]
  constructor
  · rintro ⟨_, _, ⟨rfl, rfl⟩, _, _, rfl, rfl, rfl⟩
    exact ⟨rfl, rfl⟩
  · rintro ⟨rfl, rfl⟩
    exact ⟨a, a, ⟨rfl, rfl⟩, (), _, rfl, rfl, rfl⟩

theorem builds_addExpression {e : Expression} (h : Builds (addExpression component b usage e) a u a') :
    ∃ copy, Copies b usage e copy ∧ a' = { a with expressions := a.expressions ++ [copy] } := by
  unfold addExpression at h
  split at h
  · simp at h
  · rename_i code hcode
    rw [builds_modify] at h
    exact ⟨_, ⟨rfl, hcode, rfl⟩, h⟩

theorem builds_addExpressions (h : Builds (expressions.forM (addExpression component b usage)) a u a') :
    ∃ copies, List.Forall₂ (Copies b usage) expressions copies ∧
      a' = { a with expressions := a.expressions ++ copies } := by
  induction expressions generalizing a with
  | nil =>
    simp only [List.forM_eq_forM, List.forM_nil, builds_pure] at h
    exact ⟨[], .nil, by simp [← h.2]⟩
  | cons e expressions ih =>
    simp only [List.forM_eq_forM, List.forM_cons, builds_bind] at h
    obtain ⟨_, a₁, he, hrest⟩ := h
    obtain ⟨copy, hcopy, rfl⟩ := builds_addExpression he
    obtain ⟨copies, hcopies, rfl⟩ := ih hrest
    exact ⟨copy :: copies, .cons hcopy hcopies, by simp⟩

def copiedNames (role : Role) (a : Assembly) (script : Option Script) : Ordered String :=
  match role with
  | .component => (script.map (instanceRenames a.instances)).getD []
  | .layout => (script.map (layoutRenames a.layouts)).getD []

/-- The assembly after a copy with the script was counted. A layout without a script is not. -/
def counted (a : Assembly) : Role → Option Script → Assembly
  | .component, _ => { a with instances := a.instances + 1 }
  | .layout, none => a
  | .layout, some _ => { a with layouts := a.layouts + 1 }

theorem builds_copyNames (h : Builds (copyNames role script) a names a') :
    names.1 = copiedNames role a script ∧ a' = counted a role script := by
  simp only [copyNames, builds_bind, builds_get] at h
  obtain ⟨_, _, ⟨rfl, rfl⟩, h⟩ := h
  split at h
  · simp only [builds_bind, builds_modify, builds_pure] at h
    obtain ⟨_, _, rfl, rfl, rfl⟩ := h
    exact ⟨rfl, rfl⟩
  · obtain ⟨rfl, rfl⟩ := builds_pure.mp h
    exact ⟨rfl, rfl⟩
  · simp only [builds_bind, builds_modify, builds_pure] at h
    obtain ⟨_, _, rfl, rfl, rfl⟩ := h
    exact ⟨rfl, rfl⟩

theorem takes_of_copyNames (h : Builds (copyNames role script) a names a') : Takes [] a a' := by
  rw [(builds_copyNames h).2, counted.eq_def]
  split <;> exact .nothing rfl rfl (.nothing rfl)

/-! ## Copies of templates -/

/-- The nodes of a copy with the marks of its instance; a layout has none. -/
def marked (role : Role) (name : String) (number : Nat) (nodes : List Node) : List Node :=
  match role with
  | .component => nodes.map (markRoot name number)
  | .layout => nodes

/-- What copying the template of a component for a use does, when it succeeds. -/
structure CopyOf (role : Role) (component : Component) (usage : Usage) (a : Assembly)
    (b : Rebinding) (nodes : List Node) (a' : Assembly) : Prop where
  joins : Joins a a'
  renames : b.renames = copiedNames role a component.page.script
  /-- In the place of each prop stands the code that is given for it. -/
  props : List.Forall₂ (Fills a usage) component.props b.props
  bound : ∀ id ∈ boundIds usage component.props, id ∈ a.ids
  /-- It is gone afterwards, and the copies are there. -/
  expressions : ∃ copies, List.Forall₂ (Copies b usage) component.page.expressions copies ∧
    a'.expressions =
      a.expressions.filter (fun e => !(boundIds usage component.props).contains e.id) ++ copies
  ids : b.ids =
    component.page.expressions.zipIdx.map fun (e, i) => (e.id, expressionId (a.nextId + i))
  nextId : a'.nextId = a.nextId + component.page.expressions.length
  nodes : nodes = marked role component.name a.instances
    ((slotContent usage.name usage.children).fillAll
      (b.nodes usage.place.scope component.page.nodes))

theorem builds_copyTemplate (h : Builds (copyTemplate file role component usage) a (b, nodes) a') :
    CopyOf role component usage a b nodes a' := by
  simp only [copyTemplate, builds_bind, builds_get] at h
  obtain ⟨_, _, ⟨rfl, rfl⟩, ⟨renames, shared⟩, a₁, hnames, h⟩ := h
  rename_i a
  obtain ⟨props, a₂, hprops, ids, a₃, hids, _, a₄, hadd, h⟩ := h
  obtain ⟨rfl, rfl⟩ := builds_newIds.mp hids
  obtain ⟨copies, hcopies, rfl⟩ := builds_addExpressions hadd
  have hcounts := takes_of_copyNames hnames
  obtain rfl := (builds_copyNames hnames).1
  obtain ⟨hfills, htakes⟩ := builds_propCodes hprops
  replace hfills := hfills.imp fun _ _ => Fills.of_takes hcounts
  replace htakes := hcounts.append htakes
  rw [List.nil_append] at htakes
  split at h
  · simp at h
  · obtain ⟨h, rfl⟩ := builds_pure.mp h
    cases h
    exact {
      joins := htakes.joins.trans (.nothing rfl)
      renames := rfl
      props := hfills
      bound := htakes.present
      expressions := ⟨copies, hcopies, by rw [htakes.left]⟩
      ids := by rw [htakes.nextId]
      nextId := by rw [htakes.nextId]
      nodes := rfl }

/-- If the ids of the component are distinct, the copies have the next free ids in turn. -/
theorem CopyOf.map_id (h : CopyOf role component usage a b nodes a')
    (hids : (component.page.expressions.map (·.id)).Nodup) :
    (component.page.expressions.map (·.id)).map b.id =
      freshIds a.nextId component.page.expressions.length := by
  have hkeys : b.ids.keys = component.page.expressions.map (·.id) := by
    rw [h.ids, Ordered.keys, List.map_map]
    conv => rhs; rw [← List.zipIdx_map_fst 0 component.page.expressions, List.map_map]
    rfl
  have hvalues : b.ids.values = freshIds a.nextId component.page.expressions.length := by
    rw [h.ids, Ordered.values, List.map_map, freshIds, List.range'_eq_map_range,
      List.range_eq_range', ← List.zipIdx_map_snd 0 component.page.expressions, List.map_map,
      List.map_map]
    rfl
  rw [← hkeys] at hids ⊢
  rw [← hvalues]
  exact Ordered.map_get?_keys hids

/-- After a copy, the ids of the page are those that were not bound to props and the new ones. -/
theorem CopyOf.ids_eq (h : CopyOf role component usage a b nodes a')
    (hids : (component.page.expressions.map (·.id)).Nodup) :
    a'.ids = a.ids.filter (fun id => !(boundIds usage component.props).contains id) ++
      freshIds a.nextId component.page.expressions.length := by
  obtain ⟨copies, hcopies, hexpressions⟩ := h.expressions
  have hmap : copies.map (·.id) = (component.page.expressions.map (·.id)).map b.id := by
    rw [List.map_map, ← List.forall₂_eq_eq_eq, List.forall₂_map_left_iff,
      List.forall₂_map_right_iff]
    exact hcopies.flip.imp fun _ _ hcopy => hcopy.id
  rw [Assembly.ids, hexpressions, List.map_append, hmap, h.map_id hids, Assembly.ids,
    List.filter_map]
  rfl

/-! ## Attributes on the root -/

/-- The id of the expression that an attribute of a use gives away when it is put on the root. -/
def givenAway? (a : Attribute) : Option String :=
  if (Template.eventName? a.name).isSome then a.value.id? else none

/-- An attribute on the root stands for one of the use: it is the same, or it names a handler. -/
def StandsFor (a found : Attribute) : Prop :=
  found = a ∧ givenAway? a = none ∨ found.value.id? = none

theorem takes_liftForwarded {position : Position} (h : Builds (liftForwarded file usage position code) a name a') :
    Takes [] a a' := by
  unfold liftForwarded at h
  split at h
  · obtain ⟨-, rfl⟩ := builds_pure.mp h
    exact .nothing rfl rfl (.nothing rfl)
  · simp only [builds_bind, builds_get, builds_lift, builds_modify, builds_pure] at h
    obtain ⟨_, _, ⟨rfl, rfl⟩, script, _, ⟨hadd, rfl⟩, _, _, rfl, -, rfl⟩ := h
    obtain ⟨block, hread, hadd⟩ := Script.exists_add_of_addHandler hadd
    refine .nothing rfl rfl ⟨[block], ?_, Script.blocks_of_add hadd⟩
    intro added hadded
    rw [List.mem_singleton.mp hadded]
    exact hread

theorem builds_forwarded {attr found : Attribute} (h : Builds (forwarded file usage attr) a found a') :
    StandsFor attr found ∧ Takes (givenAway? attr).toList a a' := by
  unfold forwarded at h
  split at h
  · rename_i event hevent
    simp only [builds_bind, builds_pure] at h
    obtain ⟨name, a₁, hname, rfl, rfl⟩ := h
    refine ⟨.inr rfl, ?_⟩
    rw [givenAway?, hevent, Option.isSome_some, if_pos rfl]
    unfold forwardedHandler at hname
    split at hname
    · rename_i hvalue
      obtain ⟨-, rfl⟩ := builds_pure.mp hname
      rw [hvalue]
      exact .nothing rfl rfl (.nothing rfl)
    · rename_i hvalue
      rw [hvalue]
      exact takes_liftForwarded hname
    · rename_i id hvalue
      rw [builds_bind] at hname
      obtain ⟨code, a₂, htake, hlift⟩ := hname
      obtain ⟨-, -, -, htakes⟩ := builds_takeExpression htake
      rw [hvalue]
      exact htakes.append (takes_liftForwarded hlift)
  · rename_i hevent
    obtain ⟨rfl, rfl⟩ := builds_pure.mp h
    have hnone : givenAway? attr = none := by simp [givenAway?, hevent]
    rw [hnone]
    exact ⟨.inl ⟨rfl, hnone⟩, .nothing rfl rfl (.nothing rfl)⟩

/-- Putting attributes on a root takes out the expressions that become handlers. -/
theorem builds_mapM_forwarded {attributes found : List Attribute}
    (h : Builds (attributes.mapM (forwarded file usage)) a found a') :
    List.Forall₂ StandsFor attributes found ∧ Takes (attributes.filterMap givenAway?) a a' := by
  induction attributes generalizing a found with
  | nil =>
    obtain ⟨rfl, rfl⟩ := builds_pure.mp h
    exact ⟨.nil, .nothing rfl rfl (.nothing rfl)⟩
  | cons attr attributes ih =>
    simp only [List.mapM_cons, builds_bind, builds_pure] at h
    obtain ⟨one, a₁, hone, rest, a₂, hrest, rfl, rfl⟩ := h
    obtain ⟨hstands, htakes⟩ := builds_forwarded hone
    obtain ⟨hstands', htakes'⟩ := ih hrest
    refine ⟨.cons hstands hstands', ?_⟩
    have happend := htakes.append htakes'
    cases haway : givenAway? attr <;> simpa [haway] using happend

/-- The ids of the expressions of a use that become handlers on the root of the copied nodes. -/
def handedIds (role : Role) (component : Component) (usage : Usage) (copied : List Node) :
    List String :=
  match role with
  | .component =>
    if hasSingleRoot copied then (passedOn usage component.props.keys).filterMap givenAway? else []
  | .layout => []

/-- The nodes are the copied ones, with the attributes of the use on their single root if they have
one. -/
def RootedAs (component : Component) (usage : Usage) (copied nodes : List Node) : Prop :=
  nodes = copied ∨ ∃ found, List.Forall₂ StandsFor (passedOn usage component.props.keys) found ∧
    nodes = onSingleRoot copied fun own => found.foldl mergeAttribute own

theorem builds_forwardAttributes {copied : List Node}
    (h : Builds (forwardAttributes file usage component.props.keys copied) a nodes a') :
    RootedAs component usage copied nodes ∧
      Takes (handedIds .component component usage copied) a a' := by
  unfold forwardAttributes at h
  unfold handedIds
  by_cases hroot : hasSingleRoot copied = true
  · simp only [hroot, Bool.not_true, Bool.false_eq_true, if_false, builds_bind, builds_pure] at h
    obtain ⟨found, a₁, hfound, rfl, rfl⟩ := h
    obtain ⟨hstands, htakes⟩ := builds_mapM_forwarded hfound
    simp only [hroot, if_true]
    exact ⟨.inr ⟨found, hstands, rfl⟩, htakes⟩
  · simp only [hroot, Bool.not_false, if_true, builds_pure] at h
    obtain ⟨rfl, rfl⟩ := h
    simp only [hroot, Bool.false_eq_true, if_false]
    exact ⟨.inl rfl, .nothing rfl rfl (.nothing rfl)⟩

/-! ## Scripts and styles -/

/-- One block is the copy of another. -/
structure CopiesBlock (b : Rebinding) (block copy : Script.Block) : Prop where
  raw : ∃ references, block.references = .ok references ∧
    copy.raw = String.ofList (Code.applyEdits (blockEdits b block references) block.raw.toList)
  isRead : copy.IsRead

theorem builds_addBlock {block : Script.Block} (h : Builds (addBlock component b block) a u a') :
    (∃ copy, CopiesBlock b block copy ∧ a'.blocks = a.blocks ++ [copy]) ∧ Takes [] a a' := by
  unfold addBlock at h
  split at h
  · simp at h
  · rename_i references hreferences
    simp only [builds_bind, builds_get, builds_lift, builds_modify] at h
    obtain ⟨_, _, ⟨rfl, rfl⟩, copy, _, ⟨hread, rfl⟩, script, _, ⟨hadd, rfl⟩, rfl⟩ := h
    have hraw := Script.raw_of_read hread
    have hprogram : copy.IsRead := Script.isRead_of_read hread
    have hcopy : CopiesBlock b block
        { copy with lifted := block.lifted, file := some (block.file.getD component.file) } :=
      ⟨⟨references, hreferences, hraw⟩, hprogram⟩
    have hblocks := Script.blocks_of_add hadd
    refine ⟨⟨_, hcopy, hblocks⟩, .nothing rfl rfl ⟨_, ?_, hblocks⟩⟩
    intro added hadded
    rw [List.mem_singleton.mp hadded]
    exact hcopy.isRead

theorem builds_addBlocks {blocks : List Script.Block} (h : Builds (blocks.forM (addBlock component b)) a u a') :
    (∃ copies, List.Forall₂ (CopiesBlock b) blocks copies ∧ a'.blocks = a.blocks ++ copies) ∧
      Takes [] a a' := by
  induction blocks generalizing a with
  | nil =>
    obtain ⟨-, rfl⟩ := builds_pure.mp h
    exact ⟨⟨[], .nil, by simp⟩, .nothing rfl rfl (.nothing rfl)⟩
  | cons block blocks ih =>
    simp only [List.forM_eq_forM, List.forM_cons, builds_bind] at h
    obtain ⟨_, a₁, hblock, hrest⟩ := h
    obtain ⟨⟨copy, hcopy, hadded⟩, htakes⟩ := builds_addBlock hblock
    obtain ⟨⟨copies, hcopies, hadded'⟩, htakes'⟩ := ih hrest
    refine ⟨⟨copy :: copies, .cons hcopy hcopies, ?_⟩, htakes.append htakes'⟩
    rw [hadded', hadded, List.append_assoc, List.singleton_append]

theorem builds_addStyles (h : Builds (addStyles role component) a u a') : a'.blocks = a.blocks ∧ Takes [] a a' := by
  simp only [addStyles, builds_bind, builds_get] at h
  obtain ⟨_, _, ⟨rfl, rfl⟩, h⟩ := h
  split at h
  · obtain ⟨-, rfl⟩ := builds_pure.mp h
    exact ⟨rfl, .nothing rfl rfl (.nothing rfl)⟩
  · rw [builds_modify] at h
    subst h
    exact ⟨rfl, .nothing rfl rfl (.nothing rfl)⟩

/-! ## The whole -/

def scriptBlocks (component : Component) : List Script.Block :=
  (component.page.script.map (·.blocks)).getD []

/-- The last blocks of a page under assembly are the copies of those of a component. -/
def EndsInCopies (component : Component) (b : Rebinding) (a : Assembly) : Prop :=
  ∃ before copies, List.Forall₂ (CopiesBlock b) (scriptBlocks component) copies ∧
    a.blocks = before ++ copies

theorem builds_scripts {v : Unit} (hblocks : Builds ((scriptBlocks component).forM (addBlock component b)) a u a')
    (hstyles : Builds (addStyles role component) a' v a'') : EndsInCopies component b a'' ∧ Takes [] a a'' := by
  obtain ⟨⟨copies, hcopies, hadded⟩, htakes⟩ := builds_addBlocks hblocks
  obtain ⟨hkept, htakes'⟩ := builds_addStyles hstyles
  exact ⟨⟨a.blocks, copies, hcopies, hkept.trans hadded⟩, htakes.append htakes'⟩

/-- What putting a component into a page does, when it succeeds: the template is copied, the expressions that become
handlers on the root of the copy are taken out, and the blocks of the script are copied. -/
structure InlineOf (role : Role) (component : Component) (usage : Usage) (a : Assembly)
    (nodes : List Node) (a' : Assembly) : Prop where
  steps : ∃ b copied a₁, CopyOf role component usage a b copied a₁ ∧
    Takes (handedIds role component usage copied) a₁ a' ∧ RootedAs component usage copied nodes ∧
    EndsInCopies component b a'

theorem builds_inline (h : Builds (inline file role component usage) a nodes a') :
    InlineOf role component usage a nodes a' := by
  simp only [inline, builds_bind] at h
  obtain ⟨⟨b, copied⟩, a₁, hcopy, h⟩ := h
  refine ⟨b, copied, a₁, builds_copyTemplate hcopy, ?_⟩
  cases role with
  | component =>
    simp only [builds_bind, builds_pure] at h
    obtain ⟨rooted, a₂, hroot, _, a₃, hblocks, _, a₄, hstyles, rfl, rfl⟩ := h
    obtain ⟨hrooted, hfirst⟩ := builds_forwardAttributes hroot
    obtain ⟨hcopies, hrest⟩ := builds_scripts hblocks hstyles
    have hall := hfirst.append hrest
    rw [List.append_nil] at hall
    exact ⟨hall, hrooted, hcopies⟩
  | layout =>
    simp only [builds_bind, builds_pure] at h
    obtain ⟨_, _, ⟨rfl, rfl⟩, _, a₃, hblocks, _, a₄, hstyles, rfl, rfl⟩ := h
    obtain ⟨hcopies, hrest⟩ := builds_scripts hblocks hstyles
    exact ⟨hrest, .inl rfl, hcopies⟩

end PageCompiler.Component
