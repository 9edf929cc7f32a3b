import PageCompiler.Proofs.ParserLayout

/-!
# Places of what the grammar reads

Each production lays out what it reads, if the productions that it calls do. By induction on the depth of the grammar
the names, functions and markup of every expression and every program lie in their places (`fit_of_parseExpression`,
`fit_of_parseProgram`): names and functions are apart from each other, what a function holds lies inside of it, and
markup starts with an angle.

Most productions follow the rules of their combinators, and are found by instance search. A step is given by hand where
a production looks at the word before it, or at the shape of a tree that it has read.
-/

namespace PageCompiler.Code

variable {cs : List Char} {t : Tree}

-- an instance for a production is as large as the production
set_option synthInstance.maxSize 1000000000000000

open Code.Tree (Fit Keeps)
open Treed (trees)

/-- Whatever the grammar reads inside of a production lies in its place. -/
class Grammar.Lays (g : Grammar) : Prop where
  read : ∀ goal, Code.Lays (g.read goal)

section
variable {α : Type} {g : Grammar} [h : g.Lays] {role : ParameterRole} {code : List Char} {s s' : State}
  {lo start : Nat} {held rest : List (List Tree)} {decorators : List Tree}
  {isAsync isGenerator returnType allTypes isAwait constant hoisted isDeclaration needsName : Bool}

instance {goal : Goal} : Lays (g.read goal) := h.read goal

/-! ## Targets of declarations -/

instance : Lays g.typeAnnotation := .steps
instance : Lays g.initializer := .steps
instance : Lays g.restBinding := .steps
instance : Lays g.bindingElement := .steps

instance : Lays g.memberName := by
  refine .of_from fun _ => .bind_none fun _ => .ite inferInstance (.current_then fun l => ?_)
  split <;> infer_instance

instance : Lays g.bindingProperty := .steps
instance : Lays g.binding := .steps

instance {allowed modifiers : List String} : Lays (allowOnly allowed modifiers) := by
  unfold allowOnly
  infer_instance

instance {word : String} : Lays (isModifying word) := by
  unfold isModifying
  infer_instance

instance {allowsConst : Bool} : Lays (g.modifiers allowsConst) := by
  refine .of_from fun _ => .growing_of_gathers inferInstance inferInstance fun earlier => .current_then fun l => ?_
  split <;> infer_instance

instance : Lays g.decorators := by
  unfold Grammar.decorators
  infer_instance

instance : Lays (g.parameter role) := .steps
instance : Lays startsReceiver := .steps

instance : Lays (g.parameters role) := by
  refine .place_then fun start => .bind_none fun _ => .ite (.bind_none fun _ => ?_) ?_
  all_goals
    refine .bind_none fun _ => .bind_none fun _ => .ite ?_ inferInstance
    exact .bind_none fun _ => .bind_list inferInstance inferInstance inferInstance

omit h in
theorem kind_of_gives_parameters (h : Gives (g.parameters role) s t s') :
    t.kind = .params ∧ t.span.start = s.start := by
  obtain ⟨start, s₁, hplace, hgives⟩ := gives_bind.mp h
  obtain ⟨rfl, rfl⟩ := gives_place.mp hplace
  refine (?_ : Ensures (fun t => t.kind = .params ∧ t.span.start = s₁.start) _).spec hgives
  repeat' first
    | exact .pure ⟨rfl, rfl⟩
    | refine .finish_bind fun stop => ?_
    | refine .ite ?_ ?_
    | refine .bind fun _ => ?_
    | split

theorem LaysFrom.parameters_bind [Treed α] {f : Tree → Parser α}
    (hf : ∀ t, LaysFrom lo (t.parts :: held) (f t)) : LaysFrom lo held (g.parameters role >>= f) := by
  refine .bind_spec inferInstance (fun hgives => (kind_of_gives_parameters hgives).1) fun t ht => ?_
  refine .of_keeps (Keeps.append ?_ (.refl held.flatten)) (hf t)
  obtain ⟨kind, span, parts⟩ := t
  cases ht
  exact Tree.keeps_parts trivial

instance (priority := low) [Treed α] {f : Tree → Parser α}
    [hf : ∀ t, LaysFrom lo (t.parts :: held) (f t)] : LaysFrom lo held (g.parameters role >>= f) :=
  .parameters_bind hf

/-! ## Types -/

instance : Lays g.typeName := .steps
instance : Lays g.typeArguments := .steps
instance : Lays g.typeArguments? := .steps
instance : Lays g.lineTypeArguments? := .steps
instance : Lays g.typeParameter := .steps
instance : Lays g.typeParameters? := .steps
instance : Lays g.resultType := .steps
instance : Lays g.resultAnnotation := .steps
instance : Lays g.startsFunctionType := .steps
instance : Lays endTypeMember := .steps
instance : Lays startsIndexSignature := .steps
instance : Lays g.indexSignature := .steps
instance : Lays startsAccessor := .steps

instance : Lays startsMappedType := by
  unfold startsMappedType
  infer_instance

instance : Lays g.mappedType := .steps
instance : Lays g.tupleElement := .steps

instance : Lays (g.importType start) := by
  refine .of_from fun _ => .bind_none fun _ => .bind_none fun _ => .current_then fun l => ?_
  split <;> infer_instance

instance : Lays g.templateType := .steps
instance {mark : String} {item : Parser Tree} [Lays item] : Lays (g.joinedTypes mark item) := .steps

instance : Lays isAtBinaryOperator := by
  refine .current_then fun l => ?_
  split <;> infer_instance

instance : Lays startsExpression := by
  refine .current_then fun l => ?_
  split <;> infer_instance

instance : Lays g.expressionTypes := by
  refine .of_from fun lo => .bind_none fun _ => .bind_none fun _ => ?_
  refine .bind_pair inferInstance fun types _ => .ite (.bind_none fun _ => ?_) ?_
  all_goals
    refine .bind_none fun _ => .ite inferInstance (.bind_none fun _ => ?_)
    refine .current_then fun l => ?_
    split <;> infer_instance

instance : Lays g.functionType := .steps
instance {makes : Bool} : Lays (g.signature makes) := .steps
instance : Lays g.typeMember := .steps
instance : Lays g.typeMembers := .steps

instance : Lays g.plainType := by
  refine .place_then fun start => .current_then fun l => ?_
  split
  case h_6 =>
    refine .bind_none fun _ => .current_then fun l => ?_
    split <;> infer_instance
  all_goals infer_instance

instance : Lays g.postfixType := .steps
instance : Lays g.typeOperand := .steps
instance : Lays g.type := .steps

/-! ## Elements -/

instance : Lays elementWord := by
  have hmore : ∀ n, Lays (modify fun s => { s with
      stop := s.stop + Text.byteLength (s.rest.take n)
      rest := s.rest.drop n } : Parser Unit) := fun n => .modify fun hs =>
    ⟨⟨hs.last_le, Nat.le_add_right_of_le hs.start_le, fun hword => Nat.lt_add_right _ (hs.start_lt hword), hs.here,
      hs.rest.drop n, hs.mark⟩, Nat.le_refl _, Nat.le_refl _⟩
  refine .current_then fun l => ?_
  split <;> infer_instance

instance {fuel : Nat} : Lays (elementName fuel) := .steps
instance : Lays attributeName := .steps

theorem isFront_cutAttributeValue (cs : List Char) : (cutAttributeValue cs).IsFront cs := by
  unfold cutAttributeValue
  split
  next => exact .of_isOther (isOther_cutRawQuoted _ _)
  next => exact .of_isOther (isOther_cutRawQuoted _ _)
  next => exact isFront_cut cs

instance : Lays advanceAttributeValue := .modify fun hs => hs.leads_nextBy isFront_cutAttributeValue

instance : Lays g.attr := by
  refine .place_then fun start => .bind_none fun _ => .ite inferInstance ?_
  refine .bind_none fun name => .bind_none fun _ => .ite ?_ inferInstance
  refine .bind_none fun _ => .bind_none fun _ => .current_then fun l => ?_
  split <;> infer_instance

instance {inChild : Bool} {mark : String} : Lays (expectAmong inChild mark) := .steps

instance : Lays g.child := by
  refine .place_then fun start => .current_then fun l => ?_
  split <;> infer_instance

instance : Lays g.children := .steps

instance {inChild : Bool} : Lays (g.element inChild) :=
  .opening_then inferInstance

/-! ## Functions -/

omit h in
theorem kind_of_gives_typeParameter (hgives : Gives g.typeParameter s t s') : t.kind ≠ .params := by
  refine (?_ : Ensures (fun t => t.kind ≠ .params) g.typeParameter).spec hgives
  unfold Grammar.typeParameter
  repeat' first
    | exact .finish nofun
    | refine .ite ?_ ?_
    | refine .bind fun _ => ?_

omit h in
theorem kind_of_mem_typeParameters? {ts : List Tree} (hgives : Gives g.typeParameters? s ts s') :
    ∀ t ∈ ts, t.kind ≠ .params := by
  unfold Grammar.typeParameters? at hgives
  obtain ⟨b, s₁, -, hgives⟩ := gives_bind.mp hgives
  split at hgives
  · obtain ⟨⟨items, trailing⟩, s₂, hitems, hgives⟩ := gives_bind.mp hgives
    have hall := of_mem_listUntil kind_of_gives_typeParameter hitems
    simp only [gives_ite, gives_bind, gives_pure] at hgives
    split at hgives
    · obtain ⟨-, -, -, -, -, -, rfl, -⟩ := hgives
      exact hall
    · obtain ⟨-, -, -, rfl, -⟩ := hgives
      exact hall
  · obtain ⟨rfl, -⟩ := gives_pure.mp hgives
    exact List.forall_mem_nil _

omit h in
theorem exists_of_gives_spoil [Treed α] {c : Prop} [Decidable c] {p : Parser α} {a : α} (hs : s.Sound code)
    (hgives : Gives (if c then spoil >>= fun _ => p else p) s a s') : ∃ s₁, s.Leads code s₁ ∧ Gives p s₁ a s' := by
  split at hgives
  · obtain ⟨u, s₁, hspoil, hgives⟩ := gives_bind.mp hgives
    exact ⟨s₁, (Lays.spec hs hspoil).1, hgives⟩
  · exact ⟨s, hs.leads, hgives⟩

/-- The parts of a function lie in their places, from its parameters on after what stands before them. -/
theorem functionFits_of_gives {parts : List Tree} (hs : s.Sound code)
    (hgives : Gives (g.functionParts role isAsync isGenerator) s parts s') :
    s.Leads code s' ∧ Tree.FunctionFits code s.start s'.last parts := by
  unfold Grammar.functionParts at hgives
  obtain ⟨s₁, hinner, rfl⟩ := gives_within.mp hgives
  clear hgives
  obtain ⟨typeParams, s₂, htypes, hgives⟩ := gives_bind.mp hinner
  obtain ⟨hleads₂, hfit⟩ := Lays.spec (hs.withContext (Context.inFunction isAsync isGenerator _)) htypes
  obtain ⟨s₃, hleads₃, hgives⟩ := exists_of_gives_spoil hleads₂.sound hgives
  obtain ⟨params, s₄, hparams, hgives⟩ := gives_bind.mp hgives
  obtain ⟨hkind, hstart⟩ := kind_of_gives_parameters hparams
  obtain ⟨hleads₄, hparamsFit⟩ := Lays.spec hleads₃.sound hparams
  obtain ⟨result, s₅, hresult, hgives⟩ := gives_bind.mp hgives
  obtain ⟨hleads₅, hlo₅, hfit₅⟩ := Lays.push inferInstance hleads₄.sound hleads₄.start_le hparamsFit hresult
  obtain ⟨b, s₆, hisAt, hgives⟩ := gives_bind.mp hgives
  obtain ⟨-, hsame⟩ := gives_isAt.mp hisAt
  rw [hsame] at hgives
  rw [trees_list] at hfit hfit₅
  -- the parameters start a stretch that holds them and all that follows
  have hfits : ∀ {s₇ : State} {after : List Tree}, s₅.Leads code s₇ → Fit code s₃.start s₇.last (params :: after) →
      s.Leads code (s₇.withContext s.context) ∧
        Tree.FunctionFits code s.start s₇.last (typeParams ++ params :: after) := by
    intro s₇ after hleads₇ hfit₇
    have hto₃ := hleads₂.trans hleads₃
    have hto₇ := hto₃.trans ((hleads₄.trans hleads₅).trans hleads₇)
    refine ⟨⟨hto₇.sound.withContext _, hto₇.start_le, hto₇.last_le⟩, ?_⟩
    rw [← hstart] at hfit₇
    refine ⟨_, typeParams, params, after, rfl, kind_of_mem_typeParameters? htypes, hkind, hfit, hfit₇, ?_, ?_, ?_⟩
    · rw [hstart]
      exact Nat.le_trans hleads₃.last_le hleads₃.sound.last_le
    · rw [hstart]
      exact hto₃.start_le
    · exact (hleads₃.trans ((hleads₄.trans hleads₅).trans hleads₇)).last_le
  split at hgives
  · obtain ⟨c, s₆, hcontext, hgives⟩ := gives_bind.mp hgives
    obtain ⟨-, hsame⟩ := gives_context.mp hcontext
    rw [hsame] at hgives
    obtain ⟨s₇, hleads₇, hgives⟩ := exists_of_gives_spoil hleads₅.sound hgives
    obtain ⟨body, s₈, hbody, hgives⟩ := gives_bind.mp hgives
    obtain ⟨hleads₈, -, hfit₈⟩ := Lays.push inferInstance hleads₇.sound (Nat.le_trans hlo₅ hleads₇.start_le)
      (hfit₅.mono (Nat.le_refl _) hleads₇.last_le) hbody
    obtain ⟨rfl, rfl⟩ := gives_pure.mp hgives
    rw [List.append_assoc]
    exact hfits (hleads₇.trans hleads₈) hfit₈
  · obtain ⟨rfl, rfl⟩ := gives_pure.mp hgives
    exact hfits hleads₅.sound.leads hfit₅

theorem LaysFrom.function_bind {f : List Tree → Parser Tree} (names : List Tree) (hnames : Gathers held names rest)
    (hkinds : ∀ t ∈ names, t.kind ≠ .params) (hf : ∀ parts, LaysFunction lo (names ++ parts) (f parts)) :
    LaysFrom lo held (g.functionParts role isAsync isGenerator >>= f) where
  spec hs hlo hheld hgives := by
    obtain ⟨parts, s₁, hparts, hfparts⟩ := gives_bind.mp hgives
    obtain ⟨hleads, hfits⟩ := functionFits_of_gives hs hparts
    have hall := hfits.append (hnames.fit hheld) hkinds hs.last_le hlo hleads.last_le
    obtain ⟨hleads', hfit⟩ := (hf parts).spec hleads.sound hall hfparts
    exact ⟨hleads.trans hleads', hfit⟩

omit h in
theorem kind_of_gives_binder (hgives : Gives binder s t s') : t.kind ≠ .params := by
  obtain ⟨start, s₁, -, hgives⟩ := gives_bind.mp hgives
  obtain ⟨text, s₂, -, hgives⟩ := gives_bind.mp hgives
  obtain ⟨rfl, -⟩ := gives_finish.mp hgives
  nofun

instance : Lays (g.method role isAsync isGenerator) :=
  .place_then fun _ => .function_bind [] inferInstance nofun fun parts =>
    show LaysFunction _ parts _ from inferInstance

instance : Lays (g.functionAfter start isAsync isDeclaration needsName) := by
  refine .of_from fun lo => .bind_none fun _ => .bind_none fun isGenerator => ?_
  refine .current_then fun l => .ite (.ite ?_ ?_) (.ite inferInstance ?_)
  · refine .bind_spec inferInstance kind_of_gives_binder fun t ht => .pure_bind ?_
    exact .function_bind [t] inferInstance (List.forall_mem_singleton.mpr ht) inferInstance
  · refine .bind_spec (P := fun t => t.kind ≠ .params) inferInstance (fun hgives => ?_) fun t ht => .pure_bind ?_
    · obtain ⟨s₁, hbinder, -⟩ := gives_within.mp hgives
      exact kind_of_gives_binder hbinder
    · exact .function_bind [t] inferInstance (List.forall_mem_singleton.mpr ht) inferInstance
  · exact .pure_bind (.function_bind [] inferInstance nofun inferInstance)

instance {writes : Bool} : Lays (g.accessor writes) := .steps
instance : Lays startsAsyncFunction := .steps

/-! ## Objects and classes -/

instance {key method : Tree}
    [hparts : Gathers held [key, method] rest] : LaysFrom lo held (memberWithBody start key method) := by
  unfold memberWithBody
  infer_instance

instance : Lays g.property := .steps
instance : Lays g.object := .steps
instance : Lays g.array := .steps

instance : Lays g.memberKey := by
  refine .current_then fun l => ?_
  split <;> infer_instance

instance : Lays g.classBlock := by
  unfold Grammar.classBlock
  infer_instance

instance {decorated : Bool} {method : Tree} : Lays (endMethod decorated method) := by
  unfold endMethod
  infer_instance

instance {modifiers : List String} {optional : Bool} : Lays (g.field modifiers optional) := by
  unfold Grammar.field
  infer_instance

instance : Lays g.heritage := .steps
instance : Lays g.classMember := .steps

instance [hparts : Gathers held decorators rest] :
    LaysFrom lo held (g.klass start decorators isDeclaration needsName) := by
  refine .of_gathers hparts ?_
  unfold Grammar.klass
  infer_instance

/-! ## Expressions -/

instance {tagged : Bool} : Lays (g.template tagged) := .steps

instance : Lays g.parenthesized := by
  refine .place_then fun start => .bind_none fun _ => .bind_none fun _ => ?_
  refine .bind_pair inferInstance fun items _ => .ite inferInstance ?_
  split <;> infer_instance

instance : Lays g.arguments := .steps
instance : Lays g.importExpression := .steps

instance : Lays g.atom := by
  have hrecut : Lays (recut fun cs => cutPattern (cs.drop 1)) := .recut fun _ => .of_isOther (isOther_cutPattern _)
  refine .place_then fun start => .bind_none fun _ => .ite inferInstance (.current_then fun l => ?_)
  split <;> infer_instance

/-! ## Accesses and calls -/

instance {object : Tree} [hparts : Gathers held [object] rest] : LaysFrom lo held (memberAfter start object) := by
  refine .current_then fun l => ?_
  split <;> infer_instance

instance {object : Tree} [hparts : Gathers held [object] rest] : LaysFrom lo held (g.indexed start object) := by
  refine .of_gathers hparts ?_
  unfold Grammar.indexed
  infer_instance

theorem keeps_of_applied {inner : Tree} {types : List Tree} (heq : t.applied = (inner, types)) :
    Keeps [t] (inner :: types) := by
  have hkeeps := Tree.keeps_applied t
  rwa [heq] at hkeeps

instance {optionals : Bool} {first : Tree × Bool} {parts : List Tree} [hfirst : Holds first parts]
    [hparts : Gathers held parts rest] : LaysFrom lo held (g.accesses start optionals first) := by
  refine .of_gathers hparts (.growing_of_gathers hfirst inferInstance ?_)
  rintro ⟨object, chained⟩
  refine .of_fst (.current_then fun l => ?_)
  split
  case h_2 =>
    refine .ite (.bind_none fun _ => .ite ?_ inferInstance) inferInstance
    refine .bind_none fun _ => ?_
    refine .current_then fun l => ?_
    split <;> infer_instance
  case h_5 =>
    obtain ⟨⟨inner, types⟩, heq⟩ : ∃ applied, object.applied = applied := ⟨_, rfl⟩
    rw [heq]
    exact .of_keeps_head (keeps_of_applied heq) inferInstance
  all_goals infer_instance

instance : Lays g.construction := by
  refine .place_then fun start => .bind_none fun _ => .bind_none fun _ => ?_
  refine .ite inferInstance (.bind_none fun _ => .bind_none fun _ => ?_)
  refine .ite (.bind inferInstance fun first => ?_) (.bind inferInstance fun first => ?_)
  all_goals
    refine .bind_from_pair inferInstance fun callee _ => .bind_none fun _ => ?_
    obtain ⟨⟨inner, types⟩, heq⟩ : ∃ applied, callee.applied = applied := ⟨_, rfl⟩
    rw [heq]
    exact .of_keeps_head (keeps_of_applied heq) inferInstance

instance : Lays g.access := by
  refine .place_then fun start => .bind_none fun _ => ?_
  refine .ite (.bind inferInstance fun first => ?_) (.bind inferInstance fun first => ?_)
  all_goals
    refine .bind_from_pair ?_ fun result chained => .ite inferInstance (.bind_none fun _ => ?_)
    · refine .growing_of_gathers inferInstance inferInstance ?_
      rintro ⟨callee, chained⟩
      refine .of_fst (.bind_none fun before => .bind_from_pair inferInstance fun callee chained => ?_)
      refine .bind_none fun optional => ?_
      cases optional with
      | true =>
        simp only [if_true]
        infer_instance
      | false =>
        simp only [Bool.false_eq_true, if_false]
        refine .pure_bind (.bind_none fun _ => .ite ?_ inferInstance)
        exact .of_keeps_head (Tree.keeps_applied callee) inferInstance
    · refine .ite (.bind_none fun _ => ?_) ?_
      all_goals
        split
        next => exact .of_keeps_head (Tree.keeps_parts trivial) inferInstance
        next => exact .of_keeps_head (Tree.keeps_parts trivial) inferInstance
        next => infer_instance

/-! ## Operators -/

instance : Lays g.updated := .steps

instance : Lays operandFollows := by
  unfold operandFollows
  infer_instance

instance : Lays g.unary := by
  refine .place_then fun start => .current_then fun l => ?_
  split <;> infer_instance

instance {operator : Lexeme} {leftParen rightParen : Bool} {left right : Tree}
    [hparts : Gathers held [left, right] rest] :
    LaysFrom lo held (joined operator start leftParen rightParen left right) := by
  unfold joined
  split <;> infer_instance

instance : Lays isAtPrivateName := by
  refine .current_then fun l => ?_
  split <;> infer_instance

instance {level : Nat} : Lays (g.binary level) := by
  refine .place_then fun start => .bind_none fun _ => .bind_none fun _ => ?_
  refine .bind_none fun _ => .ite (.ite inferInstance ?_) (.bind inferInstance fun first => ?_)
  · refine .bind_none fun _ => .bind_none fun _ => .ite ?_ inferInstance
    refine .finish_bind trivial inferInstance fun first => ?_
    refine .growing_of_gathers inferInstance inferInstance fun left => ?_
    refine .bind_none fun _ => .current_then fun operator => ?_
    split <;> infer_instance
  · refine .growing_of_gathers inferInstance inferInstance fun left => ?_
    refine .bind_none fun _ => .current_then fun operator => ?_
    split <;> infer_instance

/-! ## Arrow functions -/

instance : Lays g.arrowHead := .steps

instance : Lays likelyArrow := by
  unfold likelyArrow
  infer_instance

instance : Lays startsAsyncArrow := .steps

instance {head : List Tree} [hparts : Gathers held head rest] :
    LaysFrom lo held (g.arrowBody lo isAsync returnType head) := by
  refine .of_gathers hparts ?_
  unfold Grammar.arrowBody
  infer_instance

instance {name : Tree} [hparts : Gathers held [name] rest] :
    LaysFrom lo held (g.simpleArrow lo isAsync returnType name) := by
  refine .of_gathers hparts (.of_keeps_head (Tree.keeps_nameAsParams name) ?_)
  unfold Grammar.simpleArrow
  infer_instance

instance : Lays (g.arrow? returnType) := by
  refine .place_then fun start => .bind_none fun likely => ?_
  cases likely with
  | no => infer_instance
  | yes => infer_instance
  | maybe =>
    constructor
    intro code s s' function hs hlo hheld hgives
    obtain ⟨before, s₁, hget, hrest⟩ := gives_bind.mp hgives
    obtain ⟨rfl, rfl⟩ := gives_get.mp hget
    obtain ⟨head, s₂, hhead, hrest⟩ := gives_bind.mp hrest
    obtain ⟨hleads, hlo', hfit⟩ := Lays.push inferInstance hs hlo hheld hhead
    cases head with
    | none =>
      obtain ⟨rfl, rfl⟩ := gives_pure.mp hrest
      exact ⟨hleads, .nil⟩
    | some head =>
      obtain ⟨isAsync, typed, head⟩ := head
      obtain ⟨function, s₃, hbody, hrest⟩ := gives_bind.mp hrest
      have hlays : LaysFrom start [trees head] (g.arrowBody start isAsync returnType head) := inferInstance
      obtain ⟨hleads', hfit'⟩ := hlays.spec hleads.sound hlo' (by rwa [List.flatten_singleton]) hbody
      obtain ⟨b, s₄, hisAt, hrest⟩ := gives_bind.mp hrest
      obtain ⟨-, hsame⟩ := gives_isAt.mp hisAt
      rw [hsame] at hrest
      split at hrest
      · -- what was read is given up
        obtain ⟨u, s₅, hset, hrest⟩ := gives_bind.mp hrest
        obtain ⟨rfl, rfl⟩ := gives_pure.mp hrest
        cases hset
        exact ⟨hs.leads, .nil⟩
      · obtain ⟨rfl, rfl⟩ := gives_pure.mp hrest
        exact ⟨hleads.trans hleads', hfit'⟩

instance : Lays g.yielded := .steps

instance : Lays (g.assignment returnType) := by
  refine .place_then fun start => .bind_none fun _ => ?_
  refine .ite (.bind_none fun _ => .bind_none fun _ => .ite inferInstance ?_) ?_
  all_goals
    refine .bind_option inferInstance inferInstance (.bind_none fun _ => .ite inferInstance ?_)
    refine .bind inferInstance fun left => .current_then fun l => ?_
    split <;> infer_instance

instance : Lays g.expression := by
  refine .place_then fun start => .within (.bind inferInstance fun many => ?_)
  split <;> infer_instance

/-! ## Statements -/

instance : Lays (g.declarator constant) := .steps
instance : Lays (g.declarations start hoisted constant) := .steps
instance : Lays (g.declarationStatement start hoisted constant) := .steps

instance {single : Bool} : Lays (declaresLet single) := by
  unfold declaresLet
  infer_instance

instance : Lays declaresLoopLet := by
  unfold declaresLoopLet
  infer_instance

instance : Lays declaresUsing := by
  unfold declaresUsing
  infer_instance

instance : Lays g.block := .steps

instance : Lays g.body := by
  refine .place_then fun start => .bind_none fun _ => .bind inferInstance fun statements => ?_
  refine .bind_none fun _ => .of_keeps ?_ (inferInstance : LaysFrom start [markDirectives statements] _)
  rw [List.flatten_singleton, List.flatten_singleton, trees_list]
  exact .of_among (Tree.among_markDirectives statements)

instance : Lays g.condition := .steps
instance : Lays g.ifStatement := .steps
instance : Lays (g.loopHead isAwait) := .steps

omit h in
theorem plain_of_gives_loopHead : Ensures (fun r => r.1.Plain) (g.loopHead isAwait) := by
  unfold Grammar.loopHead
  infer_instance

theorem LaysFrom.loopHead_bind {change : Context → Context} {f : NodeKind × List Tree → Parser Tree}
    (hf : ∀ kind head, kind.Plain → LaysFrom lo (trees head :: held) (f (kind, head))) :
    LaysFrom lo held (Code.within change (g.loopHead isAwait) >>= f) := by
  refine .bind_spec inferInstance (Ensures.within plain_of_gives_loopHead).spec ?_
  rintro ⟨kind, head⟩ hkind
  exact hf kind head hkind

instance : Lays g.forStatement := by
  refine .place_then fun start => .bind_none fun _ => .bind_none fun isAwait => .ite ?_ ?_
  case' refine_1 =>
    refine .bind_none fun _ => .ite (.bind_none fun _ => ?_) ?_
    case' refine_2 => refine .bind_none fun _ => .bind_none fun _ => ?_
  all_goals exact .loopHead_bind fun kind head hkind => .bind inferInstance fun body => .finish hkind inferInstance

instance : Lays g.switchStatement := .steps
instance : Lays g.tryStatement := .steps
instance : Lays jumpStatement := .steps
instance : Lays g.returnStatement := .steps
instance : Lays (g.typeAlias start) := .steps
instance : Lays (g.interface start) := .steps
instance : Lays (g.enumeration start) := .steps

instance : Lays (g.space start) := by
  refine .of_from fun lo => .bind_none fun _ => .ite inferInstance (.bind_none fun _ => ?_)
  refine .ite (.bind_none fun _ => .current_then fun l => ?_) inferInstance
  split <;> infer_instance

/-! ## Modules and programs -/

instance : Lays moduleSource := by
  refine .current_then fun l => ?_
  split <;> infer_instance

instance : Lays exportedName := by
  refine .current_then fun l => ?_
  split <;> infer_instance

instance : Lays g.importAttributes := by
  refine .of_from fun lo => .bind_none fun _ => .bind_none fun _ => .ite ?_ (.ite ?_ ?_)
  case' refine_2 => refine .bind_none fun _ => ?_
  all_goals
    refine .bind_none fun _ => .ite (.bind_none fun _ => ?_) inferInstance
    refine .bind_none fun _ => .bind (.listUntil (.current_then fun l => ?_) _ _) inferInstance
    split <;> infer_instance

instance {close : String} : Lays (marksType close) := .steps
instance : Lays (importSpecifier allTypes) := .steps
instance : Lays (g.importSpecifiers allTypes) := .steps
instance : Lays importSpace := .steps
instance : Lays importMark := .steps

instance {names : List Tree} [hparts : Gathers held names rest] : LaysFrom lo held (g.importSource start names) := by
  refine .of_gathers hparts ?_
  unfold Grammar.importSource
  infer_instance

instance : Lays g.importDeclaration := by
  refine .place_then fun start => .bind_none fun _ => .current_then fun l => ?_
  split <;> infer_instance

instance : Lays (g.exportAll start) := .steps

instance : Lays (exportSpecifier allTypes) := by
  refine .of_from fun lo => .bind_none fun start => .bind_none fun _ => .ite (.ite ?_ ?_) ?_
  case' refine_1 => refine .bind_none fun _ => .bind_none fun _ => ?_
  case' refine_2 => refine .bind_none fun _ => ?_
  all_goals
    refine .of_lays (.place_then fun localStart => .current_or_word (fun l hl => ?_) fun text escaped => ?_)
    · split
      next => infer_instance
      next => cases hl
      next => infer_instance
    · exact ⟨_, rfl, inferInstance⟩

instance : Lays (g.exportNames start allTypes) := .steps

instance [hparts : Gathers held decorators rest] : LaysFrom lo held (g.declaration start decorators) := by
  refine .of_gathers hparts (.current_then fun l => ?_)
  split <;> infer_instance

instance [hparts : Gathers held decorators rest] : LaysFrom lo held (g.modifiedDeclaration start decorators) := by
  refine .of_gathers hparts (.bind (.of_from fun _ => ?_) inferInstance)
  refine .growing_of_gathers inferInstance inferInstance fun earlier => .current_then fun l => ?_
  split <;> infer_instance

instance {outer : List Tree} [hparts : Gathers held outer rest] : LaysFrom lo held (g.exportDefault start outer) := by
  refine .of_gathers hparts ?_
  unfold Grammar.exportDefault
  infer_instance

instance [hparts : Gathers held decorators rest] : LaysFrom lo held (g.exportDeclaration decorators) := by
  refine .of_gathers hparts (.bind_none fun start => .bind_none fun _ => ?_)
  refine .bind_none fun _ => .bind_none fun _ => ?_
  refine .ite (.bind_none fun _ => ?_) ?_
  all_goals
    refine .current_then fun l => ?_
    split <;> infer_instance

instance : Lays g.expressionStatement := by
  refine .place_then fun start => .bind inferInstance fun code => ?_
  split <;> infer_instance

instance : Lays g.doStatement := .steps

instance {word : String} {single : Bool} : Lays (g.keywordStatement word single) := by
  refine .place_then fun start => ?_
  split <;> infer_instance

instance {single : Bool} : Lays (g.statement single) := by
  refine .current_then fun l => ?_
  split <;> infer_instance

theorem Goal.lays_production (goal : Goal) : Lays (goal.production g) := by
  cases goal <;>
    unfold Goal.production <;>
    infer_instance

end

/-! ## Whole texts -/

/-- The grammar lays out what it reads, at whatever depth. -/
theorem Goal.lays_read (depth : Nat) (goal : Goal) : Lays (Goal.read depth goal) := by
  induction depth generalizing goal with
  | zero => exact .fail
  | succ depth ih =>
    have hgrammar : Grammar.Lays ⟨Goal.read depth, depth⟩ := ⟨ih⟩
    exact Goal.lays_production goal

theorem fit_of_runParser {p : Parser Tree} (hp : Lays p) {skipped : Nat} (h : runParser p skipped cs = .ok t) :
    ∃ lo hi, Fit cs lo hi [t] := by
  unfold runParser at h
  dsimp only at h
  cases hread : p (State.next { stop := Text.byteLength (cs.take skipped), rest := cs.drop skipped }) with
  | error e =>
    rw [hread] at h
    cases h
  | ok r =>
    obtain ⟨read, s'⟩ := r
    have hsame : read = t := by
      rw [hread] at h
      cases hflaw : s'.flaw <;> cases hany : read.any (· == .shorthandDefault) <;>
        simp_all [bind, Except.bind, throw, throwThe, MonadExceptOf.throw, pure, Except.pure]
    have hsound : State.Sound cs (.next { stop := Text.byteLength (cs.take skipped), rest := cs.drop skipped }) :=
      State.sound_nextBy isFront_cut ⟨cs.take skipped, (List.take_append_drop skipped cs).symm, rfl⟩
    obtain ⟨-, hfit⟩ := hp.spec hsound hread
    exact ⟨_, _, hsame ▸ hfit⟩

/-- Names, functions and markup of an expression lie in their places. -/
theorem fit_of_parseExpression (h : parseExpression cs = .ok t) : ∃ lo hi, Fit cs lo hi [t] :=
  fit_of_runParser (Goal.lays_read _ _) h

/-- Names, functions and markup of a program lie in their places. -/
theorem fit_of_parseProgram (h : parseProgram cs = .ok t) : ∃ lo hi, Fit cs lo hi [t] := by
  refine fit_of_runParser ?_ h
  have hread := fun goal => Goal.lays_read (depthFor cs) goal
  unfold statementsToFinish
  infer_instance

end PageCompiler.Code
