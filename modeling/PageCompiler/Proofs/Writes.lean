import PageCompiler.Proofs.Scoping

/-!
# Writes

Every place where code writes a variable or a member of one: the target of an assignment, of an increment or decrement,
and of a loop through the elements of a value, also inside a pattern, in parentheses and under a type assertion
(`Tree.writes`). In a program, a write may stand in the body of a function that a top-level statement declares
(`Tree.programWrites`). The survey of a tree finds the plain ones among them (`Tree.plainTargets_programWrites`).
-/

namespace PageCompiler.Code

/-- What is assigned: a name, or a member of what the name stands for. The target is plain if it is the name itself or
the access to the member by a dot after the name. -/
structure Target where
  name : String
  span : Span
  member : Option String := none
  plain : Bool
deriving DecidableEq, Repr

/-- A write, with what the scopes around it declare and the top-level function in whose body it stands. -/
structure Write extends Target where
  locals : List (String × Span)
  function : Option String
deriving DecidableEq, Repr

/-- Whether a scope around the write declares its name. -/
def Write.isLocal (w : Write) : Bool :=
  w.locals.any (·.1 == w.name)

/-- The state that is written: it is named by itself, or as a member of `state`. -/
def Target.state? (t : Target) (states : List String) : Option String :=
  match t.member with
  | none => if states.contains t.name then some t.name else none
  | some member => if t.name == "state" && states.contains member then some member else none

/-- Whether a node of the kind only stands around its first part: parentheses and type assertions do. -/
def NodeKind.isCover : NodeKind → Bool
  | paren => true
  | typed => true
  | instantiation => true
  | _ => false

namespace Tree

variable {span : Span} {kind : NodeKind} {parts : List Tree}

/-! ## Targets -/

/-- The name inside all parentheses and type assertions, and whether there are none of these. -/
def base? : Tree → Option (String × Span × Bool)
  | node (.name name) span _ => some (name, span, true)
  | node kind _ (inner :: _) =>
    if kind.isCover then inner.base?.map fun (name, span, _) => (name, span, false) else none
  | _ => none

mutual

/-- What is assigned when the tree is; `plain` says whether nothing stands around it. -/
def targets (plain : Bool) : Tree → List Target
  | node (.name name) span _ => [{ name, span, plain }]
  | node (.member property) _ [object] =>
    object.base?.toList.map fun (name, span, direct) =>
      { name, span, member := some property, plain := plain && direct }
  | node .index _ [object, node (.string key) _ _] =>
    object.base?.toList.map fun (name, span, _) => { name, span, member := some key, plain := false }
  | node .pattern _ parts => targetsAll parts
  | node .rest _ parts => targetsAll parts
  | node kind _ (inner :: _) => if kind.isCover || kind == .defaulted then inner.targets false else []
  | _ => []

def targetsAll : List Tree → List Target
  | [] => []
  | t :: ts => t.targets false ++ targetsAll ts

end

def assigned : Tree → List Target
  | node (.assign _) _ (target :: _) => target.targets true
  | node .update _ (target :: _) => target.targets true
  | node .each _ (target :: _) => target.targets false
  | _ => []

/-! ## Writes -/

mutual

/-- The writes in a tree around which `locals` are declared, in the body of `function`. -/
def writes (locals : List (String × Span)) (function : Option String) : Tree → List Write
  | node (.name _) _ _ => []
  | node (.binder _) _ _ => []
  | node kind span parts =>
    (node kind span parts).assigned.map (⟨·, locals, function⟩) ++
      writesAll ((node kind span parts).introduced ++ locals) function parts

def writesAll (locals : List (String × Span)) (function : Option String) : List Tree → List Write
  | [] => []
  | t :: ts => t.writes locals function ++ writesAll locals function ts

end

/-- The writes in a function of that name at the top level: those in its code stand in its body. -/
def functionWrites (name : Option String) (function : Tree) : List Write :=
  let locals := function.introduced
  match function.kind, function.parts.getLast? with
  | .arrow _, some code =>
    writesAll locals none function.parts.dropLast ++ code.writes locals name
  | _, _ =>
    function.parts.flatMap fun p => p.writes locals (if p.kind == .body then name else none)

def valueWrites (name : Option String) : Tree → List Write
  | node .paren _ [inner] => inner.valueWrites name
  | node (.function isDeclaration) span parts => functionWrites name (node (.function isDeclaration) span parts)
  | node (.arrow isExpression) span parts => functionWrites name (node (.arrow isExpression) span parts)
  | t => t.writes [] none

def declaratorWrites : Tree → List Write
  | node .declarator _ (node (.binder name) _ _ :: rest) => rest.flatMap (valueWrites (some name))
  | t => t.writes [] none

def statementWrites : Tree → List Write
  | node (.function true) span parts =>
    functionWrites ((ownName parts).head?.map (·.1)) (node (.function true) span parts)
  | node (.declarations _) _ declarators => declarators.flatMap declaratorWrites
  | node .statement _ [inner] => inner.statementWrites
  | t => t.writes [] none

def programWrites : Tree → List Write
  | node .body _ statements => statements.flatMap statementWrites
  | t => t.writes [] none

/-! ## The survey finds the plain writes -/

theorem exists_name_of_base? {t : Tree} {name : String} (h : t.base? = some (name, span, true)) :
    ∃ parts, t = node (.name name) span parts := by
  unfold base? at h
  split at h
  · cases h
    exact ⟨_, rfl⟩
  · split at h
    · obtain ⟨_, -, heq⟩ := Option.map_eq_some_iff.mp h
      cases heq
    · cases h
  · cases h

mutual

theorem not_plain_of_mem_targets : {t : Tree} → {g : Target} → g ∈ t.targets false → g.plain = false
  | node kind span parts, g, h => by
    unfold targets at h
    split at h
    case h_1 =>
      cases List.mem_singleton.mp h
      rfl
    case h_2 =>
      obtain ⟨_, -, rfl⟩ := List.mem_map.mp h
      rfl
    case h_3 =>
      obtain ⟨_, -, rfl⟩ := List.mem_map.mp h
      rfl
    case h_4 heq =>
      cases heq
      exact not_plain_of_mem_targetsAll h
    case h_5 heq =>
      cases heq
      exact not_plain_of_mem_targetsAll h
    case h_6 heq =>
      cases heq
      split at h
      · exact not_plain_of_mem_targets h
      · cases h
    case h_7 => cases h

theorem not_plain_of_mem_targetsAll : {ts : List Tree} → {g : Target} → g ∈ targetsAll ts → g.plain = false
  | [], _, h => nomatch h
  | t :: ts, g, h => by
    rw [targetsAll, List.mem_append] at h
    rcases h with h | h
    · exact not_plain_of_mem_targets h
    · exact not_plain_of_mem_targetsAll h

end

theorem filter_plain_targets (t : Tree) : (t.targets false).filter (·.plain) = [] := by
  rw [List.filter_eq_nil_iff]
  intro g hg
  simp [not_plain_of_mem_targets hg]

theorem filter_plain_targetsAll (ts : List Tree) : (targetsAll ts).filter (·.plain) = [] := by
  rw [List.filter_eq_nil_iff]
  intro g hg
  simp [not_plain_of_mem_targetsAll hg]

theorem filter_plain_targets_of_ne (hname : ∀ name, kind ≠ .name name)
    (hmember : ∀ property name object inner, kind = .member property → parts ≠ [node (.name name) object inner]) :
    ((node kind span parts).targets true).filter (·.plain) = [] := by
  unfold targets
  split
  case h_1 heq =>
    cases heq
    exact absurd rfl (hname _)
  case h_2 property _ object heq =>
    cases heq
    cases hbase : object.base? with
    | none => rfl
    | some found =>
      obtain ⟨name, span, direct⟩ := found
      cases direct with
      | false => rfl
      | true =>
        obtain ⟨inner, rfl⟩ := exists_name_of_base? hbase
        exact absurd rfl (hmember _ _ _ _ rfl)
  case h_3 object _ _ _ heq =>
    cases object.base? <;> rfl
  case h_4 => exact filter_plain_targetsAll _
  case h_5 => exact filter_plain_targetsAll _
  case h_6 =>
    split
    · exact filter_plain_targets _
    · rfl
  case h_7 => rfl

theorem filter_plain_assigned (hassign : ∀ operator target rest, kind = .assign operator → parts ≠ target :: rest)
    (hupdate : ∀ target rest, kind = .update → parts ≠ target :: rest) :
    (node kind span parts).assigned.filter (·.plain) = [] := by
  unfold assigned
  split
  case h_1 heq =>
    cases heq
    exact absurd rfl (hassign _ _ _ rfl)
  case h_2 heq =>
    cases heq
    exact absurd rfl (hupdate _ _ rfl)
  case h_3 => exact filter_plain_targets _
  case h_4 => rfl

end Tree

def Reference.target (r : Reference) : Target :=
  { name := r.name, span := r.span, member := r.member.map (·.1), plain := true }

def writtenTargets (references : List Reference) : List Target :=
  (references.filter (·.written)).map (·.target)

theorem writtenTargets_append (as bs : List Reference) :
    writtenTargets (as ++ bs) = writtenTargets as ++ writtenTargets bs := by
  simp [writtenTargets]

namespace Tree

def plainTargets (writes : List Write) : List Target :=
  (writes.map (·.toTarget)).filter (·.plain)

theorem plainTargets_append (as bs : List Write) :
    plainTargets (as ++ bs) = plainTargets as ++ plainTargets bs := by
  simp [plainTargets]

theorem plainTargets_assigned (ts : List Target) (locals : List (String × Span)) (function : Option String) :
    plainTargets (ts.map (⟨·, locals, function⟩)) = ts.filter (·.plain) := by
  simp [plainTargets, Function.comp_def]

mutual

/-- The written references of a tree are its plain writes, after what is assigned when the tree itself is. -/
theorem writtenTargets_surveyAs (written : Bool) (locals : List (String × Span)) (function : Option String) :
    (t : Tree) → writtenTargets (t.surveyAs written).used =
      (if written then (t.targets true).filter (·.plain) else []) ++ plainTargets (t.writes locals function)
  | node kind span parts => by
    unfold surveyAs
    split
    case h_1 heq =>
      cases heq
      cases written <;> rfl
    case h_2 heq =>
      cases heq
      cases written <;> rfl
    case h_3 heq =>
      cases heq
      cases written <;> rfl
    case h_4 name _ _ heq =>
      cases heq
      have hnone : ((node (.binder name) span parts).targets true).filter (·.plain) = [] :=
        filter_plain_targets_of_ne nofun nofun
      rw [hnone, ite_self]
      rfl
    case h_5 operator _ target value heq =>
      cases heq
      have hnone : ((node (.assign operator) span (target :: value)).targets true).filter (·.plain) = [] :=
        filter_plain_targets_of_ne nofun nofun
      rw [hnone, ite_self, List.nil_append]
      show _ = plainTargets ((target.targets true).map (⟨·, locals, function⟩) ++
        (target.writes locals function ++ writesAll locals function value))
      rw [Survey.used_append, writtenTargets_append, writtenTargets_surveyAs true locals function target,
        writtenTargets_surveyAll locals function value, plainTargets_append, plainTargets_append,
        plainTargets_assigned, if_pos rfl, List.append_assoc]
    case h_6 target others heq =>
      cases heq
      have hnone : ((node .update span (target :: others)).targets true).filter (·.plain) = [] :=
        filter_plain_targets_of_ne nofun nofun
      rw [hnone, ite_self, List.nil_append]
      show _ = plainTargets ((target.targets true).map (⟨·, locals, function⟩) ++
        (target.writes locals function ++ writesAll locals function others))
      rw [Survey.used_append, writtenTargets_append, writtenTargets_surveyAs true locals function target,
        writtenTargets_surveyAll locals function others, plainTargets_append, plainTargets_append,
        plainTargets_assigned, if_pos rfl, List.append_assoc]
    case h_7 hname hmember _ hbinder hassign hupdate heq =>
      cases heq
      rw [filter_plain_targets_of_ne hname hmember, ite_self, List.nil_append, writes]
      · rw [plainTargets_append, plainTargets_assigned, filter_plain_assigned hassign hupdate,
          List.nil_append]
        exact writtenTargets_surveyAll _ function parts
      · exact hname
      · exact hbinder

theorem writtenTargets_surveyAll (locals : List (String × Span)) (function : Option String) :
    (ts : List Tree) → writtenTargets (surveyAll ts).used = plainTargets (writesAll locals function ts)
  | [] => rfl
  | t :: ts => by
    rw [surveyAll, writesAll, Survey.used_append, writtenTargets_append, plainTargets_append,
      writtenTargets_surveyAs false locals function t, writtenTargets_surveyAll locals function ts]
    rfl

end

/-! ## Programs -/

/-- The writes that `f` finds in a tree are those of its survey, whatever else it says of them. -/
def FindsWrites (f : Tree → List Write) (t : Tree) : Prop :=
  plainTargets (f t) = writtenTargets (t.surveyAs false).used

theorem findsWrites_writes (locals : List (String × Span)) (function : Option String) (t : Tree) :
    FindsWrites (writes locals function) t := by
  rw [FindsWrites, writtenTargets_surveyAs false locals function t]
  rfl

theorem plainTargets_flatMap {f : Tree → List Write} {ts : List Tree} (h : ∀ t ∈ ts, FindsWrites f t) :
    plainTargets (ts.flatMap f) = writtenTargets (surveyAll ts).used := by
  induction ts with
  | nil => rfl
  | cons t ts ih =>
    obtain ⟨ht, hts⟩ := List.forall_mem_cons.mp h
    rw [List.flatMap_cons, plainTargets_append, ht, ih hts, surveyAll, Survey.used_append,
      writtenTargets_append]

theorem used_surveyAll_append (ts us : List Tree) :
    (surveyAll (ts ++ us)).used = (surveyAll ts).used ++ (surveyAll us).used := by
  induction ts with
  | nil => rfl
  | cons t ts ih =>
    rw [List.cons_append, surveyAll, surveyAll, Survey.used_append, Survey.used_append, ih,
      List.append_assoc]

theorem used_surveyAll_singleton (t : Tree) : (surveyAll [t]).used = (t.surveyAs false).used := by
  rw [surveyAll, surveyAll, Survey.used_append, List.append_nil]

theorem plainTargets_functionWrites (name : Option String) (t : Tree) :
    plainTargets (functionWrites name t) = writtenTargets (surveyAll t.parts).used := by
  unfold functionWrites
  split
  · rename_i code _ hlast
    obtain ⟨front, hfront⟩ := List.getLast?_eq_some_iff.mp hlast
    rw [hfront, List.dropLast_concat, plainTargets_append, used_surveyAll_append, writtenTargets_append,
      writtenTargets_surveyAll t.introduced none front, findsWrites_writes t.introduced name code,
      used_surveyAll_singleton]
  · exact plainTargets_flatMap fun p _ => findsWrites_writes _ _ p

theorem findsWrites_valueWrites (name : Option String) (t : Tree) : FindsWrites (valueWrites name) t := by
  unfold FindsWrites
  fun_induction valueWrites name t with
  | case1 span inner ih =>
    rw [ih]
    show _ = writtenTargets (surveyAll [inner]).used
    rw [used_surveyAll_singleton]
  | case2 isDeclaration span parts => exact plainTargets_functionWrites name _
  | case3 isExpression span parts => exact plainTargets_functionWrites name _
  | case4 t => exact findsWrites_writes [] none t

theorem findsWrites_declaratorWrites (t : Tree) : FindsWrites declaratorWrites t := by
  unfold FindsWrites
  fun_cases declaratorWrites t with
  | case1 _ name _ _ rest =>
    show _ = writtenTargets (surveyAll (_ :: rest)).used
    rw [plainTargets_flatMap fun p _ => findsWrites_valueWrites _ p]
    rfl
  | case2 t => exact findsWrites_writes [] none t

theorem findsWrites_statementWrites (t : Tree) : FindsWrites statementWrites t := by
  unfold FindsWrites
  fun_induction statementWrites t with
  | case1 span parts => exact plainTargets_functionWrites _ _
  | case2 hoisted span declarators =>
    exact plainTargets_flatMap fun d _ => findsWrites_declaratorWrites d
  | case3 span inner ih =>
    rw [ih]
    show _ = writtenTargets (surveyAll [inner]).used
    rw [used_surveyAll_singleton]
  | case4 t => exact findsWrites_writes [] none t

theorem plainTargets_programWrites (t : Tree) :
    plainTargets t.programWrites = writtenTargets t.survey.used := by
  unfold programWrites
  split
  · exact plainTargets_flatMap fun s _ => findsWrites_statementWrites s
  · exact findsWrites_writes [] none _

end Tree

end PageCompiler.Code
