import PageCompiler.Code.Reference

/-!
# Lexical scope

What the code around a place declares. A function brings its parameters into scope, its body what is declared in it,
a block the variables, functions and classes among its statements, a loop the variables of its head, and so on
(`Tree.introduced`); a use of a name is local if a scope around it brings the name (`Tree.uses`). This is said on the
tree alone, without the spans that `Survey.isHidden` compares.
-/

namespace PageCompiler.Code

variable {r : Reference} {references : List Reference} {t : Tree} {code : List Char}

/-- A place where code uses a name, and what the scopes around it declare, with the places of the declarations. -/
structure Use where
  name : String
  span : Span
  locals : List (String × Span)
deriving DecidableEq, Repr

/-- Whether a scope around the use declares its name. -/
def Use.isLocal (u : Use) : Bool :=
  u.locals.any (·.1 == u.name)

namespace Tree

/-! ## Declarations -/

mutual

/-- What a target, or a list of declared variables, declares. -/
def bound : Tree → List (String × Span)
  | node (.binder text) span _ => [(text, span)]
  | node .defaulted _ (target :: _) => target.bound
  | node .declarator _ (target :: _) => target.bound
  | node .pattern _ parts => boundAll parts
  | node .rest _ parts => boundAll parts
  | node .param _ parts => boundAll parts
  | node .params _ parts => boundAll parts
  | node (.declarations _) _ parts => boundAll parts
  | _ => []

def boundAll : List Tree → List (String × Span)
  | [] => []
  | t :: ts => t.bound ++ boundAll ts

end

/-- The name that stands among the parts of a function, a class or another declaration. -/
def ownName (parts : List Tree) : List (String × Span) :=
  match parts.find? fun p => match p.kind with | .binder _ => true | _ => false with
  | some name => name.bound
  | none => []

def blockBound : Tree → List (String × Span)
  | node (.declarations false) span parts => (node (.declarations false) span parts).bound
  | node (.function true) _ parts => ownName parts
  | node (.klass true) _ parts => ownName parts
  | node .statement _ parts => ownName parts
  | _ => []

mutual

def hoisted : Tree → List (String × Span)
  | node (.declarations true) span parts => (node (.declarations true) span parts).bound
  | node (.function _) _ _ => []
  | node (.arrow _) _ _ => []
  | node (.klass _) _ _ => []
  | node .body _ _ => []
  | node _ _ parts => hoistedAll parts

def hoistedAll : List Tree → List (String × Span)
  | [] => []
  | t :: ts => t.hoisted ++ hoistedAll ts

end

/-- What the root of a tree brings into scope for all its parts. -/
def introduced : Tree → List (String × Span)
  | node (.function isDeclaration) _ parts =>
    (if isDeclaration then [] else ownName parts) ++ boundAll (parts.filter (·.kind == .params))
  | node (.arrow _) _ parts => boundAll (parts.filter (·.kind == .params))
  | node .body _ parts => parts.flatMap blockBound ++ hoistedAll parts
  | node .block _ parts => parts.flatMap blockBound
  | node .loop _ parts => parts.flatMap blockBound
  | node .each _ parts => parts.flatMap blockBound
  | node .cases _ clauses => clauses.flatMap fun clause => clause.parts.flatMap blockBound
  | node .catching _ parts => boundAll parts
  | node (.klass false) _ parts => ownName parts
  | _ => []

/-! ## Uses -/

mutual

/-- The uses of names in a tree around which `locals` are declared. -/
def uses (locals : List (String × Span)) : Tree → List Use
  | node (.name name) span _ => [⟨name, span, locals⟩]
  | node (.binder _) _ _ => []
  | node kind span parts => usesAll ((node kind span parts).introduced ++ locals) parts

def usesAll (locals : List (String × Span)) : List Tree → List Use
  | [] => []
  | t :: ts => t.uses locals ++ usesAll locals ts

end

/-- The uses of names in a program. What its own statements declare belongs to the program as a whole and is local to
no place of it. -/
def programUses : Tree → List Use
  | node .body _ statements => usesAll [] statements
  | t => t.uses []

end Tree

/-! ## The uses are those of the survey -/

@[simp] theorem Survey.used_append (a b : Survey) : (a ++ b).used = a.used ++ b.used := rfl

namespace Tree

mutual

theorem map_uses (locals : List (String × Span)) (written : Bool) : (t : Tree) →
    (t.uses locals).map (fun u => (u.name, u.span)) =
      (t.surveyAs written).used.map fun r => (r.name, r.span)
  | node kind span parts => by
    unfold surveyAs
    split
    case h_5 target value heq =>
      cases heq
      show (target.uses locals ++ usesAll locals value).map _ = _
      rw [List.map_append, map_uses locals true target, map_usesAll locals value, Survey.used_append,
        List.map_append]
    case h_6 target others heq =>
      cases heq
      show (target.uses locals ++ usesAll locals others).map _ = _
      rw [List.map_append, map_uses locals true target, map_usesAll locals others, Survey.used_append,
        List.map_append]
    case h_7 hname _ _ hbinder _ _ heq =>
      cases heq
      rw [uses]
      · exact map_usesAll _ parts
      · exact hname
      · exact hbinder
    all_goals
      rename_i heq
      cases heq
      rfl

theorem map_usesAll (locals : List (String × Span)) : (ts : List Tree) →
    (usesAll locals ts).map (fun u => (u.name, u.span)) =
      (surveyAll ts).used.map fun r => (r.name, r.span)
  | [] => rfl
  | t :: ts => by
    rw [usesAll, surveyAll, List.map_append, Survey.used_append, List.map_append,
      map_uses locals false t, map_usesAll locals ts]

end

mutual

theorem declares_of_mem_used {r : Reference} (written : Bool) : (t : Tree) → r ∈ (t.surveyAs written).used →
    r.declares = false
  | node kind span parts, hr => by
    unfold surveyAs at hr
    split at hr
    case h_5 target value heq =>
      cases heq
      rcases List.mem_append.mp hr with hr | hr
      · exact declares_of_mem_used true target hr
      · exact declares_of_mem_usedAll value hr
    case h_6 target others heq =>
      cases heq
      rcases List.mem_append.mp hr with hr | hr
      · exact declares_of_mem_used true target hr
      · exact declares_of_mem_usedAll others hr
    case h_7 heq =>
      cases heq
      exact declares_of_mem_usedAll parts hr
    case h_4 => cases hr
    all_goals
      rw [List.mem_singleton.mp hr]

theorem declares_of_mem_usedAll {r : Reference} : (ts : List Tree) → r ∈ (surveyAll ts).used → r.declares = false
  | [], hr => by cases hr
  | t :: ts, hr => by
    rcases List.mem_append.mp hr with hr | hr
    · exact declares_of_mem_used false t hr
    · exact declares_of_mem_usedAll ts hr

end

theorem map_programUses (t : Tree) :
    t.programUses.map (fun u => (u.name, u.span)) = t.survey.used.map fun r => (r.name, r.span) := by
  unfold programUses
  split
  · rw [map_usesAll, survey, surveyAs]
    · rfl
    all_goals nofun
  · exact map_uses [] false _

end Tree

/-! ## References are uses -/

theorem Survey.exists_use {s : Survey} {us : List Use}
    (hus : us.map (fun u => (u.name, u.span)) = s.used.map fun r => (r.name, r.span)) (hr : r ∈ s.free) :
    ∃ u ∈ us, u.name = r.name ∧ u.span = r.span := by
  have hpair : (r.name, r.span) ∈ us.map fun u => (u.name, u.span) := by
    rw [hus]
    exact List.mem_map_of_mem (List.mem_filter.mp hr).1
  obtain ⟨u, hu, heq⟩ := List.mem_map.mp hpair
  exact ⟨u, hu, Prod.mk.inj heq⟩

theorem mem_inOrder : r ∈ inOrder references ↔ r ∈ references :=
  mem_sortBy

theorem Tree.exists_use (hr : r ∈ t.references) (locals : List (String × Span)) :
    ∃ u ∈ t.uses locals, u.name = r.name ∧ u.span = r.span :=
  Survey.exists_use (t.map_uses locals false) (mem_inOrder.mp hr)

theorem programReferences_eq (ht : parseProgram code = .ok t) :
    programReferences code = .ok (inOrder (t.survey.free ++ t.survey.outermost)) := by
  rw [programReferences, ht]
  rfl

theorem Tree.mem_free_iff (ht : parseProgram code = .ok t) (h : programReferences code = .ok references) :
    r ∈ references ∧ r.declares = false ↔ r ∈ t.survey.free := by
  rw [programReferences_eq ht] at h
  cases h
  rw [mem_inOrder, List.mem_append]
  constructor
  · rintro ⟨hr | hr, hd⟩
    · exact hr
    · obtain ⟨declared, -, rfl⟩ := List.mem_map.mp hr
      cases hd
  · intro hr
    exact ⟨.inl hr, t.declares_of_mem_used false (List.mem_filter.mp hr).1⟩

theorem Tree.exists_programUse (ht : parseProgram code = .ok t) (h : programReferences code = .ok references)
    (hr : r ∈ references) (hd : r.declares = false) : ∃ u ∈ t.programUses, u.name = r.name ∧ u.span = r.span :=
  Survey.exists_use t.map_programUses ((Tree.mem_free_iff ht h).mp ⟨hr, hd⟩)

end PageCompiler.Code
