import PageCompiler.Proofs.ExpressionTable
import PageCompiler.Proofs.Records

/-!
# What evaluators are given

The function made of an expression takes a data object exactly if a reference of the expression reads it, by its own name
or by the name of a state or prop, and the record of what it reads lists the names once each, in the order in which they
first come (`Scope.exposes_of_analyze`). With strict options a page that compiles has no unknown name (`exposes_exactly`).
-/

namespace PageCompiler

open Template (LoopScope)

theorem foldl_pushNew_eq {α : Type} [BEq α] [LawfulBEq α] (items start : List α) :
    items.foldl pushNew start = start ++ (items.filter (!start.contains ·)).eraseDups := by
  induction items generalizing start with
  | nil => simp
  | cons item items ih =>
    rw [List.foldl_cons, ih, pushNew, List.filter_cons]
    by_cases hmem : start.contains item = true
    · simp only [hmem, if_true, Bool.not_true, Bool.false_eq_true, if_false]
    · have hfilter : items.filter (!(start ++ [item]).contains ·) =
          (items.filter (!start.contains ·)).filter (!· == item) := by
        rw [List.filter_filter]
        refine List.filter_congr fun x _ => ?_
        rw [Bool.eq_iff_iff]
        simp [and_comm]
      simp only [hmem, Bool.false_eq_true, if_false, Bool.not_false, if_true, List.eraseDups_cons, hfilter,
        List.append_assoc, List.singleton_append]

/-- The objects through which data is read, in the order in which evaluators take them. -/
inductive DataObject where
  | state
  | props
  | loaderData
  | stores
deriving DecidableEq

namespace DataObject

def all : List DataObject :=
  [state, props, loaderData, stores]

def name : DataObject → String
  | state => "state"
  | props => "props"
  | loaderData => "loaderData"
  | stores => "stores"

end DataObject

namespace Reads

def uses (reads : Reads) : DataObject → Bool
  | .state => reads.state
  | .props => reads.props
  | .loaderData => reads.loaderData
  | .stores => reads.stores

def namesIn (reads : Reads) : DataObject → List String
  | .state => reads.stateNames
  | .props => reads.propNames
  | .loaderData => reads.loaderNames
  | .stores => reads.storeNames

theorem objects_eq (reads : Reads) : reads.objects = (DataObject.all.filter reads.uses).map (·.name) := by
  obtain ⟨state, props, loaderData, stores⟩ := reads
  cases state <;> cases props <;> cases loaderData <;> cases stores <;> rfl

end Reads

def Meaning.read? (r : Code.Reference) : Meaning → Option (DataObject × Option String)
  | .stateObject => some (.state, r.member.map (·.1))
  | .propsObject => some (.props, r.member.map (·.1))
  | .loaderData => some (.loaderData, r.member.map (·.1))
  | .stores => some (.stores, r.member.map (·.1))
  | .state => some (.state, some r.name)
  | .prop => some (.props, some r.name)
  | _ => none

namespace Scope

variable (s : Scope) (loops : Option LoopScope)

variable {file : String} {e : Template.Expression} {options : Options}

/-- The data object that a reference reads, and the name that it reads there, if it gives one. The variables of loops
come first, then the objects themselves, then states, then props. -/
def dataRead? (r : Code.Reference) : Option (DataObject × Option String) :=
  if r.name ∈ LoopScope.variablesOf loops then none
  else match DataObject.all.find? (·.name == r.name) with
    | some object => some (object, r.member.map (·.1))
    | none =>
      if r.name ∈ s.states then some (.state, some r.name)
      else if r.name ∈ s.props then some (.props, some r.name)
      else none

def readsFrom (object : DataObject) (r : Code.Reference) : Bool :=
  (s.dataRead? loops r).any (·.1 = object)

def nameIn? (object : DataObject) (r : Code.Reference) : Option String :=
  (s.dataRead? loops r).bind fun (o, name) => if o = object then name else none

variable {s loops}

theorem dataRead?_eq (r : Code.Reference) : s.dataRead? loops r = (s.meaning r.name loops).read? r := by
  rw [dataRead?, meaning]
  by_cases hloop : r.name ∈ LoopScope.variablesOf loops
  · rw [if_pos hloop, if_pos (List.contains_iff_mem.mpr hloop)]
    rfl
  rw [if_neg hloop, if_neg (mt List.contains_iff_mem.mp hloop)]
  cases hfind : DataObject.all.find? (·.name == r.name) with
  | some object =>
    have hname : object.name = r.name := by simpa using List.find?_some hfind
    rw [← hname]
    cases object <;> rfl
  | none =>
    have hnone := List.find?_eq_none.mp hfind
    simp only [DataObject.all, DataObject.name, List.forall_mem_cons, beq_iff_eq, eq_comm (b := r.name)] at hnone
    obtain ⟨hstate, hprops, hloader, hstores, -⟩ := hnone
    simp only [beq_iff_eq, hstate, hprops, hloader, hstores, if_false, List.contains_iff_mem]
    repeat' split
    all_goals rfl

variable (s loops) in
theorem add_meaning (reads : Reads) (r : Code.Reference) (object : DataObject) :
    (reads.add r (s.meaning r.name loops)).uses object = (reads.uses object || s.readsFrom loops object r) ∧
    (reads.add r (s.meaning r.name loops)).namesIn object = Reads.noting (reads.namesIn object) (s.nameIn? loops object r) := by
  rw [readsFrom, nameIn?, dataRead?_eq]
  cases s.meaning r.name loops <;> cases object <;> simp [Meaning.read?, Reads.add, Reads.uses, Reads.namesIn, Reads.noting]

variable (s loops) in
theorem reads_foldl (references : List Code.Reference) (reads : Reads) (object : DataObject) :
    let found := references.foldl (fun reads r => reads.add r (s.meaning r.name loops)) reads
    found.uses object = (reads.uses object || references.any (s.readsFrom loops object)) ∧
    found.namesIn object = (references.filterMap (s.nameIn? loops object)).foldl pushNew (reads.namesIn object) := by
  induction references generalizing reads with
  | nil => simp
  | cons r references ih =>
    obtain ⟨huses, hnames⟩ := add_meaning s loops reads r object
    obtain ⟨ihuses, ihnames⟩ := ih (reads.add r (s.meaning r.name loops))
    refine ⟨?_, ?_⟩
    · rw [List.foldl_cons, ihuses, huses, List.any_cons, Bool.or_assoc]
    · rw [List.foldl_cons, ihnames, hnames, List.filterMap_cons]
      cases s.nameIn? loops object r <;> rfl

/-- An evaluator takes the data objects that its references read, and the variables of its loops as one parameter if there
are any; and it lists the names that they read in each object once, in the order in which they first come. -/
structure Exposes (s : Scope) (loops : Option LoopScope) (references : List Code.Reference) (a : Evaluator) : Prop where
  objects : a.reads.objects = (DataObject.all.filter fun o => references.any (s.readsFrom loops o)).map (·.name)
  names : ∀ object, a.reads.namesIn object = (references.filterMap (s.nameIn? loops object)).eraseDups
  parameters : a.parameters = a.reads.objects ++ if LoopScope.variablesOf loops = [] then [] else
    ["\x7b " ++ joinStrings ", " (LoopScope.variablesOf loops) ++ " \x7d"]

theorem exposes_of_analyze {a : Evaluator} (h : s.analyze file e = .ok a) :
    ∃ references, Code.expressionReferences e.code = .ok references ∧ Exposes s e.place.scope references a := by
  simp only [analyze, Compiled.bind_eq_ok] at h
  obtain ⟨references, hreferences, renamed, -, code, -, h⟩ := h
  cases h
  refine ⟨references, ?_, ?_, fun object => ?_, ?_⟩
  · cases hread : Code.expressionReferences e.code with
    | ok found =>
      rw [hread] at hreferences
      cases hreferences
      rfl
    | error cause =>
      rw [hread] at hreferences
      cases hreferences
  · rw [Reads.objects_eq]
    refine congrArg (List.map _) (List.filter_congr fun object _ => ?_)
    have huses := (reads_foldl s e.place.scope references {} object).1
    have hnone : ({} : Reads).uses object = false := by cases object <;> rfl
    rwa [hnone, Bool.false_or] at huses
  · have hnames := (reads_foldl s e.place.scope references {} object).2
    have hnone : ({} : Reads).namesIn object = [] := by cases object <;> rfl
    rw [hnone, foldl_pushNew_eq] at hnames
    simpa using hnames
  · simp only [Evaluator.parameters, List.isEmpty_iff]

theorem known_of_check {references : List Code.Reference} (h : s.check options file e = .ok ())
    (hstrict : options.strictReferences = true) (hreferences : Code.expressionReferences e.code = .ok references) :
    ∀ r ∈ references, s.meaning r.name e.place.scope ≠ .unknown := by
  intro r hr hunknown
  have hfault : references.findSome? (s.faultOf options e.place.scope) ≠ none := by
    intro hnone
    have := List.findSome?_eq_none_iff.mp hnone r hr
    simp [faultOf, hunknown, hstrict] at this
  obtain ⟨fault, hfault⟩ := Option.ne_none_iff_exists'.mp hfault
  simp only [check, hreferences, hfault] at h
  split at h
  · cases h
  · cases h

theorem check_of_checkAll {expressions : List Template.Expression} (h : s.checkAll options file expressions = .ok ()) :
    ∀ e ∈ expressions, s.check options file e = .ok () := by
  unfold checkAll at h
  induction expressions with
  | nil => simp
  | cons e expressions ih =>
    rw [List.forM_eq_forM, List.forM_cons] at h
    obtain ⟨_, hfirst, hrest⟩ := Compiled.bind_eq_ok.mp h
    exact List.forall_mem_cons.mpr ⟨hfirst, ih hrest⟩

end Scope

/-- What an evaluator is given is exactly what the references of its expression read. On a page that compiles this holds
of the evaluators in the order of their expressions, and with strict options no reference has an unknown name. -/
theorem exposes_exactly (s : Scope) (file : String) (e : Template.Expression) :
    (∀ a, s.analyze file e = .ok a →
      ∃ references, Code.expressionReferences e.code = .ok references ∧ s.Exposes e.place.scope references a) ∧
    ∀ source options catalogs out, compile source file options catalogs = .ok out →
      ∃ start count page evaluators, Page.read source file = .ok start ∧
        Component.resolve catalogs options start = .ok (count, page) ∧ page.evaluators options = .ok evaluators ∧
        List.Forall₂ (fun e a => ∃ references, Code.expressionReferences e.code = .ok references ∧
            (Scope.ofScript page.script).Exposes e.place.scope references a ∧
            (options.strictReferences = true →
              ∀ r ∈ references, (Scope.ofScript page.script).meaning r.name e.place.scope ≠ .unknown))
          page.expressions evaluators := by
  refine ⟨fun a ha => Scope.exposes_of_analyze ha, fun source options catalogs out h => ?_⟩
  obtain ⟨start, hstart, h⟩ := Compiled.bind_eq_ok.mp h
  obtain ⟨⟨count, page⟩, hresolve, h⟩ := Compiled.bind_eq_ok.mp h
  obtain ⟨_, -, h⟩ := Compiled.bind_eq_ok.mp h
  obtain ⟨_, -, h⟩ := Compiled.bind_eq_ok.mp h
  obtain ⟨_, hbundle, -⟩ := Compiled.bind_eq_ok.mp h
  obtain ⟨evaluators, hevaluators, -⟩ := Compiled.bind_eq_ok.mp hbundle
  refine ⟨start, count, page, evaluators, hstart, hresolve, hevaluators, ?_⟩
  obtain ⟨_, hchecked, hanalyzed⟩ := Compiled.bind_eq_ok.mp hevaluators
  refine (forall₂_of_analyzeAll hanalyzed).imp fun e a ⟨he, ha⟩ => ?_
  obtain ⟨references, hreferences, hexposes⟩ := Scope.exposes_of_analyze ha
  have hcheck := Scope.check_of_checkAll hchecked e he
  exact ⟨references, hreferences, hexposes, fun hstrict => Scope.known_of_check hcheck hstrict hreferences⟩

/-- A prop that a variable of a loop hides is not read, and a state that is read by its name and through its object is
listed once. A page whose markup reads its state and its prop compiles with strict options. -/
theorem exposes_exactly_hidden :
    let s : Scope := { states := ["count"], props := ["title", "n"] }
    let e : Template.Expression :=
      { id := "expr_0", code := "loaderData + n + count + title + state.count", place := { scope := some { vars := ["n"] } } }
    let source := "<script>state count = 0\nprop title</script><p>\x7bcount + title\x7d</p>"
    (∃ a references, s.analyze "page.zen" e = .ok a ∧ Code.expressionReferences e.code = .ok references ∧
      s.Exposes e.place.scope references a ∧ a.parameters = ["state", "props", "loaderData", "\x7b n \x7d"] ∧
      a.reads.namesIn .state = ["count"] ∧ a.reads.namesIn .props = ["title"]) ∧
    ∃ out start count page evaluators, compile source "page.zen" {} {} = .ok out ∧ Page.read source "page.zen" = .ok start ∧
      Component.resolve {} {} start = .ok (count, page) ∧ page.evaluators {} = .ok evaluators ∧
      List.Forall₂ (fun e a => ∃ references, Code.expressionReferences e.code = .ok references ∧
          (Scope.ofScript page.script).Exposes e.place.scope references a ∧
          ∀ r ∈ references, (Scope.ofScript page.script).meaning r.name e.place.scope ≠ .unknown)
        page.expressions evaluators := by
  intro s e source
  have hanalyze : ((s.analyze "page.zen" e).toOption.any fun a =>
      a.parameters = ["state", "props", "loaderData", "\x7b n \x7d"] && a.reads.namesIn .state = ["count"] &&
        a.reads.namesIn .props = ["title"]) = true := by
    decide +kernel
  have hcompiles : (compile source "page.zen" {} {}).toOption.isSome = true := by decide +kernel
  obtain ⟨hexpression, hpages⟩ := exposes_exactly s "page.zen" e
  constructor
  · obtain ⟨a, ha, hreads⟩ := exists_eq_ok_of_any hanalyze
    simp only [Bool.and_eq_true, decide_eq_true_eq] at hreads
    obtain ⟨⟨hparameters, hstates⟩, hprops⟩ := hreads
    obtain ⟨references, hreferences, hexposes⟩ := hexpression a ha
    exact ⟨a, references, ha, hreferences, hexposes, hparameters, hstates, hprops⟩
  · obtain ⟨out, hout⟩ := Compiled.exists_eq_ok hcompiles
    obtain ⟨start, count, page, evaluators, hstart, hresolve, hevaluators, hall⟩ := hpages source {} {} out hout
    refine ⟨out, start, count, page, evaluators, hout, hstart, hresolve, hevaluators, hall.imp ?_⟩
    rintro e a ⟨references, hreferences, hexposes, hknown⟩
    exact ⟨references, hreferences, hexposes, hknown rfl⟩

end PageCompiler
