import PageCompiler.Component.Usage

/-!
# Openings in templates

An `Opening` is a template in which one place is left open, and `Opening.put` puts nodes there. That two templates agree
in everything but one place is said by one opening for both; that a place comes after certain uses, by the uses that the
opening has before it. In document order these are the uses before what is put in (`names_put`).
-/

namespace PageCompiler

def Usage.node (u : Usage) : Template.Node :=
  .component u.name u.attributes u.children u.place

namespace Template

def namesIn (nodes : List Node) : List String :=
  (usagesIn nodes).map (·.name)

@[simp] theorem usagesIn_append (ns ms : List Node) : usagesIn (ns ++ ms) = usagesIn ns ++ usagesIn ms := by
  induction ns with
  | nil => rfl
  | cons n ns ih => simp [usagesIn, ih]

theorem usagesIn_singleton (n : Node) : usagesIn [n] = n.usages :=
  List.append_nil _

theorem namesIn_append (ns ms : List Node) : namesIn (ns ++ ms) = namesIn ns ++ namesIn ms := by
  simp [namesIn]

theorem namesIn_cons (n : Node) (ns : List Node) : namesIn (n :: ns) = n.usages.map (·.name) ++ namesIn ns := by
  rw [namesIn, usagesIn, List.map_append, namesIn]

/-- A node of which one list of children is left open. -/
inductive Wrapper where
  | element (tag : String) (attributes : List Attribute) (place : Place)
  | component (name : String) (attributes : List Attribute) (place : Place)
  | slot (name : Option String) (place : Place)
  /-- A choice whose first branch is open. -/
  | chosen (condition : String) (no : List Node) (place : Place)
  /-- A choice whose second branch is open. -/
  | otherwise (condition : String) (yes : List Node) (place : Place)
  | optional (condition : String) (place : Place)
  | loop (source item : String) (index key : Option String) (place : Place)

namespace Wrapper

def around (children : List Node) : Wrapper → Node
  | element tag attributes place => .element tag attributes children place
  | component name attributes place => .component name attributes children place
  | slot name place => .slot name children place
  | chosen condition no place => .choice condition children no place
  | otherwise condition yes place => .choice condition yes children place
  | optional condition place => .optional condition children place
  | loop source item index key place => .loop source item index key children place

/-- The names of the uses of the node that come before the open children. -/
def namesBefore : Wrapper → List String
  | component name _ _ => [name]
  | otherwise _ yes _ => namesIn yes
  | _ => []

/-- The names of the uses of the node that come after the open children. -/
def namesAfter : Wrapper → List String
  | chosen _ no _ => namesIn no
  | _ => []

theorem names_around (w : Wrapper) (children : List Node) :
    (w.around children).usages.map (·.name) = w.namesBefore ++ namesIn children ++ w.namesAfter := by
  cases w <;> simp [around, Node.usages, namesBefore, namesAfter, namesIn]

end Wrapper

/-- A template in which one place is left open: between its own nodes, or inside one of them. -/
inductive Opening where
  | here (before after : List Node)
  | inside (before : List Node) (wrapper : Wrapper) (opening : Opening) (after : List Node)

namespace Opening

def put (nodes : List Node) : Opening → List Node
  | here before after => before ++ nodes ++ after
  | inside before wrapper opening after => before ++ wrapper.around (opening.put nodes) :: after

/-- The names of the uses before the open place, those around it included. -/
def namesBefore : Opening → List String
  | here before _ => namesIn before
  | inside before wrapper opening _ => namesIn before ++ (wrapper.namesBefore ++ opening.namesBefore)

def namesAfter : Opening → List String
  | here _ after => namesIn after
  | inside _ wrapper opening after => opening.namesAfter ++ (wrapper.namesAfter ++ namesIn after)

/-- What is put into the open place comes between the uses before it and those after it. -/
theorem names_put (o : Opening) (nodes : List Node) :
    namesIn (o.put nodes) = o.namesBefore ++ namesIn nodes ++ o.namesAfter := by
  induction o with
  | here before after => rw [put, namesBefore, namesAfter, namesIn_append, namesIn_append]
  | inside before wrapper opening after ih =>
    rw [put, namesIn_append, namesIn_cons, wrapper.names_around, ih]
    simp only [namesBefore, namesAfter, List.append_assoc]

/-- The opening with more nodes at both ends of the template. -/
def widen (first last : List Node) : Opening → Opening
  | here before after => here (first ++ before) (after ++ last)
  | inside before wrapper opening after => inside (first ++ before) wrapper opening (after ++ last)

theorem put_widen (first last nodes : List Node) (o : Opening) :
    (o.widen first last).put nodes = first ++ o.put nodes ++ last := by
  cases o <;> simp [widen, put]

theorem namesBefore_widen (first last : List Node) (o : Opening) :
    (o.widen first last).namesBefore = namesIn first ++ o.namesBefore := by
  cases o <;> simp [widen, namesBefore, namesIn_append]

end Opening

/-! ## The first use that passes a test -/

/-- The opening is where the first use stands whose name passes the test, and `replace` puts nodes there. -/
structure FirstAt (test : String → Bool) (u : Usage) (nodes : List Node) (replace : List Node → Option (List Node))
    (o : Opening) : Prop where
  nodes_eq : nodes = o.put [u.node]
  earlier : ∀ name ∈ o.namesBefore, test name = false
  replace_eq : ∀ new, replace new = some (o.put new)

variable {test : String → Bool} {u : Usage} {nodes : List Node} {replace replace' : List Node → Option (List Node)}
  {o : Opening}

/-- The first use inside of a node, after no such use of the node itself. -/
theorem FirstAt.inside (h : FirstAt test u nodes replace o) (w : Wrapper)
    (hbefore : ∀ name ∈ w.namesBefore, test name = false)
    (hreplace : ∀ new, replace' new = (replace new).map fun part => [w.around part]) :
    FirstAt test u [w.around nodes] replace' (.inside [] w o []) where
  nodes_eq := by rw [h.nodes_eq]; rfl
  earlier := by
    intro name hname
    change name ∈ w.namesBefore ++ o.namesBefore at hname
    rcases List.mem_append.mp hname with hname | hname
    · exact hbefore name hname
    · exact h.earlier name hname
  replace_eq := by
    intro new
    rw [hreplace, h.replace_eq]
    rfl

theorem FirstAt.widen (h : FirstAt test u nodes replace o) (first last : List Node)
    (hfirst : ∀ name ∈ namesIn first, test name = false)
    (hreplace : ∀ new, replace' new = (replace new).map fun part => first ++ part ++ last) :
    FirstAt test u (first ++ nodes ++ last) replace' (o.widen first last) where
  nodes_eq := by rw [Opening.put_widen, ← h.nodes_eq]
  earlier := by
    intro name hname
    rw [Opening.namesBefore_widen] at hname
    rcases List.mem_append.mp hname with hname | hname
    · exact hfirst name hname
    · exact h.earlier name hname
  replace_eq := by
    intro new
    rw [hreplace, h.replace_eq, Opening.put_widen]
    rfl

theorem not_test_of_find?_eq_none {ns : List Node} (h : (usagesIn ns).find? (test ·.name) = none) :
    ∀ name ∈ namesIn ns, test name = false := by
  intro name hname
  obtain ⟨v, hv, rfl⟩ := List.mem_map.mp hname
  simpa using List.find?_eq_none.mp h v hv

theorem replaceFirstIn?_singleton (new : List Node) (n : Node) :
    replaceFirstIn? test new [n] = n.replaceFirst? test new := by
  cases h : n.replaceFirst? test new <;> simp [replaceFirstIn?, h]

theorem replaceFirstIn?_eq_none (new ns : List Node) (h : (usagesIn ns).find? (test ·.name) = none) :
    replaceFirstIn? test new ns = none := by
  induction ns using nodes_induction with
    simp only [usagesIn, List.append_nil, replaceFirstIn?_singleton, Node.usages, Node.replaceFirst?] at *
  | nil => rfl
  | cons n ns hn hns =>
    rw [List.find?_append, Option.or_eq_none_iff] at h
    rw [replaceFirstIn?, hn h.1, hns h.2]
    rfl
  | component name attributes children place ih =>
    rw [List.find?_eq_none, List.forall_mem_cons, ← List.find?_eq_none] at h
    rw [if_neg h.1, ih h.2]
    rfl
  | choice condition yes no place hyes hno =>
    rw [List.find?_append, Option.or_eq_none_iff] at h
    rw [hyes h.1, hno h.2]
    rfl
  | element _ _ _ _ ih | slot _ _ _ ih | optional _ _ _ ih | loop _ _ _ _ _ _ ih =>
    rw [ih h]
    rfl

/-- The first use that passes a test stands at an opening, and is replaced there. -/
theorem exists_firstAt (ns : List Node) (h : (usagesIn ns).find? (test ·.name) = some u) :
    ∃ o, FirstAt test u ns (replaceFirstIn? test · ns) o := by
  induction ns using nodes_induction with
    simp only [usagesIn, List.append_nil, replaceFirstIn?_singleton, Node.usages, Node.replaceFirst?] at *
  | cons n ns hn hns =>
    rw [List.find?_append] at h
    cases hfind : n.usages.find? (test ·.name) with
    | some v =>
      rw [hfind, Option.some_or] at h
      obtain ⟨o, ho⟩ := hn (hfind.trans h)
      refine ⟨_, ho.widen [] ns nofun fun new => ?_⟩
      rw [replaceFirstIn?, ho.replace_eq]
      rfl
    | none =>
      rw [hfind, Option.none_or] at h
      obtain ⟨o, ho⟩ := hns h
      rw [← usagesIn_singleton] at hfind
      have hwide : FirstAt test u ([n] ++ ns ++ []) (replaceFirstIn? test · (n :: ns)) (o.widen [n] []) := by
        refine ho.widen [n] [] (not_test_of_find?_eq_none hfind) fun new => ?_
        rw [replaceFirstIn?, ← replaceFirstIn?_singleton, replaceFirstIn?_eq_none new [n] hfind, ho.replace_eq]
        simp
      rw [List.append_nil, List.singleton_append] at hwide
      exact ⟨_, hwide⟩
  | element tag attributes children place ih =>
    obtain ⟨o, ho⟩ := ih h
    exact ⟨_, ho.inside (.element tag attributes place) nofun fun _ => rfl⟩
  | component name attributes children place ih =>
    rw [List.find?_cons] at h
    cases htest : test name with simp only [htest] at h ⊢
    | true =>
      cases h
      exact ⟨.here [] [], rfl, nofun, fun new => by simp [Opening.put]⟩
    | false =>
      obtain ⟨o, ho⟩ := ih h
      refine ⟨_, ho.inside (.component name attributes place) ?_ fun _ => rfl⟩
      intro name' hname
      rw [List.mem_singleton.mp hname, htest]
  | slot name fallback place ih =>
    obtain ⟨o, ho⟩ := ih h
    exact ⟨_, ho.inside (.slot name place) nofun fun _ => rfl⟩
  | choice condition yes no place hyes hno =>
    rw [List.find?_append] at h
    cases hfind : (usagesIn yes).find? (test ·.name) with
    | some v =>
      rw [hfind, Option.some_or] at h
      obtain ⟨o, ho⟩ := hyes (hfind.trans h)
      refine ⟨_, ho.inside (.chosen condition no place) nofun fun new => ?_⟩
      rw [ho.replace_eq]
      rfl
    | none =>
      rw [hfind, Option.none_or] at h
      obtain ⟨o, ho⟩ := hno h
      refine ⟨_, ho.inside (.otherwise condition yes place) (not_test_of_find?_eq_none hfind) fun new => ?_⟩
      rw [replaceFirstIn?_eq_none new yes hfind]
      rfl
  | optional condition content place ih =>
    obtain ⟨o, ho⟩ := ih h
    exact ⟨_, ho.inside (.optional condition place) nofun fun _ => rfl⟩
  | loop source item index key body place ih =>
    obtain ⟨o, ho⟩ := ih h
    exact ⟨_, ho.inside (.loop source item index key place) nofun fun _ => rfl⟩
  | nil | text | expression | doctype => cases h

theorem FirstAt.namesBefore_eq (h : FirstAt test u nodes replace o) (hu : test u.name = true) :
    o.namesBefore = (namesIn nodes).takeWhile (!test ·) := by
  have hnames : namesIn nodes = o.namesBefore ++ u.name :: (namesIn u.children ++ o.namesAfter) := by
    rw [h.nodes_eq, Opening.names_put]
    simp [namesIn, Usage.node, usagesIn, Node.usages]
  rw [hnames, List.takeWhile_append_of_pos fun name hname => by simp [h.earlier name hname],
    List.takeWhile_cons_of_neg (by simp [hu]), List.append_nil]

end Template

end PageCompiler
