import Mathlib.Data.List.Nodup
import PageCompiler.Proofs.ScriptGrowth

/-!
# States that are declared again

The states of a script are the declarations of its blocks, in order, as long as no name comes twice. The first
declaration whose name was there before is reported together with the one before it (`redeclaration_exact`).
-/

namespace PageCompiler.Script

def Block.declared? (b : Block) : Statement → Option DeclaredState
  | .state name value head _ => some ⟨name, value, b.index, b.positionOf head.start⟩
  | _ => none

/-- The states that the statements of blocks declare, in order. -/
def declarations (blocks : List Block) : List DeclaredState :=
  blocks.flatMap fun b => b.statements.filterMap b.declared?

/-- The names before a declaration are distinct, one of them is its own, and the diagnostic reports both places. -/
def Redeclares (file : String) (ds : List DeclaredState) (d : Diagnostic) : Prop :=
  ∃ before first between again after, ds = before ++ first :: (between ++ again :: after) ∧
    ((before ++ first :: between).map (·.name)).Nodup ∧ again.name = first.name ∧
    d.fault = .redeclaredState again.name first.position again.position first.script ∧
    d.file = file ∧ d.position = again.position

/-- Where declarations lead: to a script that lists them, or to the report of the first that comes again. -/
inductive Declares (file : String) (ds : List DeclaredState) : Compiled Script → Prop
  | lists {s : Script} : s.states = ds.map (fun d => (d.name, d)) → (ds.map (·.name)).Nodup → Declares file ds (.ok s)
  | fails {d : Diagnostic} : Redeclares file ds d → Declares file ds (.error d)

def outcome : Script × Option Diagnostic → Compiled Script
  | (_, some d) => .error d
  | (s, none) => .ok s

section

variable {file : String} {ds : List DeclaredState} {s : Script}

theorem Redeclares.append {d : Diagnostic} (h : Redeclares file ds d) (more : List DeclaredState) :
    Redeclares file (ds ++ more) d := by
  obtain ⟨before, first, between, again, after, rfl, hreport⟩ := h
  exact ⟨before, first, between, again, after ++ more, by simp, hreport⟩

theorem Redeclares.not_nodup {d : Diagnostic} (h : Redeclares file ds d) : ¬ (ds.map (·.name)).Nodup := by
  obtain ⟨before, first, between, again, after, rfl, -, hname, -⟩ := h
  intro hnodup
  rw [List.map_append, List.map_cons] at hnodup
  refine (List.nodup_cons.mp hnodup.of_append_right).1 ?_
  rw [← hname]
  exact List.mem_map_of_mem (List.mem_append_right _ List.mem_cons_self)

theorem Declares.addStatement (h : Declares file ds (.ok s)) (block : Block) (t : Statement) :
    Declares file (ds ++ (block.declared? t).toList) (s.addStatement block file t) := by
  cases h with
  | lists hstates hnodup =>
    cases t with
    | state name value head span =>
      have hkeys : s.states.keys = ds.map (·.name) := by
        rw [hstates, Ordered.keys, List.map_map]
        rfl
      simp only [Script.addStatement]
      split
      · rename_i first hfirst
        -- the state that is found is one of those declared so far
        have hmem := Ordered.mem_of_get? hfirst
        rw [hstates] at hmem
        obtain ⟨_, hin, ⟨⟩⟩ := List.mem_map.mp hmem
        obtain ⟨before, between, rfl⟩ := List.append_of_mem hin
        exact .fails ⟨before, first, between, _, [], List.append_assoc .., hnodup, rfl, rfl, rfl, rfl⟩
      · rename_i hnone
        rw [Ordered.get?_eq_none_iff, hkeys] at hnone
        refine .lists ?_ ?_
        · rw [Ordered.insert_of_notMem (hkeys.symm ▸ hnone), hstates, List.map_append]
          rfl
        · rw [List.map_append]
          refine hnodup.append (List.nodup_singleton _) ?_
          rintro other hold hnew
          obtain rfl := List.mem_singleton.mp hnew
          exact hnone hold
    | _ =>
      change Declares file (ds ++ []) _
      rw [List.append_nil]
      exact .lists hstates hnodup

theorem Declares.addStatements (h : Declares file ds (.ok s)) (block : Block) (ts : List Statement) :
    Declares file (ds ++ ts.filterMap block.declared?) (outcome (s.addStatements block file ts)) := by
  induction ts generalizing ds s with
  | nil =>
    rw [List.filterMap_nil, List.append_nil]
    exact h
  | cons t ts ih =>
    have hsplit : (t :: ts).filterMap block.declared? =
        (block.declared? t).toList ++ ts.filterMap block.declared? := by
      simp only [List.filterMap_eq_flatMap_toList, List.flatMap_cons]
    have hfirst := h.addStatement block t
    rw [hsplit, ← List.append_assoc, Script.addStatements]
    split
    · rename_i next hnext
      rw [hnext] at hfirst
      exact ih hfirst
    · rename_i d herror
      rw [herror] at hfirst
      cases hfirst with
      | fails hd => exact .fails (hd.append _)

theorem states_addListed (s : Script) (block : Block) : (s.addListed block).states = s.states := by
  unfold addListed
  split <;> rfl

theorem Declares.add (h : Declares file ds (.ok s)) (block : Block) :
    Declares file (ds ++ block.statements.filterMap block.declared?) (s.add block file) := by
  have hstatements := h.addStatements block block.statements
  unfold Script.add take
  generalize s.addStatements block file block.statements = taken at hstatements
  obtain ⟨next, _ | d⟩ := taken
  · cases hstatements with
    | lists hstates hnodup => exact .lists ((states_addListed next block).trans hstates) hnodup
  · exact hstatements

end

/-- The block is read from the source block with that number. -/
def ReadFrom (file : Source.File) (source : Markup.Block × Nat) (block : Block) : Prop :=
  Block.read source.2 source.1.content source.1.attributes (file.position source.1.offset) file.path = .ok block

section

variable {file : Source.File} {sources : List Markup.Block} {blocks : List Block}

theorem Declares.addBlocks {index : Nat} (hread : List.Forall₂ (ReadFrom file) (sources.zipIdx index) blocks)
    {ds : List DeclaredState} {s : Script} (h : Declares file.path ds (.ok s)) :
    Declares file.path (ds ++ declarations blocks) (s.addBlocks file index sources) := by
  induction sources generalizing index blocks ds s with
  | nil =>
    cases hread
    rw [declarations, List.flatMap_nil, List.append_nil]
    exact h
  | cons source sources ih =>
    rw [List.zipIdx_cons] at hread
    cases hread with
    | @cons _ block _ blocks hblock hrest =>
      have hfirst := h.add block
      have hread : Block.read index source.content source.attributes (file.position source.offset) file.path =
          .ok block := hblock
      rw [declarations, List.flatMap_cons, ← List.append_assoc, Script.addBlocks, hread]
      change Declares _ _ (s.add block file.path >>= fun s => s.addBlocks file (index + 1) sources)
      cases hadd : s.add block file.path with
      | ok next =>
        rw [hadd] at hfirst
        exact ih hrest hfirst
      | error d =>
        rw [hadd] at hfirst
        cases hfirst with
        | fails hd => exact .fails (hd.append _)

theorem index_of_readFrom {start : Nat} (hread : List.Forall₂ (ReadFrom file) (sources.zipIdx start) blocks) :
    blocks.map (·.index) = List.range' start sources.length := by
  induction sources generalizing start blocks with
  | nil =>
    cases hread
    rfl
  | cons source sources ih =>
    rw [List.zipIdx_cons] at hread
    cases hread with
    | cons hblock hrest =>
      obtain ⟨statements, rfl, -⟩ := exists_of_read hblock
      rw [List.map_cons, ih hrest, List.length_cons, List.range'_succ]

theorem ofBlocks_cases (file : Source.File) (sources : List Markup.Block) :
    (∃ d, ofBlocks file sources = .error d ∧ addBlocks file {} 0 sources = .error d) ∨
    ∃ script, ofBlocks file sources = .ok script ∧ addBlocks file {} 0 sources = .ok (script.getD {}) := by
  cases sources with
  | nil => exact .inr ⟨none, rfl, rfl⟩
  | cons source sources =>
    have hof : ofBlocks file (source :: sources) =
        addBlocks file {} 0 (source :: sources) >>= fun s => pure (some s) := rfl
    rw [hof]
    cases addBlocks file {} 0 (source :: sources) with
    | error d => exact .inl ⟨d, rfl, rfl⟩
    | ok s => exact .inr ⟨some s, rfl, rfl⟩

/-- If each block can be read, scripts fail exactly if a name is declared twice; then the first declaration that comes
again is reported with the one before it. Otherwise the states are the declarations, in order and under their names. -/
theorem redeclaration_exact (hread : List.Forall₂ (ReadFrom file) sources.zipIdx blocks) :
    blocks.map (·.index) = List.range sources.length ∧
    ((∃ d name first second, ofBlocks file sources = .error d ∧ d.fault.kind = .stateRedeclaration name first second) ↔
      ∃ name, 2 ≤ ((declarations blocks).map (·.name)).count name) ∧
    (∀ d, ofBlocks file sources = .error d → Redeclares file.path (declarations blocks) d) ∧
    ((¬ ∃ name, 2 ≤ ((declarations blocks).map (·.name)).count name) →
      ∃ script, ofBlocks file sources = .ok script ∧
        (script.getD {}).states = (declarations blocks).map fun d => (d.name, d)) := by
  have htwice : (∃ name, 2 ≤ ((declarations blocks).map (·.name)).count name) ↔
      ¬ ((declarations blocks).map (·.name)).Nodup := by
    rw [List.nodup_iff_count_le_one, not_forall]
    exact exists_congr fun name => Nat.not_le.symm
  have hdeclares : Declares file.path ([] ++ declarations blocks) (addBlocks file {} 0 sources) :=
    Declares.addBlocks hread (.lists rfl List.nodup_nil)
  rw [List.nil_append] at hdeclares
  refine ⟨(index_of_readFrom hread).trans List.range_eq_range'.symm, ?_⟩
  rw [htwice, not_not]
  rcases ofBlocks_cases file sources with ⟨d, hof, hadd⟩ | ⟨script, hof, hadd⟩
  · rw [hadd] at hdeclares
    cases hdeclares with
    | fails hd =>
      have hkind : ∃ name first second, d.fault.kind = .stateRedeclaration name first second := by
        obtain ⟨_, first, _, again, _, -, -, -, hfault, -⟩ := hd
        exact ⟨again.name, first.position, again.position, by rw [hfault]; rfl⟩
      refine ⟨⟨fun _ => hd.not_nodup, fun _ => ?_⟩, ?_, fun hnodup => absurd hnodup hd.not_nodup⟩
      · obtain ⟨name, first, second, hkind⟩ := hkind
        exact ⟨d, name, first, second, hof, hkind⟩
      · intro other hother
        cases hof.symm.trans hother
        exact hd
  · rw [hadd] at hdeclares
    cases hdeclares with
    | lists hstates hnodup =>
      have hok : ∀ d, ofBlocks file sources ≠ .error d := by
        intro d herror
        cases hof.symm.trans herror
      refine ⟨⟨?_, fun htwice => absurd hnodup htwice⟩, fun d herror => absurd herror (hok d), fun _ => ⟨script, hof, hstates⟩⟩
      rintro ⟨d, -, -, -, herror, -⟩
      exact absurd herror (hok d)

end

def twoBlocks : Source.File :=
  .ofString "p.zen" "<script>state a=0</script><script>state b=1;state a=2</script>"

/-- The second block declares the state of the first again. -/
theorem redeclaration_exact_two :
    ∃ blocks d, List.Forall₂ (ReadFrom twoBlocks) [(⟨"state a=0", [], 8⟩, 0), (⟨"state b=1;state a=2", [], 34⟩, 1)] blocks ∧
      ofBlocks twoBlocks [⟨"state a=0", [], 8⟩, ⟨"state b=1;state a=2", [], 34⟩] = .error d ∧
      Redeclares "p.zen" (declarations blocks) d := by
  have hfirst : (Block.read 0 "state a=0" [] (twoBlocks.position 8) "p.zen").toOption.isSome = true := by decide +kernel
  have hsecond : (Block.read 1 "state b=1;state a=2" [] (twoBlocks.position 34) "p.zen").toOption.isSome = true := by
    decide +kernel
  have hread : List.Forall₂ (ReadFrom twoBlocks) [(⟨"state a=0", [], 8⟩, 0), (⟨"state b=1;state a=2", [], 34⟩, 1)] _ :=
    .cons (Compiled.eq_ok_getD hfirst ⟨0, "", [], {}, false, none, []⟩)
      (.cons (Compiled.eq_ok_getD hsecond ⟨0, "", [], {}, false, none, []⟩) .nil)
  have hfails : (ofBlocks twoBlocks [⟨"state a=0", [], 8⟩, ⟨"state b=1;state a=2", [], 34⟩]).toOption.isNone = true := by
    decide +kernel
  cases hof : ofBlocks twoBlocks [⟨"state a=0", [], 8⟩, ⟨"state b=1;state a=2", [], 34⟩] with
  | ok script =>
    rw [hof] at hfails
    cases hfails
  | error d => exact ⟨_, d, hread, rfl, (redeclaration_exact hread).2.2.1 d hof⟩

end PageCompiler.Script
