import Mathlib.Data.List.Nodup
import PageCompiler.Proofs.Dictionaries
import PageCompiler.Proofs.Runs

/-!
# Scripts that grow

What every block that joins a script keeps: the blocks before it, and that the props of the script are distinct and
kept under their names. A block that cannot join is a fault of the sources.
-/

namespace PageCompiler

/-- The diagnostic reports a state that no source should lead to. -/
def Diagnostic.IsInternal (d : Diagnostic) : Prop :=
  d.fault.kind = .internal

/-- The faults at which a block cannot be read, or cannot join a script. -/
inductive Fault.OfScript : Fault → Prop
  | badToken (cause : TokenFault) : OfScript (.badToken cause)
  | badScript (cause : SyntaxError) : OfScript (.badScript cause)
  | redeclaredState (name : String) (first second : Position) (script : Nat) :
      OfScript (.redeclaredState name first second script)

theorem Fault.OfScript.not_internal {fault : Fault} (h : fault.OfScript) : fault.kind ≠ .internal := by
  cases h <;> nofun

/-! ## Scripts -/

namespace Script

variable {position : Position} {file : String} {d : Diagnostic} {block : Block} {s s' : Script} {t : Statement}
  {ts : List Statement}

theorem ofScript_of_read {index : Nat} {raw : String} {attributes : Ordered String}
    (h : Block.read index raw attributes position file = .error d) : d.fault.OfScript := by
  unfold Block.read at h
  split at h
  · cases h
    exact .badToken _
  · dsimp only at h
    split at h
    · cases h
      exact .badScript _
    · cases h

theorem ofScript_of_addStatement (h : s.addStatement block file t = .error d) : d.fault.OfScript := by
  cases t with
  | state name value head span =>
    simp only [addStatement] at h
    split at h
    · cases h
      exact .redeclaredState ..
    · cases h
  | _ => cases h

theorem ofScript_of_addStatements (h : s.addStatements block file ts = (s', some d)) : d.fault.OfScript := by
  induction ts generalizing s with
  | nil => cases h
  | cons t ts ih =>
    rw [addStatements] at h
    split at h
    · exact ih h
    · rename_i hadd
      cases h
      exact ofScript_of_addStatement hadd

theorem ofScript_of_add (h : s.add block file = .error d) : d.fault.OfScript := by
  unfold add at h
  split at h
  · rename_i s' d' htake
    cases h
    unfold take at htake
    split at htake
    · rename_i hadd
      cases htake
      exact ofScript_of_addStatements hadd
    · cases htake
  · cases h

theorem ofScript_of_addHandler {code : String} (h : s.addHandler code position file = .error d) :
    d.fault.OfScript := by
  rcases Compiled.bind_eq_error.mp h with h | ⟨block, -, h⟩
  · rcases Compiled.bind_eq_error.mp h with h | ⟨block, -, h⟩
    · exact ofScript_of_read h
    · cases h
  · exact ofScript_of_add h

/-! ## Blocks -/

def Block.IsRead (b : Block) : Prop :=
  ∃ tree, Code.parseProgram b.plain = .ok tree

section
variable {index : Nat} {raw : String} {attributes : Ordered String} {position : Position} {file : String} {block : Block}

/-- A block that is read has the text and the position that it is read with, and its text is a program. -/
theorem exists_of_read (h : Block.read index raw attributes position file = .ok block) :
    ∃ statements, block = { index, raw, attributes, position, statements } ∧ block.IsRead := by
  unfold Block.read at h
  split at h
  · cases h
  · dsimp only at h
    split at h
    · cases h
    · rename_i tree htree
      cases h
      exact ⟨_, rfl, tree, htree⟩

theorem isRead_of_read (h : Block.read index raw attributes position file = .ok block) : block.IsRead := by
  obtain ⟨statements, -, hread⟩ := exists_of_read h
  exact hread

theorem raw_of_read (h : Block.read index raw attributes position file = .ok block) : block.raw = raw := by
  obtain ⟨statements, rfl, -⟩ := exists_of_read h
  rfl

theorem position_of_read (h : Block.read index raw attributes position file = .ok block) :
    block.position = position := by
  obtain ⟨statements, rfl, -⟩ := exists_of_read h
  rfl

end

theorem blocks_of_addStatement (h : s.addStatement block file t = .ok s') : s'.blocks = s.blocks := by
  cases t with
  | state name value head span =>
    simp only [addStatement] at h
    split at h
    · cases h
    · cases h
      rfl
  | _ =>
    cases h
    rfl

theorem blocks_of_addStatements (h : s.addStatements block file ts = (s', none)) : s'.blocks = s.blocks := by
  induction ts generalizing s with
  | nil =>
    cases h
    rfl
  | cons t ts ih =>
    rw [addStatements] at h
    split at h
    · rename_i hfirst
      rw [ih h, blocks_of_addStatement hfirst]
    · cases h

theorem blocks_addListed (s : Script) (block : Block) : (s.addListed block).blocks = s.blocks := by
  unfold addListed
  split <;> rfl

theorem blocks_of_add (h : s.add block file = .ok s') : s'.blocks = s.blocks ++ [block] := by
  unfold add at h
  split at h
  · cases h
  · rename_i s₁ htake
    cases h
    unfold take at htake
    split at htake
    · cases htake
    · rename_i s₂ hstatements
      cases htake
      simp only [blocks_addListed, blocks_of_addStatements hstatements]

/-! ## Declared props -/

/-- The props of a script are distinct, and each is kept under its name. -/
structure PropsNamed (s : Script) : Prop where
  named : ∀ entry ∈ s.props, entry.1 = entry.2.name
  nodup : s.props.keys.Nodup

theorem propsNamed_empty : PropsNamed {} :=
  ⟨by simp, List.nodup_nil⟩

theorem PropsNamed.insertNew (h : s.PropsNamed) (p : DeclaredProp) :
    PropsNamed { s with props := s.props.insertNew p.name p } := by
  unfold Ordered.insertNew
  split
  · exact h
  · rename_i hout
    rw [Ordered.hasKey_iff] at hout
    constructor
    · intro entry hentry
      rcases List.mem_append.mp hentry with hold | hnew
      · exact h.named entry hold
      · rw [List.mem_singleton.mp hnew]
    · rw [Ordered.keys, List.map_append]
      refine h.nodup.append (List.nodup_singleton _) ?_
      intro key hold hnew
      obtain rfl := List.mem_singleton.mp hnew
      exact hout hold

theorem PropsNamed.addStatement (h : s.PropsNamed) (hadd : s.addStatement block file t = .ok s') : s'.PropsNamed := by
  cases t with
  | state name value head span =>
    simp only [Script.addStatement] at hadd
    split at hadd
    · cases hadd
    · cases hadd
      exact ⟨h.named, h.nodup⟩
  | prop name fallback span =>
    cases hadd
    exact h.insertNew ⟨name, fallback, block.index, block.positionOf span.start⟩
  | _ =>
    cases hadd
    exact ⟨h.named, h.nodup⟩

theorem PropsNamed.addStatements (h : s.PropsNamed) (hadd : s.addStatements block file ts = (s', none)) :
    s'.PropsNamed := by
  induction ts generalizing s with
  | nil =>
    cases hadd
    exact h
  | cons t ts ih =>
    rw [Script.addStatements] at hadd
    split at hadd
    · rename_i hfirst
      exact ih (h.addStatement hfirst) hadd
    · cases hadd

theorem PropsNamed.addListed (h : s.PropsNamed) (block : Block) : (s.addListed block).PropsNamed := by
  unfold Script.addListed
  split
  · exact h
  · rename_i list _
    generalize listedProps list = names
    induction names generalizing s with
    | nil => exact h
    | cons name names ih => exact ih (h.insertNew ⟨name, none, block.index, block.position⟩)

theorem PropsNamed.add (h : s.PropsNamed) (hadd : s.add block file = .ok s') : s'.PropsNamed := by
  unfold Script.add at hadd
  split at hadd
  · cases hadd
  · rename_i s₁ htake
    cases hadd
    unfold Script.take at htake
    split at htake
    · cases htake
    · rename_i s₂ hstatements
      cases htake
      have hlisted := (h.addStatements hstatements).addListed block
      exact ⟨hlisted.named, hlisted.nodup⟩

/-! ## Scripts that are read -/

theorem exists_add_of_addHandler {code : String} (h : s.addHandler code position file = .ok s') :
    ∃ block : Block, block.IsRead ∧ s.add block file = .ok s' := by
  obtain ⟨block, hblock, hadd⟩ := Compiled.bind_eq_ok.mp h
  obtain ⟨read, hread, hblock⟩ := Compiled.bind_eq_ok.mp hblock
  cases hblock
  have hprogram : read.IsRead := isRead_of_read hread
  exact ⟨{ read with lifted := true }, hprogram, hadd⟩

section
variable {P : Script → Prop}
  (hadd : ∀ {s s' : Script} {block : Block} {file : String},
    P s → block.IsRead → s.add block file = .ok s' → P s')
include hadd

theorem holds_of_addBlocks {file : Source.File} {index : Nat}
    {blocks : List Markup.Block} (hs : P s) (h : Script.addBlocks file s index blocks = .ok s') : P s' := by
  induction blocks generalizing s index with
  | nil =>
    cases h
    exact hs
  | cons b blocks ih =>
    rw [Script.addBlocks] at h
    obtain ⟨block, hread, h⟩ := Compiled.bind_eq_ok.mp h
    obtain ⟨s₁, hfirst, h⟩ := Compiled.bind_eq_ok.mp h
    exact ih (hadd hs (isRead_of_read hread) hfirst) h

theorem holds_of_addHandlers {handlers : List Template.LiftedHandler} (hs : P s)
    (h : handlers.foldlM (fun (s : Script) l => s.addHandler l.code l.position file) s = .ok s') : P s' := by
  induction handlers generalizing s with
  | nil =>
    cases h
    exact hs
  | cons l handlers ih =>
    rw [List.foldlM_cons] at h
    obtain ⟨s₁, hfirst, h⟩ := Compiled.bind_eq_ok.mp h
    obtain ⟨block, hread, hfirst⟩ := exists_add_of_addHandler hfirst
    exact ih (hadd hs hread hfirst) h

theorem holds_of_read (hempty : P {}) {source path : String} {p : Page}
    (h : Page.read source path = .ok p) : P (p.script.getD {}) := by
  simp only [Page.read, Compiled.bind_eq_ok] at h
  obtain ⟨blocks, -, script, hscript, marked, -, prepared, -, h⟩ := h
  split at h
  rw [Compiled.bind_eq_ok] at h
  obtain ⟨nodes, -, h⟩ := h
  obtain ⟨script', hhandlers, h⟩ := Compiled.bind_eq_ok.mp h
  cases h
  have hown : P (script.getD {}) := by
    unfold Script.ofBlocks at hscript
    split at hscript
    · cases hscript
      exact hempty
    · obtain ⟨added, hadded, hscript⟩ := Compiled.bind_eq_ok.mp hscript
      cases hscript
      exact holds_of_addBlocks hadd hempty hadded
  unfold Page.withHandlers at hhandlers
  split at hhandlers
  · cases hhandlers
    exact hown
  · obtain ⟨added, hadded, hhandlers⟩ := Compiled.bind_eq_ok.mp hhandlers
    cases hhandlers
    exact holds_of_addHandlers hadd hown hadded

end

end Script

theorem Page.propsNamed_of_read {source path : String} {p : Page} (h : Page.read source path = .ok p) :
    (p.script.getD {}).PropsNamed :=
  Script.holds_of_read (fun hs _ hadd => hs.add hadd) Script.propsNamed_empty h

theorem Page.isRead_of_read {source path : String} {p : Page} (h : Page.read source path = .ok p) :
    ∀ block ∈ (p.script.getD {}).blocks, block.IsRead := by
  refine @Script.holds_of_read (fun s => ∀ block ∈ s.blocks, block.IsRead) ?_ nofun _ _ _ h
  intro s s' block file hs hread hadd
  rw [Script.blocks_of_add hadd]
  intro b hb
  rcases List.mem_append.mp hb with hold | hnew
  · exact hs b hold
  · rw [List.mem_singleton.mp hnew]
    exact hread

end PageCompiler
