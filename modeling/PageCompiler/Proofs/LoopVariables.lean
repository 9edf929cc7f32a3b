import PageCompiler.Proofs.InstanceNames
import PageCompiler.Proofs.PlacedReading

/-!
# Loop variables of resolved pages

A resolution keeps the template of a page placed (`Step.placedBy`, `Run.placedBy`): the copy of an expression sees the
variables of the loops around the use besides its own, and the copy is put inside of these loops. Expressions that are
taken out of the page are remembered in a ledger, so that no id in the template loses its expression on the way.
-/

namespace PageCompiler.Component

open Template

variable {known : List Expression} {around : List String}

variable {role : Role} {component : Component} {usage : Usage} {a a' : Assembly} {b : Rebinding} {nodes : List Node}
  {file : String}

variable {n : Nat} {name source path : String} {s s' : Stage} {ledger : List Expression} {p : Page}

/-! ## One inlining -/

theorem numberedName_ne_undefined {stem : String} (hstem : stem.toList.head? = some '_') (n : Nat) (x : String) :
    numberedName stem n x ≠ "undefined" := by
  intro h
  have hstart := congrArg (·.toList.head?) h
  rw [toList_numberedName, List.head?_append, hstem] at hstart
  cases hstart

theorem ne_undefined_of_mem_namesOf {script : Option Script} {r : String × String} (h : r ∈ namesOf role n script) :
    r.2 ≠ "undefined" := by
  cases role with
  | component =>
    rw [eq_instanceName_of_mem h]
    exact numberedName_ne_undefined rfl n r.1
  | layout =>
    obtain ⟨x, -, hr⟩ := eq_layoutName_of_mem h
    rw [hr]
    exact numberedName_ne_undefined rfl n x

theorem CopyOf.handler_ne_undefined (h : CopyOf role component usage a b nodes a') (hname : name ≠ "undefined") :
    b.handler name ≠ "undefined" := by
  unfold Rebinding.handler
  split
  · rename_i renamed hrenamed
    have hmem := Ordered.mem_of_get? hrenamed
    rw [h.renames, copiedNames_eq] at hmem
    exact ne_undefined_of_mem_namesOf hmem
  · cases hprop : (b.props.get? name).filter Code.isPlainName with
    | none => exact hname
    | some code => exact ne_undefined_of_isPlainName (Option.filter_eq_some_iff.mp hprop).2

/-- The copies of the expressions of a component have new ids, and they carry what the template mentions. -/
theorem CopyOf.exists_copies (h : CopyOf role component usage a b nodes a')
    (hids : (component.page.expressions.map (·.id)).Nodup) :
    ∃ copies, copies.map (·.id) = freshIds a.nextId copies.length ∧ a'.nextId = a.nextId + copies.length ∧
      a'.expressions ⊆ a.expressions ++ copies ∧ b.Carries usage.place.scope component.page.expressions copies := by
  obtain ⟨copies, hcopies, hexpressions⟩ := h.expressions
  have hlength := hcopies.length_eq
  refine ⟨copies, ?_, by rw [h.nextId, hlength], ?_, ?_, fun name => h.handler_ne_undefined⟩
  · rw [← hlength, ← h.map_id hids, List.map_map, ← List.forall₂_eq_eq_eq, List.forall₂_map_left_iff,
      List.forall₂_map_right_iff]
    exact hcopies.flip.imp fun _ _ hcopy => hcopy.id
  · rw [hexpressions]
    exact List.append_subset.mpr ⟨List.Subset.trans List.filter_sublist.subset (List.subset_append_left _ _),
      List.subset_append_right _ _⟩
  · intro e he
    obtain ⟨i, hi, rfl⟩ := List.mem_iff_getElem.mp he
    have hcopy := hcopies.get hi (hlength ▸ hi)
    exact ⟨copies[i], List.getElem_mem _, hcopy.id, hcopy.place⟩

theorem CopyOf.placed {copies : List Expression} (h : CopyOf role component usage a b nodes a')
    (hcarries : b.Carries usage.place.scope component.page.expressions copies)
    (hpage : Placed component.page.expressions [] component.page.nodes)
    (huse : Placed known around [.component usage.name usage.attributes usage.children usage.place]) :
    Placed (known ++ copies) around nodes := by
  obtain ⟨hplace, -, hchildren⟩ := placed_component.mp huse
  have htemplate := placed_rebinding hcarries hplace (List.nil_subset _) _ hpage
  have htemplate := placed_mono (List.subset_append_right known copies) (.refl _) _ htemplate
  have hcontent := placed_mono (List.subset_append_left known copies) (.refl _) _ hchildren
  rw [h.nodes]
  exact placed_marked _ _ _ (placed_fillAll (placed_slotContent hcontent) (.refl _) _ htemplate)

theorem ne_undefined_of_liftForwarded {code : String} {position : Position}
    (h : Builds (liftForwarded file usage position code) a name a') : name ≠ "undefined" := by
  unfold liftForwarded at h
  split at h
  · rename_i hplain
    obtain ⟨rfl, -⟩ := builds_pure.mp h
    exact ne_undefined_of_isPlainName hplain
  · simp only [builds_bind, builds_get, builds_lift, builds_modify, builds_pure] at h
    obtain ⟨_, _, ⟨rfl, rfl⟩, script, _, -, _, _, -, rfl, -⟩ := h
    intro hname
    have hstart := congrArg (·.toList.head?) hname
    simp [forwardedName, toString] at hstart

theorem placed_forwarded {attr found : Attribute} (hattr : attr.value.Placed known around)
    (h : Builds (forwarded file usage attr) a found a') : found.value.Placed known around := by
  unfold forwarded at h
  split at h
  · simp only [builds_bind, builds_pure] at h
    obtain ⟨name, a₁, hname, rfl, rfl⟩ := h
    refine placed_handler.mpr ?_
    unfold forwardedHandler at hname
    split at hname
    · rename_i hvalue
      obtain ⟨rfl, -⟩ := builds_pure.mp hname
      rw [hvalue] at hattr
      exact placed_handler.mp hattr
    · exact ne_undefined_of_liftForwarded hname
    · rw [builds_bind] at hname
      obtain ⟨code, a₂, -, hlift⟩ := hname
      exact ne_undefined_of_liftForwarded hlift
  · obtain ⟨rfl, -⟩ := builds_pure.mp h
    exact hattr

theorem placed_mapM_forwarded {attributes found : List Attribute}
    (hattributes : AttributesPlaced known around attributes)
    (h : Builds (attributes.mapM (forwarded file usage)) a found a') : AttributesPlaced known around found := by
  induction attributes generalizing a found with
  | nil =>
    obtain ⟨rfl, -⟩ := builds_pure.mp h
    exact hattributes
  | cons attr attributes ih =>
    simp only [List.mapM_cons, builds_bind, builds_pure] at h
    obtain ⟨one, a₁, hone, rest, a₂, hrest, rfl, rfl⟩ := h
    obtain ⟨hattr, hothers⟩ := attributesPlaced_cons.mp hattributes
    exact attributesPlaced_cons.mpr ⟨placed_forwarded hattr hone, ih hothers hrest⟩

theorem placed_forwardAttributes {props : List String} {copied : List Node}
    (hattributes : AttributesPlaced known around usage.attributes) (hcopied : Placed known around copied)
    (h : Builds (forwardAttributes file usage props copied) a nodes a') : Placed known around nodes := by
  unfold forwardAttributes at h
  split at h
  · obtain ⟨rfl, -⟩ := builds_pure.mp h
    exact hcopied
  · simp only [builds_bind, builds_pure] at h
    obtain ⟨found, a₁, hfound, rfl, rfl⟩ := h
    have hpassed : AttributesPlaced known around (passedOn usage props) :=
      hattributes.subset List.filter_sublist.subset
    have hfound := placed_mapM_forwarded hpassed hfound
    exact placed_onSingleRoot (fun as has => attributesPlaced_foldl_mergeAttribute has hfound) hcopied

/-- The parts of an inlining: the template is copied, the attributes of the use are put on its root, and nothing more
joins the expressions. -/
theorem exists_parts_of_inline (h : Builds (inline file role component usage) a nodes a') :
    ∃ b copied a₁ ids, Builds (copyTemplate file role component usage) a (b, copied) a₁ ∧ Takes ids a₁ a' ∧
      (nodes = copied ∨ ∃ a₂, Builds (forwardAttributes file usage component.props.keys copied) a₁ nodes a₂) := by
  simp only [inline, builds_bind] at h
  obtain ⟨⟨b, copied⟩, a₁, hcopy, h⟩ := h
  cases role with
  | component =>
    simp only [builds_bind, builds_pure] at h
    obtain ⟨rooted, a₂, hroot, _, a₃, hblocks, _, a₄, hstyles, rfl, rfl⟩ := h
    have htakes := (builds_forwardAttributes hroot).2.append (builds_scripts hblocks hstyles).2
    exact ⟨b, copied, a₁, _, hcopy, htakes, .inr ⟨a₂, hroot⟩⟩
  | layout =>
    simp only [builds_bind, builds_pure] at h
    obtain ⟨_, _, ⟨rfl, rfl⟩, _, a₃, hblocks, _, a₄, hstyles, rfl, rfl⟩ := h
    exact ⟨b, copied, a₁, _, hcopy, (builds_scripts hblocks hstyles).2, .inl rfl⟩

/-! ## Runs -/

/-- The template of a stage is placed, with the expressions of the page and those that were taken out of it before. -/
structure Stage.PlacedBy (s : Stage) (ledger : List Expression) : Prop where
  kept : s.parts.expressions ⊆ ledger
  nodup : (ledger.map (·.id)).Nodup
  below : ∀ e ∈ ledger, ∃ i, i < s.parts.nextId ∧ e.id = expressionId i
  placed : Placed ledger [] s.nodes

variable {catalogs : Catalogs} {file : String}

/-- One replacement keeps the template placed. -/
theorem Step.placedBy (hread : catalogs.AreRead) {u : Use} (h : Step catalogs file s u s') (hs : s.PlacedBy ledger) :
    ∃ ledger', s'.PlacedBy ledger' := by
  obtain ⟨new, hinline, hreplace⟩ := h.replaced
  obtain ⟨source, path, hsource⟩ := hread u.component (knows_of_nextTarget h.next.target)
  have hpage := page_of_read hsource
  obtain ⟨b, copied, a₁, ids, hcopy, htakes, hnodes⟩ := exists_parts_of_inline hinline
  have hcopyOf := builds_copyTemplate hcopy
  obtain ⟨copies, hids, hnext, hsub, hcarries⟩ := hcopyOf.exists_copies (Page.registered_of_read hpage).nodup
  obtain ⟨o, ho⟩ := Template.exists_firstAt s.nodes h.next.usage
  have hafter : o.put new = s'.nodes := Option.some.inj ((ho.replace_eq new).symm.trans hreplace)
  obtain ⟨inner, hroom⟩ := exists_room o (ho.nodes_eq ▸ hs.placed)
  have hgrown : ledger ⊆ ledger ++ copies := List.subset_append_left _ _
  have hcopied : Placed (ledger ++ copies) inner copied := hcopyOf.placed hcarries (Page.placed_of_read hpage) hroom.here
  have hnew : Placed (ledger ++ copies) inner new := by
    rcases hnodes with rfl | ⟨a₂, hforward⟩
    · exact hcopied
    · obtain ⟨-, hattributes, -⟩ := placed_component.mp hroom.here
      exact placed_forwardAttributes (hattributes.mono hgrown (.refl _)) hcopied hforward
  -- The copies have ids that no expression had before, whether it is still in the page or not.
  have hfresh : ∀ copy ∈ copies, ∃ i, s.parts.nextId ≤ i ∧ i < s.parts.nextId + copies.length ∧
      copy.id = expressionId i := by
    intro copy hmem
    exact mem_freshIds.mp (hids ▸ List.mem_map_of_mem hmem)
  refine ⟨ledger ++ copies, ?_, ?_, ?_, hafter ▸ hroom.put hgrown hnew⟩
  · rw [htakes.left]
    refine List.Subset.trans List.filter_sublist.subset (List.Subset.trans hsub ?_)
    exact List.append_subset.mpr ⟨List.Subset.trans hs.kept hgrown, List.subset_append_right _ _⟩
  · rw [List.map_append, hids]
    refine hs.nodup.append (nodup_freshIds _ _) ?_
    intro id hold hnew
    obtain ⟨e, he, rfl⟩ := List.mem_map.mp hold
    obtain ⟨i, hi, hid⟩ := hs.below e he
    obtain ⟨j, hj, -, hid'⟩ := mem_freshIds.mp hnew
    have := expressionId_injective (hid.symm.trans hid')
    omega
  · intro e he
    rw [htakes.nextId, hnext]
    rcases List.mem_append.mp he with hold | hnew
    · obtain ⟨i, hi, hid⟩ := hs.below e hold
      exact ⟨i, by omega, hid⟩
    · obtain ⟨i, -, hi, hid⟩ := hfresh e hnew
      exact ⟨i, hi, hid⟩

/-- Any number of replacements keep the template placed. -/
theorem Run.placedBy (hread : catalogs.AreRead) {taken : List String} (h : Run catalogs file s n taken s')
    (hs : s.PlacedBy ledger) : ∃ ledger', s'.PlacedBy ledger' := by
  induction h generalizing ledger with
  | done s => exact ⟨ledger, hs⟩
  | step hstep _ ih =>
    obtain ⟨ledger', hnext⟩ := hstep.placedBy hread hs
    exact ih hnext

theorem placedBy_ofPage (h : Page.read source path = .ok p) :
    (Stage.ofPage p).PlacedBy p.expressions where
  kept := .refl _
  nodup := (Page.registered_of_read h).nodup
  below := fun e he => (distinct_ofPage (Page.registered_of_read h)).below e.id (List.mem_map_of_mem he)
  placed := Page.placed_of_read h

theorem exists_placed_of_resolve {options : Options} {page : Page} {count : Nat} (hread : catalogs.AreRead)
    (hp : Page.read source path = .ok p) (h : resolve catalogs options p = .ok (count, page)) :
    ∃ ledger, (ledger.map (·.id)).Nodup ∧ page.expressions ⊆ ledger ∧ Placed ledger [] page.nodes := by
  obtain ⟨taken, a, hrun, -, hpage⟩ := run_of_resolve h
  obtain ⟨ledger, hend⟩ := hrun.placedBy hread (placedBy_ofPage hp)
  refine ⟨ledger, hend.nodup, ?_, hend.placed⟩
  rw [hpage]
  exact hend.kept

/-- In a resolved page each loop variable that an expression sees is a variable of a loop around each place where the
expression is mentioned: in text, in an attribute, as a condition, as the source of another loop or as a key. -/
theorem mem_around_of_resolve {source path : String} {options : Options} {p page : Page} {count : Nat}
    (hread : catalogs.AreRead) (hp : Page.read source path = .ok p)
    (h : resolve catalogs options p = .ok (count, page)) :
    (mentionsIn [] page.nodes).filterMap Mention.id? = idsIn page.nodes ∧
    ∀ around id, .id around id ∈ mentionsIn [] page.nodes → ∀ e ∈ page.expressions, e.id = id →
      ∀ name ∈ LoopScope.variablesOf e.place.scope, name ∈ around := by
  refine ⟨filterMap_id?_mentionsIn [] page.nodes, ?_⟩
  intro around id hmention e he hid name hname
  obtain ⟨ledger, hnodup, hsub, hplaced⟩ := exists_placed_of_resolve hread hp h
  obtain ⟨e', he', hid', hvars⟩ := hplaced _ hmention
  have hsame := Page.eq_of_id_eq hnodup (hsub he) he' (hid.trans hid'.symm)
  exact hvars (hsame ▸ hname)

def nestedLoopSources : List (String × String) :=
  [("Card.zen", "<script>prop label</script><b>\x7b[2].map(r => <i><Slot />\x7blabel\x7d</i>)\x7d</b>")]

def nestedLoopCatalogs : Catalogs where
  components := (Catalog.ofSources nestedLoopSources).toOption.getD {}

/-- A page that uses the component in a loop of its own. -/
def nestedLoopPage : String :=
  "\x7b[1].map(k => <Card label=\x7bk\x7d><u>\x7bk\x7d</u></Card>)\x7d"

/-- An expression of the component sees the variables of both loops, and it is inside of both. -/
theorem mem_around_of_resolve_nested :
    nestedLoopCatalogs.AreRead ∧ ∃ p count page, Page.read nestedLoopPage "page.zen" = .ok p ∧
      resolve nestedLoopCatalogs {} p = .ok (count, page) ∧
      (∃ e ∈ page.expressions, LoopScope.variablesOf e.place.scope = ["k", "r"] ∧
        .id ["r", "k"] e.id ∈ mentionsIn [] page.nodes) ∧
      ∀ around id, .id around id ∈ mentionsIn [] page.nodes → ∀ e ∈ page.expressions, e.id = id →
        ∀ name ∈ LoopScope.variablesOf e.place.scope, name ∈ around := by
  have hsources : (Catalog.ofSources nestedLoopSources).toOption.isSome = true := by decide +kernel
  have hread : nestedLoopCatalogs.AreRead := by
    refine @areRead_of_ofSources [] nestedLoopSources nestedLoopCatalogs rfl ?_
    rw [nestedLoopCatalogs]
    exact Compiled.eq_ok_getD hsources {}
  have hresolves : ((Page.read nestedLoopPage "page.zen").toOption.any fun p =>
      (resolve nestedLoopCatalogs {} p).toOption.any fun (_, page) => page.expressions.any fun e =>
        LoopScope.variablesOf e.place.scope = ["k", "r"] ∧ .id ["r", "k"] e.id ∈ mentionsIn [] page.nodes) =
      true := by
    decide +kernel
  obtain ⟨p, hp, hresolves⟩ := exists_eq_ok_of_any hresolves
  obtain ⟨⟨count, page⟩, hresolve, hexpression⟩ := exists_eq_ok_of_any hresolves
  obtain ⟨e, he, hboth⟩ := List.any_eq_true.mp hexpression
  refine ⟨hread, p, count, page, hp, hresolve, ⟨e, he, of_decide_eq_true hboth⟩, ?_⟩
  exact (mem_around_of_resolve hread hp hresolve).2

end PageCompiler.Component
