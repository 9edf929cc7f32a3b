import PageCompiler.Proofs.LoopVariables
import PageCompiler.Proofs.MutationCheck
import PageCompiler.Proofs.ReadyTemplates

/-!
# Handlers that write states

Only handlers of events may write states, and a page registers its handlers. The check of writes and the registration
collect the handlers of a template by themselves; on a template that is ready both find the same
(`handlersIn_eq`). In a page that compiles each handler is therefore declared, and it is in the record of its owner.
-/

namespace PageCompiler

open Template (Node Attribute Expression Placed AttributesPlaced Ready handlersIn handlerUsesIn attributeHandlers)

variable {n : Node} {page : Page} {f : String}

/-! ## Two ways to collect handlers -/

namespace Emit

variable {known : List String}

theorem map_name_attributeUses (as : List Attribute) : (attributeUses as).map (·.name) = attributeHandlers as := by
  rw [attributeUses, attributeHandlers, List.map_filterMap]
  refine List.filterMap_congr fun a _ => ?_
  cases a.value.handler? <;> rfl

/-- Without uses of components and slots, both surveys of a template pass the same handlers. -/
theorem map_name_usesIn (ns : List Node) (h : Ready known ns) : (usesIn ns).map (·.name) = handlerUsesIn ns := by
  induction ns using Template.nodes_induction with
  | cons n ns hn hns =>
    obtain ⟨hfirst, hrest⟩ := Template.ready_cons.mp h
    simpa [usesIn, handlerUsesIn, hns hrest] using hn hfirst
  | _ => simp_all [usesIn, uses, handlerUsesIn, Node.handlerUses, map_name_attributeUses]

theorem map_name_firstUses (found : List HandlerUse) :
    (firstUses found).map (·.name) = (found.map (·.name)).foldl pushNew [] :=
  map_firsts (·.name) found []

/-- The functions that may write states are those that are registered, in the same order. -/
theorem handlersIn_eq {ns : List Node} (h : Ready known ns) : handlersIn ns = (firstUses (usesIn ns)).map (·.name) := by
  rw [map_name_firstUses, map_name_usesIn ns h, handlersIn]

/-! ## Elements with handlers -/

end Emit

variable {ns : List Node} {known : List Expression} {around : List String}

/-- The node is among the nodes or somewhere inside of them. -/
inductive Occurs (n : Node) : List Node → Prop
  | here {ns : List Node} : n ∈ ns → Occurs n ns
  | inElement {tag : String} {attributes : List Attribute} {children : List Node} {place : Template.Place}
      {ns : List Node} : .element tag attributes children place ∈ ns → Occurs n children → Occurs n ns
  | inYes {condition : String} {yes no : List Node} {place : Template.Place} {ns : List Node} :
      .choice condition yes no place ∈ ns → Occurs n yes → Occurs n ns
  | inNo {condition : String} {yes no : List Node} {place : Template.Place} {ns : List Node} :
      .choice condition yes no place ∈ ns → Occurs n no → Occurs n ns
  | inOptional {condition : String} {content : List Node} {place : Template.Place} {ns : List Node} :
      .optional condition content place ∈ ns → Occurs n content → Occurs n ns
  | inLoop {source item : String} {index key : Option String} {body : List Node} {place : Template.Place}
      {ns : List Node} : .loop source item index key body place ∈ ns → Occurs n body → Occurs n ns

theorem Occurs.mono {ms : List Node} (h : Occurs n ns) (hsub : ns ⊆ ms) : Occurs n ms := by
  cases h with
  | here hmem => exact .here (hsub hmem)
  | inElement hmem hin => exact .inElement (hsub hmem) hin
  | inYes hmem hin => exact .inYes (hsub hmem) hin
  | inNo hmem hin => exact .inNo (hsub hmem) hin
  | inOptional hmem hin => exact .inOptional (hsub hmem) hin
  | inLoop hmem hin => exact .inLoop (hsub hmem) hin

def HandledIn (name : String) (ns : List Node) : Prop :=
  ∃ tag attributes children place, Occurs (.element tag attributes children place) ns ∧
    ∃ a ∈ attributes, a.value = .handler name

/-- Each handler that is collected stands in an attribute of an element. -/
theorem handledIn_of_mem_usesIn {u : Emit.HandlerUse} (ns : List Node) (h : u ∈ Emit.usesIn ns) :
    HandledIn u.name ns := by
  induction ns using Template.nodes_induction with simp only [Emit.usesIn, Emit.uses, List.append_nil] at *
  | cons n ns hn hns =>
    rcases List.mem_append.mp h with hfirst | hrest
    · obtain ⟨_, _, _, _, hoccurs, ha⟩ := hn hfirst
      exact ⟨_, _, _, _, hoccurs.mono (by simp), ha⟩
    · obtain ⟨_, _, _, _, hoccurs, ha⟩ := hns hrest
      exact ⟨_, _, _, _, hoccurs.mono (List.subset_cons_self _ _), ha⟩
  | element tag attributes children place ih =>
    rcases List.mem_append.mp h with hown | hinside
    · obtain ⟨a, ha, hu⟩ := List.mem_filterMap.mp hown
      obtain ⟨name, hname, hu⟩ := Option.bind_eq_some_iff.mp hu
      cases hu
      refine ⟨tag, attributes, children, place, .here List.mem_cons_self, a, ha, ?_⟩
      cases hvalue : a.value <;> simp_all [Template.Value.handler?]
    · obtain ⟨_, _, _, _, hoccurs, ha⟩ := ih hinside
      exact ⟨_, _, _, _, .inElement List.mem_cons_self hoccurs, ha⟩
  | choice condition yes no place hyes hno =>
    rcases List.mem_append.mp h with hinside | hinside
    · obtain ⟨_, _, _, _, hoccurs, ha⟩ := hyes hinside
      exact ⟨_, _, _, _, .inYes List.mem_cons_self hoccurs, ha⟩
    · obtain ⟨_, _, _, _, hoccurs, ha⟩ := hno hinside
      exact ⟨_, _, _, _, .inNo List.mem_cons_self hoccurs, ha⟩
  | optional condition content place ih =>
    obtain ⟨_, _, _, _, hoccurs, ha⟩ := ih h
    exact ⟨_, _, _, _, .inOptional List.mem_cons_self hoccurs, ha⟩
  | loop source item index key body place ih =>
    obtain ⟨_, _, _, _, hoccurs, ha⟩ := ih h
    exact ⟨_, _, _, _, .inLoop List.mem_cons_self hoccurs, ha⟩
  | _ => cases h

theorem Template.Placed.of_mem (h : Placed known around ns) (hn : n ∈ ns) : Placed known around [n] := by
  obtain ⟨before, after, rfl⟩ := List.append_of_mem hn
  rw [Template.placed_append, Template.placed_cons] at h
  exact h.2.1

/-- A node inside of nodes that are placed is placed, inside of some of their loops. -/
theorem Occurs.exists_placed (h : Occurs n ns) (hns : Placed known around ns) : ∃ inner, Placed known inner [n] := by
  induction h generalizing around with
  | here hmem => exact ⟨around, hns.of_mem hmem⟩
  | inElement hmem _ ih => exact ih (Template.placed_element.mp (hns.of_mem hmem)).2
  | inYes hmem _ ih => exact ih (Template.placed_choice.mp (hns.of_mem hmem)).2.1
  | inNo hmem _ ih => exact ih (Template.placed_choice.mp (hns.of_mem hmem)).2.2
  | inOptional hmem _ ih => exact ih (Template.placed_optional.mp (hns.of_mem hmem)).2
  | inLoop hmem _ ih => exact ih (Template.placed_loop.mp (hns.of_mem hmem)).2.2

theorem HandledIn.ne_undefined {name : String}
    (h : HandledIn name ns) (hns : Placed known around ns) : name ≠ "undefined" := by
  obtain ⟨tag, attributes, children, place, hoccurs, a, ha, hvalue⟩ := h
  obtain ⟨inner, hplaced⟩ := hoccurs.exists_placed hns
  have hattribute := (Template.placed_element.mp hplaced).1 a ha
  rw [hvalue] at hattribute
  exact Template.placed_handler.mp hattribute

/-! ## Registration -/

namespace Emit

variable {found : List HandlerUse}

theorem mem_of_mem_firstUses {u : HandlerUse} (h : u ∈ firstUses found) : u ∈ found :=
  (mem_of_mem_firsts (·.name) found [] h).resolve_left List.not_mem_nil

theorem registered_eq_ok {file : String} {declared : List String} {handlers : List String}
    (hfound : ∀ u ∈ found, u.name ≠ "undefined") (h : registered file declared found = .ok handlers) :
    handlers = (firstUses found).map (·.name) ∧ ∀ name ∈ handlers, name ∈ declared := by
  have hnamed : (firstUses found).filter (·.name != "undefined") = firstUses found := by
    rw [List.filter_eq_self]
    intro u hu
    rw [bne_iff_ne]
    exact hfound u (mem_of_mem_firstUses hu)
  simp only [registered, hnamed] at h
  split at h
  · cases h
  · rename_i hall
    cases h
    refine ⟨rfl, fun name hname => ?_⟩
    obtain ⟨u, hu, rfl⟩ := List.mem_map.mp hname
    simpa using List.find?_eq_none.mp hall u hu

theorem js_registration_of_bundle {p : Page} {evaluators : List Evaluator} {options : Options} {b : Bundle}
    (h : bundle p evaluators options = .ok b) :
    ∃ handlers before after,
      registered p.file ((p.script.getD {}).names ++ (p.script.getD {}).importedNames) (usesIn p.nodes) =
        .ok handlers ∧
      b.js = before ++ String.join ((records (p.script.getD {}).states.keys handlers).map fun (id, r) =>
        registration id r ++ "\n") ++ after := by
  simp only [bundle, Compiled.bind_eq_ok] at h
  obtain ⟨markup, -, blocks, -, handlers, hhandlers, h⟩ := h
  cases h
  have hregroup (before registrations a b c : String) :
      before ++ registrations ++ a ++ b ++ c = before ++ registrations ++ (a ++ b ++ c) := by
    simp only [String.append_assoc]
  exact ⟨handlers, _, _, hhandlers, hregroup ..⟩

end Emit

/-- The page registers the handler: an element names it, the scripts declare or import it, and of all records the one of
its owner lists it. -/
structure Registers (page : Page) (f : String) : Prop where
  handled : HandledIn f page.nodes
  declared : f ∈ (page.script.getD {}).names ++ (page.script.getD {}).importedNames
  recorded : (Emit.records (page.script.getD {}).states.keys (handlersIn page.nodes)).filter
    (·.2.handlers.contains f) = [(Emit.ownerId (Emit.owner? f),
      Emit.recordOf (page.script.getD {}).states.keys (handlersIn page.nodes) (Emit.owner? f))]

theorem Registers.mem_handlersIn (h : Registers page f) : f ∈ handlersIn page.nodes := by
  have hlisted := List.mem_singleton_self (Emit.ownerId (Emit.owner? f),
    Emit.recordOf (page.script.getD {}).states.keys (handlersIn page.nodes) (Emit.owner? f))
  rw [← h.recorded] at hlisted
  have hcontains := (List.mem_filter.mp hlisted).2
  exact (List.mem_filter.mp (List.contains_iff_mem.mp hcontains)).1

theorem registers_iff_of_bundle {evaluators : List Evaluator} {options : Options} {b : Emit.Bundle}
    {ready : List String} {known : List Expression} (hready : Ready ready page.nodes)
    (hplaced : Placed known [] page.nodes) (h : Emit.bundle page evaluators options = .ok b) :
    (∀ f, f ∈ handlersIn page.nodes ↔ Registers page f) ∧
    ∃ before after, b.js = before ++ String.join ((Emit.records (page.script.getD {}).states.keys
      (handlersIn page.nodes)).map fun (id, r) => Emit.registration id r ++ "\n") ++ after := by
  have hdefined : ∀ u ∈ Emit.usesIn page.nodes, u.name ≠ "undefined" :=
    fun u hu => (handledIn_of_mem_usesIn page.nodes hu).ne_undefined hplaced
  obtain ⟨handlers, before, after, hregistered, hjs⟩ := Emit.js_registration_of_bundle h
  obtain ⟨rfl, hdeclared⟩ := Emit.registered_eq_ok hdefined hregistered
  rw [← Emit.handlersIn_eq hready] at hjs hdeclared
  refine ⟨fun f => ⟨fun hf => ?_, Registers.mem_handlersIn⟩, before, after, hjs⟩
  refine ⟨?_, hdeclared f hf, Emit.filter_records_handlers hf⟩
  rw [Emit.handlersIn_eq hready] at hf
  obtain ⟨u, hu, rfl⟩ := List.mem_map.mp hf
  exact handledIn_of_mem_usesIn page.nodes (Emit.mem_of_mem_firstUses hu)

/-! ## Writes -/

theorem Script.Block.exists_statement_of_functionAt {b : Script.Block} {offset : Nat}
    (h : b.functionAt offset = some f) : ∃ s ∈ b.statements, s.functionName? = some f := by
  obtain ⟨s, hs, hf⟩ := Option.bind_eq_some_iff.mp h
  exact ⟨s, List.mem_of_find?_eq_some hs, hf⟩

/-- Each write that is reported in a page that passes the check is in a handler of the page, which a statement of the
block defines. -/
theorem Page.exists_handler_of_mutation {p : Page} (hok : p.checkMutations = .ok ())
    (hread : ∀ block ∈ (p.script.getD {}).blocks, block.IsRead) {block : Script.Block}
    (hblock : block ∈ (p.script.getD {}).blocks) (file : String) :
    ∃ found, block.mutations (p.script.getD {}).states.keys file = .ok found ∧
      ∀ m ∈ found, ∃ f ∈ handlersIn p.nodes, m.function = some f ∧
        ∃ s ∈ block.statements, s.functionName? = some f := by
  obtain ⟨tree, htree⟩ := hread block hblock
  refine ⟨_, Script.Block.mutations_eq htree _ file, fun m hm => ?_⟩
  obtain ⟨w, hsees, hmutation⟩ := exists_sees_of_mutation hm
  rcases Page.checkMutations_cases hread with ⟨-, hnone⟩ | ⟨_, _, _, _, -, herror⟩
  · have hhandles : block.Handles (handlersIn p.nodes) w := by
      by_contra hstray
      exact hnone block tree w m.state ⟨hblock, htree, hsees, hstray⟩
    obtain ⟨f, hf, hfunction⟩ := hhandles
    exact ⟨f, hf, by rw [hmutation]; exact hfunction, Script.Block.exists_statement_of_functionAt hfunction⟩
  · rw [hok] at herror
    cases herror

/-- In a page that compiles the functions that may write states are those that are registered with their owners, and
each reported write is in one of them. On every template whose structure is in order, both lists of handlers are the
same. -/
theorem registers_of_compile {source file : String} {options : Options} {catalogs : Component.Catalogs}
    {out : Emit.Output} (hread : catalogs.AreRead) (h : compile source file options catalogs = .ok out) :
    (∃ start count page, Page.read source file = .ok start ∧
      Component.resolve catalogs options start = .ok (count, page) ∧
      (∀ f, f ∈ handlersIn page.nodes ↔ Registers page f) ∧
      (∃ before after, out.js = before ++ String.join ((Emit.records (page.script.getD {}).states.keys
        (handlersIn page.nodes)).map fun (id, r) => Emit.registration id r ++ "\n") ++ after) ∧
      ∀ block ∈ (page.script.getD {}).blocks, ∃ found,
        block.mutations (page.script.getD {}).states.keys (block.file.getD page.file) = .ok found ∧
        ∀ m ∈ found, ∃ f, m.function = some f ∧ Registers page f ∧
          ∃ s ∈ block.statements, s.functionName? = some f) ∧
    ∀ file nodes expressions, Template.checkStructure file nodes expressions = .ok () →
      handlersIn nodes = (Emit.firstUses (Emit.usesIn nodes)).map (·.name) := by
  refine ⟨?_, fun _ _ _ hchecked => Emit.handlersIn_eq (Template.checkStructure_eq_ok_iff.mp hchecked)⟩
  obtain ⟨start, hstart, h⟩ := Compiled.bind_eq_ok.mp h
  obtain ⟨⟨count, page⟩, hresolve, h⟩ := Compiled.bind_eq_ok.mp h
  obtain ⟨_, hstructure, h⟩ := Compiled.bind_eq_ok.mp h
  obtain ⟨_, hmutations, h⟩ := Compiled.bind_eq_ok.mp h
  obtain ⟨⟨bundle, evaluators⟩, hbundle, hout⟩ := Compiled.bind_eq_ok.mp h
  obtain ⟨_, -, hbundle⟩ := Compiled.bind_eq_ok.mp hbundle
  obtain ⟨made, hmade, hbundle⟩ := Compiled.bind_eq_ok.mp hbundle
  cases hbundle
  obtain ⟨ledger, -, -, hplaced⟩ := Component.exists_placed_of_resolve hread hstart hresolve
  obtain ⟨hregisters, before, after, hjs⟩ :=
    registers_iff_of_bundle (Template.checkStructure_eq_ok_iff.mp hstructure) hplaced hmade
  refine ⟨start, count, page, hstart, hresolve, hregisters, ⟨before, after, ?_⟩, fun block hblock => ?_⟩
  · rw [js_of_output hout, hjs]
  · have hblocks := Component.isRead_of_resolve hstart hresolve
    obtain ⟨found, hfound, hall⟩ := Page.exists_handler_of_mutation hmutations hblocks hblock _
    refine ⟨found, hfound, fun m hm => ?_⟩
    obtain ⟨f, hf, hfunction, hdefined⟩ := hall m hm
    exact ⟨f, hfunction, (hregisters f).mp hf, hdefined⟩

def clickSources : List (String × String) :=
  [("Click.zen", "<script>state n = 0\nfunction f() \x7bn++\x7d</script><b onclick=\x7bf\x7d></b>")]

def clickCatalogs : Component.Catalogs where
  components := (Catalog.ofSources clickSources).toOption.getD {}

/-- The handler of an instance is registered, and it writes the state of the instance. -/
theorem registers_of_compile_click :
    clickCatalogs.AreRead ∧ ∃ out start count page, compile "<Click />" "page.zen" {} clickCatalogs = .ok out ∧
      Page.read "<Click />" "page.zen" = .ok start ∧
      Component.resolve clickCatalogs {} start = .ok (count, page) ∧ Registers page "__zen_comp_0_f" ∧
      ∃ block ∈ (page.script.getD {}).blocks, ∃ found m,
        block.mutations (page.script.getD {}).states.keys (block.file.getD page.file) = .ok found ∧ m ∈ found ∧
        m.function = some "__zen_comp_0_f" := by
  have hsources : (Catalog.ofSources clickSources).toOption.isSome = true := by decide +kernel
  have hread : clickCatalogs.AreRead := by
    refine @Component.areRead_of_ofSources [] clickSources clickCatalogs rfl ?_
    rw [clickCatalogs]
    exact Compiled.eq_ok_getD hsources {}
  have hcompiles : (compile "<Click />" "page.zen" {} clickCatalogs).toOption.isSome = true := by decide +kernel
  have hwrites : ((Page.read "<Click />" "page.zen").toOption.any fun start =>
      (Component.resolve clickCatalogs {} start).toOption.any fun resolved =>
        (resolved.2.script.getD {}).blocks.any fun block =>
          (block.mutations (resolved.2.script.getD {}).states.keys
            (block.file.getD resolved.2.file)).toOption.any fun found =>
              found.any (·.function == some "__zen_comp_0_f")) = true := by
    decide +kernel
  obtain ⟨out, hout⟩ := Compiled.exists_eq_ok hcompiles
  obtain ⟨⟨start, count, page, hstart, hresolve, -, -, hblocks⟩, -⟩ := registers_of_compile hread hout
  rw [hstart] at hwrites
  change (Component.resolve clickCatalogs {} start).toOption.any _ = true at hwrites
  rw [hresolve] at hwrites
  obtain ⟨block, hblock, hfound⟩ := List.any_eq_true.mp hwrites
  obtain ⟨found, hmutations, hany⟩ := exists_eq_ok_of_any hfound
  obtain ⟨m, hm, hfunction⟩ := List.any_eq_true.mp hany
  have hfunction := beq_iff_eq.mp hfunction
  obtain ⟨found', hmutations', hall⟩ := hblocks block hblock
  cases hmutations.symm.trans hmutations'
  obtain ⟨f, hf, hregisters, -⟩ := hall m hm
  cases hfunction.symm.trans hf
  exact ⟨hread, out, start, count, page, hout, hstart, hresolve, hregisters, block, hblock, found, m, hmutations, hm,
    hfunction⟩

end PageCompiler
