import PageCompiler.Compile
import PageCompiler.Proofs.ResolutionRun

/-!
# Markers and evaluators

The markers in the markup of a page carry the ids of its template, and the program of the page holds one
evaluator and one row of the table of expressions for each registered expression. Since ids stay
distinct while the page is put together, each marker has exactly one of both.
-/

namespace PageCompiler

open Template (Node Attribute Expression idsIn attributeIds)

variable {file : String} {evaluators : List Evaluator} {options : Options} {b : Emit.Bundle}

variable {scope : Scope} {expressions : List Expression} {p : Page}

namespace Emit

variable {out : Html}

variable {ids : List String}

/-! ## Markers -/

@[simp] theorem Html.bindings_append (a b : Html) : (a ++ b).bindings = a.bindings ++ b.bindings :=
  rfl

@[simp] theorem Html.bindings_ofString (text : String) : (Html.ofString text).bindings = [] :=
  rfl

/-- The markers of the output have the given ids, all of which are registered. -/
structure Marks (w : Writer) (out : Html) (ids : List String) : Prop where
  eq : out.bindings.map (·.id) = ids
  registered : ∀ id ∈ ids, id ∈ w.expressions.map (·.id)

variable {w : Writer}

theorem Marks.nothing (h : out.bindings = []) : Marks w out [] :=
  ⟨by rw [h, List.map_nil], by simp⟩

theorem Marks.append {a b : Html} {l m : List String} (ha : Marks w a l) (hb : Marks w b m) :
    Marks w (a ++ b) (l ++ m) where
  eq := by rw [Html.bindings_append, List.map_append, ha.eq, hb.eq]
  registered := by
    intro id hid
    rcases List.mem_append.mp hid with hid | hid
    · exact ha.registered id hid
    · exact hb.registered id hid

/-- Text before the output brings no marker. -/
theorem Marks.after (h : Marks w out ids) (text : String) : Marks w (Html.ofString text ++ out) ids :=
  (Marks.nothing (Html.bindings_ofString text)).append h

/-- Text behind the output brings no marker. -/
theorem Marks.before (h : Marks w out ids) (text : String) : Marks w (out ++ Html.ofString text) ids := by
  have happend := h.append (Marks.nothing (Html.bindings_ofString text))
  rw [List.append_nil] at happend
  exact happend

theorem marks_marker {id target : String} {kind : BindingKind} {scope : Option Template.LoopScope}
    (h : w.marker id kind target scope = .ok out) : Marks w out [id] := by
  unfold Writer.marker at h
  split at h
  · cases h
  · rename_i e hfind
    cases h
    refine ⟨rfl, ?_⟩
    intro id' hid'
    rw [List.mem_singleton] at hid'
    have hmem : e ∈ w.expressions := List.mem_reverse.mp (List.mem_of_find?_eq_some hfind)
    have heq : e.id = id := by simpa using List.find?_some hfind
    rw [hid', ← heq]
    exact List.mem_map_of_mem hmem

theorem marks_attributes {attributes : List Attribute} (h : w.attributes attributes = .ok out) :
    Marks w out (attributeIds attributes) := by
  induction attributes generalizing out with
  | nil =>
    cases h
    exact .nothing rfl
  | cons a rest ih =>
    simp only [Writer.attributes, Compiled.bind_eq_ok] at h
    obtain ⟨here, hhere, later, hlater, h⟩ := h
    cases h
    rw [Template.attributeIds_cons]
    refine Marks.append ?_ (ih hlater)
    have hfirst : Marks w here a.value.id?.toList := by
      unfold Writer.attr at hhere
      split at hhere <;> rename_i hvalue <;> rw [hvalue]
      case h_3 => exact marks_marker hhere
      all_goals
        cases hhere
        exact .nothing rfl
    exact hfirst.after " "

mutual

theorem marks_node (n : Node) {out : Html} (h : w.node n = .ok out) : Marks w out n.ids := by
  match n with
  | .text .. | .doctype .. =>
    cases h
    exact .nothing rfl
  | .expression id place =>
    rw [Writer.node] at h
    obtain ⟨marker, hmarker, h⟩ := Compiled.bind_eq_ok.mp h
    cases h
    exact ((marks_marker hmarker).after _).before _
  | .element tag attributes children place =>
    rw [Writer.node] at h
    obtain ⟨attrs, hattrs, h⟩ := Compiled.bind_eq_ok.mp h
    have hopening := (marks_attributes hattrs).after ("<" ++ tag)
    split at h
    · rename_i hvoid
      cases h
      have hempty : children = [] := by
        rw [Bool.and_eq_true] at hvoid
        exact List.isEmpty_iff.mp hvoid.2
      rw [hempty]
      exact hopening.append (.nothing (Html.bindings_ofString " />"))
    · obtain ⟨inside, hinside, h⟩ := Compiled.bind_eq_ok.mp h
      cases h
      exact ((hopening.before _).append (marks_nodes children hinside)).before _
  | .choice condition yes no place =>
    simp only [Writer.node, Compiled.bind_eq_ok] at h
    obtain ⟨marker, hmarker, yesHtml, hyes, noHtml, hno, h⟩ := h
    cases h
    have hmark := (marks_marker hmarker).after "<div "
    exact (((hmark.before _).append (marks_nodes yes hyes)).before _).append
      (marks_nodes no hno) |>.before _
  | .optional condition content place =>
    simp only [Writer.node, Compiled.bind_eq_ok] at h
    obtain ⟨marker, hmarker, inside, hinside, h⟩ := h
    cases h
    have hmark := (marks_marker hmarker).after "<div "
    exact ((hmark.before _).append (marks_nodes content hinside)).before _
  | .loop source item index key body place =>
    simp only [Writer.node, Compiled.bind_eq_ok] at h
    obtain ⟨marker, hmarker, keyHtml, hkeyHtml, inside, hinside, h⟩ := h
    cases h
    have hkey : Marks w keyHtml key.toList := by
      cases key with
      | none =>
        cases hkeyHtml
        exact .nothing rfl
      | some k =>
        obtain ⟨keyMarker, hkeyMarker, hkeyHtml⟩ := Compiled.bind_eq_ok.mp hkeyHtml
        cases hkeyHtml
        exact (marks_marker hkeyMarker).after " "
    have hmark := (marks_marker hmarker).after "<template "
    exact (((hmark.before _).append hkey).before _).append (marks_nodes body hinside) |>.before _
  | .component .. | .slot .. => cases h

/-- The markers in the markup of a template are its ids, in their order, and all are registered. -/
theorem marks_nodes (ns : List Node) {out : Html} (h : w.nodes ns = .ok out) :
    Marks w out (idsIn ns) := by
  match ns with
  | [] =>
    cases h
    exact .nothing rfl
  | n :: rest =>
    simp only [Writer.nodes, Compiled.bind_eq_ok] at h
    obtain ⟨here, hhere, later, hlater, h⟩ := h
    cases h
    exact (marks_node n hhere).append (marks_nodes rest hlater)

end

end Emit

/-! ## Evaluators -/

theorem id_of_analyze {e : Expression} {evaluator : Evaluator} (h : scope.analyze file e = .ok evaluator) :
    evaluator.id = e.id := by
  simp only [Scope.analyze, Compiled.bind_eq_ok] at h
  obtain ⟨references, -, renamed, -, code, -, h⟩ := h
  cases h
  rfl

theorem forall₂_of_analyzeAll (h : scope.analyzeAll file expressions = .ok evaluators) :
    List.Forall₂ (fun e a => e ∈ expressions ∧ scope.analyze file e = .ok a) expressions evaluators := by
  unfold Scope.analyzeAll at h
  induction expressions generalizing evaluators with
  | nil =>
    cases h
    exact .nil
  | cons e expressions ih =>
    simp only [List.mapM_cons, Compiled.bind_eq_ok] at h
    obtain ⟨evaluator, hfirst, rest, hrest, h⟩ := h
    cases h
    exact .cons ⟨.head _, hfirst⟩ ((ih hrest).imp fun _ _ ⟨he, ha⟩ => ⟨.tail _ he, ha⟩)

theorem ids_of_analyzeAll (h : scope.analyzeAll file expressions = .ok evaluators) :
    evaluators.map (·.id) = expressions.map (·.id) := by
  rw [← List.forall₂_eq_eq_eq, List.forall₂_map_left_iff, List.forall₂_map_right_iff]
  exact (forall₂_of_analyzeAll h).flip.imp fun _ _ ha => id_of_analyze ha.2

theorem Evaluator.name_inj {id id' : String} : "_zen_" ++ id = "_zen_" ++ id' ↔ id = id' := by
  constructor
  · intro h
    have hlist := congrArg String.toList h
    rw [String.toList_append, String.toList_append, List.append_cancel_left_eq] at hlist
    exact String.toList_injective hlist
  · rintro rfl
    rfl

theorem map_name_eq (evaluators : List Evaluator) :
    evaluators.map (·.name) = (evaluators.map (·.id)).map ("_zen_" ++ ·) := by
  rw [List.map_map]
  rfl

/-- The program of a bundle holds the evaluators, one after the other, and their table. -/
theorem js_of_bundle (h : Emit.bundle p evaluators options = .ok b) (hsome : evaluators ≠ []) :
    ∃ before after, b.js = before ++
      ("\n" ++ joinStrings "\n" (evaluators.map (·.text)) ++ "\n" ++
        ("\n__zenith.expressions([\n" ++ joinStrings "\n" (evaluators.map Emit.tableRow) ++
          "\n]);\n")) ++ after := by
  simp only [Emit.bundle, Compiled.bind_eq_ok] at h
  obtain ⟨markup, -, blocks, -, handlers, -, h⟩ := h
  cases h
  obtain ⟨first, rest, rfl⟩ := List.exists_cons_of_ne_nil hsome
  have hcode : (joinStrings "\n" ((first :: rest).map (·.text))).isEmpty = false := by
    rw [Bool.eq_false_iff]
    intro hempty
    have hlist := congrArg String.toList (String.isEmpty_iff.mp hempty)
    simp [joinStrings, String.toList_intercalate, Evaluator.text] at hlist
  simp only [Emit.paragraph, hcode, Bool.false_eq_true, if_false]
  have hregroup (before code a b c d e : String) :
      before ++ code ++ a ++ b ++ c ++ d ++ e = before ++ code ++ (a ++ b ++ c ++ d ++ e) := by
    simp only [String.append_assoc]
  exact ⟨_, _, hregroup ..⟩

/-- The markers of a bundle carry the ids of the template, in their order, and all are registered. -/
theorem markers_of_bundle (h : Emit.bundle p evaluators options = .ok b) :
    b.bindings.map (·.id) = idsIn p.nodes ∧
      ∀ id ∈ idsIn p.nodes, id ∈ p.expressions.map (·.id) := by
  simp only [Emit.bundle, Compiled.bind_eq_ok] at h
  obtain ⟨markup, hmarkup, blocks, -, handlers, -, h⟩ := h
  cases h
  have hmarks := Emit.marks_nodes p.nodes hmarkup
  exact ⟨hmarks.eq, hmarks.registered⟩

/-- Each marker of a page has exactly one evaluator, and the program holds the evaluators and the rows
of their table, one of each for every registered expression. -/
structure Hydrated (page : Page) (bindings : List Emit.Binding) (evaluators : List Evaluator)
    (js : String) : Prop where
  /-- The markers carry the ids of the template, in their order. -/
  markers : bindings.map (·.id) = idsIn page.nodes
  ids : evaluators.map (·.id) = page.expressions.map (·.id)
  distinct : (evaluators.map (·.name)).Nodup
  one : ∀ marker ∈ bindings, (evaluators.map (·.name)).count ("_zen_" ++ marker.id) = 1 ∧
    (evaluators.map (·.id)).count marker.id = 1
  written : evaluators ≠ [] → ∃ before after, js = before ++
    ("\n" ++ joinStrings "\n" (evaluators.map (·.text)) ++ "\n" ++
      ("\n__zenith.expressions([\n" ++ joinStrings "\n" (evaluators.map Emit.tableRow) ++
        "\n]);\n")) ++ after

theorem js_of_output {out : Emit.Output} (h : Emit.output file b = .ok out) : out.js = b.js := by
  simp only [Emit.output] at h
  split at h
  · split at h
    · cases h
    · cases h
      rfl
  · cases h

theorem hydrated_of_bundle {page : Page} {bundle : Emit.Bundle}
    (hids : (page.expressions.map (·.id)).Nodup)
    (h : page.bundle options = .ok (bundle, evaluators)) :
    Hydrated page bundle.bindings evaluators bundle.js := by
  obtain ⟨found, hfound, h⟩ := Compiled.bind_eq_ok.mp h
  obtain ⟨made, hmade, h⟩ := Compiled.bind_eq_ok.mp h
  cases h
  obtain ⟨-, -, hanalyzed⟩ := Compiled.bind_eq_ok.mp hfound
  have heq := ids_of_analyzeAll hanalyzed
  obtain ⟨hmarkers, hregistered⟩ := markers_of_bundle hmade
  have hnames : (evaluators.map (·.name)).Nodup := by
    rw [map_name_eq, heq]
    exact hids.map fun _ _ => Evaluator.name_inj.mp
  refine ⟨hmarkers, heq, hnames, ?_, fun hsome => js_of_bundle hmade hsome⟩
  intro marker hmarker
  have hid : marker.id ∈ evaluators.map (·.id) := by
    rw [heq]
    refine hregistered _ ?_
    rw [← hmarkers]
    exact List.mem_map_of_mem hmarker
  constructor
  · refine List.count_eq_one_of_mem hnames ?_
    rw [map_name_eq]
    exact List.mem_map_of_mem hid
  · rw [← heq] at hids
    exact List.count_eq_one_of_mem hids hid

/-- When a page compiles, each of its markers has exactly one evaluator and one row in the table of
expressions; the ids of its expressions are distinct when it is read and after any number of
replacements. -/
theorem hydrated_of_compile {source file : String} {options : Options}
    {catalogs : Component.Catalogs} {out : Emit.Output} (hread : catalogs.AreRead)
    (h : compile source file options catalogs = .ok out) :
    ∃ start count page bundle evaluators,
      Page.read source file = .ok start ∧
      Component.resolve catalogs options start = .ok (count, page) ∧
      page.bundle options = .ok (bundle, evaluators) ∧
      Emit.output file bundle = .ok out ∧
      (start.expressions.map (·.id)).Nodup ∧
      (∀ n taken s, Component.Run catalogs start.file (.ofPage start) n taken s → s.parts.ids.Nodup) ∧
      (page.expressions.map (·.id)).Nodup ∧
      Hydrated page bundle.bindings evaluators out.js := by
  obtain ⟨start, hstart, h⟩ := Compiled.bind_eq_ok.mp h
  obtain ⟨⟨count, page⟩, hresolve, h⟩ := Compiled.bind_eq_ok.mp h
  obtain ⟨-, -, h⟩ := Compiled.bind_eq_ok.mp h
  obtain ⟨-, -, h⟩ := Compiled.bind_eq_ok.mp h
  obtain ⟨⟨bundle, evaluators⟩, hbundle, hout⟩ := Compiled.bind_eq_ok.mp h
  have hregistered := Page.registered_of_read hstart
  have hruns : ∀ n taken s, Component.Run catalogs start.file (.ofPage start) n taken s →
      s.parts.ids.Nodup :=
    fun n taken s hrun => (hrun.distinct hread (Component.distinct_ofPage hregistered)).nodup
  obtain ⟨taken, a, hrun, -, hpage⟩ := Component.run_of_resolve hresolve
  have hids : (page.expressions.map (·.id)).Nodup := by
    rw [hpage]
    exact hruns count taken _ hrun
  refine ⟨start, count, page, bundle, evaluators, hstart, hresolve, hbundle, hout,
    hregistered.nodup, hruns, hids, ?_⟩
  rw [js_of_output hout]
  exact hydrated_of_bundle hids hbundle

def labelSources : List (String × String) :=
  [("Row.zen", "<script>prop label</script><li>\x7blabel\x7d</li>")]

def labelCatalogs : Component.Catalogs where
  components := (Catalog.ofSources labelSources).toOption.getD {}

theorem areRead_labelCatalogs : labelCatalogs.AreRead := by
  have hparses : (Catalog.ofSources labelSources).toOption.isSome = true := by decide +kernel
  refine @Component.areRead_of_ofSources [] labelSources labelCatalogs rfl ?_
  rw [labelCatalogs]
  exact Compiled.eq_ok_getD hparses {}

/-- The expression of the page is bound to the prop, and the marker is that of its copy. -/
theorem hydrated_of_compile_label :
    ∃ out start count page bundle evaluators,
      compile "<Row label=\x7b1\x7d />" "page.zen" {} labelCatalogs = .ok out ∧
      Page.read "<Row label=\x7b1\x7d />" "page.zen" = .ok start ∧
      Component.resolve labelCatalogs {} start = .ok (count, page) ∧
      page.bundle {} = .ok (bundle, evaluators) ∧
      Hydrated page bundle.bindings evaluators out.js := by
  have hcompiles : (compile "<Row label=\x7b1\x7d />" "page.zen" {} labelCatalogs).toOption.isSome =
      true := by
    decide +kernel
  obtain ⟨out, hout⟩ := Compiled.exists_eq_ok hcompiles
  obtain ⟨start, count, page, bundle, evaluators, hstart, hresolve, hbundle, -, -, -, -, hall⟩ :=
    hydrated_of_compile areRead_labelCatalogs hout
  exact ⟨out, start, count, page, bundle, evaluators, hout, hstart, hresolve, hbundle, hall⟩

end PageCompiler
