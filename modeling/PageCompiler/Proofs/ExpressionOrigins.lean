import PageCompiler.Proofs.TemplateReading

/-!
# Where expressions come from

Every expression of a page is either registered while the document is converted, from a hole of the markup or from an
attribute, or it is registered while an expression becomes markup (`Origin`). In markup inside of an expression, a node
of the parsed code is registered at its own place, and what an attribute gives at the place of the attribute
(`FromCode`).
-/

namespace PageCompiler.Template

def Known (file : Source.File) (holes : Ordered Markup.Hole) (r : Registry) : Prop :=
  ∀ e ∈ r.expressions, Origin file holes e

section
variable {file : Source.File} {holes : Ordered Markup.Hole} {r r' : Registry}

theorem known_fragmentOf {id : String} {place : Place} {nodes : List Node} (hr : Known file holes r)
    (h : Gives (fragmentOf id place) r nodes r') : Known file holes r' := by
  have hstays : ∀ {r r' : Registry}, Known file holes r → Gives (pure [Node.expression id place]) r nodes r' →
      Known file holes r' := by
    intro r r' hr h
    obtain ⟨-, rfl⟩ := gives_pure.mp h
    exact hr
  simp only [fragmentOf, gives_bind, gives_get] at h
  obtain ⟨_, _, ⟨rfl, rfl⟩, h⟩ := h
  split at h
  · exact hstays hr h
  · rename_i base hbase
    split at h
    · exact hstays hr h
    · split at h
      · exact hstays hr h
      · rename_i tree htree
        rw [gives_bind] at h
        obtain ⟨result, r₁, hl, h⟩ := h
        obtain ⟨new, he, -, -, hnew⟩ := (collects_lower hl).extends.grown
        have hknown : Known file holes r₁ := by
          rw [Known, he, List.forall_mem_append]
          exact ⟨hr, fun e hmem => .code (hr base (List.mem_of_find?_eq_some hbase)) htree (hnew e hmem)⟩
        split at h
        · exact hstays hknown h
        · simp only [gives_bind, gives_modify, gives_pure] at h
          obtain ⟨_, _, rfl, -, rfl⟩ := h
          exact fun e he => hknown e (List.mem_filter.mp he).1

mutual

theorem known_fragments {nodes : List Node} {r r' : Registry} (n : Node) (hr : Known file holes r)
    (h : Gives (fragments n) r nodes r') : Known file holes r' := by
  match n with
  | .expression id place => exact known_fragmentOf hr h
  | .element _ _ inside _ | .component _ _ inside _ | .slot _ inside _ =>
    simp only [fragments, gives_bind, gives_pure] at h
    obtain ⟨inner, r₁, hc, -, rfl⟩ := h
    exact known_fragmentsOf inside hr hc
  | .text .. | .choice .. | .optional .. | .loop .. | .doctype .. =>
    obtain ⟨-, rfl⟩ := gives_pure.mp h
    exact hr

theorem known_fragmentsOf {nodes : List Node} {r r' : Registry} (ns : List Node) (hr : Known file holes r)
    (h : Gives (fragmentsOf ns) r nodes r') : Known file holes r' := by
  match ns with
  | [] =>
    obtain ⟨-, rfl⟩ := gives_pure.mp h
    exact hr
  | n :: ns =>
    simp only [fragmentsOf, gives_bind, gives_pure] at h
    obtain ⟨here, r₁, hn, later, r₂, hl, -, rfl⟩ := h
    exact known_fragmentsOf ns (known_fragments n hr hn) hl

end

end

end PageCompiler.Template

namespace PageCompiler.Page

open Template

theorem exists_origin_of_read {source path : String} {p : Page} (h : read source path = .ok p) :
    ∃ b m, Markup.blocks (.ofString path source) = .ok b ∧ Markup.marked (.ofString path source) b.markup = .ok m ∧
      ∀ e ∈ p.expressions, Origin (.ofString path source) m.holes e := by
  obtain ⟨b, m, isWhole, items, nodes, r, r', hb, hm, hdoc, hfrag, he⟩ := exists_conversion h
  obtain ⟨new, hr, -, -, hnew⟩ := (collects_ofDocument hdoc).extends.grown
  have hknown : Known (.ofString path source) m.holes r := by
    rw [Known, hr]
    exact hnew
  refine ⟨b, m, hb, hm, ?_⟩
  rw [he]
  exact known_fragmentsOf nodes hknown hfrag

end PageCompiler.Page
