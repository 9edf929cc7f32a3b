import PageCompiler.Proofs.PlacedCopies

/-!
# Templates that are read are placed

An expression is registered with the loops around the markup in which it is written, and it is mentioned inside of these
loops (`Page.placed_of_read`). A loop in code binds no more variables than the node of the loop has.
-/

namespace PageCompiler.Template

variable {around : List String} {P : Expression → Prop} {scope : Option LoopScope} {r r' : Registry}

variable {id : String} {attributes : List Attribute} {nodes : List Node} {known : List Expression} {r : Registry}

theorem Registers.holds (h : Registers P scope r id r') (hscope : LoopScope.variablesOf scope ⊆ around) :
    (Mention.id around id).Holds r'.expressions := by
  cases h with
  | last e _ hplace => exact ⟨e, List.mem_append_right _ (List.mem_singleton.mpr rfl), rfl, hplace ▸ hscope⟩

theorem CollectsValue.placed {value : Value} (h : CollectsValue P scope r value r')
    (hscope : LoopScope.variablesOf scope ⊆ around) : value.Placed r'.expressions around := by
  cases h with
  | fixed => exact placed_fixed
  | handler hname => exact placed_handler.mpr hname
  | expression h => exact placed_value.mpr (h.holds hscope)

theorem CollectsAttributes.placed (h : CollectsAttributes P scope r attributes r')
    (hscope : LoopScope.variablesOf scope ⊆ around) : AttributesPlaced r'.expressions around attributes := by
  induction h with
  | nil => exact List.forall_mem_nil _
  | cons hvalue _ hrest ih =>
    exact attributesPlaced_cons.mpr ⟨(hvalue.placed hscope).mono hrest.extends.subset (.refl _), ih⟩

theorem FindsKey.placed {rest : List Attribute} (h : FindsKey P scope r attributes id rest r')
    (hscope : LoopScope.variablesOf scope ⊆ around) (hattributes : AttributesPlaced r.expressions around attributes) :
    (Mention.id around id).Holds r'.expressions ∧ AttributesPlaced r'.expressions around rest := by
  have hrest : ∀ (before after : List Attribute) (key : Attribute), before ++ after ⊆ before ++ key :: after :=
    fun before after key => ((List.sublist_cons_self key after).append_left before).subset
  cases h with
  | expression hkey =>
    have hvalue := hattributes _ (List.mem_append_right _ List.mem_cons_self)
    rw [hkey] at hvalue
    exact ⟨placed_value.mp hvalue, hattributes.subset (hrest _ _ _)⟩
  | registered _ h => exact ⟨h.holds hscope, (hattributes.subset (hrest _ _ _)).mono h.extends.subset (.refl _)⟩

theorem TakesKey.placed {body body' : List Node} {key : Option String} (h : TakesKey P scope r body key body' r')
    (hscope : LoopScope.variablesOf scope ⊆ around) (hbody : Placed r.expressions around body) :
    (∀ id ∈ key, (Mention.id around id).Holds r'.expressions) ∧ Placed r'.expressions around body' := by
  cases h with
  | none => exact ⟨nofun, hbody⟩
  | element h =>
    obtain ⟨hattributes, hchildren⟩ := placed_element.mp hbody
    obtain ⟨hkey, hrest⟩ := h.placed hscope hattributes
    obtain ⟨used, hext, -⟩ := h.extends
    exact ⟨by simpa using hkey, placed_element.mpr ⟨hrest, placed_mono hext.subset (.refl _) _ hchildren⟩⟩
  | component h =>
    obtain ⟨hplace, hattributes, hchildren⟩ := placed_component.mp hbody
    obtain ⟨hkey, hrest⟩ := h.placed hscope hattributes
    obtain ⟨used, hext, -⟩ := h.extends
    exact ⟨by simpa using hkey, placed_component.mpr ⟨hplace, hrest, placed_mono hext.subset (.refl _) _ hchildren⟩⟩

theorem mem_inside_of_mem_vars {vars : List String} {name : String} (hlength : vars.length ≤ 2) (h : name ∈ vars) :
    name ∈ inside (vars.headD "") vars[1]? around := by
  match vars with
  | [] => cases h
  | [item] => simp_all [inside]
  | [item, index] =>
    simp only [List.mem_cons, List.not_mem_nil, or_false] at h
    simp only [inside, List.headD_cons, List.mem_cons]
    rcases h with rfl | rfl
    · exact .inl rfl
    · exact .inr (by simp)

theorem Collects.placed (h : Collects P scope r nodes r') (hscope : LoopScope.variablesOf scope ⊆ around) :
    Placed r'.expressions around nodes := by
  induction h generalizing around with
  | nil => exact placed_nil
  | append _ hlater ihhere ihlater =>
    exact placed_append.mpr ⟨placed_mono hlater.extends.subset (.refl _) _ (ihhere hscope), ihlater hscope⟩
  | text => exact placed_text
  | doctype => exact placed_doctype
  | expression h => exact placed_expression.mpr ⟨h.holds hscope, hscope⟩
  | element _ hattributes ih =>
    have hchildren := placed_mono hattributes.extends.subset (.refl _) _ (ih hscope)
    exact placed_element.mpr ⟨hattributes.placed hscope, hchildren⟩
  | component _ hattributes ih =>
    have hchildren := placed_mono hattributes.extends.subset (.refl _) _ (ih hscope)
    exact placed_component.mpr ⟨hscope, hattributes.placed hscope, hchildren⟩
  | slot _ ih => exact placed_slot.mpr (ih hscope)
  | choice hcondition hyes hno ihyes ihno =>
    have hfirst := hyes.extends.subset
    have hsecond := hno.extends.subset
    exact placed_choice.mpr ⟨holds_mono (List.Subset.trans hfirst hsecond) (.refl _) (hcondition.holds hscope),
      placed_mono hsecond (.refl _) _ (ihyes hscope), ihno hscope⟩
  | optional hcondition hcontent ih =>
    exact placed_optional.mpr ⟨holds_mono hcontent.extends.subset (.refl _) (hcondition.holds hscope), ih hscope⟩
  | @loop _ inner _ vars _ _ _ _ _ _ _ _ hlength hinner hsource hbody hkey ih =>
    -- The scope inside of the loop has the variables of the node and those around it.
    have hinside : LoopScope.variablesOf inner ⊆ inside (vars.headD "") vars[1]? around := by
      intro name hname
      rw [hinner] at hname
      rcases LoopScope.mem_variablesOf_nest.mp hname with houter | hown
      · exact subset_inside _ _ (hscope houter)
      · exact mem_inside_of_mem_vars hlength hown
    obtain ⟨hkeyed, hplaced⟩ := hkey.placed hinside (ih hinside)
    obtain ⟨used, hext, -⟩ := hkey.extends
    have hrest := List.Subset.trans hbody.extends.subset hext.subset
    exact placed_loop.mpr ⟨holds_mono hrest (.refl _) (hsource.holds hscope), hkeyed, hplaced⟩

/-! ## Expressions that become markup -/

/-- Nodes became others that are placed, when the new expressions join all that were registered before. -/
def Regrows (known : List Expression) (around : List String) (r r' : Registry) (nodes : List Node) : Prop :=
  ∃ new, Numbered r r' new ∧ r'.expressions ⊆ known ++ new ∧ Placed (known ++ new) around nodes

theorem Regrows.self (hr : r.expressions ⊆ known) (h : Placed known around nodes) : Regrows known around r r nodes :=
  ⟨[], .nil rfl, by rwa [List.append_nil], by rwa [List.append_nil]⟩

theorem regrows_fragmentOf {place : Place} {r' : Registry} (hr : r.expressions ⊆ known)
    (hstays : Placed known around [.expression id place]) (h : Gives (fragmentOf id place) r nodes r') :
    Regrows known around r r' nodes := by
  have hsame : ∀ {r r' : Registry}, r.expressions ⊆ known → Gives (pure [Node.expression id place]) r nodes r' →
      Regrows known around r r' nodes := by
    intro r r' hr h
    obtain ⟨rfl, rfl⟩ := gives_pure.mp h
    exact .self hr hstays
  simp only [fragmentOf, gives_bind, gives_get] at h
  obtain ⟨_, _, ⟨rfl, rfl⟩, h⟩ := h
  split at h
  · exact hsame hr h
  · split at h
    · exact hsame hr h
    · split at h
      · exact hsame hr h
      · rw [gives_bind] at h
        obtain ⟨result, r₁, hl, h⟩ := h
        have hcollects := collects_lower hl
        obtain ⟨new, he, hnew, -, -⟩ := hcollects.extends.grown
        have hknown : r₁.expressions ⊆ known ++ new := by
          rw [he]
          exact List.append_subset.mpr ⟨List.Subset.trans hr (List.subset_append_left _ _),
            List.subset_append_right _ _⟩
        split at h
        · obtain ⟨rfl, rfl⟩ := gives_pure.mp h
          exact ⟨new, hnew, hknown, placed_mono (List.subset_append_left _ _) (.refl _) _ hstays⟩
        · simp only [gives_bind, gives_modify, gives_pure] at h
          obtain ⟨_, _, rfl, rfl, rfl⟩ := h
          refine ⟨new, ⟨hnew.ids, hnew.next, hnew.readable⟩, List.Subset.trans List.filter_sublist.subset hknown, ?_⟩
          exact placed_mono hknown (.refl _) _ (hcollects.placed (placed_expression.mp hstays).2)

mutual

theorem regrows_fragments {known : List Expression} {nodes : List Node} {r r' : Registry}
    (hr : r.expressions ⊆ known) (n : Node) (hn : Placed known around [n]) (h : Gives (fragments n) r nodes r') :
    Regrows known around r r' nodes := by
  match n with
  | .expression id place => exact regrows_fragmentOf hr hn h
  | .element tag attributes children place =>
    obtain ⟨inner, hc, rfl⟩ := gives_bind_pure.mp h
    obtain ⟨hattributes, hchildren⟩ := placed_element.mp hn
    obtain ⟨new, hnew, hsub, hinner⟩ := regrows_fragmentsOf hr children hchildren hc
    have hattributes := hattributes.mono (List.subset_append_left _ new) (.refl _)
    exact ⟨new, hnew, hsub, placed_element.mpr ⟨hattributes, hinner⟩⟩
  | .component name attributes children place =>
    obtain ⟨inner, hc, rfl⟩ := gives_bind_pure.mp h
    obtain ⟨hplace, hattributes, hchildren⟩ := placed_component.mp hn
    obtain ⟨new, hnew, hsub, hinner⟩ := regrows_fragmentsOf hr children hchildren hc
    have hattributes := hattributes.mono (List.subset_append_left _ new) (.refl _)
    exact ⟨new, hnew, hsub, placed_component.mpr ⟨hplace, hattributes, hinner⟩⟩
  | .slot name fallback place =>
    obtain ⟨inner, hc, rfl⟩ := gives_bind_pure.mp h
    obtain ⟨new, hnew, hsub, hinner⟩ := regrows_fragmentsOf hr fallback (placed_slot.mp hn) hc
    exact ⟨new, hnew, hsub, placed_slot.mpr hinner⟩
  | .text .. | .choice .. | .optional .. | .loop .. | .doctype .. =>
    obtain ⟨rfl, rfl⟩ := gives_pure.mp h
    exact .self hr hn

theorem regrows_fragmentsOf {known : List Expression} {nodes : List Node} {r r' : Registry}
    (hr : r.expressions ⊆ known) (ns : List Node) (hns : Placed known around ns)
    (h : Gives (fragmentsOf ns) r nodes r') : Regrows known around r r' nodes := by
  match ns with
  | [] =>
    obtain ⟨rfl, rfl⟩ := gives_pure.mp h
    exact .self hr hns
  | n :: ns =>
    simp only [fragmentsOf, gives_bind, gives_pure] at h
    obtain ⟨here, r₁, hn, later, r₂, hl, rfl, rfl⟩ := h
    obtain ⟨hfirst, hrest⟩ := placed_cons.mp hns
    obtain ⟨new, hnew, hsub, hhere⟩ := regrows_fragments hr n hfirst hn
    have hrest := placed_mono (List.subset_append_left _ new) (.refl _) ns hrest
    obtain ⟨new', hnew', hsub', hlater⟩ := regrows_fragmentsOf hsub ns hrest hl
    rw [List.append_assoc] at hsub' hlater
    refine ⟨new ++ new', hnew.append hnew', hsub', placed_append.mpr ⟨?_, hlater⟩⟩
    rw [← List.append_assoc]
    exact placed_mono (List.subset_append_left _ _) (.refl _) _ hhere

end

end PageCompiler.Template

namespace PageCompiler.Page

open Template

theorem eq_of_id_eq {ledger : List Expression} (hnodup : (ledger.map (·.id)).Nodup) {e e' : Expression}
    (he : e ∈ ledger) (he' : e' ∈ ledger) (hid : e.id = e'.id) : e = e' :=
  List.inj_on_of_nodup_map hnodup he he' hid

/-- In a page that was read, each id stands inside of the loops whose variables its expression sees. -/
theorem placed_of_read {source path : String} {p : Page} (h : read source path = .ok p) :
    Placed p.expressions [] p.nodes := by
  obtain ⟨c, items, nodes, r, r', hdoc, hfrag, he⟩ := exists_reading h
  have hcollects := collects_ofDocument hdoc
  obtain ⟨new, hr, hnew, -⟩ := hcollects.extends.grown
  obtain ⟨new', hnew', hsub, hplaced⟩ := regrows_fragmentsOf (.refl _) nodes (hcollects.placed (.refl _)) hfrag
  have hnodup : ((r.expressions ++ new').map (·.id)).Nodup := by
    rw [hr, List.nil_append, List.map_append, hnew.ids, hnew'.ids, hnew.next, ← freshIds_add]
    exact nodup_freshIds _ _
  intro m hm
  have hholds := hplaced m hm
  match m with
  | .scope around noted => exact hholds
  | .handler name => exact hholds
  | .id around id =>
    obtain ⟨e, hmem, rfl, hvars⟩ := hholds
    -- Expressions that became markup are gone, but no id in the template is theirs.
    have hid := (registered_of_read h).perm.mem_iff.mp (mem_idsIn_of_mention hm)
    obtain ⟨e', he', hid'⟩ := List.mem_map.mp hid
    have hsame := eq_of_id_eq hnodup (hsub (he ▸ he')) hmem hid'
    exact ⟨e', he', hid', hsame ▸ hvars⟩

end PageCompiler.Page
