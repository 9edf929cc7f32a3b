import PageCompiler.Proofs.ReadingRules

/-!
# Ids in a template that was read

The document of a page becomes a template, and expressions with markup in them become nodes of it. At
the end the ids in the template are those of the registered expressions, each of them once
(`Page.registered_of_read`), and the ids of the expressions grow strictly. Nothing of this depends on how
the document and the code are read: the steps are stated for every document and for every tree (`Lowered`),
and `Page.bijective_of_read` says so of the whole.
-/

namespace PageCompiler.Template

variable {r r' : Registry} {nodes : List Node}

variable {gone : List String} {depth : Nat} {c : Snippet} {scope : Option LoopScope} {tree : Code.Tree} {id : String}

/-! ## Expressions that become markup -/

def Registry.Gave (r : Registry) (ids : List String) : Prop :=
  ∀ id ∈ ids, ∃ i < r.next, id = expressionId i

/-- Nodes with the ids `before` became nodes with the ids `after`: some ids were kept, some are gone
with their expressions, and the others are those of new expressions. -/
structure Rewrites (r r' : Registry) (before after : List String) : Prop where
  replaced : ∃ (kept gone : List String) (new : List Expression),
    before.Perm (kept ++ gone) ∧ after.Perm (kept ++ new.map (·.id)) ∧ Numbered r r' new ∧
      r'.expressions = r.expressions.filter (fun e => !gone.contains e.id) ++ new

theorem Rewrites.self (r : Registry) (ids : List String) : Rewrites r r ids ids :=
  ⟨ids, [], [], by simp, by simp, .nil rfl, by simp⟩

theorem Numbered.filter_old {new : List Expression} (h : Numbered r r' new) (hg : r.Gave gone) :
    new.filter (fun e => !gone.contains e.id) = new := by
  rw [List.filter_eq_self]
  intro e he
  have hmem : e.id ∈ freshIds r.next new.length := h.ids ▸ List.mem_map_of_mem he
  obtain ⟨i, hi, -, hid⟩ := mem_freshIds.mp hmem
  simp only [Bool.not_eq_true', List.contains_eq_mem, decide_eq_false_iff_not]
  intro hgone
  obtain ⟨j, hj, hidj⟩ := hg e.id hgone
  have := expressionId_injective (hid.symm.trans hidj)
  omega

private theorem perm_append_four (a b c d : List String) :
    ((a ++ b) ++ (c ++ d)).Perm ((a ++ c) ++ (b ++ d)) := by
  rw [List.perm_iff_count]
  intro id
  simp only [List.count_append]
  omega

/-- Nodes one after the other: those that come later had their ids before the first were changed. -/
theorem Rewrites.append {r'' : Registry} {b b' a a' : List String} (h : Rewrites r r' b a)
    (h' : Rewrites r' r'' b' a') (hb' : r.Gave b') : Rewrites r r'' (b ++ b') (a ++ a') := by
  obtain ⟨kept, gone, new, hb, ha, hnew, he⟩ := h.replaced
  obtain ⟨kept', gone', new', hbb, ha', hnew', he'⟩ := h'.replaced
  -- What the later nodes lose was given out before the first step, so nothing new of that step is among it.
  have hgone' : r.Gave gone' := fun id hid => hb' id (hbb.mem_iff.mpr (by simp [hid]))
  refine ⟨kept ++ kept', gone ++ gone', new ++ new', ?_, ?_, hnew.append hnew', ?_⟩
  · exact (hb.append hbb).trans (perm_append_four kept gone kept' gone')
  · rw [List.map_append]
    exact (ha.append ha').trans (perm_append_four kept _ kept' _)
  · rw [he', he, List.filter_append, List.filter_filter, hnew.filter_old hgone',
      List.append_assoc]
    congr 2
    funext e
    simp [Bool.and_comm]

/-- An expression that becomes markup loses its id; what it becomes has new ones. -/
theorem rewrites_discard (hid : r.Gave [id]) (h : Gives (lower depth c scope tree) r (some nodes) r') :
    Rewrites r (r'.discard id) [id] (idsIn nodes) := by
  obtain ⟨new, he, hnew, hused, -⟩ := (collects_lower h).extends.grown
  refine ⟨[], [id], new, .refl _, hused, ⟨hnew.ids, hnew.next, hnew.readable⟩, ?_⟩
  have htest : (fun e : Expression => e.id != id) = fun e => !([id].contains e.id) := by
    funext e
    by_cases heq : e.id = id <;> simp [heq]
  rw [Registry.discard, htest, he, List.filter_append, hnew.filter_old hid]

theorem rewrites_declined (ids : List String) (h : Gives (lower depth c scope tree) r none r') :
    Rewrites r r' ids ids := by
  obtain ⟨new, he, hnew, hused, -⟩ := (collects_lower h).extends.grown
  have hnil : new = [] := by simpa using hused.symm
  subst hnil
  exact ⟨ids, [], [], by simp, by simp, hnew, by simp [he]⟩

mutual

/-- From the registry `r` a node becomes others and leaves the registry `r'`: an expression stays, or it gives
way to what a tree is lowered to. The tree is any tree, with any spans. -/
inductive Lowered : Registry → Node → List Node → Registry → Prop where
  | stays (r : Registry) (n : Node) : Lowered r n [n] r
  | declined {depth : Nat} {c : Snippet} {scope : Option LoopScope} {tree : Code.Tree} {id : String}
      {place : Place} {r r' : Registry} : Gives (lower depth c scope tree) r none r' →
      Lowered r (.expression id place) [.expression id place] r'
  | markup {depth : Nat} {c : Snippet} {scope : Option LoopScope} {tree : Code.Tree} {id : String}
      {place : Place} {nodes : List Node} {r r' : Registry} :
      Gives (lower depth c scope tree) r (some nodes) r' →
      Lowered r (.expression id place) nodes (r'.discard id)
  | element {tag : String} {attributes : List Attribute} {children inner : List Node} {place : Place}
      {r r' : Registry} : LoweredAll r children inner r' →
      Lowered r (.element tag attributes children place) [.element tag attributes inner place] r'
  | component {name : String} {attributes : List Attribute} {children inner : List Node} {place : Place}
      {r r' : Registry} : LoweredAll r children inner r' →
      Lowered r (.component name attributes children place) [.component name attributes inner place] r'
  | slot {name : Option String} {fallback inner : List Node} {place : Place} {r r' : Registry} :
      LoweredAll r fallback inner r' → Lowered r (.slot name fallback place) [.slot name inner place] r'

/-- From the registry `r` nodes become others, one after the other. -/
inductive LoweredAll : Registry → List Node → List Node → Registry → Prop where
  | nil (r : Registry) : LoweredAll r [] [] r
  | cons {n : Node} {ns here later : List Node} {r r' r'' : Registry} : Lowered r n here r' →
      LoweredAll r' ns later r'' → LoweredAll r (n :: ns) (here ++ later) r''

end

theorem lowered_fragmentOf {place : Place} (h : Gives (fragmentOf id place) r nodes r') :
    Lowered r (.expression id place) nodes r' := by
  have hstays : ∀ {r r' : Registry}, Gives (pure [Node.expression id place]) r nodes r' →
      Lowered r (.expression id place) nodes r' := by
    intro r r' h
    obtain ⟨rfl, rfl⟩ := gives_pure.mp h
    exact .stays r _
  simp only [fragmentOf, gives_bind, gives_get] at h
  obtain ⟨_, _, ⟨rfl, rfl⟩, h⟩ := h
  split at h
  · exact hstays h
  · split at h
    · exact hstays h
    · split at h
      · exact hstays h
      · rw [gives_bind] at h
        obtain ⟨result, r₁, hl, h⟩ := h
        split at h
        · obtain ⟨rfl, rfl⟩ := gives_pure.mp h
          exact .declined hl
        · simp only [gives_bind, gives_modify, gives_pure] at h
          obtain ⟨_, _, rfl, rfl, rfl⟩ := h
          exact .markup hl

mutual

theorem lowered_fragments {nodes : List Node} {r r' : Registry} (n : Node)
    (h : Gives (fragments n) r nodes r') : Lowered r n nodes r' := by
  match n with
  | .expression id place => exact lowered_fragmentOf h
  | .element tag attributes children place =>
    obtain ⟨inner, hc, rfl⟩ := gives_bind_pure.mp h
    exact .element (lowered_fragmentsOf children hc)
  | .component name attributes children place =>
    obtain ⟨inner, hc, rfl⟩ := gives_bind_pure.mp h
    exact .component (lowered_fragmentsOf children hc)
  | .slot name fallback place =>
    obtain ⟨inner, hc, rfl⟩ := gives_bind_pure.mp h
    exact .slot (lowered_fragmentsOf fallback hc)
  | .text .. | .choice .. | .optional .. | .loop .. | .doctype .. =>
    obtain ⟨rfl, rfl⟩ := gives_pure.mp h
    exact .stays r _

theorem lowered_fragmentsOf {nodes : List Node} {r r' : Registry} (ns : List Node)
    (h : Gives (fragmentsOf ns) r nodes r') : LoweredAll r ns nodes r' := by
  match ns with
  | [] =>
    obtain ⟨rfl, rfl⟩ := gives_pure.mp h
    exact .nil r
  | n :: ns =>
    simp only [fragmentsOf, gives_bind, gives_pure] at h
    obtain ⟨here, r₁, hn, later, r₂, hl, rfl, rfl⟩ := h
    exact .cons (lowered_fragments n hn) (lowered_fragmentsOf ns hl)

end

/-- Attributes keep their ids when the nodes inside of their element change theirs. -/
theorem Rewrites.inside {attributes : List Attribute} {children inner : List Node}
    (h : Rewrites r r' (idsIn children) (idsIn inner)) (hgave : r.Gave (attributeIds attributes ++ idsIn children)) :
    Rewrites r r' (attributeIds attributes ++ idsIn children) (attributeIds attributes ++ idsIn inner) :=
  (Rewrites.self r (attributeIds attributes)).append h
    (fun id hid => hgave id (List.mem_append_right _ hid))

mutual

/-- What a node becomes has the ids that stay and those of new expressions. -/
theorem Lowered.rewrites {nodes : List Node} {r r' : Registry} (n : Node) (hn : r.Gave n.ids)
    (h : Lowered r n nodes r') : Rewrites r r' n.ids (idsIn nodes) := by
  match n, h with
  | n, .stays _ _ => simpa using Rewrites.self r _
  | .expression id place, .declined hl => exact rewrites_declined [id] hl
  | .expression id place, .markup hl => exact rewrites_discard hn hl
  | .element _ _ children _, .element hall | .component _ _ children _, .component hall =>
    have hchildren := LoweredAll.rewrites children (fun id hid => hn id (by simp [Node.ids, hid])) hall
    simpa [Node.ids] using hchildren.inside hn
  | .slot name fallback place, .slot hall =>
    simpa [Node.ids] using LoweredAll.rewrites fallback hn hall

theorem LoweredAll.rewrites {nodes : List Node} {r r' : Registry} (ns : List Node)
    (hns : r.Gave (idsIn ns)) (h : LoweredAll r ns nodes r') :
    Rewrites r r' (idsIn ns) (idsIn nodes) := by
  match ns, h with
  | [], .nil _ => exact .self r []
  | n :: ns, .cons hn hl =>
    have hfirst := Lowered.rewrites n (fun id hid => hns id (by simp [hid])) hn
    have hgave : r.Gave (idsIn ns) := fun id hid => hns id (by simp [hid])
    -- The first node only adds numbers, so what was given out before it is given out after it.
    obtain ⟨_, _, new, _, _, hnew, _⟩ := hfirst.replaced
    have hnext := hnew.next
    have hrest := LoweredAll.rewrites ns
      (fun id hid => by
        obtain ⟨i, hi, hid⟩ := hgave id hid
        exact ⟨i, by omega, hid⟩) hl
    rw [idsIn_append, idsIn_cons]
    exact hfirst.append hrest hgave

end

/-! ## Whole templates -/

theorem perm_filter_of_perm {ids kept : List String} (hp : ids.Perm (kept ++ gone)) (hn : ids.Nodup) :
    (ids.filter (fun id => !gone.contains id)).Perm kept := by
  have hdisjoint := List.disjoint_of_nodup_append (hp.nodup_iff.mp hn)
  have hkept : kept.filter (fun id => !gone.contains id) = kept := by
    rw [List.filter_eq_self]
    intro id hid
    simpa using hdisjoint hid
  have hgone : gone.filter (fun id => !gone.contains id) = [] := by
    rw [List.filter_eq_nil_iff]
    intro id hid
    simpa using hid
  have := hp.filter (fun id => !gone.contains id)
  rwa [List.filter_append, hkept, hgone, List.append_nil] at this

/-- The ids in the nodes are those of the expressions, each of them once; the expressions are in the order of
their numbers, and their code can be read. -/
structure Paired (nodes : List Node) (expressions : List Expression) : Prop where
  perm : (idsIn nodes).Perm (expressions.map (·.id))
  inOrder : ∃ n, (expressions.map (·.id)).Sublist (freshIds 0 n)
  readable : ∀ e ∈ expressions, e.Readable

theorem Paired.nodup {expressions : List Expression} (h : Paired nodes expressions) :
    (expressions.map (·.id)).Nodup := by
  obtain ⟨n, hsub⟩ := h.inOrder
  exact (nodup_freshIds 0 n).sublist hsub

/-- Any document, whose expressions become markup by any trees, ends with paired nodes and expressions. -/
theorem paired_of_lowered {c : Conversion} {items : List Document.Item} {path : String} {nodes' : List Node}
    (hdoc : Gives (ofDocument c items) { file := path } nodes r) (hlow : LoweredAll r nodes nodes' r') :
    Paired nodes' r'.expressions := by
  obtain ⟨new, hr, hnew, hused, -⟩ := (collects_ofDocument hdoc).extends.grown
  have hids : r.expressions.map (·.id) = freshIds 0 new.length := by
    rw [hr, List.nil_append]
    exact hnew.ids
  have hnext : r.next = new.length := by
    rw [hnew.next]
    exact Nat.zero_add _
  have hgave : r.Gave (idsIn nodes) := by
    intro id hid
    have hmem : id ∈ freshIds 0 new.length := hnew.ids ▸ hused.mem_iff.mp hid
    obtain ⟨i, -, hi, rfl⟩ := mem_freshIds.mp hmem
    exact ⟨i, by omega, rfl⟩
  -- The document has used up the numbers from 0 on; lowering takes some away and goes on after the last.
  obtain ⟨kept, gone, new', hbefore, hafter, hnew', hr'⟩ := (hlow.rewrites nodes hgave).replaced
  have hsplit : r'.expressions.map (·.id) =
      (freshIds 0 new.length).filter (fun id => !gone.contains id) ++ freshIds r.next new'.length := by
    rw [hr', List.map_append, hnew'.ids, ← hids, List.filter_map]
    rfl
  refine ⟨?_, ⟨new.length + new'.length, ?_⟩, ?_⟩
  · rw [hsplit, ← hnew'.ids]
    have hperm : (freshIds 0 new.length).Perm (kept ++ gone) := by
      have : (idsIn nodes).Perm (freshIds 0 new.length) := hnew.ids ▸ hused
      exact this.symm.trans hbefore
    exact hafter.trans ((perm_filter_of_perm hperm (nodup_freshIds 0 _)).symm.append_right _)
  · rw [hsplit, freshIds_add, Nat.zero_add, hnext]
    exact List.filter_sublist.append_right _
  · intro e hmem
    rw [hr', List.mem_append] at hmem
    rcases hmem with hmem | hmem
    · rw [hr, List.nil_append] at hmem
      exact hnew.readable e (List.mem_of_mem_filter hmem)
    · exact hnew'.readable e hmem

end PageCompiler.Template

namespace PageCompiler.Page

open Template

variable {source path : String} {p : Page}

/-- The template of the page and its expressions are paired. -/
structure Registered (p : Page) : Prop extends Paired p.nodes p.expressions

theorem exists_conversion (h : read source path = .ok p) :
    ∃ (b : Markup.Blocks) (m : Markup.Marked) (isWhole : Bool) (items : List Document.Item) (nodes : List Node)
      (r r' : Registry), Markup.blocks (.ofString path source) = .ok b ∧
        Markup.marked (.ofString path source) b.markup = .ok m ∧
        Gives (ofDocument { file := .ofString path source, holes := m.holes, isWhole } items) { file := path } nodes r ∧
        Gives (fragmentsOf nodes) r p.nodes r' ∧ p.expressions = r'.expressions := by
  simp only [read, Compiled.bind_eq_ok] at h
  obtain ⟨b, hb, script, -, m, hm, prepared, -, h⟩ := h
  split at h
  rename_i result r' hrun
  rw [Compiled.bind_eq_ok] at h
  obtain ⟨nodes', rfl, h⟩ := h
  rw [Compiled.bind_eq_ok] at h
  obtain ⟨script', -, hp⟩ := h
  cases hp
  have hgives : Gives (do fragmentsOf (← ofDocument _ (Document.parse prepared.html)))
      { file := path } nodes' r' := hrun
  rw [gives_bind] at hgives
  obtain ⟨nodes, r, hdoc, hfrag⟩ := hgives
  exact ⟨b, m, _, _, nodes, r, r', hb, hm, hdoc, hfrag, rfl⟩

theorem exists_reading (h : read source path = .ok p) :
    ∃ (c : Conversion) (items : List Document.Item) (nodes : List Node) (r r' : Registry),
      Gives (ofDocument c items) { file := path } nodes r ∧
        Gives (fragmentsOf nodes) r p.nodes r' ∧ p.expressions = r'.expressions := by
  obtain ⟨b, m, isWhole, items, nodes, r, r', -, -, hdoc, hfrag, he⟩ := exists_conversion h
  exact ⟨_, items, nodes, r, r', hdoc, hfrag, he⟩

/-- A page that was read refers to each of its expressions exactly once, and to nothing else. -/
theorem registered_of_read (h : read source path = .ok p) : p.Registered := by
  obtain ⟨c, items, nodes, r, r', hdoc, hfrag, he⟩ := exists_reading h
  have hpaired := paired_of_lowered hdoc (lowered_fragmentsOf nodes hfrag)
  exact ⟨he ▸ hpaired⟩

end PageCompiler.Page

/-! ## Places and expressions -/

namespace PageCompiler.Template

/-- The places of expressions in the nodes and the expressions are in bijection: no place refers to an expression
that is not there, each expression has exactly one place, and the numbers of the expressions grow. -/
structure Bijective (nodes : List Node) (expressions : List Expression) : Prop where
  known : ∀ id ∈ idsIn nodes, ∃ e ∈ expressions, e.id = id
  once : ∀ e ∈ expressions, (idsIn nodes).count e.id = 1
  increasing : ∃ numbers : List Nat, numbers.Pairwise (· < ·) ∧
    expressions.map (·.id) = numbers.map expressionId

theorem Paired.bijective {nodes : List Node} {expressions : List Expression}
    (h : Paired nodes expressions) : Bijective nodes expressions where
  known id hid := List.mem_map.mp (h.perm.mem_iff.mp hid)
  once e he := by
    rw [h.perm.count_eq]
    exact List.count_eq_one_of_mem h.nodup (List.mem_map_of_mem he)
  increasing := by
    obtain ⟨n, hsub⟩ := h.inOrder
    obtain ⟨numbers, hnumbers, hids⟩ := List.sublist_map_iff.mp hsub
    exact ⟨numbers, (List.pairwise_lt_range' (s := 0) (n := n)).sublist hnumbers, hids⟩

end PageCompiler.Template

namespace PageCompiler.Page

open Template

/-- When a page is read, the places of expressions in its template and its expressions are in bijection. This holds of
whatever document the markup is read as, and of whatever trees the expressions with markup in them are read as. -/
theorem bijective_of_read :
    (∀ {source path : String} {p : Page}, read source path = .ok p → Bijective p.nodes p.expressions) ∧
    ∀ {c : Conversion} {items : List Document.Item} {path : String} {nodes nodes' : List Node}
      {r r' : Registry}, Gives (ofDocument c items) { file := path } nodes r →
      LoweredAll r nodes nodes' r' → Bijective nodes' r'.expressions := by
  refine ⟨fun h => (registered_of_read h).bijective, ?_⟩
  intro c items path nodes nodes' r r' hdoc hlow
  exact (paired_of_lowered hdoc hlow).bijective

/-- A page with expressions as text, in an attribute of a component, as the source and the key of a loop, as conditions
and in the fallback of a slot. -/
def everyPlacePage : String :=
  "<Card label=\x7ba\x7d>\x7bb\x7d</Card>" ++
  "\x7brows.map(r => <li key=\x7br.id\x7d>\x7br.ok ? <b>\x7br.x\x7d</b> : null\x7d</li>)\x7d" ++
  "<slot>\x7bc && <i>\x7bd\x7d</i>\x7d</slot>"

/-- The loop, the choice and the optional part have taken the places of three expressions, whose ids are gone. -/
theorem bijective_of_read_every_place :
    ∃ p, read everyPlacePage "page.zen" = .ok p ∧
      idsIn p.nodes = [1, 0, 4, 7, 5, 6, 8, 9].map expressionId ∧
      p.expressions.map (·.code) = ["b", "a", "rows", "r.ok", "r.x", "r.id", "c", "d"] ∧
      Bijective p.nodes p.expressions := by
  have hreads : ((read everyPlacePage "page.zen").toOption.any fun p =>
      decide (idsIn p.nodes = [1, 0, 4, 7, 5, 6, 8, 9].map expressionId) &&
        decide (p.expressions.map (·.code) = ["b", "a", "rows", "r.ok", "r.x", "r.id", "c", "d"])) = true := by
    decide +kernel
  obtain ⟨p, hp, hboth⟩ := exists_eq_ok_of_any hreads
  rw [Bool.and_eq_true] at hboth
  exact ⟨p, hp, of_decide_eq_true hboth.1, of_decide_eq_true hboth.2, bijective_of_read.1 hp⟩

end PageCompiler.Page
