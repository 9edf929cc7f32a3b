import Mathlib.Data.List.Nodup
import PageCompiler.Project.Files
import PageCompiler.Proofs.Dictionaries

/-!
# Changes of a file tree

A file that is written or removed leaves what stands at a path of a directory as it was, unless the file is in this
directory (`locate_write`, `locate_remove`). The path of the directory is written with names only: what a path that
goes back to an outer folder leads to also depends on the folders that it only passes.
-/

namespace PageCompiler.Project.Entry

variable {entries : List (String × Entry)} {name p path dir : String} {entry : Entry} {pieces names : List String}

/-! ## Folders -/

theorem lookup_eq_get? (entries : List (String × Entry)) (key : String) :
    entries.lookup key = Ordered.get? entries key := by
  induction entries with
  | nil => rfl
  | cons first entries ih =>
    rw [List.lookup_cons, Ordered.get?, List.find?_cons, BEq.comm]
    cases first.1 == key with
    | true => rfl
    | false => exact ih

theorem setEntry_eq_insert (name : String) (entry : Entry) (entries : List (String × Entry)) :
    setEntry name entry entries = Ordered.insert entries name entry := by
  induction entries with
  | nil => rfl
  | cons first entries ih => rw [setEntry, Ordered.insert, ih]

theorem lookup_setEntry (name key : String) (entry : Entry) (entries : List (String × Entry)) :
    (setEntry name entry entries).lookup key = if key = name then some entry else entries.lookup key := by
  rw [setEntry_eq_insert, lookup_eq_get?, lookup_eq_get?]
  split
  · rename_i h
    rw [h, Ordered.get?_insert_self]
  · rename_i h
    exact Ordered.get?_insert_of_ne h entry

/-- In every folder the entries have different names. -/
inductive Distinct : Entry → Prop
  | file (text : String) : Distinct (file text)
  | folder {entries : List (String × Entry)} : (Ordered.keys entries).Nodup → (∀ e ∈ entries, Distinct e.2) →
      Distinct (folder entries)

theorem Distinct.empty : Distinct (.folder []) :=
  .folder List.nodup_nil fun _ he => absurd he List.not_mem_nil

theorem Distinct.setEntry (h : Distinct (.folder entries)) (hentry : Distinct entry) :
    Distinct (.folder (setEntry name entry entries)) := by
  rw [setEntry_eq_insert]
  cases h with
  | folder hnames hentries =>
    refine .folder (Ordered.nodup_keys_insert hnames) fun e he => ?_
    rcases Ordered.mem_of_mem_insert he with he | rfl
    · exact hentries e he
    · exact hentry

theorem Distinct.of_lookup (h : Distinct (.folder entries)) (hentry : entries.lookup name = some entry) :
    Distinct entry := by
  cases h with
  | folder hnames hentries =>
    rw [lookup_eq_get?] at hentry
    exact hentries _ (Ordered.mem_of_get? hentry)

theorem Distinct.writeAt_none (text : String) (names : List String) : Distinct (writeAt text none names) := by
  induction names with
  | nil => exact .file text
  | cons name names ih =>
    refine .folder (List.nodup_singleton _) fun e he => ?_
    rw [List.mem_singleton.mp he]
    exact ih

theorem Distinct.writeAt (h : entry.Distinct) (text : String) (names : List String) :
    Distinct (writeAt text (some entry) names) := by
  induction names generalizing entry with
  | nil =>
    cases entry with
    | file old => exact .file text
    | folder entries => exact h
  | cons name names ih =>
    cases entry with
    | file old => exact h
    | folder entries =>
      rw [Entry.writeAt]
      refine h.setEntry ?_
      cases hinner : entries.lookup name with
      | none => exact .writeAt_none text names
      | some inner => exact ih (h.of_lookup hinner)

theorem Distinct.removeAt (h : entry.Distinct) (names : List String) : Distinct (entry.removeAt names) := by
  induction names generalizing entry with
  | nil => exact h
  | cons name names ih =>
    cases entry with
    | file old => cases names <;> exact h
    | folder entries =>
      cases names with
      | nil =>
        cases h with
        | folder hnames hentries =>
          refine .folder (hnames.sublist (List.filter_sublist.map _)) fun e he => ?_
          exact hentries e (List.mem_filter.mp he).1
      | cons next rest =>
        rw [Entry.removeAt]
        · cases hinner : entries.lookup name with
          | none => exact h
          | some inner => exact h.setEntry (ih (h.of_lookup hinner))
        · simp

/-! ## Paths -/

def reach? : Entry → List String → Option Entry
  | entry, [] => some entry
  | entry, p :: pieces => (entry.child? p).bind fun inner => reach? inner pieces

theorem toOption_follow (h : ∀ p ∈ pieces, p ≠ "" ∧ p ≠ "." ∧ p ≠ "..") (entry : Entry) (outer : List Entry) :
    (follow (entry :: outer) pieces).toOption = entry.reach? pieces := by
  induction pieces generalizing entry outer with
  | nil => cases entry <;> rfl
  | cons p pieces ih =>
    cases entry with
    | file text => rfl
    | folder entries =>
      obtain ⟨⟨hempty, hdot, hback⟩, hpieces⟩ := List.forall_mem_cons.mp h
      simp only [follow, reach?, isFolder, child?, beq_eq_false_iff_ne.mpr hempty, beq_eq_false_iff_ne.mpr hdot,
        beq_eq_false_iff_ne.mpr hback, Bool.not_true, Bool.or_self, Bool.false_eq_true, if_false]
      cases entries.lookup p with
      | none => rfl
      | some inner => exact ih hpieces inner (.folder entries :: outer)

/-! ## Writing -/

theorem reach?_writeAt_none (h : ¬ pieces <+: names) (text : String) :
    (writeAt text none names).reach? pieces = none := by
  induction pieces generalizing names with
  | nil => exact absurd List.nil_prefix h
  | cons p pieces ih =>
    cases names with
    | nil => rfl
    | cons name names =>
      rw [writeAt, reach?, child?]
      by_cases hp : p = name
      · subst hp
        rw [List.prefix_cons_inj] at h
        simpa using ih h
      · simp [List.lookup_cons, beq_eq_false_iff_ne.mpr hp]

/-- A file that is written shows only on paths that lead to it or to a folder around it. -/
theorem reach?_writeAt (h : ¬ pieces <+: names) (entry : Entry) (text : String) :
    (writeAt text (some entry) names).reach? pieces = entry.reach? pieces := by
  induction pieces generalizing entry names with
  | nil => exact absurd List.nil_prefix h
  | cons p pieces ih =>
    cases entry with
    | file old => cases names <;> rfl
    | folder entries =>
      cases names with
      | nil => rfl
      | cons name names =>
        rw [writeAt, reach?, reach?, child?, child?, lookup_setEntry]
        by_cases hp : p = name
        · subst hp
          rw [List.prefix_cons_inj] at h
          rw [if_pos rfl, Option.bind_some]
          -- Writing also makes the folders that are missing, and the path does not lead into them.
          cases entries.lookup p with
          | none => exact reach?_writeAt_none h text
          | some inner => exact ih h inner
        · rw [if_neg hp]

/-! ## Removing -/

theorem lookup_filter (h : (Ordered.keys entries).Nodup) (test : String × Entry → Bool) (key : String) :
    (entries.filter test).lookup key = (entries.lookup key).filter fun e => test (key, e) := by
  -- A later entry of the same name would come to light when the first is taken out, hence the distinct names.
  have hfilter : (Ordered.keys (entries.filter test)).Nodup := h.sublist (List.filter_sublist.map _)
  ext e
  rw [lookup_eq_get?, lookup_eq_get?, Ordered.get?_eq_some_iff hfilter, List.mem_filter, Option.filter_eq_some_iff,
    Ordered.get?_eq_some_iff h]

/-- A file that is removed from a folder shows only on the path to it. -/
theorem bind_lookup_filter (h : (Ordered.keys entries).Nodup) (hout : ¬ p :: pieces <+: [name]) :
    ((entries.filter fun (n, e) => n != name || e.isFolder).lookup p).bind (reach? · pieces) =
      (entries.lookup p).bind (reach? · pieces) := by
  rw [lookup_filter h]
  cases entries.lookup p with
  | none => rfl
  | some inner =>
    by_cases hp : p = name
    · cases inner with
      | folder inner => simp [Option.filter, isFolder]
      | file text =>
        cases pieces with
        | nil => exact absurd (by simp [hp]) hout
        | cons q pieces => simp [Option.filter, isFolder, hp, reach?, child?]
    · simp [Option.filter, hp]

/-- A file that is removed shows only on paths that lead to it or to a folder around it. -/
theorem reach?_removeAt (hentry : entry.Distinct) (h : ¬ pieces <+: names) :
    (entry.removeAt names).reach? pieces = entry.reach? pieces := by
  -- By induction on the path that is looked at; the names of the file go along with it, and at the last of them
  -- the file is taken out of its folder.
  induction pieces generalizing entry names with
  | nil => exact absurd List.nil_prefix h
  | cons p pieces ih =>
    cases hentry with
    | file old =>
      rcases names with _ | ⟨name, _ | ⟨next, rest⟩⟩ <;> rfl
    | folder hnames hentries =>
      rename_i entries
      rcases names with _ | ⟨name, _ | ⟨next, rest⟩⟩
      · rfl
      · exact bind_lookup_filter hnames h
      · rw [removeAt]
        · cases hinner : entries.lookup name with
          | none => rfl
          | some inner =>
            rw [reach?, reach?, child?, child?, lookup_setEntry]
            by_cases hp : p = name
            · subst hp
              rw [List.prefix_cons_inj] at h
              rw [if_pos rfl, hinner, Option.bind_some, Option.bind_some]
              exact ih (Distinct.of_lookup (.folder hnames hentries) hinner) h
            · rw [if_neg hp]
        · simp

/-! ## Paths of directories -/

/-- A path that is written with names only. -/
def Plain (path : String) : Prop :=
  ∀ p ∈ Path.pieces path, p ≠ "" ∧ p ≠ "." ∧ p ≠ ".."

instance (path : String) : Decidable (Plain path) :=
  inferInstanceAs (Decidable (∀ p ∈ Path.pieces path, p ≠ "" ∧ p ≠ "." ∧ p ≠ ".."))

theorem Plain.namesOf_eq (h : Plain path) : namesOf path = Path.pieces path := by
  have hfold (pieces names : List String) (h : ∀ p ∈ pieces, p ≠ "" ∧ p ≠ "." ∧ p ≠ "..") :
      pieces.foldl (fun names p =>
        if p == "" || p == "." then names else if p == ".." then names.dropLast else names ++ [p]) names =
      names ++ pieces := by
    induction pieces generalizing names with
    | nil => simp
    | cons p pieces ih =>
      obtain ⟨hp, hpieces⟩ := List.forall_mem_cons.mp h
      rw [List.foldl_cons, ih _ hpieces]
      simp [hp]
  rw [namesOf, hfold _ _ h, List.nil_append]

theorem toOption_locate (h : Plain path) (root : Entry) :
    (root.locate path).toOption =
      if path == "" || path.toList.head? == some '/' then none else root.reach? (namesOf path) := by
  rw [locate, h.namesOf_eq]
  split
  · rfl
  · exact toOption_follow h root []

theorem locate_write (hdir : Plain dir) (h : ¬ namesOf dir <+: namesOf path) (root : Entry) (text : String) :
    ((root.write path text).locate dir).toOption = (root.locate dir).toOption := by
  rw [toOption_locate hdir, toOption_locate hdir, write, reach?_writeAt h]

theorem locate_remove (hdir : Plain dir) (h : ¬ namesOf dir <+: namesOf path) {root : Entry} (hroot : root.Distinct) :
    ((root.remove path).locate dir).toOption = (root.locate dir).toOption := by
  rw [toOption_locate hdir, toOption_locate hdir, remove, reach?_removeAt hroot h]

theorem Plain.components_eq (h : Plain path) : Path.components path = Path.pieces path := by
  rw [Path.components]
  cases hpieces : Path.pieces path with
  | nil => rfl
  | cons first rest =>
    rw [Plain, hpieces] at h
    obtain ⟨hfirst, hrest⟩ := List.forall_mem_cons.mp h
    have hkept : (rest.filter fun p => p != "" && p != ".") = rest :=
      List.filter_eq_self.mpr fun p hp => by simp [hrest p hp]
    simp [hkept, hfirst]

/-- Of paths that are written with names only, one is taken to lead below another exactly if its names do. -/
theorem isWithin_iff_of_plain (hpath : Plain path) (hdir : Plain dir) :
    Path.isWithin path dir = true ↔ namesOf dir <+: namesOf path := by
  rw [Path.isWithin, hpath.components_eq, hdir.components_eq, hpath.namesOf_eq, hdir.namesOf_eq,
    List.isPrefixOf_iff_prefix]

end PageCompiler.Project.Entry
