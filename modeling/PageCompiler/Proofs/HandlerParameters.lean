import PageCompiler.Proofs.FunctionText
import PageCompiler.Script.Handler

/-!
# Parameters of handlers

The function for a handler in a loop takes the handler's own parameters, or `event`, and then a pattern with the
variables of the loop. The two are put next to each other as texts, and nothing looks for a name that is in both. So the
list binds the own names and then the variables (`handler_parameters`), and it binds a name twice exactly if an own
name repeats or is called like a variable of the loop.

What an own parameter is, a name, a pattern or a name with a default, is left to the reader: its text has to be read in
place, up to what is put after it (`OwnReads`). Parameters that are plain names always are.
-/

namespace PageCompiler.Script

open Code

/-! ## The text of a parameter list -/

/-- What a handler is made of; code that is no function is the body. -/
def liftedParts (code : String) : HandlerParts :=
  let cs := unparenthesized code.length code.toList
  (handlerParts? cs).getD ⟨false, "", String.ofList (cs.reverse.dropWhile (· == ';')).reverse ++ ";"⟩

/-- The handler's own parameters as they are written. -/
def ownText (code : String) : String :=
  if (liftedParts code).params.isEmpty then "event" else (liftedParts code).params

/-- What stands before the parameters of the function for a handler. -/
def handlerHead (name code : String) : String :=
  (if (liftedParts code).isAsync then "async function" else "function") ++ " " ++ name

def bodyText (code : String) : List Char :=
  ')' :: (" \x7b " ++ (liftedParts code).body ++ " \x7d").toList

/-- What stands after the handler's own parameters. -/
def afterOwn (code : String) (vars : List String) : List Char :=
  if vars.isEmpty then bodyText code else ", \x7b ".toList ++ (joinStrings ", " vars ++ " \x7d").toList ++ bodyText code

/-- The parameters of the function for a handler, and what stands after them. -/
def parameterText (code : String) (vars : List String) : List Char :=
  '(' :: ((ownText code).toList ++ afterOwn code vars)

theorem toList_handlerCode (name code : String) (vars : List String) :
    (handlerCode name code vars).toList = (handlerHead name code).toList ++ parameterText code vars := by
  unfold handlerCode parameterText afterOwn bodyText handlerHead ownText liftedParts
  by_cases hvars : vars.isEmpty = true <;> simp [hvars]

/-! ## What the list binds -/

/-- In the context and at the depth of the grammar, the handler's own parameters are read where they stand, up to what
is put after them, and bind the names. -/
def OwnReads (d : Nat) (c : Context) (last pos : Nat) (code : String) (vars own : List String) : Prop :=
  let s := (State.reach c last pos (parameterText code vars)).next
  ∃ ts last' pos', ReadsItems (Grammar.parameterItem ⟨Goal.read (d + 1), d + 1⟩) ")" s ts
      (.reach c last' pos' (afterOwn code vars)) ∧
    (Tree.boundAll ts).map (·.1) = own ∧ ts.length ≤ d ∧ s.lexeme.text? ≠ some "this"

variable {c : Context} {vars own : List String} {d : Nat}

theorem afterOwn_spec (code : String) (vars : List String) : Parted [] (afterOwn code vars) ∧
    ((cut (afterOwn code vars)).lexeme = .mark "," ∨ (cut (afterOwn code vars)).lexeme = .mark ")") := by
  unfold afterOwn
  split
  · exact ⟨parted_mark (.inl rfl) (by simp) _, .inr rfl⟩
  · exact ⟨parted_mark (.inl rfl) (c := ',') (by simp) _, .inl rfl⟩

theorem spells_afterOwn (code : String) (hvars : ∀ v ∈ vars, isName v = true) (hne : vars ≠ []) :
    Spells (afterOwn code vars)
      (.mark "," :: .mark "\x7b" :: ([.mark ","].intercalate (vars.map fun v => [.word v false]) ++ [.mark "\x7d"]))
      (bodyText code) := by
  have hpattern := spelledAs_braces (spelledAs_names hvars hne)
  have hparted : Parted [] (bodyText code) := parted_mark (.inl rfl) (by simp) _
  have hcomma := Spells.mark (c := ',') (by simp) (hpattern.parted hparted .done) (hpattern.spells hparted .done)
  rw [afterOwn, if_neg (by simpa using hne)]
  simpa using hcomma

theorem ownReads_names {code : String} (hne : own ≠ [])
    (hown : ∀ v ∈ own, isName v = true ∧ c.allowsName v = true ∧ v ∉ modifierWords) (hd : own.length ≤ d)
    (htext : ownText code = joinStrings ", " own) (vars : List String) (last pos : Nat) :
    OwnReads d c last pos code vars own := by
  obtain ⟨hparted, hnext⟩ := afterOwn_spec code vars
  have hspelled := spelledAs_names (fun v hv => (hown v hv).1) hne
  obtain ⟨ch, tail, hch, hsolid⟩ := hspelled.solid
  have hspells := hspelled.spells hparted .done
  have hall : Spells (parameterText code vars) (.mark "(" :: [.mark ","].intercalate (own.map fun v => [.word v false]))
      (afterOwn code vars) := by
    rw [parameterText, htext, hch]
    refine .mark_cons (by simp) hsolid hspelled.nonempty ?_
    simpa [hch] using hspells
  obtain ⟨last', lead, -, hparen, hfollows⟩ := hall.follows c last pos
  have htakes : ∀ i ∈ own.map fun v => ([Lexeme.word v false], [v]),
      Takes c (Grammar.parameterItem ⟨Goal.read (d + 1), d + 1⟩) ")" i.1 i.2 := by
    rw [List.forall_mem_map]
    exact fun v hv => takes_name (hown v hv).2.1 (hown v hv).2.2
  have hlexemes : (own.map fun v => ([Lexeme.word v false], [v])).map (·.1) = own.map fun v => [Lexeme.word v false] :=
    List.map_map
  rw [← hlexemes] at hfollows
  obtain ⟨ts, hts, hnames, hlength, hthis⟩ :=
    readsItems_of_takes htakes (by simpa using hne) (State.next_context _) hfollows hnext
  refine ⟨ts, last', _, hts, ?_, by simp_all, hthis⟩
  simpa [List.flatMap_map] using hnames.2.2

theorem boundAll_append (ts us : List Tree) : Tree.boundAll (ts ++ us) = Tree.boundAll ts ++ Tree.boundAll us := by
  induction ts with
  | nil => rfl
  | cons t ts ih => simp [Tree.boundAll, ih]

theorem OwnReads.exists_items {code : String} {last pos : Nat} (h : OwnReads d c last pos code vars own)
    (hnames : ∀ v ∈ vars, isName v = true ∧ c.allowsName v = true) (hd : vars.length ≤ d) :
    ∃ ts s', ReadsItems (Grammar.parameterItem ⟨Goal.read (d + 1), d + 1⟩) ")"
        (State.reach c last pos (parameterText code vars)).next ts s' ∧
      s'.lexeme = .mark ")" ∧ (Tree.boundAll ts).map (·.1) = own ++ vars ∧ ts.length ≤ d + 1 := by
  obtain ⟨ts, last', pos', hts, hbound, hlength, -⟩ := h
  by_cases hne : vars = []
  · subst hne
    exact ⟨ts, _, hts, rfl, by simp [hbound], by omega⟩
  · obtain ⟨last'', lead, -, hcomma, hpattern⟩ :=
      (spells_afterOwn code (fun v hv => (hnames v hv).1) hne).follows c last' pos'
    obtain ⟨t, ht, -, -, hvars⟩ := (takes_pattern (fun v hv => (hnames v hv).2) hne hd).gives _ _ (State.next_context _)
      hpattern (.inr rfl)
    refine ⟨ts ++ [t], _, hts.append hcomma (.last (by simp [hpattern.1]) ht), rfl, ?_, by simpa using hlength⟩
    simpa [boundAll_append, hbound] using hvars

/-- The function for a handler has a list of parameters which binds the names that the handler's own parameters bind,
and then the variables of the loop. So it binds distinct names exactly if the handler does and calls no parameter like a
variable of the loop; and own parameters that are plain names are read in place. -/
theorem handler_parameters (name code : String) (hvars : vars.Nodup)
    (hnames : ∀ v ∈ vars, isName v = true ∧ c.allowsName v = true) (hd : vars.length ≤ d) (last pos : Nat) :
    (handlerCode name code vars).toList = (handlerHead name code).toList ++ parameterText code vars ∧
    (∀ own, OwnReads d c last pos code vars own → ∃ params s',
      Gives (Grammar.parameters ⟨Goal.read (d + 1), d + 1⟩ .plain) (.reach c last pos (parameterText code vars)) params s' ∧
      params.bound.map (·.1) = own ++ vars ∧
      ((params.bound.map (·.1)).Nodup ↔ own.Nodup ∧ ∀ v ∈ own, v ∉ vars)) ∧
    ∀ own, own ≠ [] → (∀ v ∈ own, isName v = true ∧ c.allowsName v = true ∧ v ∉ modifierWords) → own.length ≤ d →
      ownText code = joinStrings ", " own → OwnReads d c last pos code vars own := by
  refine ⟨toList_handlerCode name code vars, ?_, fun own hne hown hlength htext =>
    ownReads_names hne hown hlength htext vars last pos⟩
  intro own hown
  obtain ⟨ts, s', hts, hclose, hbound, hlength⟩ := hown.exists_items hnames hd
  obtain ⟨-, -, -, -, -, -, hthis⟩ := hown
  have hlist := hts.gives_listUntil (by decide) hclose hlength
  refine ⟨_, _, gives_parameters_of_list rfl hthis hlist hclose, hbound, ?_⟩
  rw [Tree.bound, hbound, List.nodup_append]
  simp [hvars, List.forall_mem_ne]

theorem handler_parameters_pick :
    OwnReads 4 (({} : Context).inFunction false false) 17 17 "item => pick(item, todo, i)" ["todo", "i"] ["item"] ∧
    ∃ params s', Gives (Grammar.parameters ⟨Goal.read 5, 5⟩ .plain)
        (.reach (({} : Context).inFunction false false) 17 17
          "(item, \x7b todo, i \x7d) \x7b pick(item, todo, i); \x7d".toList) params s' ∧
      params.bound.map (·.1) = ["item", "todo", "i"] ∧ (params.bound.map (·.1)).Nodup := by
  have hnames : ∀ v ∈ ["todo", "i"], isName v = true ∧ (({} : Context).inFunction false false).allowsName v = true := by
    decide +kernel
  have hlength : ["todo", "i"].length ≤ 4 := by decide
  obtain ⟨-, hbinds, hplain⟩ :=
    handler_parameters "__zen_h0" "item => pick(item, todo, i)" (by decide) hnames hlength 17 17
  have hreads := hplain ["item"] (by decide) (by decide +kernel) (by decide) (by decide +kernel)
  obtain ⟨params, s', hgives, hbound, hnodup⟩ := hbinds ["item"] hreads
  have htext : parameterText "item => pick(item, todo, i)" ["todo", "i"] =
      "(item, \x7b todo, i \x7d) \x7b pick(item, todo, i); \x7d".toList := by decide +kernel
  rw [htext] at hgives
  exact ⟨hreads, params, s', hgives, hbound, hnodup.mpr (by decide)⟩

/-- A parameter that is called like a variable of the loop is bound twice. -/
theorem handler_binds_item_twice :
    handlerCode "__zen_h0" "(item) => remove(item, i)" ["item", "i"] =
      "function __zen_h0(item, \x7b item, i \x7d) \x7b remove(item, i); \x7d" ∧
    (parseProgram (handlerCode "__zen_h0" "(item) => remove(item, i)" ["item", "i"]).toList).toOption.map
      (fun t => (t.parts.flatMap Tree.introduced).map (·.1)) = some ["item", "item", "i"] := by
  decide +kernel

end PageCompiler.Script
