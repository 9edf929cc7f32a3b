import Mathlib.Data.List.Nodup
import Mathlib.Data.List.Perm.Basic
import PageCompiler.Proofs.Runs
import PageCompiler.Template.Survey

/-!
# Registration of expressions

While markup is read, each id that is given out goes to one place of the template. `Extends P r r' used`
says so for a part of a reading: the registry grows by expressions with the next ids, and `used`, the
ids in what was read, are these ids in some order. What the expressions come from is the property `P`.
-/

namespace PageCompiler.Template

/-! ## Ids -/

/-- The number that the digits of a number write is that number. -/
theorem decimal?_toDigits (n : Nat) : Text.decimal? (Nat.toDigits 10 n) = some n := by
  have hdigits : (Nat.toDigits 10 n).all Char.isDigit = true := by
    rw [List.all_eq_true]
    intro c hc
    exact Nat.isDigit_of_mem_toDigits (by decide) (by decide) hc
  have hnumber : Text.ofDigits (Nat.toDigits 10 n) = n := by
    rw [Text.ofDigits, ← Nat.ofDigitChars_eq_foldl]
    exact Nat.ofDigitChars_ten_toDigits
  rw [Text.decimal?, if_pos, hnumber]
  simp [hdigits, Nat.toDigits_ne_nil]

theorem strip?_append (lead rest : List Char) : Text.strip? lead (lead ++ rest) = some rest := by
  rw [Text.strip?, if_pos (List.isPrefixOf_iff_prefix.mpr (List.prefix_append _ _)), List.drop_left]

theorem idNumber?_expressionId (n : Nat) : Component.idNumber? (expressionId n) = some n := by
  have hlist : (expressionId n).toList = "expr_".toList ++ Nat.toDigits 10 n := by
    simp [expressionId, toString, Nat.toList_repr]
  rw [Component.idNumber?, hlist, strip?_append, Option.bind_some, decimal?_toDigits]

theorem expressionId_injective : Function.Injective expressionId := by
  intro m n h
  have hm := idNumber?_expressionId m
  rw [h, idNumber?_expressionId] at hm
  exact (Option.some.inj hm).symm

def freshIds (n k : Nat) : List String :=
  (List.range' n k).map expressionId

theorem freshIds_add (n j k : Nat) : freshIds n (j + k) = freshIds n j ++ freshIds (n + j) k := by
  rw [freshIds, freshIds, freshIds, ← List.map_append, List.range'_append_1]

theorem mem_freshIds {id : String} {n k : Nat} :
    id ∈ freshIds n k ↔ ∃ i, n ≤ i ∧ i < n + k ∧ id = expressionId i := by
  simp only [freshIds, List.mem_map, List.mem_range'_1]
  constructor
  · rintro ⟨i, ⟨hn, hk⟩, rfl⟩
    exact ⟨i, hn, hk, rfl⟩
  · rintro ⟨i, hn, hk, rfl⟩
    exact ⟨i, ⟨hn, hk⟩, rfl⟩

theorem nodup_freshIds (n k : Nat) : (freshIds n k).Nodup :=
  (List.nodup_range').map expressionId_injective

/-! ## Ids in templates -/

@[simp] theorem attributeIds_nil : attributeIds [] = [] := rfl

theorem attributeIds_cons (a : Attribute) (as : List Attribute) :
    attributeIds (a :: as) = a.value.id?.toList ++ attributeIds as := by
  cases h : a.value.id? <;> simp [attributeIds, h]

theorem attributeIds_eq_flatMap (as : List Attribute) :
    attributeIds as = as.flatMap (·.value.id?.toList) := by
  induction as with
  | nil => rfl
  | cons a as ih => rw [attributeIds_cons, List.flatMap_cons, ih]

theorem attributeIds_append (as bs : List Attribute) :
    attributeIds (as ++ bs) = attributeIds as ++ attributeIds bs := by
  simp [attributeIds]

@[simp] theorem idsIn_nil : idsIn [] = [] := rfl

@[simp] theorem idsIn_cons (n : Node) (ns : List Node) : idsIn (n :: ns) = n.ids ++ idsIn ns := rfl

@[simp] theorem idsIn_append (ns ms : List Node) : idsIn (ns ++ ms) = idsIn ns ++ idsIn ms := by
  induction ns with
  | nil => rfl
  | cons n ns ih => simp [ih]

/-! ## Growth of a registry -/

def Expression.Readable (e : Expression) : Prop :=
  ∃ tree, Code.parseExpression e.code.toList = .ok tree

/-- The expressions `new` have the next ids of the registry `r`, which leave `r'` with later ones, and
their code can be read. -/
structure Numbered (r r' : Registry) (new : List Expression) : Prop where
  ids : new.map (·.id) = freshIds r.next new.length
  next : r'.next = r.next + new.length
  readable : ∀ e ∈ new, e.Readable

theorem Numbered.nil {r r' : Registry} (hn : r'.next = r.next) : Numbered r r' [] :=
  ⟨rfl, hn, by simp⟩

theorem Numbered.append {r r' r'' : Registry} {new new' : List Expression}
    (h : Numbered r r' new) (h' : Numbered r' r'' new') : Numbered r r'' (new ++ new') where
  ids := by
    rw [List.map_append, h.ids, h'.ids, List.length_append, freshIds_add, h.next]
  next := by
    rw [h'.next, h.next, List.length_append, Nat.add_assoc]
  readable := by
    intro e he
    rcases List.mem_append.mp he with he | he
    · exact h.readable e he
    · exact h'.readable e he

/-- The registry `r'` is `r` with further expressions, which have the property and the next ids, and `used` are these
ids in some order. -/
structure Extends (P : Expression → Prop) (r r' : Registry) (used : List String) : Prop where
  grown : ∃ new : List Expression, r'.expressions = r.expressions ++ new ∧ Numbered r r' new ∧
    used.Perm (new.map (·.id)) ∧ ∀ e ∈ new, P e

section
variable {P : Expression → Prop} {r r' r'' : Registry} {u v : List String}

theorem Extends.refl (he : r'.expressions = r.expressions) (hn : r'.next = r.next) : Extends P r r' [] :=
  ⟨[], by simp [he], .nil hn, .refl _, nofun⟩

theorem Extends.self (r : Registry) : Extends P r r [] :=
  .refl rfl rfl

theorem Extends.trans (h : Extends P r r' u) (h' : Extends P r' r'' v) : Extends P r r'' (u ++ v) := by
  obtain ⟨new, he, hnew, hu, hP⟩ := h.grown
  obtain ⟨new', he', hnew', hv, hP'⟩ := h'.grown
  refine ⟨new ++ new', ?_, hnew.append hnew', ?_, ?_⟩
  · rw [he', he, List.append_assoc]
  · rw [List.map_append]
    exact hu.append hv
  · exact List.forall_mem_append.mpr ⟨hP, hP'⟩

theorem Extends.perm (h : Extends P r r' u) (hp : v.Perm u) : Extends P r r' v := by
  obtain ⟨new, he, hnew, hu, hP⟩ := h.grown
  exact ⟨new, he, hnew, hp.trans hu, hP⟩

theorem Extends.subset (h : Extends P r r' u) : r.expressions ⊆ r'.expressions := by
  obtain ⟨new, he, -⟩ := h.grown
  rw [he]
  exact List.subset_append_left _ _

end

/-! ## Single expressions -/

def stored (code : List Char) : List Char :=
  Text.trim (withoutComments code)

theorem gives_register {code id : String} {place : Place} {r r' : Registry}
    (h : Gives (register code place) r id r') :
    ∃ text : String, (text = String.ofList (stored code.toList) ∧ ∃ tree, Code.parseExpression text.toList = .ok tree) ∧
      id = expressionId r.next ∧
      r' = { r with expressions := r.expressions ++ [{ id, code := text, place }]
                    next := r.next + 1 } := by
  refine ⟨String.ofList (stored code.toList), ?_⟩
  unfold register at h
  dsimp only at h
  split at h
  · simp at h
  · rename_i tree htree
    simp only [gives_bind, gives_get, gives_modify, gives_pure] at h
    obtain ⟨_, _, ⟨rfl, rfl⟩, _, _, rfl, rfl, rfl⟩ := h
    exact ⟨⟨rfl, tree, htree⟩, rfl, rfl⟩

end PageCompiler.Template
