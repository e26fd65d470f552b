import Mathlib.Algebra.GroupWithZero.Nat
import Mathlib.Algebra.Order.BigOperators.Group.List
import Mathlib.Algebra.Order.Group.Nat

/-! Greedy matching of new items with held ones: each new item takes out one held
item, or counts as added; the held items no one takes are left over. -/

namespace Oxplow.Library

variable {α β : Type}

/-- Take out the first item with `p`. -/
def takeFirst (p : α → Bool) (items : List α) : Option (α × List α) :=
  (items.find? p).map fun a => (a, items.eraseP p)

/-- Take out the last item with `p`. -/
def takeLast (p : α → Bool) (items : List α) : Option (α × List α) :=
  (takeFirst p items.reverse).map fun (a, rest) => (a, rest.reverse)

variable {items : List α}

theorem takeFirst_perm {p : α → Bool} {rest : List α} {a : α} (taken : takeFirst p items = some (a, rest)) :
    items.Perm (a :: rest) ∧ p a = true := by
  induction items generalizing rest with
  | nil => simp [takeFirst] at taken
  | cons b items ih =>
    unfold takeFirst at ih taken
    cases holds : p b with
    | true =>
      simp only [List.find?_cons_of_pos holds, List.eraseP_cons_of_pos holds, Option.map_some, Option.some.injEq,
        Prod.mk.injEq] at taken
      obtain ⟨rfl, rfl⟩ := taken
      exact ⟨List.Perm.refl _, holds⟩
    | false =>
      rw [List.find?_cons_of_neg (by simp [holds]), List.eraseP_cons_of_neg (by simp [holds])] at taken
      obtain ⟨c, found, same⟩ := Option.map_eq_some_iff.mp taken
      obtain ⟨rfl, rfl⟩ := Prod.mk.inj same
      obtain ⟨perm, selected⟩ := ih (by rw [found, Option.map_some])
      exact ⟨(perm.cons b).trans (List.Perm.swap _ _ _), selected⟩

theorem takeLast_perm {p : α → Bool} {rest : List α} {a : α} (taken : takeLast p items = some (a, rest)) :
    items.Perm (a :: rest) ∧ p a = true := by
  obtain ⟨⟨b, left⟩, found, same⟩ := Option.map_eq_some_iff.mp taken
  obtain ⟨rfl, rfl⟩ := Prod.mk.inj same
  obtain ⟨perm, selected⟩ := takeFirst_perm found
  refine ⟨?_, selected⟩
  exact (items.reverse_perm.symm.trans perm).trans (left.reverse_perm.symm.cons _)

/-- How new items were matched with held ones. -/
structure Matching (α β : Type) where
  pairs : List (α × β)
  added : List β
  rest : List α

/-- The matching loop: `pick` chooses the held item a new one takes out. -/
def matchAll (pick : β → List α → Option (α × List α)) : List β → List α → Matching α β
  | [], held => ⟨[], [], held⟩
  | b :: news, held =>
    match pick b held with
    | some (a, left) =>
      let later := matchAll pick news left
      { later with pairs := (a, b) :: later.pairs }
    | none =>
      let later := matchAll pick news held
      { later with added := b :: later.added }

/-- `pick` takes out an item that stands in `same` to the new one. -/
def Takes (pick : β → List α → Option (α × List α)) (same : α → β → Prop) : Prop :=
  ∀ b held a rest, pick b held = some (a, rest) → held.Perm (a :: rest) ∧ same a b

section
variable {pick : β → List α → Option (α × List α)} {same : α → β → Prop} (takes : Takes pick same)
include takes

theorem matchAll_pairs (news : List β) (held : List α) : ∀ pair ∈ (matchAll pick news held).pairs, same pair.1 pair.2 := by
  induction news generalizing held with
  | nil => simp [matchAll]
  | cons b news ih =>
    unfold matchAll
    cases taken : pick b held with
    | none => exact ih held
    | some choice =>
      obtain ⟨a, left⟩ := choice
      intro pair member
      rcases List.mem_cons.mp member with rfl | member
      · exact (takes b held a left taken).2
      · exact ih left pair member

/-- The held items are those taken and those left over. -/
theorem matchAll_held (news : List β) (held : List α) :
    held.Perm ((matchAll pick news held).pairs.map (·.1) ++ (matchAll pick news held).rest) := by
  induction news generalizing held with
  | nil => simp [matchAll]
  | cons b news ih =>
    unfold matchAll
    cases taken : pick b held with
    | none => exact ih held
    | some choice =>
      obtain ⟨a, left⟩ := choice
      exact (takes b held a left taken).1.trans ((ih left).cons a)

end

/-- The new items are those matched and those added. -/
theorem matchAll_news (pick : β → List α → Option (α × List α)) (news : List β) (held : List α) :
    news.Perm ((matchAll pick news held).pairs.map (·.2) ++ (matchAll pick news held).added) := by
  induction news generalizing held with
  | nil => simp [matchAll]
  | cons b news ih =>
    unfold matchAll
    cases pick b held with
    | none => exact ((ih held).cons b).trans List.perm_middle.symm
    | some choice => exact (ih choice.2).cons b

/-- Two lists that agree up to order under one reading agree under another, when equal
readings of the first give equal readings of the second. -/
theorem perm_map_of_perm_map {γ δ : Type} {f : α → γ} {g : β → γ} {f' : α → δ} {g' : β → δ} {left : List α} {right : List β}
    (perm : (left.map f).Perm (right.map g)) (same : ∀ a ∈ left, ∀ b ∈ right, f a = g b → f' a = g' b) :
    (left.map f').Perm (right.map g') := by
  induction left generalizing right with
  | nil =>
    have none : right = [] := by simpa using perm
    simp [none]
  | cons a left ih =>
    have present : f a ∈ right.map g := perm.mem_iff.mp (by simp)
    obtain ⟨b, member, equal⟩ := List.mem_map.mp present
    obtain ⟨first, last, rfl⟩ := List.append_of_mem member
    have moved : ∀ {ε : Type} (h : β → ε), ((first ++ b :: last).map h).Perm (h b :: (first ++ last).map h) :=
      fun h => List.perm_middle.map h
    have rest : (left.map f).Perm ((first ++ last).map g) := by
      have whole := perm.trans (moved g)
      rw [List.map_cons, equal] at whole
      exact whole.cons_inv
    have later := ih rest (fun c inside d other => same c (by simp [inside]) d (by
      rcases List.mem_append.mp other with other | other <;> simp [other]))
    rw [List.map_cons, same a (by simp) b (by simp) equal.symm]
    exact (later.cons _).trans (moved g').symm

theorem sum_map_pointwise {u v : α → Nat} (le : ∀ a ∈ items, u a ≤ v a) (total : (items.map u).sum = (items.map v).sum) :
    ∀ a ∈ items, u a = v a := by
  induction items with
  | nil => simp
  | cons a items ih =>
    have first := le a (by simp)
    have others : (items.map u).sum ≤ (items.map v).sum :=
      List.sum_le_sum fun b member => le b (by simp [member])
    simp only [List.map_cons, List.sum_cons] at total
    intro b member
    rcases List.mem_cons.mp member with rfl | member
    · omega
    · exact ih (fun c inside => le c (by simp [inside])) (by omega) b member

/-- Two readings of a list that agree up to order agree item by item, when one weighs at
least as much as the other on every item and more where they differ. -/
theorem eq_of_perm_map {f g : α → β} (weight : β → Nat) (perm : (items.map f).Perm (items.map g))
    (le : ∀ a ∈ items, weight (g a) ≤ weight (f a)) (same : ∀ a ∈ items, weight (g a) = weight (f a) → f a = g a) :
    ∀ a ∈ items, f a = g a := by
  have total : (items.map fun a => weight (g a)).sum = (items.map fun a => weight (f a)).sum := by
    have sums := (perm.map weight).sum_eq
    simpa [List.map_map, Function.comp_def] using sums.symm
  intro a member
  exact same a member (sum_map_pointwise le total a member)

/-- Nothing fits between lists that agree up to order with what fits around it. -/
theorem perm_of_append_perm {first between last other : List α} (length : first.length = other.length)
    (perm : (first ++ (between ++ last)).Perm (other ++ last)) : between = [] ∧ first.Perm other := by
  have none : between = [] := by
    have lengths := perm.length_eq
    simp only [List.length_append] at lengths
    exact List.eq_nil_of_length_eq_zero (by omega)
  rw [none, List.nil_append] at perm
  exact ⟨none, (List.perm_append_right_iff last).mp perm⟩

end Oxplow.Library
