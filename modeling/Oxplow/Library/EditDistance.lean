import Mathlib.Data.List.Basic

/-! The edits that make one sequence another, and the part of a sequence that is nearest to
a pattern, found a column and a row at a time. -/

namespace Oxplow.Library.EditDistance

variable {α : Type} [DecidableEq α]

/-- A way to make the first sequence the second, and how many items it changes, deletes or adds. -/
inductive Edits : List α → List α → Nat → Prop where
  | nil : Edits [] [] 0
  | pair (a b : α) {xs ys k} (rest : Edits xs ys k) : Edits (a :: xs) (b :: ys) (k + if a = b then 0 else 1)
  | delete (a : α) {xs ys k} (rest : Edits xs ys k) : Edits (a :: xs) ys (k + 1)
  | add (b : α) {xs ys k} (rest : Edits xs ys k) : Edits xs (b :: ys) (k + 1)

variable {xs ys xs' ys' : List α} {j k : Nat}

namespace Edits

theorem append (first : Edits xs ys j) (second : Edits xs' ys' k) : Edits (xs ++ xs') (ys ++ ys') (j + k) := by
  induction first with
  | nil => simpa using second
  | pair a b _ ih => exact Nat.add_right_comm .. ▸ .pair a b ih
  | delete a _ ih => exact Nat.add_right_comm .. ▸ .delete a ih
  | add b _ ih => exact Nat.add_right_comm .. ▸ .add b ih

theorem deletes (xs : List α) : Edits xs [] xs.length := by
  induction xs with
  | nil => exact .nil
  | cons a xs ih => exact .delete a ih

theorem reverse (edits : Edits xs ys k) : Edits xs.reverse ys.reverse k := by
  induction edits with
  | nil => exact .nil
  | pair a b _ ih => simpa using ih.append (.pair a b .nil)
  | delete a _ ih => simpa using ih.append (.delete a .nil)
  | add b _ ih => simpa using ih.append (.add b .nil)

/-- There is no way shorter than the difference of the lengths. -/
theorem length_le (edits : Edits xs ys k) : xs.length ≤ ys.length + k := by
  induction edits <;> simp only [List.length_nil, List.length_cons] <;> omega

/-- What becomes of the last item. -/
theorem concat {x : α} (edits : Edits (xs ++ [x]) ys k) :
    (∃ j, Edits xs ys j ∧ k = j + 1) ∨ (∃ front y j, ys = front ++ [y] ∧ Edits (xs ++ [x]) front j ∧ k = j + 1) ∨
      ∃ front y j, ys = front ++ [y] ∧ Edits xs front j ∧ k = j + if x = y then 0 else 1 := by
  have backwards := edits.reverse
  rw [List.reverse_append, List.reverse_singleton, List.singleton_append] at backwards
  generalize turned : ys.reverse = zs at backwards
  have forwards : ys = zs.reverse := by rw [← turned, List.reverse_reverse]
  cases backwards with
  | @pair _ y _ _ j rest =>
    have edits := rest.reverse
    rw [List.reverse_reverse] at edits
    exact .inr (.inr ⟨_, y, j, by simpa using forwards, edits, rfl⟩)
  | @delete _ _ _ j rest =>
    have edits := rest.reverse
    rw [List.reverse_reverse, ← forwards] at edits
    exact .inl ⟨j, edits, rfl⟩
  | @add y _ _ j rest =>
    have edits := rest.reverse
    rw [List.reverse_cons, List.reverse_reverse] at edits
    exact .inr (.inl ⟨_, y, j, by simpa using forwards, edits, rfl⟩)

end Edits

/-! ## The nearest part -/

/-- Of the ends of a text, the one from `start` is at `cost` of a pattern, and none is nearer. -/
structure Nearest (pattern text : List α) (cost start : Nat) : Prop where
  inside : start ≤ text.length
  edits : Edits pattern (text.drop start) cost
  least : ∀ s k, Edits pattern (text.drop s) k → cost ≤ k

variable {pattern text : List α} {x y : α}

theorem nearest_nil (text : List α) : Nearest [] text 0 text.length where
  inside := Nat.le_refl _
  edits := by simpa using Edits.nil
  least := fun _ _ _ => Nat.zero_le _

theorem nearest_empty (pattern : List α) : Nearest pattern [] pattern.length 0 where
  inside := Nat.le_refl _
  edits := .deletes pattern
  least := by
    intro s k edits
    have shrinks := edits.length_le
    simpa using shrinks

/-- One more item on both sides: the least of changing it, deleting it and adding it. -/
theorem Nearest.next {diag up left diagStart upStart leftStart : Nat} (both : Nearest pattern text diag diagStart)
    (above : Nearest pattern (text ++ [y]) up upStart) (before : Nearest (pattern ++ [x]) text left leftStart) (k : Nat)
    (least : k ≤ diag + (if x = y then 0 else 1) ∧ k ≤ up + 1 ∧ k ≤ left + 1) :
    ∀ s l, Edits (pattern ++ [x]) ((text ++ [y]).drop s) l → k ≤ l := by
  intro s l edits
  rcases edits.concat with ⟨j, rest, rfl⟩ | ⟨front, z, j, shape, rest, rfl⟩ | ⟨front, z, j, shape, rest, rfl⟩
  · have nearer := above.least s j rest
    omega
  all_goals
    have short : s ≤ text.length := by
      apply Nat.le_of_not_lt
      intro beyond
      have none : (text ++ [y]).drop s = [] := List.drop_eq_nil_iff.mpr (by simp; omega)
      rw [none] at shape
      exact List.append_ne_nil_of_right_ne_nil _ (List.cons_ne_nil _ _) shape.symm
    rw [List.drop_append_of_le_length short] at shape
    obtain ⟨rfl, last⟩ := List.append_inj' shape rfl
    obtain rfl := (List.cons.inj last).1
  · have nearer := before.least s j rest
    omega
  · have nearer := both.least s j rest
    omega

end Oxplow.Library.EditDistance
