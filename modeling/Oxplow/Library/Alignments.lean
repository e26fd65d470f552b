import Mathlib.Data.List.Basic

/-! Alignments of two sequences: the items both keep, and between these the hunks that only
one of them has; and bounds on how much two sequences can have in common. -/

namespace Oxplow.Library

variable {α : Type}

/-- What two sequences have between two items they keep. -/
structure Hunk (α : Type) where
  deleted : List α
  added : List α

/-- Each kept item after the hunk before it, and the hunk after the last one. -/
structure Alignment (α : Type) where
  init : List (Hunk α × α)
  last : Hunk α

namespace Alignment

def empty : Alignment α := ⟨[], [], []⟩

/-- What one of the sequences has: its part of every hunk, and the kept items. -/
def side (part : Hunk α → List α) (a : Alignment α) : List α := a.init.flatMap (fun kept => part kept.1 ++ [kept.2]) ++ part a.last

def old (a : Alignment α) : List α := a.side Hunk.deleted

def new (a : Alignment α) : List α := a.side Hunk.added

def kept (a : Alignment α) : List α := a.init.map (·.2)

def hunks (a : Alignment α) : List (Hunk α) := a.init.map (·.1) ++ [a.last]

/-- Of each item of one sequence, whether it is in a hunk. -/
def marks (part : Hunk α → List α) (a : Alignment α) : List Bool :=
  a.init.flatMap (fun kept => List.replicate (part kept.1).length true ++ [false]) ++ List.replicate (part a.last).length true

/-- Of each old item, whether it is deleted. -/
def deletions (a : Alignment α) : List Bool := a.marks Hunk.deleted

/-- Of each new item, whether it is added. -/
def additions (a : Alignment α) : List Bool := a.marks Hunk.added

/-- The alignment, and after it an item of both sequences. -/
def keep (a : Alignment α) (item : α) : Alignment α := ⟨a.init ++ [(a.last, item)], [], []⟩

/-- The alignment, and after it an old item. -/
def delete (a : Alignment α) (item : α) : Alignment α := ⟨a.init, a.last.deleted ++ [item], a.last.added⟩

/-- The alignment, and after it a new item. -/
def add (a : Alignment α) (item : α) : Alignment α := ⟨a.init, a.last.deleted, a.last.added ++ [item]⟩

variable (a : Alignment α) (item : α)

@[simp] theorem old_keep : (a.keep item).old = a.old ++ [item] := by simp [keep, old, side]
@[simp] theorem old_delete : (a.delete item).old = a.old ++ [item] := by simp [delete, old, side]
@[simp] theorem old_add : (a.add item).old = a.old := rfl
@[simp] theorem new_keep : (a.keep item).new = a.new ++ [item] := by simp [keep, new, side]
@[simp] theorem new_delete : (a.delete item).new = a.new := rfl
@[simp] theorem new_add : (a.add item).new = a.new ++ [item] := by simp [add, new, side]
@[simp] theorem kept_keep : (a.keep item).kept = a.kept ++ [item] := by simp [keep, kept]
@[simp] theorem kept_delete : (a.delete item).kept = a.kept := rfl
@[simp] theorem kept_add : (a.add item).kept = a.kept := rfl
@[simp] theorem deletions_keep : (a.keep item).deletions = a.deletions ++ [false] := by simp [keep, deletions, marks]
@[simp] theorem deletions_add : (a.add item).deletions = a.deletions := rfl
@[simp] theorem additions_keep : (a.keep item).additions = a.additions ++ [false] := by simp [keep, additions, marks]
@[simp] theorem additions_delete : (a.delete item).additions = a.additions := rfl

@[simp] theorem deletions_delete : (a.delete item).deletions = a.deletions ++ [true] := by
  simp [delete, deletions, marks, List.replicate_succ']

@[simp] theorem additions_add : (a.add item).additions = a.additions ++ [true] := by
  simp [add, additions, marks, List.replicate_succ']

theorem kept_sublist (part : Hunk α → List α) : a.kept.Sublist (a.side part) := by
  have parts : ∀ init : List (Hunk α × α), (init.map (·.2)).Sublist (init.flatMap fun kept => part kept.1 ++ [kept.2]) := by
    intro init
    induction init with
    | nil => exact List.Sublist.refl _
    | cons kept init ih =>
      rw [List.map_cons, List.flatMap_cons, List.append_assoc]
      exact (ih.cons_cons kept.2).trans (List.sublist_append_right _ _)
  exact (parts a.init).trans (List.sublist_append_left _ _)

end Alignment

/-- The items that are not marked. -/
def unmarked (items : List α) (marks : List Bool) : List α :=
  (items.zip marks).filterMap fun item => if item.2 then none else some item.1

theorem unmarked_append {items rest : List α} {marks more : List Bool} (sized : items.length = marks.length) :
    unmarked (items ++ rest) (marks ++ more) = unmarked items marks ++ unmarked rest more := by
  unfold unmarked
  rw [List.zip_append sized, List.filterMap_append]

theorem unmarked_all (items : List α) : unmarked items (List.replicate items.length true) = [] := by
  unfold unmarked
  rw [List.filterMap_eq_nil_iff]
  intro item member
  rw [List.eq_of_mem_replicate (List.of_mem_zip member).2]
  rfl

/-- The items of either sequence that are in no hunk are the kept ones. -/
theorem Alignment.unmarked_marks (a : Alignment α) (part : Hunk α → List α) : unmarked (a.side part) (a.marks part) = a.kept := by
  obtain ⟨init, last⟩ := a
  unfold Alignment.side Alignment.marks Alignment.kept
  induction init with
  | nil => simpa using unmarked_all (part last)
  | cons kept init ih =>
    simp only [List.flatMap_cons, List.append_assoc, List.map_cons]
    rw [unmarked_append (by simp), unmarked_all, List.nil_append]
    exact congrArg (kept.2 :: ·) ih

/-! ## Common subsequences -/

/-- No common subsequence has more than `n` items. -/
def CommonAtMost (n : Nat) (xs ys : List α) : Prop := ∀ common : List α, common.Sublist xs → common.Sublist ys → common.length ≤ n

theorem commonAtMost_nil_left (n : Nat) (ys : List α) : CommonAtMost n [] ys := by
  intro common inside _
  rw [List.sublist_nil.mp inside]
  exact Nat.zero_le n

theorem commonAtMost_nil_right (n : Nat) (xs : List α) : CommonAtMost n xs [] := by
  intro common _ inside
  rw [List.sublist_nil.mp inside]
  exact Nat.zero_le n

variable {xs ys : List α}

/-- A subsequence uses the last item for its own last one, or does without it. -/
theorem snoc_sublist_snoc {x y : α} (inside : (xs ++ [x]).Sublist (ys ++ [y])) :
    xs.Sublist ys ∧ (x = y ∨ (xs ++ [x]).Sublist ys) := by
  rw [← List.reverse_sublist, List.reverse_append, List.reverse_append] at inside
  cases inside with
  | cons _ without =>
    have whole : (xs ++ [x]).Sublist ys := by
      rw [← List.reverse_sublist, List.reverse_append]
      exact without
    exact ⟨(List.sublist_append_left xs [x]).trans whole, .inr whole⟩
  | cons_cons _ with_ => exact ⟨List.reverse_sublist.mp with_, .inl rfl⟩

theorem CommonAtMost.keep {n : Nat} (most : CommonAtMost n xs ys) (item : α) :
    CommonAtMost (n + 1) (xs ++ [item]) (ys ++ [item]) := by
  intro common left right
  rcases List.eq_nil_or_concat' common with rfl | ⟨common, last, rfl⟩
  · exact Nat.zero_le _
  · rw [List.length_append]
    exact Nat.add_le_add_right (most common (snoc_sublist_snoc left).1 (snoc_sublist_snoc right).1) 1

theorem CommonAtMost.either {n m : Nat} {x y : α} (differ : x ≠ y) (left : CommonAtMost n xs (ys ++ [y]))
    (right : CommonAtMost m (xs ++ [x]) ys) : CommonAtMost (max n m) (xs ++ [x]) (ys ++ [y]) := by
  intro common first second
  rcases List.eq_nil_or_concat' common with rfl | ⟨common, last, rfl⟩
  · exact Nat.zero_le _
  · rcases (snoc_sublist_snoc first).2 with rfl | without
    · rcases (snoc_sublist_snoc second).2 with same | without
      · exact absurd same differ
      · exact Nat.le_trans (right _ first without) (Nat.le_max_right n m)
    · exact Nat.le_trans (left _ without second) (Nat.le_max_left n m)

end Oxplow.Library
