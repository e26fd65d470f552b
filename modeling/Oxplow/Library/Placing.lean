import Mathlib.Data.List.Induction
import Mathlib.Data.List.Nodup

/-! Places in a list: where an item goes, where it was, and putting it back. -/

namespace Oxplow.Library

variable {α : Type} [DecidableEq α]

/-- The end of a list, or next to an item there. -/
inductive Placement (α : Type) where
  | end_
  | before (other : α)
  | after (other : α)
  deriving DecidableEq

namespace Placement

/-- The index the place names, if its item is there. -/
def index? (list : List α) : Placement α → Option Nat
  | end_ => some list.length
  | before other => list.findIdx? (· == other)
  | after other => (list.findIdx? (· == other)).map (· + 1)

/-- A place that finds an item where it is: after the item before it, else before the next. -/
def whereIs (list : List α) (item : α) : Placement α :=
  match list.findIdx? (· == item) with
  | none => end_
  | some i =>
    if 0 < i then (list[i - 1]?).elim end_ after
    else (list[i + 1]?).elim end_ before

/-- The item a place is next to. -/
def besides : Placement α → Option α
  | end_ => none
  | before other => some other
  | after other => some other

/-- The list with the item at the place. -/
def put (list : List α) (place : Placement α) (item : α) : Option (List α) :=
  (index? list place).map fun index => list.insertIdx index item

variable {list : List α} {item : α}

theorem mem_of_whereIs {other : α} (is : (whereIs list item).besides = some other) : other ∈ list := by
  unfold whereIs at is
  split at is
  next => cases is
  next i _ =>
    split at is
    next =>
      cases found : list[i - 1]? with
      | none =>
        rw [found] at is
        cases is
      | some last =>
        rw [found] at is
        cases is
        exact List.mem_of_getElem? found
    next =>
      cases found : list[i + 1]? with
      | none =>
        rw [found] at is
        cases is
      | some next =>
        rw [found] at is
        cases is
        exact List.mem_of_getElem? found

theorem findIdx?_middle {left right : List α} (fresh : item ∉ left) :
    (left ++ item :: right).findIdx? (· == item) = some left.length := by
  rw [List.findIdx?_append]
  have none : left.findIdx? (· == item) = none := by
    apply List.findIdx?_eq_none_iff.mpr
    intro other member
    simpa using ne_of_mem_of_not_mem member fresh
  simp [none, List.findIdx?_cons]

omit [DecidableEq α] in
theorem insertIdx_middle (left right : List α) (item : α) :
    (left ++ right).insertIdx left.length item = left ++ item :: right := by
  induction left with
  | nil => simp
  | cons a left ih => simp [ih]

/-- What taking an item out leaves. -/
theorem filter_middle {left right : List α} (distinct : (left ++ item :: right).Nodup) :
    (left ++ item :: right).filter (· ≠ item) = left ++ right := by
  obtain ⟨_, rest, apart⟩ := List.nodup_append.mp distinct
  have first : left.filter (· ≠ item) = left := by
    apply List.filter_eq_self.mpr
    intro other member
    simpa using apart other member item (by simp)
  have last : right.filter (· ≠ item) = right := by
    apply List.filter_eq_self.mpr
    intro other member
    simpa using ne_of_mem_of_not_mem member (List.nodup_cons.mp rest).1
  rw [List.filter_append, List.filter_cons_of_neg (by simp), first, last]

/-- An item taken out goes back by the place it was found at. -/
theorem put_back (distinct : list.Nodup) (member : item ∈ list) :
    put (list.filter (· ≠ item)) (whereIs list item) item = some list := by
  obtain ⟨left, right, rfl⟩ := List.append_of_mem member
  have apart := (List.nodup_append.mp distinct).2.2
  have fresh : item ∉ left := fun inside => apart item inside item (by simp) rfl
  rw [filter_middle distinct]
  simp only [whereIs, findIdx?_middle fresh]
  cases left using List.reverseRecOn with
  | nil =>
    cases right with
    | nil => simp [put, index?]
    | cons next right => simp [put, index?, List.findIdx?_cons]
  | append_singleton left last =>
    have other : last ∉ left := by
      have parts := (List.nodup_append.mp distinct).1
      exact fun inside => (List.nodup_append.mp parts).2.2 last inside last (by simp) rfl
    have found : (left ++ last :: right).findIdx? (· == last) = some left.length := findIdx?_middle other
    have into : (left ++ last :: right).insertIdx (left.length + 1) item = left ++ last :: item :: right := by
      simpa using insertIdx_middle (left ++ [last]) right item
    simp only [List.append_assoc, List.singleton_append, List.length_append, List.length_singleton, Nat.add_sub_cancel]
    rw [if_pos (Nat.succ_pos _), List.getElem?_append_right (Nat.le_refl _), Nat.sub_self, List.getElem?_cons_zero, Option.elim_some]
    rw [put, index?, found, Option.map_some, Option.map_some, into]

/-- Putting an item in and taking it out leaves the others. -/
theorem filter_insertIdx (list : List α) (index : Nat) (item : α) :
    (list.insertIdx index item).filter (· ≠ item) = list.filter (· ≠ item) := by
  induction list generalizing index with
  | nil => cases index <;> simp
  | cons a list ih =>
    cases index with
    | zero => simp
    | succ index => rw [List.insertIdx_succ_cons, List.filter_cons, List.filter_cons, ih]

theorem index?_le {place : Placement α} {index : Nat} (found : index? list place = some index) : index ≤ list.length := by
  cases place with
  | end_ =>
    cases found
    exact Nat.le_refl _
  | before other => exact Nat.le_of_lt (List.findIdx?_eq_some_iff_findIdx_eq.mp found).1
  | after other =>
    obtain ⟨i, at_, rfl⟩ := Option.map_eq_some_iff.mp found
    exact (List.findIdx?_eq_some_iff_findIdx_eq.mp at_).1

end Placement
end Oxplow.Library
