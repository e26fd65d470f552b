import Mathlib.Data.List.Basic

/-! Tables with a key: an association list in which the row put in last stands,
and the newest row of a timeline at or before a bound. -/

namespace Oxplow.Library

abbrev Table (κ ρ : Type) := List (κ × ρ)

namespace Table

variable {κ ρ : Type} [DecidableEq κ]

def get (table : Table κ ρ) (key : κ) : Option ρ := List.lookup key table

def containsKey (table : Table κ ρ) (key : κ) : Bool := (table.get key).isSome

def insert (table : Table κ ρ) (key : κ) (row : ρ) : Table κ ρ := (key, row) :: table

def keys (table : Table κ ρ) : List κ := table.map (·.1)

/-- The table without the rows whose key is `gone`. -/
def delete (table : Table κ ρ) (gone : κ → Bool) : Table κ ρ := table.filter fun entry => !gone entry.1

@[simp] theorem get_nil (key : κ) : get ([] : Table κ ρ) key = none := rfl

theorem get_insert (table : Table κ ρ) (key other : κ) (row : ρ) :
    (table.insert key row).get other = if other = key then some row else table.get other := by
  unfold insert get
  rw [List.lookup_cons]
  by_cases same : other = key
  · simp [same]
  · have differ : (other == key) = false := by simpa using same
    simp [differ, same]

theorem get_delete (table : Table κ ρ) (gone : κ → Bool) (key : κ) :
    (table.delete gone).get key = if gone key then none else table.get key := by
  induction table with
  | nil => simp [delete]
  | cons entry table ih =>
    obtain ⟨other, row⟩ := entry
    have step := get_insert table other key row
    unfold insert at step
    rw [step]
    unfold delete at ih ⊢
    rw [List.filter_cons]
    cases lost : gone other with
    | true =>
      rw [if_neg (by simp), ih]
      by_cases same : key = other
      · simp [same, lost]
      · simp [same]
    | false =>
      have kept := get_insert (List.filter (fun entry => !gone entry.1) table) other key row
      unfold insert at kept
      rw [if_pos (by simp), kept, ih]
      by_cases same : key = other
      · simp [same, lost]
      · simp [same]

/-- Changing the rows changes what is found. -/
theorem get_map {ρ' : Type} (change : ρ → ρ') (table : Table κ ρ) (key : κ) :
    get (table.map fun entry => (entry.1, change entry.2)) key = (table.get key).map change := by
  induction table with
  | nil => rfl
  | cons entry table ih =>
    have step := get_insert table entry.1 key entry.2
    have mapped := get_insert (table.map fun entry => (entry.1, change entry.2)) entry.1 key (change entry.2)
    unfold insert at step mapped
    rw [List.map_cons, mapped, step, ih]
    split <;> rfl

theorem mem_keys_iff (table : Table κ ρ) (key : κ) : key ∈ table.keys ↔ table.containsKey key = true := by
  induction table with
  | nil => simp [keys, containsKey]
  | cons entry table ih =>
    obtain ⟨other, row⟩ := entry
    have step := get_insert table other key row
    unfold insert at step
    unfold containsKey at ih ⊢
    rw [step]
    by_cases same : key = other
    · simp [same, keys]
    · rw [if_neg same, ← ih]
      simp [same, keys]

/-- Rows put in one after the other do not touch other keys. -/
theorem get_foldl_insert_of_not_mem {rows : List (κ × ρ)} {key : κ} (absent : ∀ entry ∈ rows, entry.1 ≠ key)
    (table : Table κ ρ) : (rows.foldl (fun table entry => table.insert entry.1 entry.2) table).get key = table.get key := by
  induction rows generalizing table with
  | nil => rfl
  | cons entry rows ih =>
    rw [List.foldl_cons, ih (fun other member => absent other (by simp [member])), get_insert,
      if_neg (absent entry (by simp)).symm]

theorem get_foldl_insert_of_mem {rows : List (κ × ρ)} {key : κ} {row : ρ} (distinct : (rows.map (·.1)).Nodup)
    (member : (key, row) ∈ rows) (table : Table κ ρ) :
    (rows.foldl (fun table entry => table.insert entry.1 entry.2) table).get key = some row := by
  induction rows generalizing table with
  | nil => simp at member
  | cons entry rows ih =>
    rw [List.foldl_cons]
    rcases List.mem_cons.mp member with rfl | member
    · have fresh := (List.nodup_cons.mp distinct).1
      have absent : ∀ entry ∈ rows, entry.1 ≠ key := by
        rintro entry inside rfl
        exact fresh (List.mem_map.mpr ⟨entry, inside, rfl⟩)
      rw [get_foldl_insert_of_not_mem absent, get_insert, if_pos rfl]
    · exact ih distinct.of_cons member _

end Table

/-- A search by a key that is unique finds each item. -/
theorem find?_of_unique {α κ : Type} [DecidableEq κ] {key : α → κ} {items : List α} (unique : (items.map key).Nodup)
    {a : α} (member : a ∈ items) : items.find? (fun b => key b == key a) = some a := by
  induction items with
  | nil => simp at member
  | cons b items ih =>
    rcases List.mem_cons.mp member with rfl | member
    · simp
    · have fresh := (List.nodup_cons.mp unique).1
      have differ : key b ≠ key a := fun same => fresh (same ▸ List.mem_map_of_mem member)
      rw [List.find?_cons_of_neg (by simpa using differ)]
      exact ih unique.of_cons member

/-! ## Timelines -/

variable {ρ : Type}

/-- The row of the greatest time at or before a bound: `ORDER BY time DESC LIMIT 1`. -/
def newest (rows : Nat → Option ρ) : Nat → Option ρ
  | 0 => rows 0
  | bound + 1 => (rows (bound + 1)).or (newest rows bound)

variable {rows : Nat → Option ρ} {bound : Nat}

theorem newest_congr {rows' : Nat → Option ρ} (same : ∀ time, time ≤ bound → rows time = rows' time) :
    newest rows bound = newest rows' bound := by
  induction bound with
  | zero => exact same 0 (Nat.le_refl 0)
  | succ bound ih =>
    unfold newest
    rw [same _ (Nat.le_refl _), ih (fun time early => same time (by omega))]

/-- With no row after `early`, a later bound sees what `early` sees. -/
theorem newest_of_quiet {early : Nat} (order : early ≤ bound) (quiet : ∀ time, early < time → time ≤ bound → rows time = none) :
    newest rows bound = newest rows early := by
  induction bound with
  | zero =>
    have start : early = 0 := by omega
    rw [start]
  | succ bound ih =>
    by_cases reached : early = bound + 1
    · rw [reached]
    · rw [newest, quiet _ (by omega) (Nat.le_refl _), Option.none_or]
      exact ih (by omega) (fun time after within => quiet time after (by omega))

theorem newest_eq_none (quiet : ∀ time, time ≤ bound → rows time = none) : newest rows bound = none := by
  induction bound with
  | zero => exact quiet 0 (Nat.le_refl 0)
  | succ bound ih =>
    unfold newest
    rw [quiet _ (Nat.le_refl _), ih (fun time early => quiet time (by omega)), Option.none_or]

/-- The newest row is the newest after `early`, or else the newest at or before it. -/
theorem newest_split (rows : Nat → Option ρ) {early : Nat} (order : early ≤ bound) :
    newest rows bound = (newest (fun time => if time ≤ early then none else rows time) bound).or (newest rows early) := by
  induction bound with
  | zero =>
    have start : early = 0 := by omega
    simp [newest, start]
  | succ bound ih =>
    by_cases reached : early = bound + 1
    · rw [newest_eq_none
        (fun time within => if_pos (by omega)), reached, Option.none_or]
    · rw [newest, ih (by omega), newest, if_neg (by omega), Option.or_assoc]

theorem newest_self {row : ρ} (found : rows bound = some row) : newest rows bound = some row := by
  cases bound with
  | zero => exact found
  | succ bound => simp [newest, found]

end Oxplow.Library
