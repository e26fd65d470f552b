import Mathlib.Data.List.Perm.Lattice

/-! Rows with a key, changed in batches of at most some number until a batch is short. -/

namespace Oxplow.Library

variable {α κ σ : Type}

/-- Rows no two of which have one key. -/
structure Keyed (key : α → κ) where
  rows : List α
  nodup : (rows.map key).Nodup

/-- The order in which a query answers its rows; any. -/
structure Plan (α : Type) where
  order : List α → List α
  perm : ∀ rows, (order rows).Perm rows

def Plan.asStored (α : Type) : Plan α := ⟨id, fun rows => List.Perm.refl rows⟩

theorem map_filterMap_sublist {key : α → κ} {f : α → Option α} (keeps : ∀ a b, f a = some b → key b = key a) (rows : List α) :
    ((rows.filterMap f).map key).Sublist (rows.map key) := by
  induction rows with
  | nil => exact List.Sublist.slnil
  | cons row rows ih =>
    rw [List.filterMap_cons]
    cases changed : f row with
    | none => exact ih.cons _
    | some row' =>
      rw [List.map_cons, List.map_cons, keeps row row' changed]
      exact ih.cons_cons _

namespace Keyed

variable {key : α → κ}

theorem eq_of_rows {table other : Keyed key} (same : table.rows = other.rows) : table = other := by
  cases table
  cases other
  cases same
  rfl

/-- Each row changed or dropped; it keeps its key. -/
def alter (table : Keyed key) (f : α → Option α) (keeps : ∀ a b, f a = some b → key b = key a) : Keyed key :=
  ⟨table.rows.filterMap f, table.nodup.sublist (map_filterMap_sublist keeps table.rows)⟩

theorem keeps_ite {f : α → Option α} (keeps : ∀ a b, f a = some b → key b = key a) (p : α → Bool) (a b : α)
    (changed : (if p a = true then f a else some a) = some b) : key b = key a := by
  split at changed
  · exact keeps a b changed
  · rw [Option.some.inj changed]

theorem drop_keeps (a b : α) (changed : (fun _ : α => (none : Option α)) a = some b) : key b = key a := by
  cases changed

/-- The rows that are due, changed. -/
def settle (table : Keyed key) (due : α → Bool) (f : α → Option α) (keeps : ∀ a b, f a = some b → key b = key a) : Keyed key :=
  table.alter (fun row => if due row = true then f row else some row) (keeps_ite keeps due)

/-- The keys of at most `limit` rows that are due. -/
def chosen (table : Keyed key) (plan : Plan α) (limit : Nat) (due : α → Bool) : List κ :=
  ((plan.order (table.rows.filter due)).take limit).map key

variable {table : Keyed key} {f : α → Option α} {keeps : ∀ a b, f a = some b → key b = key a}

variable {p : α → Bool}

theorem settle_congr {q : α → Bool} (same : ∀ row ∈ table.rows, p row = q row) :
    table.settle p f keeps = table.settle q f keeps := by
  apply eq_of_rows
  apply List.filterMap_congr
  intro row member
  rw [same row member]

theorem settle_none (none_ : ∀ row ∈ table.rows, p row = false) : table.settle p f keeps = table := by
  apply eq_of_rows
  show table.rows.filterMap _ = table.rows
  calc table.rows.filterMap (fun row => if p row = true then f row else some row)
      = table.rows.filterMap some := List.filterMap_congr fun row member => if_neg (by simp [none_ row member])
    _ = table.rows := List.filterMap_some

/-- Two changes, the second of which does not touch what the first left. -/
theorem settle_settle {q : α → Bool} (settles : ∀ a b, f a = some b → q b = false) :
    (table.settle p f keeps).settle q f keeps = table.settle (fun row => p row || q row) f keeps := by
  apply eq_of_rows
  show (table.rows.filterMap _).filterMap _ = table.rows.filterMap _
  rw [List.filterMap_filterMap]
  apply List.filterMap_congr
  intro row _
  by_cases first : p row = true
  · rw [if_pos first, if_pos (by simp [first])]
    cases changed : f row with
    | none => rfl
    | some row' =>
      show (if q row' = true then f row' else some row') = some row'
      rw [if_neg (by simp [settles row row' changed])]
  · rw [if_neg first]
    simp [first]

/-- Rows changed in place. -/
theorem settle_map {g : α → α} {keeps : ∀ a b, (fun row => some (g row)) a = some b → key b = key a} :
    (table.settle p (fun row => some (g row)) keeps).rows = table.rows.map fun row => if p row = true then g row else row := by
  rw [← List.filterMap_eq_map]
  apply List.filterMap_congr
  intro row _
  by_cases changed : p row = true
  · simp [changed]
  · simp [changed]

/-- Rows dropped. -/
theorem settle_filter : (table.settle p (fun _ => none) drop_keeps).rows = table.rows.filter fun row => !p row := by
  rw [← List.filterMap_eq_filter]
  apply List.filterMap_congr
  intro row _
  by_cases dropped : p row = true
  · simp [dropped, Option.guard]
  · simp [dropped, Option.guard]

variable {plan : Plan α} {limit : Nat} {due : α → Bool}

theorem eq_of_key {a b : α} (first : a ∈ table.rows) (second : b ∈ table.rows) (same : key a = key b) : a = b :=
  List.inj_on_of_nodup_map table.nodup first second same

theorem due_of_chosen {row : α} (member : row ∈ table.rows) (taken : key row ∈ table.chosen plan limit due) : due row = true := by
  obtain ⟨row', inside, same⟩ := List.mem_map.mp taken
  have found := List.mem_filter.mp ((plan.perm _).mem_iff.mp (List.mem_of_mem_take inside))
  rw [← eq_of_key found.1 member same]
  exact found.2

theorem chosen_length : (table.chosen plan limit due).length = min limit (table.rows.filter due).length := by
  rw [chosen, List.length_map, List.length_take, (plan.perm _).length_eq]

/-- A short batch takes every row that is due. -/
theorem chosen_of_short (short : (table.chosen plan limit due).length < limit) {row : α} (member : row ∈ table.rows)
    (isDue : due row = true) : key row ∈ table.chosen plan limit due := by
  rw [chosen_length] at short
  have all : (plan.order (table.rows.filter due)).length ≤ limit := by
    rw [(plan.perm _).length_eq]
    omega
  rw [chosen, List.take_of_length_le all]
  exact List.mem_map.mpr ⟨row, (plan.perm _).mem_iff.mpr (List.mem_filter.mpr ⟨member, isDue⟩), rfl⟩

/-- At most `limit` of the rows that are due, changed, and how many. -/
def batch [DecidableEq κ] (plan : Plan α) (limit : Nat) (due : α → Bool) (f : α → Option α) (keeps : ∀ a b, f a = some b → key b = key a)
    (table : Keyed key) : Keyed key × Nat :=
  (table.settle (fun row => decide (key row ∈ table.chosen plan limit due)) f keeps,
    (table.rows.filter fun row => decide (key row ∈ table.chosen plan limit due)).length)

end Keyed

/-- One batch after another, until one is short; how many rows they changed. -/
def inBatches (limit : Nat) (once : σ → σ × Nat) : Nat → σ → Option (σ × Nat)
  | 0, _ => none
  | fuel + 1, state =>
    if (once state).2 < limit then some (once state)
    else (inBatches limit once fuel (once state).1).map fun rest => (rest.1, (once state).2 + rest.2)

namespace Keyed

variable [DecidableEq κ] {key : α → κ} {table : Keyed key} {plan : Plan α} {limit : Nat} {due : α → Bool} {f : α → Option α}

theorem batch_count : (table.rows.filter fun row => decide (key row ∈ table.chosen plan limit due)).length =
    (table.chosen plan limit due).length := by
  have whole : (table.chosen plan limit due).Nodup := by
    apply ((List.take_sublist limit _).map key).nodup
    exact ((plan.perm _).map key).nodup_iff.mpr ((List.filter_sublist.map key).nodup table.nodup)
  have taken : ((table.rows.filter fun row => decide (key row ∈ table.chosen plan limit due)).map key).Nodup :=
    (List.filter_sublist.map key).nodup table.nodup
  rw [← List.length_map key]
  apply List.Perm.length_eq
  apply (List.perm_ext_iff_of_nodup taken whole).mpr
  intro k
  rw [List.mem_map]
  constructor
  · rintro ⟨row, member, rfl⟩
    exact of_decide_eq_true (List.mem_filter.mp member).2
  · intro member
    obtain ⟨row, inside, rfl⟩ := List.mem_map.mp member
    have found := List.mem_filter.mp ((plan.perm _).mem_iff.mp (List.mem_of_mem_take inside))
    exact ⟨row, List.mem_filter.mpr ⟨found.1, decide_eq_true member⟩, rfl⟩

variable {keeps : ∀ a b, f a = some b → key b = key a}

theorem batch_of_short (short : (table.chosen plan limit due).length < limit) :
    (batch plan limit due f keeps table).1 = table.settle due f keeps := by
  apply eq_of_rows
  apply List.filterMap_congr
  intro row member
  by_cases isDue : due row = true
  · rw [if_pos (decide_eq_true (chosen_of_short short member isDue)), if_pos isDue]
  · rw [if_neg isDue, if_neg]
    exact fun taken => isDue (due_of_chosen member (of_decide_eq_true taken))

/-- What a batch leaves due is settled later. -/
theorem settle_batch (settles : ∀ a b, f a = some b → due b = false) :
    (batch plan limit due f keeps table).1.settle due f keeps = table.settle due f keeps := by
  rw [batch, settle_settle settles]
  apply settle_congr
  intro row member
  by_cases taken : key row ∈ table.chosen plan limit due
  · simp [taken, due_of_chosen member taken]
  · simp [taken]

theorem due_after_batch (settles : ∀ a b, f a = some b → due b = false) :
    ((batch plan limit due f keeps table).1.rows.filter due).length + (table.chosen plan limit due).length =
      (table.rows.filter due).length := by
  have left : (batch plan limit due f keeps table).1.rows.filter due =
      (table.rows.filter due).filter fun row => !decide (key row ∈ table.chosen plan limit due) := by
    show (table.rows.filterMap _).filter due = _
    rw [List.filter_filter, List.filter_filterMap, ← List.filterMap_eq_filter]
    apply List.filterMap_congr
    intro row _
    by_cases taken : decide (key row ∈ table.chosen plan limit due) = true
    · rw [if_pos taken]
      cases changed : f row with
      | none => simp [Option.guard, taken]
      | some row' => simp [Option.guard, taken, settles row row' changed]
    · rw [if_neg taken]
      by_cases isDue : due row = true
      · simp [Option.guard, Option.filter, taken, isDue]
      · simp [Option.guard, Option.filter, isDue]
  have taken : (table.rows.filter due).filter (fun row => decide (key row ∈ table.chosen plan limit due)) =
      table.rows.filter fun row => decide (key row ∈ table.chosen plan limit due) := by
    rw [List.filter_filter]
    apply List.filter_congr
    intro row member
    by_cases inside : key row ∈ table.chosen plan limit due
    · simp [inside, due_of_chosen member inside]
    · simp [inside]
  have parts := List.length_eq_length_filter_add (l := table.rows.filter due) fun row => decide (key row ∈ table.chosen plan limit due)
  rw [taken, batch_count] at parts
  rw [left]
  omega

/-- The batches end, with every row that was due settled. -/
theorem inBatches_settle (positive : 0 < limit) (settles : ∀ a b, f a = some b → due b = false) {fuel : Nat} (table : Keyed key)
    (enough : (table.rows.filter due).length < fuel) :
    inBatches limit (batch plan limit due f keeps) fuel table = some (table.settle due f keeps, (table.rows.filter due).length) := by
  induction fuel generalizing table with
  | zero => exact absurd enough (Nat.not_lt_zero _)
  | succ fuel ih =>
    have count : (batch plan limit due f keeps table).2 = (table.chosen plan limit due).length := batch_count
    have sizes : ((batch plan limit due f keeps table).1.rows.filter due).length + _ = _ := due_after_batch settles
    rw [inBatches]
    split
    · rename_i short
      rw [count] at short
      have all : (table.chosen plan limit due).length = _ := chosen_length
      have counted : (batch plan limit due f keeps table).2 = (table.rows.filter due).length := by omega
      rw [← batch_of_short short, ← counted]
    · rename_i full
      rw [count] at full
      rw [ih _ (by omega), Option.map_some, settle_batch settles, count]
      congr 2
      omega

end Keyed

end Oxplow.Library
