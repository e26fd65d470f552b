import Mathlib.Data.List.Induction
import Mathlib.Data.List.Pairwise
import Mathlib.Data.List.Sort

/-! Rows of a log as layers over a base: of the rows of one key, the last counts. -/

namespace Oxplow.Library.Overlay

variable {ρ κ α : Type} [DecidableEq κ]

/-- The last row of a key. -/
def newest (key : ρ → κ) (rows : List ρ) (k : κ) : Option ρ := (rows.filter fun row => key row = k).getLast?

/-- What a key holds once the rows are laid over `base`. -/
def lay (key : ρ → κ) (value : ρ → Option α) (base : κ → Option α) (rows : List ρ) (k : κ) : Option α :=
  (newest key rows k).elim (base k) value

/-- The rows that no row of their key comes after. -/
def tops (key : ρ → κ) (before : ρ → ρ → Prop) [DecidableRel before] (rows : List ρ) : List ρ :=
  rows.filter fun row => rows.all fun other => key other ≠ key row ∨ ¬ before row other

variable {key : ρ → κ} {value : ρ → Option α} {base : κ → Option α} {rows later : List ρ} {row : ρ} {k : κ}

@[simp]
theorem newest_nil : newest key [] k = none := rfl

theorem newest_append : newest key (rows ++ later) k = (newest key later k).or (newest key rows k) := by
  rw [newest, List.filter_append, List.getLast?_append]
  rfl

theorem newest_concat : newest key (rows ++ [row]) k = if key row = k then some row else newest key rows k := by
  rw [newest_append]
  by_cases same : key row = k <;> simp [newest, same]

theorem newest_mem (found : newest key rows k = some row) : row ∈ rows ∧ key row = k := by
  have member := List.mem_of_getLast? found
  simpa using List.mem_filter.mp member

theorem newest_eq_none : newest key rows k = none ↔ ∀ row ∈ rows, key row ≠ k := by
  simp [newest]

/-- The rows of other keys don't matter. -/
theorem newest_filter {keep : ρ → Bool} (all : ∀ row ∈ rows, key row = k → keep row = true) :
    newest key (rows.filter keep) k = newest key rows k := by
  rw [newest, List.filter_filter, newest]
  congr 1
  refine List.filter_congr fun row member => ?_
  by_cases same : key row = k
  · simp [same, all row member same]
  · simp [same]

theorem newest_of_distinct (distinct : rows.Pairwise fun a b => key a ≠ key b) (member : row ∈ rows) :
    newest key rows (key row) = some row := by
  obtain ⟨before, after, rfl⟩ := List.append_of_mem member
  have others := List.pairwise_append.mp distinct
  have none_after : newest key after (key row) = none :=
    newest_eq_none.mpr fun other inside same => (List.pairwise_cons.mp others.2.1).1 other inside same.symm
  rw [List.append_cons, newest_append, none_after, newest_concat, if_pos rfl]
  rfl

@[simp]
theorem lay_nil : lay key value base [] = base := rfl

theorem lay_append : lay key value base (rows ++ later) = lay key value (lay key value base rows) later := by
  funext k
  rw [lay, newest_append, lay, lay]
  cases newest key later k <;> rfl

/-- Rows that name the same keys and values in the same order lay the same. -/
theorem lay_of_map {ρ' : Type} {key' : ρ' → κ} {value' : ρ' → Option α} {rows' : List ρ'}
    (same : rows.map (fun row => (key row, value row)) = rows'.map fun row => (key' row, value' row)) :
    lay key value base rows = lay key' value' base rows' := by
  have laid : ∀ {ρ : Type} (key : ρ → κ) (value : ρ → Option α) (rows : List ρ) (k : κ),
      lay key value base rows k = lay Prod.fst Prod.snd base (rows.map fun row => (key row, value row)) k := by
    intro ρ key value rows k
    rw [lay, newest, lay, newest, List.filter_map, List.getLast?_map]
    change _ = (((rows.filter fun row => key row = k).getLast?).map _).elim _ _
    cases (rows.filter fun row => key row = k).getLast? <;> rfl
  funext k
  rw [laid key value rows k, laid key' value' rows' k, same]

/-- Of rows of different keys, the one kept of a key is its only one. -/
theorem newest_keep (distinct : rows.Pairwise fun a b => key a ≠ key b) {keep : ρ → Bool} :
    newest key (rows.filter keep) k = (newest key rows k).filter keep := by
  cases found : newest key rows k with
  | none => exact newest_eq_none.mpr fun row member => newest_eq_none.mp found row (List.mem_filter.mp member).1
  | some row =>
    obtain ⟨member, rfl⟩ := newest_mem found
    cases kept : keep row with
    | true =>
      have stays : row ∈ rows.filter keep := List.mem_filter.mpr ⟨member, kept⟩
      rw [newest_of_distinct (distinct.sublist List.filter_sublist) stays, Option.filter_some, kept]
      rfl
    | false =>
      have gone : newest key (rows.filter keep) (key row) = none := by
        refine newest_eq_none.mpr fun other inside same => ?_
        obtain ⟨inRows, keeps⟩ := List.mem_filter.mp inside
        have alike := newest_of_distinct distinct inRows
        rw [same, found] at alike
        obtain rfl := Option.some.inj alike
        simp [kept] at keeps
      rw [gone, Option.filter_some, kept]
      rfl

/-- A list in which what is late comes last splits there. -/
theorem filter_split (keep : ρ → Bool) {late : ρ → Bool} (ordered : rows.Pairwise fun a b => late a = true → late b = true) :
    rows.filter keep = rows.filter (fun row => keep row && !late row) ++ rows.filter fun row => keep row && late row := by
  induction rows with
  | nil => rfl
  | cons row rows ih =>
    have rest := ih ordered.of_cons
    cases isLate : late row with
    | false => cases kept : keep row <;> simp [kept, isLate, rest]
    | true =>
      -- Everything after is late too.
      have all : ∀ other ∈ row :: rows, late other = true := fun other member => by
        rcases List.mem_cons.mp member with rfl | member
        · exact isLate
        · exact List.rel_of_pairwise_cons ordered member isLate
      have nothing : (row :: rows).filter (fun row => keep row && !late row) = [] :=
        List.filter_eq_nil_iff.mpr fun other member => by simp [all other member]
      rw [nothing, List.nil_append]
      exact List.filter_congr fun other member => by simp [all other member]

section Tops
variable {before : ρ → ρ → Prop} [DecidableRel before]

theorem filter_tops : (tops key before rows).filter (fun row => key row = k) =
    (rows.filter fun row => key row = k).filter fun row => (rows.filter fun row => key row = k).all fun other => ¬ before row other := by
  rw [tops, List.filter_filter, List.filter_filter]
  refine List.filter_congr fun row _ => ?_
  by_cases same : key row = k
  · subst same
    simp only [decide_true, Bool.true_and, Bool.and_true, List.all_filter, Bool.decide_or, ne_eq, decide_not]
  · simp [same]

/-- In a log in order, the rows that none comes after are the last ones of their keys. -/
theorem newest_tops (ordered : rows.Pairwise before) (asymm : ∀ a b, before a b → ¬ before b a) :
    newest key (tops key before rows) k = newest key rows k := by
  rw [newest, filter_tops, newest]
  have inOrder : (rows.filter fun row => key row = k).Pairwise before := ordered.sublist List.filter_sublist
  cases shape : (rows.filter fun row => key row = k) using List.reverseRecOn with
  | nil => rfl
  | append_singleton earlier last =>
    rw [shape] at inOrder
    have pairs := List.pairwise_append.mp inOrder
    have last_stays : (earlier ++ [last]).all (fun other => ¬ before last other) = true := by
      refine List.all_eq_true.mpr fun other member => decide_eq_true ?_
      rcases List.mem_append.mp member with inside | inside
      · exact asymm _ _ (pairs.2.2 other inside last List.mem_cons_self)
      · obtain rfl := List.mem_singleton.mp inside
        exact fun loop => asymm _ _ loop loop
    rw [List.filter_append, List.filter_singleton, last_stays]
    simp

theorem tops_distinct (ordered : rows.Pairwise before) : (tops key before rows).Pairwise fun a b => key a ≠ key b := by
  have inOrder : (tops key before rows).Pairwise before := ordered.sublist List.filter_sublist
  refine inOrder.imp_of_mem fun {a b} inA inB comes same => ?_
  have top := List.all_eq_true.mp (List.mem_filter.mp inA).2 b (List.mem_filter.mp inB).1
  simp [same, comes] at top

end Tops

/-- The last of a list in order is the first when it is sorted the other way. -/
theorem head?_mergeSort {before : ρ → ρ → Bool} (ordered : rows.Pairwise fun a b => before a b = false)
    (trans : ∀ a b c, before a b → before b c → before a c) (total : ∀ a b, before a b || before b a) :
    (rows.mergeSort before).head? = rows.getLast? := by
  have reversed : rows.reverse.Pairwise fun a b => before a b = true := by
    refine List.pairwise_reverse.mpr (ordered.imp fun {a b} late => ?_)
    simpa [late] using total a b
  have strict : rows.reverse.Pairwise fun a b => before b a = false := List.pairwise_reverse.mpr ordered
  have perm : (rows.mergeSort before).Perm rows.reverse := (List.mergeSort_perm rows before).trans (List.reverse_perm rows).symm
  have sorted := List.pairwise_mergeSort trans total rows
  have only : ∀ a ∈ rows.reverse, ∀ b ∈ rows.reverse, before a b = true → before b a = true → a = b := by
    have pairs : rows.reverse.Pairwise fun a b => ¬ (before a b = true ∧ before b a = true) :=
      strict.imp fun {a b} late both => by simp [late] at both
    have : Std.Symm fun a b => ¬ (before a b = true ∧ before b a = true) := ⟨fun _ _ open_ both => open_ both.symm⟩
    intro a inA b inB ab ba
    by_contra apart
    exact pairs.forall inA inB apart ⟨ab, ba⟩
  have same : rows.mergeSort before = rows.reverse :=
    perm.eq_of_pairwise (fun a b inA inB ab ba => only a (perm.mem_iff.mp inA) b inB ab ba) sorted reversed
  rw [same, List.head?_reverse]

end Oxplow.Library.Overlay
