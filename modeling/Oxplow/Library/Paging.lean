import Mathlib.Data.List.Sort

/-! Reading a sorted list page by page. A page takes rows while there is room for them and
gives the key of its last row as the cursor of the next, when a row was left out. -/

namespace Oxplow.Library.Paging

variable {α ρ κ ε : Type}

structure Page (α κ : Type) where
  items : List α
  next : Option κ

/-- Ask for page after page until one has no cursor. -/
def follow (page : Option κ → Except ε (Page α κ)) : Nat → Option κ → Option (Except ε (List α))
  | 0, _ => none
  | fuel + 1, after =>
    match page after with
    | .error error => some (.error error)
    | .ok ⟨items, none⟩ => some (.ok items)
    | .ok ⟨items, some cursor⟩ => (follow page fuel (some cursor)).map fun rest => rest.map (items ++ ·)

variable {page : Option κ → Except ε (Page α κ)}

theorem follow_last {after : Option κ} {items : List α} (fuel : Nat) (last : page after = .ok ⟨items, none⟩) :
    follow page (fuel + 1) after = some (.ok items) := by
  simp [follow, last]

theorem follow_next {after : Option κ} {items rest : List α} {cursor : κ} {fuel : Nat}
    (more : page after = .ok ⟨items, some cursor⟩) (others : follow page fuel (some cursor) = some (.ok rest)) :
    follow page (fuel + 1) after = some (.ok (items ++ rest)) := by
  simp [follow, more, others, Except.map]

/-- From the cursor after any first part of the rows, a page has the next of them, and a
cursor exactly when it leaves some out. -/
def Cuts (key : α → κ) (rows : List α) (page : Option κ → Except ε (Page α κ)) : Prop :=
  ∀ done rest, rows = done ++ rest → ∃ taken left, rest = taken ++ left ∧ (left ≠ [] → taken ≠ []) ∧
    page (done.getLast?.map key) = .ok ⟨taken, if left = [] then none else taken.getLast?.map key⟩

theorem Cuts.follow_rest {key : α → κ} {rows : List α} (cuts : Cuts key rows page) (fuel : Nat) {done rest : List α}
    (split : rows = done ++ rest) (enough : rest.length < fuel) : follow page fuel (done.getLast?.map key) = some (.ok rest) := by
  induction fuel generalizing done rest with
  | zero => exact absurd enough (Nat.not_lt_zero _)
  | succ fuel ih =>
    obtain ⟨taken, left, rfl, progress, answer⟩ := cuts done rest split
    by_cases past : left = []
    · rw [if_pos past] at answer
      subst past
      rw [List.append_nil]
      exact follow_last fuel answer
    · rw [if_neg past] at answer
      have some_ := progress past
      obtain ⟨last, found⟩ : ∃ last, taken.getLast? = some last := ⟨_, List.getLast?_eq_some_getLast some_⟩
      rw [found] at answer
      have cut : rows = (done ++ taken) ++ left := by rw [split, List.append_assoc]
      have shorter : left.length < fuel := by
        have positive := List.length_pos_of_ne_nil some_
        rw [List.length_append] at enough
        omega
      have others := ih cut shorter
      rw [List.getLast?_append, found] at others
      exact follow_next answer others

/-- Following the cursors gives every row once, in order. -/
theorem Cuts.follow_all {key : α → κ} {rows : List α} (cuts : Cuts key rows page) {fuel : Nat} (enough : rows.length < fuel) :
    follow page fuel none = some (.ok rows) :=
  cuts.follow_rest fuel (List.nil_append rows).symm enough

/-! ## The rows after a cursor -/

variable {key : ρ → κ}

/-- In rows sorted by a key, those past the last key of a first part are the rest. -/
theorem filter_after [Preorder κ] [DecidableLT κ] {done rest : List ρ} {last : ρ}
    (sorted : (done ++ rest).Pairwise fun a b => key a < key b) (ends : done.getLast? = some last) :
    ((done ++ rest).filter fun row => key last < key row) = rest := by
  have member : last ∈ done := List.mem_of_getLast? ends
  obtain ⟨front, rfl⟩ := List.getLast?_eq_some_iff.mp ends
  have order := List.pairwise_append.mp sorted
  have early := List.pairwise_append.mp order.1
  have before : (front ++ [last]).filter (fun row => key last < key row) = [] := by
    apply List.filter_eq_nil_iff.mpr
    intro row inside later
    rcases List.mem_append.mp inside with first | same
    · exact lt_asymm (early.2.2 row first last List.mem_cons_self) (of_decide_eq_true later)
    · rw [List.mem_singleton.mp same] at later
      exact lt_irrefl _ (of_decide_eq_true later)
  have after : rest.filter (fun row => key last < key row) = rest :=
    List.filter_eq_self.mpr fun row inside => decide_eq_true (order.2.2 last member row inside)
  rw [List.filter_append, before, after, List.nil_append]

variable {rows : List ρ}

/-- Rows with keys of their own, sorted: choosing among them and sorting may change places. -/
theorem filter_sorted [LinearOrder κ] (distinct : (rows.map key).Nodup) (chosen : ρ → Bool) :
    (rows.filter chosen).mergeSort (fun a b => key a ≤ key b) = (rows.mergeSort fun a b => key a ≤ key b).filter chosen := by
  have total : ∀ a b : ρ, (decide (key a ≤ key b) || decide (key b ≤ key a)) = true := by
    intro a b
    simp [le_total]
  have trans : ∀ a b c : ρ, decide (key a ≤ key b) = true → decide (key b ≤ key c) = true → decide (key a ≤ key c) = true := by
    intro a b c first second
    simp only [decide_eq_true_eq] at first second ⊢
    exact first.trans second
  apply @List.Perm.eq_of_pairwise _ (fun a b => decide (key a ≤ key b) = true)
  · intro a b inside other first second
    have listed : a ∈ rows := (List.mem_filter.mp (List.mem_mergeSort.mp inside)).1
    have listed' : b ∈ rows := List.mem_mergeSort.mp (List.mem_filter.mp other).1
    exact List.inj_on_of_nodup_map distinct listed listed' (le_antisymm (of_decide_eq_true first) (of_decide_eq_true second))
  · exact List.pairwise_mergeSort trans total _
  · exact (List.pairwise_mergeSort trans total rows).filter _
  · exact (List.mergeSort_perm _ _).trans ((List.mergeSort_perm rows _).filter chosen).symm

/-- Rows with keys of their own, sorted, rise strictly. -/
theorem sorted_strictly [LinearOrder κ] (distinct : (rows.map key).Nodup) :
    (rows.mergeSort fun a b => key a ≤ key b).Pairwise fun a b => key a < key b := by
  have total : ∀ a b : ρ, (decide (key a ≤ key b) || decide (key b ≤ key a)) = true := by
    intro a b
    simp [le_total]
  have trans : ∀ a b c : ρ, decide (key a ≤ key b) = true → decide (key b ≤ key c) = true → decide (key a ≤ key c) = true := by
    intro a b c first second
    simp only [decide_eq_true_eq] at first second ⊢
    exact first.trans second
  have sorted := List.pairwise_mergeSort trans total rows
  have apart : ((rows.mergeSort fun a b => key a ≤ key b).map key).Nodup :=
    ((List.mergeSort_perm rows _).map key).nodup_iff.mpr distinct
  rw [List.Nodup, List.pairwise_map] at apart
  exact (sorted.and apart).imp fun both => lt_of_le_of_ne (of_decide_eq_true both.1) both.2

/-- What a query for the rows past a cursor finds, once sorted. -/
theorem sorted_after [LinearOrder κ] {done rest : List ρ} {own : ρ → Bool} {last : ρ}
    (distinct : ((rows.filter own).map key).Nodup) (split : (rows.filter own).mergeSort (fun a b => key a ≤ key b) = done ++ rest)
    (ends : done.getLast? = some last) :
    (rows.filter fun row => own row && key last < key row).mergeSort (fun a b => key a ≤ key b) = rest := by
  have both : (rows.filter fun row => own row && key last < key row) = (rows.filter own).filter fun row => key last < key row := by
    rw [List.filter_filter]
    apply List.filter_congr
    intro row _
    exact Bool.and_comm _ _
  have sorted := sorted_strictly distinct
  rw [split] at sorted
  rw [both, filter_sorted distinct, split]
  exact filter_after sorted ends

end Oxplow.Library.Paging
