import Mathlib.Data.List.Basic

/-! The maximal runs of a list's items that have a property, and how the runs of
a list cut into blocks are the blocks' runs joined. -/

namespace Oxplow.Library

variable {α : Type}

/-- The maximal runs of items with `p`, in order. -/
def runs (p : α → Bool) : List α → List (List α)
  | [] => []
  | a :: rest =>
    if p a then (a :: rest.takeWhile p) :: runs p (rest.dropWhile p) else runs p rest
termination_by items => items.length
decreasing_by
  · exact Nat.lt_succ_of_le (List.dropWhile_suffix _).length_le
  · exact Nat.lt_succ_self _

@[simp] theorem runs_nil (p : α → Bool) : runs p [] = [] := by simp [runs]

theorem runs_cons (p : α → Bool) (a : α) (rest : List α) :
    runs p (a :: rest) =
      if p a then (a :: rest.takeWhile p) :: runs p (rest.dropWhile p) else runs p rest := by
  rw [runs]

variable {p : α → Bool}

/-- Leading items without the property make no difference. -/
theorem runs_append_of_not {first : List α} (none : ∀ a ∈ first, p a = false) (rest : List α) :
    runs p (first ++ rest) = runs p rest := by
  induction first with
  | nil => rfl
  | cons a first ih =>
    rw [List.cons_append, runs_cons, none a (by simp), if_neg Bool.false_ne_true]
    exact ih (fun b member => none b (by simp [member]))

theorem runs_dropWhile {q : α → Bool} (apart : ∀ a, q a = true → p a = false) (items : List α) :
    runs p (items.dropWhile q) = runs p items := by
  conv_rhs => rw [← List.takeWhile_append_dropWhile (p := q) (l := items)]
  refine (runs_append_of_not ?_ _).symm
  intro a member
  exact apart a (List.all_eq_true.mp List.all_takeWhile a member)

theorem mem_of_mem_runs {items run : List α} (member : run ∈ runs p items) : ∀ a ∈ run, a ∈ items := by
  induction items using runs.induct p generalizing run with
  | case1 => simp at member
  | case2 a rest holds ih =>
    rw [runs_cons, if_pos holds] at member
    intro b inside
    rcases List.mem_cons.mp member with rfl | member
    · rcases List.mem_cons.mp inside with rfl | inside
      · simp
      · exact List.mem_cons_of_mem _ ((List.takeWhile_prefix p).subset inside)
    · exact List.mem_cons_of_mem _ ((List.dropWhile_suffix p).subset (ih member b inside))
  | case3 a rest fails ih =>
    rw [runs_cons, if_neg fails] at member
    intro b inside
    exact List.mem_cons_of_mem _ (ih member b inside)

/-- A run is not empty, and all its items have the property. -/
theorem run_of_mem_runs {items run : List α} (member : run ∈ runs p items) : run ≠ [] ∧ ∀ a ∈ run, p a = true := by
  induction items using runs.induct p generalizing run with
  | case1 => simp at member
  | case2 a rest holds ih =>
    rw [runs_cons, if_pos holds] at member
    rcases List.mem_cons.mp member with rfl | member
    · refine ⟨by simp, ?_⟩
      intro b inside
      rcases List.mem_cons.mp inside with rfl | inside
      · exact holds
      · exact List.all_eq_true.mp List.all_takeWhile b inside
    · exact ih member
  | case3 a rest fails ih =>
    rw [runs_cons, if_neg fails] at member
    exact ih member

/-- Blocks that are each not empty and all with the property, or all without. -/
def Uniform (p : α → Bool) (blocks : List (List α)) : Prop :=
  ∀ block ∈ blocks, block ≠ [] ∧ ((∀ a ∈ block, p a = true) ∨ ∀ a ∈ block, p a = false)

variable {blocks : List (List α)}

theorem Uniform.tail {block : List α} (uniform : Uniform p (block :: blocks)) : Uniform p blocks :=
  fun other member => uniform other (by simp [member])

theorem Uniform.all_false {block : List α} (uniform : Uniform p (block :: blocks)) (mixed : block.all p = false) :
    ∀ a ∈ block, p a = false := by
  rcases (uniform block (by simp)).2 with holds | fails
  · exact absurd (List.all_eq_true.mpr holds) (by simp [mixed])
  · exact fails

theorem takeWhile_flatten (uniform : Uniform p blocks) : blocks.flatten.takeWhile p = (blocks.takeWhile (·.all p)).flatten := by
  induction blocks with
  | nil => rfl
  | cons block blocks ih =>
    cases whole : block.all p with
    | true =>
      have holds := List.all_eq_true.mp whole
      rw [List.flatten_cons, List.takeWhile_append_of_pos holds, ih uniform.tail]
      simp [whole]
    | false =>
      have fails := uniform.all_false whole
      obtain ⟨a, rest, rfl⟩ := List.exists_cons_of_ne_nil (uniform block (by simp)).1
      simp [whole, fails a (by simp)]

theorem dropWhile_flatten (uniform : Uniform p blocks) : blocks.flatten.dropWhile p = (blocks.dropWhile (·.all p)).flatten := by
  induction blocks with
  | nil => rfl
  | cons block blocks ih =>
    cases whole : block.all p with
    | true =>
      have holds := List.all_eq_true.mp whole
      rw [List.flatten_cons, List.dropWhile_append_of_pos holds, ih uniform.tail]
      simp [whole]
    | false =>
      have fails := uniform.all_false whole
      obtain ⟨a, rest, rfl⟩ := List.exists_cons_of_ne_nil (uniform block (by simp)).1
      simp [whole, fails a (by simp)]

/-- The runs of the joined blocks are the runs of blocks, each joined. -/
theorem runs_flatten (uniform : Uniform p blocks) : runs p blocks.flatten = (runs (·.all p) blocks).map List.flatten := by
  induction blocks using runs.induct (fun block : List α => block.all p) with
  | case1 => simp
  | case2 block blocks whole ih =>
    have later : Uniform p (blocks.dropWhile (·.all p)) :=
      fun other member => uniform other (List.mem_cons_of_mem _ ((List.dropWhile_suffix _).subset member))
    have holds := List.all_eq_true.mp whole
    obtain ⟨a, rest, rfl⟩ := List.exists_cons_of_ne_nil (uniform block (by simp)).1
    have tail : ∀ b ∈ rest, p b = true := fun b member => holds b (by simp [member])
    rw [List.flatten_cons, List.cons_append, runs_cons, if_pos (holds a (by simp)), runs_cons, if_pos whole,
      List.takeWhile_append_of_pos tail, List.dropWhile_append_of_pos tail, takeWhile_flatten uniform.tail,
      dropWhile_flatten uniform.tail, ih later]
    simp
  | case3 block blocks mixed ih =>
    have fails := uniform.all_false (by simpa using mixed)
    rw [List.flatten_cons, runs_append_of_not fails, runs_cons, if_neg mixed]
    exact ih uniform.tail

end Oxplow.Library
