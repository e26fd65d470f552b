import Mathlib.Algebra.BigOperators.Group.List.Basic

/-! Items that count once by their key, and each time when they have none: what a list counts,
and what its parts count when each is counted alone. -/

namespace Oxplow.Library.Counting

variable {α κ M : Type} [DecidableEq κ] (key : α → Option κ)

/-- The key isn't one of these. -/
def newTo (seen : List κ) (a : α) : Bool := (key a).all fun k => !seen.contains k

/-- The items that count, when those with the keys in `seen` are counted already. -/
def once (seen : List κ) : List α → List α
  | [] => []
  | a :: rest =>
    if newTo key seen a then a :: once ((key a).toList ++ seen) rest else once seen rest

/-- The items that parts counted alone count again. -/
def again (seen : List κ) : List (List α) → List α
  | [] => []
  | part :: rest => ((once key [] part).filter fun a => !newTo key seen a) ++ again (part.filterMap key ++ seen) rest

variable {key} {seen seen' more : List κ} {items : List α}

theorem newTo_append {a : α} : newTo key (seen ++ more) a = (newTo key seen a && newTo key more a) := by
  simp only [newTo]
  cases key a <;> simp

theorem newTo_congr (same : ∀ k, k ∈ seen ↔ k ∈ seen') (a : α) : newTo key seen a = newTo key seen' a := by
  simp only [newTo]
  congr 1
  funext k
  simp [same k]

/-- Of what counts, the items whose keys are new to some more. -/
theorem once_more (same : ∀ k, k ∈ seen' ↔ k ∈ seen ∨ k ∈ more) :
    once key seen' items = (once key seen items).filter (newTo key more) := by
  induction items generalizing seen seen' with
  | nil => rfl
  | cons a rest ih =>
    have both : newTo key seen' a = (newTo key seen a && newTo key more a) := by
      rw [← newTo_append]
      exact newTo_congr (by simpa using same) a
    simp only [once, both]
    cases old : newTo key seen a with
    | false => simpa using ih same
    | true =>
      simp only [Bool.true_and, if_true, List.filter_cons]
      cases fresh : newTo key more a with
      | true =>
        simp only [if_true]
        congr 1
        exact ih fun k => by simp [same k, or_assoc]
      | false =>
        simp only [Bool.false_eq_true, if_false]
        apply ih
        intro k
        -- A key that isn't new to `more` is in it.
        have inside : ∀ k ∈ key a, k ∈ more := by
          intro k own
          simpa [newTo, Option.mem_def.mp own] using fresh
        simp only [same k, List.mem_append, Option.mem_toList]
        constructor
        · rintro (before | later)
          · exact .inl (.inr before)
          · exact .inr later
        · rintro ((own | before) | later)
          · exact .inr (inside k own)
          · exact .inl before
          · exact .inr later

theorem once_congr (same : ∀ k, k ∈ seen ↔ k ∈ seen') : once key seen items = once key seen' items := by
  have all : once key seen items = (once key seen' items).filter (newTo key []) := once_more fun k => by simp [same k]
  have none_ : newTo key ([] : List κ) = fun _ => true := by
    funext a
    simp [newTo]
  rw [all, none_, List.filter_true]

theorem once_append (more : List α) : once key seen (items ++ more) = once key seen items ++ once key (items.filterMap key ++ seen) more := by
  induction items generalizing seen with
  | nil => rfl
  | cons a rest ih =>
    have keys : ∀ k, k ∈ (a :: rest).filterMap key ++ seen ↔ k ∈ rest.filterMap key ++ ((key a).toList ++ seen) := by
      intro k
      cases own : key a <;> simp [own, or_left_comm]
    simp only [List.cons_append, once]
    cases fresh : newTo key seen a with
    | true =>
      simp only [if_true, List.cons_append]
      rw [ih, once_congr keys]
    | false =>
      simp only [Bool.false_eq_true, if_false]
      rw [ih, once_congr keys]
      congr 1
      apply once_congr
      intro k
      have inside : ∀ k ∈ key a, k ∈ seen := by
        intro k own
        simpa [newTo, Option.mem_def.mp own] using fresh
      simp only [List.mem_append, Option.mem_toList]
      constructor
      · rintro (own | before)
        · exact .inl own
        · exact .inr (.inr before)
      · rintro (own | again | before)
        · exact .inl own
        · exact .inr (inside k again)
        · exact .inr before

variable [AddCommMonoid M] (key) (weight : α → M)

/-- The parts together count what the whole does, and what they count again. -/
theorem sum_parts (seen : List κ) (parts : List (List α)) : (parts.map fun part => ((once key [] part).map weight).sum).sum =
    ((once key seen parts.flatten).map weight).sum + ((again key seen parts).map weight).sum := by
  induction parts generalizing seen with
  | nil => simp [once, again]
  | cons part rest ih =>
    have news : once key seen part = (once key [] part).filter (newTo key seen) := once_more fun k => by simp
    have split_ : ((once key [] part).map weight).sum =
        ((once key seen part).map weight).sum + (((once key [] part).filter fun a => !newTo key seen a).map weight).sum := by
      rw [news, ← List.sum_append, ← List.map_append]
      exact ((List.filter_append_perm _ _).map weight).sum_eq.symm
    rw [List.map_cons, List.sum_cons, ih (part.filterMap key ++ seen), List.flatten_cons, once_append, again, List.map_append, List.map_append,
      List.sum_append, List.sum_append, split_]
    exact add_add_add_comm _ _ _ _

end Oxplow.Library.Counting
