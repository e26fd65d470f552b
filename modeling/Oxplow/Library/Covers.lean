import Mathlib.Data.List.Basic
import Mathlib.Order.Basic

/-! Half-open spans in an order: lists of them from left to right, and what lies inside them. -/

namespace Oxplow.Library.Spans

variable {α : Type} [Preorder α]

/-- All of `inner` is in `outer`. -/
def Inside (inner outer : α × α) : Prop := outer.1 ≤ inner.1 ∧ inner.2 ≤ outer.2

instance [DecidableLE α] (inner outer : α × α) : Decidable (Inside inner outer) := inferInstanceAs (Decidable (_ ∧ _))

/-- The spans stand from left to right, and none reaches into another. -/
structure Ascending (spans : List (α × α)) : Prop where
  proper : ∀ span ∈ spans, span.1 ≤ span.2
  apart : spans.Pairwise fun span later => span.2 ≤ later.1

theorem ascending_nil : Ascending ([] : List (α × α)) := ⟨fun _ member => absurd member List.not_mem_nil, .nil⟩

variable {spans : List (α × α)} {span : α × α}

theorem Ascending.concat (ascending : Ascending spans) (proper : span.1 ≤ span.2) (after : ∀ before ∈ spans, before.2 ≤ span.1) :
    Ascending (spans ++ [span]) where
  proper := List.forall_mem_append.mpr ⟨ascending.proper, List.forall_mem_singleton.mpr proper⟩
  apart := by
    rw [List.pairwise_append]
    refine ⟨ascending.apart, List.pairwise_singleton _ _, fun before member later last => ?_⟩
    rw [List.mem_singleton.mp last]
    exact after before member

theorem Ascending.prior {front rest : List (α × α)} (ascending : Ascending (front ++ span :: rest)) :
    ∀ before ∈ front, before.2 ≤ span.1 :=
  fun before member => (List.pairwise_append.mp ascending.apart).2.2 before member span List.mem_cons_self

/-- A span that holds something is inside at most one. -/
theorem Ascending.countP_inside_le_one [DecidableLE α] (ascending : Ascending spans) (some_ : span.1 < span.2) :
    spans.countP (fun outer => decide (Inside span outer)) ≤ 1 := by
  induction spans with
  | nil => exact Nat.zero_le _
  | cons outer spans ih =>
    have rest : Ascending spans := ⟨fun later member => ascending.proper later (List.mem_cons_of_mem _ member), ascending.apart.of_cons⟩
    by_cases here : Inside span outer
    · have later : ∀ other ∈ spans, ¬ decide (Inside span other) = true := by
        intro other member inside
        have start : other.1 ≤ span.1 := (of_decide_eq_true inside).1
        have stop : outer.2 ≤ other.1 := List.rel_of_pairwise_cons ascending.apart member
        exact absurd ((here.2.trans stop).trans start) (not_le_of_gt some_)
      have zero : spans.countP (fun other => decide (Inside span other)) = 0 := List.countP_eq_zero.mpr later
      simp [zero, here]
    · rw [List.countP_cons_of_neg (by simpa using here)]
      exact ih rest

theorem Ascending.countP_inside [DecidableLE α] (ascending : Ascending spans) (some_ : span.1 < span.2)
    (held : ∃ outer ∈ spans, Inside span outer) : spans.countP (fun outer => decide (Inside span outer)) = 1 := by
  obtain ⟨outer, member, inside⟩ := held
  have positive : 0 < spans.countP (fun outer => decide (Inside span outer)) :=
    List.countP_pos_iff.mpr ⟨outer, member, decide_eq_true inside⟩
  exact Nat.le_antisymm (ascending.countP_inside_le_one some_) positive

end Oxplow.Library.Spans

/-! Lists of things none of which is over another: what is over a thing stands for it. -/

namespace Oxplow.Library.Tops

variable {α : Type} (r : α → α → Prop) [DecidableRel r]

/-- One more, unless it is covered; it takes the place of what it covers. -/
def insert (tops : List α) (a : α) : List α :=
  if tops.any (fun top => decide (r top a)) = true then tops else a :: tops.filter fun top => !decide (r a top)

def Covered (tops : List α) (a : α) : Prop := ∃ top ∈ tops, r top a

/-- None is over another. -/
def Apart (tops : List α) : Prop := ∀ a ∈ tops, ∀ b ∈ tops, r a b → a = b

variable {r} {tops : List α} {a b : α}

theorem any_iff : tops.any (fun top => decide (r top a)) = true ↔ Covered r tops a := by
  simp [Covered]

/-- What is covered is what was, and what the new one covers. -/
theorem covered_insert (trans : ∀ {a b c}, r a b → r b c → r a c) :
    Covered r (insert r tops a) b ↔ Covered r tops b ∨ r a b := by
  rw [insert]
  split
  · rename_i covered
    obtain ⟨top, member, above⟩ := any_iff.mp covered
    exact ⟨Or.inl, fun either => either.elim id fun below => ⟨top, member, trans above below⟩⟩
  · constructor
    · rintro ⟨top, member, above⟩
      rcases List.mem_cons.mp member with rfl | old
      · exact .inr above
      · exact .inl ⟨top, (List.mem_filter.mp old).1, above⟩
    · rintro (⟨top, member, above⟩ | above)
      · by_cases replaced : r a top
        · exact ⟨a, List.mem_cons_self .., trans replaced above⟩
        · exact ⟨top, List.mem_cons_of_mem _ (List.mem_filter.mpr ⟨member, by simpa using replaced⟩), above⟩
      · exact ⟨a, List.mem_cons_self .., above⟩

theorem apart_insert (apart : Apart r tops) : Apart r (insert r tops a) := by
  rw [insert]
  split
  · exact apart
  · rename_i uncovered
    have clear : ∀ top ∈ tops, ¬ r top a := fun top member above => uncovered (any_iff.mpr ⟨top, member, above⟩)
    intro b first c second above
    rcases List.mem_cons.mp first with rfl | old
    · rcases List.mem_cons.mp second with rfl | old'
      · rfl
      · exact absurd above (by simpa using (List.mem_filter.mp old').2)
    · rcases List.mem_cons.mp second with rfl | old'
      · exact absurd above (clear b (List.mem_filter.mp old).1)
      · exact apart b (List.mem_filter.mp old).1 c (List.mem_filter.mp old').1 above

end Oxplow.Library.Tops
