import Mathlib.Data.Fintype.EquivFin
import Mathlib.Data.List.Cycle

/-! Relations that a rank goes down along, and finite sets that have no way out. -/

namespace Oxplow.Library.Levels
open Relation

variable {α : Type} {r : α → α → Prop}

theorem rank_lt {rank : α → Nat} (descends : ∀ a b, r a b → rank b < rank a) {a b : α} (path : TransGen r a b) :
    rank b < rank a := by
  induction path with
  | single step => exact descends _ _ step
  | tail _ step ih => exact Nat.lt_trans (descends _ _ step) ih

/-- Where every member leads to a member, some member leads back to itself. -/
theorem exists_cycle {left : List α} (some' : left ≠ []) (stuck : ∀ a ∈ left, ∃ b ∈ left, r a b) : ∃ a, TransGen r a a := by
  by_contra acyclic
  let below : { a // a ∈ left } → { a // a ∈ left } → Prop := fun b a => TransGen r a.1 b.1
  have : Finite { a // a ∈ left } := by
    classical
    let listed : { a // a ∈ left } → { a // a ∈ left.toFinset } := fun a => ⟨a.1, List.mem_toFinset.mpr a.2⟩
    apply Finite.of_injective listed
    intro a b same
    have values : a.1 = b.1 := congrArg (fun c : { a // a ∈ left.toFinset } => c.1) same
    exact Subtype.ext values
  have : IsTrans { a // a ∈ left } below := ⟨fun _ _ _ first second => second.trans first⟩
  have : Std.Irrefl below := ⟨fun a loop => acyclic ⟨a.1, loop⟩⟩
  have founded : WellFounded below := Finite.wellFounded_of_trans_of_irrefl below
  obtain ⟨first, member⟩ := List.exists_mem_of_ne_nil left some'
  obtain ⟨least, -, minimal⟩ := founded.has_min Set.univ ⟨⟨first, member⟩, trivial⟩
  obtain ⟨next, inside, step⟩ := stuck least.1 least.2
  exact minimal ⟨next, inside⟩ trivial (TransGen.single step)

end Oxplow.Library.Levels

/-! Following a partial function from a value until one comes again: the path leads into a loop, and
the values that come back to themselves are those of the loop. -/

namespace Oxplow.Library.Lassos
open Relation

variable {α : Type} {f : α → Option α} {a b x y : α} {l lead tail : List α}

def Goes (f : α → Option α) (a b : α) : Prop := f a = some b

theorem Goes.same (first : Goes f a x) (second : Goes f a y) : x = y := Option.some.inj (first.symm.trans second)

/-- What each value of a path but the last goes to is on the path after it. -/
theorem next_mem (chain : (l ++ [b]).IsChain (Goes f)) (inside : x ∈ l) (goes : Goes f x y) : y ∈ (l ++ [b]).tail := by
  induction l with
  | nil => exact absurd inside List.not_mem_nil
  | cons a l ih =>
    rw [List.cons_append] at chain ⊢
    rw [List.tail_cons]
    rcases List.mem_cons.mp inside with rfl | inside
    · cases l with
      | nil =>
        obtain rfl := goes.same (List.isChain_cons_cons.mp chain).1
        exact List.mem_singleton_self _
      | cons c l =>
        obtain rfl := goes.same (List.isChain_cons_cons.mp chain).1
        exact List.mem_cons_self
    · exact List.mem_of_mem_tail (ih (List.IsChain.tail chain) inside)

theorem reach_closed (held : α → Prop) (closed : ∀ a b, held a → Goes f a b → held b) (reach : ReflTransGen (Goes f) a b)
    (start : held a) : held b := by
  induction reach with
  | refl => exact start
  | tail _ goes ih => exact closed _ _ ih goes

/-- A path that ends where the loop begins. -/
structure Lasso (f : α → Option α) (lead : List α) (a : α) (tail : List α) : Prop where
  once : (lead ++ a :: tail).Nodup
  goes : (lead ++ a :: tail ++ [a]).IsChain (Goes f)

theorem Lasso.loop (lasso : Lasso f lead a tail) : Cycle.Chain (Goes f) ((a :: tail : List α) : Cycle α) := by
  have goes := lasso.goes
  rw [List.append_assoc] at goes
  exact goes.right_of_append

theorem Lasso.closed (lasso : Lasso f lead a tail) (inside : x ∈ lead ++ a :: tail) (goes : Goes f x y) : y ∈ lead ++ a :: tail := by
  have next := List.mem_of_mem_tail (next_mem lasso.goes inside goes)
  rcases List.mem_append.mp next with next | last
  · exact next
  · rw [List.mem_singleton.mp last]
    simp

/-- All on a path leads to nothing else. -/
theorem Lasso.reach (lasso : Lasso f lead a tail) (inside : x ∈ lead ++ a :: tail) (reach : ReflTransGen (Goes f) x y) :
    y ∈ lead ++ a :: tail :=
  reach_closed (· ∈ lead ++ a :: tail) (fun _ _ here goes => lasso.closed here goes) reach inside

/-- What comes back to itself is on the loop. -/
theorem Lasso.returns (lasso : Lasso f lead a tail) (inside : x ∈ lead ++ a :: tail) (comes : TransGen (Goes f) x x) :
    x ∈ a :: tail := by
  rcases List.mem_append.mp inside with early | late
  · obtain ⟨before, after, rfl⟩ := List.append_of_mem early
    have goes := lasso.goes
    have once := lasso.once
    simp only [List.append_assoc, List.cons_append] at goes once
    have rest := goes.right_of_append
    -- From `x` on nothing leads back before it.
    have closed : ∀ c d, c ∈ after ++ a :: tail → Goes f c d → d ∈ after ++ a :: tail := by
      intro c d here goes
      have chain : (after ++ a :: tail ++ [a]).IsChain (Goes f) := by
        simpa using List.IsChain.tail rest
      have next := List.mem_of_mem_tail (next_mem chain here goes)
      rcases List.mem_append.mp next with next | last
      · exact next
      · rw [List.mem_singleton.mp last]
        simp
    obtain ⟨first, goes, reach⟩ := TransGen.head'_iff.mp comes
    have chain : (x :: (after ++ a :: tail) ++ [a]).IsChain (Goes f) := by
      simpa using rest
    have next := next_mem chain List.mem_cons_self goes
    have start : first ∈ after ++ a :: tail := by
      rw [List.cons_append, List.tail_cons] at next
      rcases List.mem_append.mp next with next | last
      · exact next
      · rw [List.mem_singleton.mp last]
        simp
    have again := reach_closed (· ∈ after ++ a :: tail) closed reach start
    exact absurd again (List.nodup_cons.mp (List.Nodup.of_append_right once)).1
  · exact late

theorem loop_returns {loop : List α} (chain : Cycle.Chain (Goes f) (loop : Cycle α)) (inside : x ∈ loop) : TransGen (Goes f) x x := by
  have all : Cycle.Chain (TransGen (Goes f)) (loop : Cycle α) := chain.imp fun _ _ => TransGen.single
  exact Cycle.chain_iff_pairwise.mp all x inside x inside

end Oxplow.Library.Lassos
