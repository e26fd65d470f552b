import Mathlib.Data.List.Pairwise
import Oxplow.Library.Buckets

/-! Lists in an order: what is left out before or after sorting, prefixes, and the list
that two descriptions of its entries give. -/

namespace Oxplow.Library

variable {α β : Type} (r : α → α → Prop)

section Sorting
variable [DecidableRel r] [IsTrans α r]

theorem filter_orderedInsert (keep : α → Bool) (a : α) {items : List α} (ordered : items.Pairwise r) :
    (items.orderedInsert r a).filter keep =
      if keep a then (items.filter keep).orderedInsert r a else items.filter keep := by
  induction items with
  | nil => cases kept : keep a <;> simp [kept]
  | cons b items ih =>
    have rest := ih ordered.of_cons
    by_cases first : r a b
    · rw [List.orderedInsert_cons_of_le r items first, List.filter_cons]
      split
      next =>
        -- Everything that stays comes after `a`.
        have later : ((b :: items).filter keep).Pairwise r := ordered.sublist List.filter_sublist
        have sorted : (a :: (b :: items).filter keep).Pairwise r := by
          refine List.pairwise_cons.mpr ⟨fun c member => ?_, later⟩
          rcases List.mem_cons.mp (List.mem_filter.mp member).1 with rfl | after
          · exact first
          · exact trans_of r first (List.rel_of_pairwise_cons ordered after)
        calc a :: (b :: items).filter keep
            = (a :: (b :: items).filter keep).insertionSort r := sorted.insertionSort_eq.symm
          _ = ((b :: items).filter keep).orderedInsert r a := by
            rw [List.insertionSort_cons, later.insertionSort_eq]
      next => rfl
    · rw [List.orderedInsert_of_not_le r items first, List.filter_cons, rest, List.filter_cons]
      split <;> split <;> simp [first]

variable [Std.Total r]

/-- Sorting and leaving out come to the same in either order. -/
theorem filter_insertionSort (keep : α → Bool) (items : List α) :
    (items.insertionSort r).filter keep = (items.filter keep).insertionSort r := by
  induction items with
  | nil => rfl
  | cons a items ih =>
    rw [List.insertionSort_cons, filter_orderedInsert r keep a (List.pairwise_insertionSort r items), ih, List.filter_cons]
    split <;> rfl

/-- A list in strict order is what sorting any rearrangement of it gives. -/
theorem insertionSort_eq_of_perm {items items' : List α} (perm : items.Perm items') (strict : items'.Pairwise fun a b => ¬ r b a) :
    items.insertionSort r = items' := by
  have apart : ∀ a ∈ items', ∀ b ∈ items', a ≠ b → ¬ (r a b ∧ r b a) := by
    have pairs : items'.Pairwise fun a b => ¬ (r a b ∧ r b a) := strict.imp fun before both => before both.2
    have : Std.Symm fun a b => ¬ (r a b ∧ r b a) := ⟨fun _ _ open_ both => open_ both.symm⟩
    exact fun a inA b inB => pairs.forall inA inB
  have sorted : items'.Pairwise r := strict.imp fun {a b} before => (Std.Total.total a b).resolve_right before
  have whole := (List.perm_insertionSort r items).trans perm
  refine whole.eq_of_pairwise ?_ (List.pairwise_insertionSort r items) sorted
  intro a b inA inB before after
  by_contra differ
  exact apart a (whole.mem_iff.mp inA) b inB differ ⟨before, after⟩

end Sorting

variable {r}

variable {items : List α}

/-- Where what holds of an entry holds of all before it, the prefix on which it holds is all
it holds of. -/
theorem takeWhile_eq_filter {keep : α → Bool} (closed : items.Pairwise fun a b => keep b = true → keep a = true) :
    items.takeWhile keep = items.filter keep := by
  induction items with
  | nil => rfl
  | cons a items ih =>
    obtain ⟨earlier, rest⟩ := List.pairwise_cons.mp closed
    cases kept : keep a with
    | true => rw [List.takeWhile_cons_of_pos kept, List.filter_cons_of_pos kept, ih rest]
    | false =>
      have none : items.filter keep = [] := by
        apply List.filter_eq_nil_iff.mpr
        intro b member holds
        have first := earlier b member holds
        rw [kept] at first
        cases first
      rw [List.takeWhile_cons_of_neg (by simp [kept]), List.filter_cons_of_neg (by simp [kept]), none]

/-- Two lists of the same entries, each once and in the same strict order, are the same. -/
theorem eq_of_strictly_ordered {items' : List α} (asymm : ∀ a b, r a b → ¬ r b a) (ordered : items.Pairwise r)
    (ordered' : items'.Pairwise r) (same : ∀ a, a ∈ items ↔ a ∈ items') : items = items' := by
  have distinct : ∀ {l : List α}, l.Pairwise r → l.Nodup := by
    intro l pairs
    apply pairs.imp
    intro a b before equal
    subst equal
    exact asymm a a before before
  have perm : items.Perm items' := (List.perm_ext_iff_of_nodup (distinct ordered) (distinct ordered')).mpr same
  exact perm.eq_of_pairwise (fun a b _ _ before after => absurd after (asymm a b before)) ordered ordered'

theorem flatMap_guard (chosen : α → Bool) (f : α → β) (items : List α) :
    (items.flatMap fun a => if chosen a then [f a] else []) = (items.filter chosen).map f := by
  induction items with
  | nil => rfl
  | cons a items ih =>
    rw [List.flatMap_cons, ih, List.filter_cons]
    split <;> rfl

/-- Entries told apart by a key, chosen the same way from two lists that hold them. -/
theorem filter_perm_of_chosen {κ : Type} {key : α → κ} {items' : List α} (distinct : (items.map key).Nodup)
    (distinct' : (items'.map key).Nodup) {chosen chosen' : α → Bool}
    (same : ∀ a, a ∈ items ∧ chosen a = true ↔ a ∈ items' ∧ chosen' a = true) :
    (items.filter chosen).Perm (items'.filter chosen') := by
  refine (List.perm_ext_iff_of_nodup (distinct.of_map.filter _) (distinct'.of_map.filter _)).mpr fun a => ?_
  rw [List.mem_filter, List.mem_filter]
  exact same a

/-! ## Each entry once -/

section FirstSeen
variable [DecidableEq α] [DecidableEq β]

theorem mem_firstSeen {a : α} : a ∈ firstSeen items ↔ a ∈ items := by
  induction items with
  | nil => exact Iff.rfl
  | cons b items ih =>
    rw [firstSeen, List.mem_cons, List.mem_cons, List.mem_filter, ih]
    by_cases same : a = b
    · simp [same]
    · simp [same]

theorem firstSeen_sublist (items : List α) : (firstSeen items).Sublist items := by
  induction items with
  | nil => exact List.Sublist.slnil
  | cons a items ih => exact (List.filter_sublist.trans ih).cons_cons a

theorem firstSeen_nodup (items : List α) : (firstSeen items).Nodup := by
  induction items with
  | nil => exact List.nodup_nil
  | cons a items ih =>
    refine List.nodup_cons.mpr ⟨?_, ih.filter _⟩
    intro member
    simpa using (List.mem_filter.mp member).2

theorem firstSeen_map (f : α → β) (distinct : ∀ a ∈ items, ∀ b ∈ items, f a = f b → a = b) :
    firstSeen (items.map f) = (firstSeen items).map f := by
  induction items with
  | nil => rfl
  | cons a items ih =>
    have rest := ih fun b inB c inC => distinct b (List.mem_cons_of_mem a inB) c (List.mem_cons_of_mem a inC)
    rw [List.map_cons, firstSeen, firstSeen, List.map_cons, rest, List.filter_map]
    congr 2
    apply List.filter_congr
    intro b member
    have inside : b ∈ a :: items := List.mem_cons_of_mem a (mem_firstSeen.mp member)
    have same : f b = f a ↔ b = a := ⟨distinct b inside a List.mem_cons_self, congrArg f⟩
    simp only [Function.comp_apply, ne_eq, same]

end FirstSeen
end Oxplow.Library
