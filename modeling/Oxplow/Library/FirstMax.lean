import Oxplow.Library.Maps
import Oxplow.Library.Ordered

/-! The first of the greatest in a list, over any measure, kept for each key in a map; and lists
sorted by a key, as their classes of equal keys decide them. -/

namespace Oxplow.Library

variable {α β κ : Type}

section Measured

variable (size : α → Nat)

/-- The later one only when it is greater. -/
def better : Option α → Option α → Option α
  | none, b => b
  | some a, none => some a
  | some a, some b => if size a < size b then some b else some a

def firstMax (items : List α) : Option α := items.foldl (fun best a => better size best (some a)) none

variable {size}

@[simp] theorem better_none (a : Option α) : better size a none = a := by
  cases a <;> rfl

@[simp] theorem none_better (a : Option α) : better size none a = a := rfl

theorem better_assoc (a b c : Option α) : better size (better size a b) c = better size a (better size b c) := by
  rcases a with _ | a
  · rfl
  rcases b with _ | b
  · rfl
  rcases c with _ | c
  · simp
  by_cases first : size a < size b
  · by_cases second : size b < size c
    · have both : size a < size c := Nat.lt_trans first second
      simp [better, first, second, both]
    · simp [better, first, second]
  · by_cases second : size b < size c
    · simp [better, first, second]
    · have neither : ¬ size a < size c := by omega
      simp [better, first, second, neither]

theorem foldl_better (best : Option α) (items : List α) :
    items.foldl (fun best a => better size best (some a)) best = better size best (firstMax size items) := by
  induction items generalizing best with
  | nil => simp [firstMax]
  | cons a items ih =>
    rw [firstMax, List.foldl_cons, List.foldl_cons, ih, ih, better_assoc, none_better]

theorem firstMax_cons (a : α) (items : List α) : firstMax size (a :: items) = better size (some a) (firstMax size items) := by
  rw [firstMax, List.foldl_cons, foldl_better, none_better]

theorem firstMax_append (items others : List α) :
    firstMax size (items ++ others) = better size (firstMax size items) (firstMax size others) := by
  rw [firstMax, List.foldl_append, foldl_better]
  rfl

/-- The first greatest of lists one after the other is that of their first greatest. -/
theorem firstMax_flatMap (f : β → List α) (groups : List β) :
    firstMax size (groups.flatMap f) = firstMax size (groups.filterMap fun g => firstMax size (f g)) := by
  induction groups with
  | nil => rfl
  | cons g groups ih =>
    rw [List.flatMap_cons, firstMax_append, ih, List.filterMap_cons]
    cases found : firstMax size (f g) with
    | none => rfl
    | some a => rw [firstMax_cons]

variable {items : List α}

theorem firstMax_eq_none : firstMax size items = none ↔ items = [] := by
  cases items with
  | nil => simp [firstMax]
  | cons a items =>
    rw [firstMax_cons]
    cases firstMax size items with
    | none => simp
    | some b =>
      simp only [better]
      split <;> simp

variable {a : α}

theorem mem_of_firstMax (found : firstMax size items = some a) : a ∈ items := by
  induction items generalizing a with
  | nil => cases found
  | cons b items ih =>
    rw [firstMax_cons] at found
    cases later : firstMax size items with
    | none =>
      rw [later, better_none] at found
      cases found
      exact List.mem_cons_self ..
    | some c =>
      rw [later, better] at found
      split at found
      · cases found
        exact List.mem_cons_of_mem _ (ih later)
      · cases found
        exact List.mem_cons_self ..

theorem le_firstMax {b : α} (found : firstMax size items = some a) (member : b ∈ items) : size b ≤ size a := by
  induction items generalizing a with
  | nil => cases member
  | cons c items ih =>
    rw [firstMax_cons] at found
    cases later : firstMax size items with
    | none =>
      rw [later, better_none] at found
      cases found
      rw [firstMax_eq_none.mp later, List.mem_singleton] at member
      rw [member]
    | some d =>
      rw [later, better] at found
      rcases List.mem_cons.mp member with rfl | rest
      · split at found <;> cases found <;> omega
      · have below := ih later rest
        split at found <;> cases found <;> omega

/-- What the greatest measure is does not depend on the order. -/
theorem firstMax_size_perm {others : List α} (perm : items.Perm others) :
    (firstMax size items).map size = (firstMax size others).map size := by
  cases first : firstMax size items with
  | none =>
    have empty := firstMax_eq_none.mp first
    rw [empty] at perm
    rw [List.nil_perm.mp perm]
    rfl
  | some a =>
    cases second : firstMax size others with
    | none =>
      have empty := firstMax_eq_none.mp second
      rw [empty, List.perm_nil] at perm
      rw [perm] at first
      cases first
    | some b =>
      have below := le_firstMax first (perm.mem_iff.mpr (mem_of_firstMax second))
      have above := le_firstMax second (perm.mem_iff.mp (mem_of_firstMax first))
      rw [Option.map_some, Option.map_some, Nat.le_antisymm above below]

/-- The one after which nothing is greater, and before which everything is less. -/
theorem firstMax_middle {before after : List α} (less : ∀ b ∈ before, size b < size a) (most : ∀ b ∈ after, size b ≤ size a) :
    firstMax size (before ++ a :: after) = some a := by
  have rest : firstMax size (a :: after) = some a := by
    rw [firstMax_cons]
    cases later : firstMax size after with
    | none => rfl
    | some b => exact if_neg (Nat.not_lt_of_le (most b (mem_of_firstMax later)))
  rw [firstMax_append, rest]
  cases early : firstMax size before with
  | none => rfl
  | some b => exact if_pos (less b (mem_of_firstMax early))

end Measured

/-! ## Sorted by a key -/

section Keyed

variable [LinearOrder κ] (key : α → κ)

variable {items : List α}

/-- Two lists in the order of their keys are one, when they hold the same of each key in the same order. -/
theorem eq_of_classes {others : List α} (ordered : items.Pairwise fun a b => key a ≤ key b)
    (ordered' : others.Pairwise fun a b => key a ≤ key b)
    (same : ∀ k, items.filter (fun a => key a = k) = others.filter fun a => key a = k) : items = others := by
  induction items generalizing others with
  | nil =>
    cases others with
    | nil => rfl
    | cons b others =>
      have none := same (key b)
      rw [List.filter_cons_of_pos (by simp)] at none
      cases none
  | cons a items ih =>
    cases others with
    | nil =>
      have none := same (key a)
      rw [List.filter_cons_of_pos (by simp)] at none
      cases none
    | cons b others =>
      obtain ⟨least, rest⟩ := List.pairwise_cons.mp ordered
      obtain ⟨least', rest'⟩ := List.pairwise_cons.mp ordered'
      have there : a ∈ b :: others := by
        have member : a ∈ (a :: items).filter fun c => key c = key a := List.mem_filter.mpr ⟨List.mem_cons_self .., by simp⟩
        rw [same] at member
        exact (List.mem_filter.mp member).1
      have here : b ∈ a :: items := by
        have member : b ∈ (b :: others).filter fun c => key c = key b := List.mem_filter.mpr ⟨List.mem_cons_self .., by simp⟩
        rw [← same] at member
        exact (List.mem_filter.mp member).1
      have below : key b ≤ key a := by
        rcases List.mem_cons.mp there with rfl | later
        · exact le_refl _
        · exact least' a later
      have above : key a ≤ key b := by
        rcases List.mem_cons.mp here with rfl | later
        · exact le_refl _
        · exact least b later
      have equal : key b = key a := le_antisymm below above
      have heads := same (key a)
      rw [List.filter_cons_of_pos (by simp), List.filter_cons_of_pos (by simpa using equal)] at heads
      obtain ⟨rfl, -⟩ := List.cons.inj heads
      congr 1
      apply ih rest rest'
      intro k
      have classes := same k
      by_cases own : key a = k
      · rw [List.filter_cons_of_pos (by simpa using own), List.filter_cons_of_pos (by simpa using own)] at classes
        exact (List.cons.inj classes).2
      · rwa [List.filter_cons_of_neg (by simpa using own), List.filter_cons_of_neg (by simpa using own)] at classes

theorem filter_sorted_class (items : List α) (k : κ) :
    (items.insertionSort fun a b => key a ≤ key b).filter (fun a => key a = k) = items.filter fun a => key a = k := by
  have : IsTrans α fun a b => key a ≤ key b := ⟨fun _ _ _ first second => le_trans first second⟩
  have : Std.Total fun a b : α => key a ≤ key b := ⟨fun a b => le_total (key a) (key b)⟩
  rw [filter_insertionSort]
  apply List.Pairwise.insertionSort_eq
  apply List.pairwise_of_forall_mem_list
  intro a first b second
  have left : key a = k := by simpa using (List.mem_filter.mp first).2
  have right : key b = k := by simpa using (List.mem_filter.mp second).2
  rw [left, right]

theorem pairwise_sorted (items : List α) :
    (items.insertionSort fun a b => key a ≤ key b).Pairwise fun a b => key a ≤ key b := by
  have : IsTrans α fun a b => key a ≤ key b := ⟨fun _ _ _ first second => le_trans first second⟩
  have : Std.Total fun a b : α => key a ≤ key b := ⟨fun a b => le_total (key a) (key b)⟩
  exact List.pairwise_insertionSort _ _

/-- Sorting gives one list when the things of each key come in one order. -/
theorem sorted_eq_of_classes {others : List α} (same : ∀ k, items.filter (fun a => key a = k) = others.filter fun a => key a = k) :
    (items.insertionSort fun a b => key a ≤ key b) = others.insertionSort fun a b => key a ≤ key b := by
  apply eq_of_classes key (pairwise_sorted key items) (pairwise_sorted key others)
  intro k
  rw [filter_sorted_class, filter_sorted_class, same]

/-- Every arrangement of a list is sorted to one list just when things of one key are equal. -/
theorem sorted_unique_iff :
    (∀ others : List α, others.Perm items →
        (others.insertionSort fun a b => key a ≤ key b) = items.insertionSort fun a b => key a ≤ key b) ↔
      ∀ a ∈ items, ∀ b ∈ items, key a = key b → a = b := by
  have front {a : α} (member : a ∈ items) : ∃ rest, (a :: rest).Perm items := by
    obtain ⟨before, after, rfl⟩ := List.append_of_mem member
    exact ⟨before ++ after, List.perm_middle.symm⟩
  constructor
  · intro unique a first b second equal
    obtain ⟨rest, perm⟩ := front first
    obtain ⟨rest', perm'⟩ := front second
    have one := congrArg (List.filter fun c => key c = key a) ((unique _ perm).trans (unique _ perm').symm)
    rw [filter_sorted_class, filter_sorted_class, List.filter_cons_of_pos (by simp),
      List.filter_cons_of_pos (by simp [equal])] at one
    exact (List.cons.inj one).1
  · intro single others perm
    apply sorted_eq_of_classes key
    intro k
    have classes := perm.filter fun a => key a = k
    have alike : ∀ a b, a ∈ others.filter (fun a => key a = k) → b ∈ items.filter (fun a => key a = k) → True → True → a = b := by
      intro a b first second _ _
      obtain ⟨here, left⟩ := List.mem_filter.mp first
      obtain ⟨there, right⟩ := List.mem_filter.mp second
      have left : key a = k := by simpa using left
      have right : key b = k := by simpa using right
      exact single a (perm.mem_iff.mp here) b there (left.trans right.symm)
    exact List.Perm.eq_of_pairwise alike (List.pairwise_of_forall_mem_list fun _ _ _ _ => trivial)
      (List.pairwise_of_forall_mem_list fun _ _ _ _ => trivial) classes

end Keyed

/-! ## Arrangements -/

/-- An arrangement of what a list is mapped to is mapped from one of the list. -/
theorem exists_map_perm {f : α → β} {items : List α} {arranged : List β} (perm : arranged.Perm (items.map f)) :
    ∃ others : List α, others.Perm items ∧ others.map f = arranged := by
  induction items generalizing arranged with
  | nil => exact ⟨[], .nil, (List.perm_nil.mp perm).symm⟩
  | cons a items ih =>
    have member : f a ∈ arranged := perm.mem_iff.mpr (List.mem_cons_self ..)
    obtain ⟨before, after, rfl⟩ := List.append_of_mem member
    obtain ⟨others, rest, same⟩ := ih ((List.perm_middle.symm.trans perm).cons_inv)
    obtain ⟨front, back, rfl, rfl, rfl⟩ := List.map_eq_append_iff.mp same
    exact ⟨front ++ a :: back, (List.perm_middle.trans (rest.cons a)), by simp⟩

/-- What two neighbours changing places keeps, every arrangement keeps. -/
theorem related_of_swaps {base : List α} {P : List α → List α → Prop} (refl : ∀ items, P items items)
    (trans : ∀ x y z, P x y → P y z → P x z)
    (swap : ∀ before a b after, (before ++ a :: b :: after).Perm base → P (before ++ a :: b :: after) (before ++ b :: a :: after))
    {items others : List α} (perm : items.Perm others) (whole : items.Perm base) : P items others := by
  have prefixed : ∀ before : List α, (before ++ items).Perm base → P (before ++ items) (before ++ others) := by
    clear whole
    induction perm with
    | nil => exact fun before _ => refl _
    | cons a _ ih =>
      intro before whole
      have moved := ih (before ++ [a]) (by simpa using whole)
      simpa using moved
    | swap a b rest => exact fun before whole => swap before b a rest whole
    | trans first _ ih ih' =>
      intro before whole
      exact trans _ _ _ (ih before whole) (ih' before ((first.append_left before).symm.trans whole))
  exact prefixed [] whole

end Oxplow.Library
