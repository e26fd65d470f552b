import Mathlib.Data.List.Perm.Basic

/-! Items in layers, each item in a later layer than those it needs. Such layers exist when no
item needs itself through others, and peeling off what needs nothing left finds them. -/

namespace Oxplow.Library

variable {α : Type} {needs : α → List α} {items : List α}

/-- An item needs another of them. -/
def Needs (needs : α → List α) (items : List α) (a b : α) : Prop := b ∈ needs a ∧ b ∈ items

/-- No item needs itself, through others or directly. -/
def Acyclic (needs : α → List α) (items : List α) : Prop := ∀ a ∈ items, ¬ Relation.TransGen (Needs needs items) a a

theorem Acyclic.mono {fewer : List α} (acyclic : Acyclic needs items) (part : fewer ⊆ items) : Acyclic needs fewer := by
  intro a member cycle
  have wider : ∀ x y, Needs needs fewer x y → Needs needs items x y := fun _ _ needed => ⟨needed.1, part needed.2⟩
  exact acyclic a (part member) (Relation.TransGen.mono wider a a cycle)

/-- What ranks each item above those it needs shows that there is no cycle. -/
theorem acyclic_of_rank (rank : α → Nat) (falls : ∀ a ∈ items, ∀ b ∈ items, b ∈ needs a → rank b < rank a) : Acyclic needs items := by
  intro a member cycle
  have below : ∀ b, Relation.TransGen (Needs needs items) a b → b ∈ items ∧ rank b < rank a := by
    intro b path
    induction path with
    | single needed => exact ⟨needed.2, falls a member _ needed.2 needed.1⟩
    | tail _ needed ih => exact ⟨needed.2, Nat.lt_trans (falls _ ih.1 _ needed.2 needed.1) ih.2⟩
  exact Nat.lt_irrefl _ (below a cycle).2

/-- Of some items that a transitive relation takes none back to itself, one leads to no other. -/
theorem exists_last {r : α → α → Prop} (trans : ∀ {a b c}, r a b → r b c → r a c) (irrefl : ∀ a ∈ items, ¬ r a a)
    (some : items ≠ []) : ∃ a ∈ items, ∀ b ∈ items, ¬ r a b := by
  induction items with
  | nil => exact absurd rfl some
  | cons first rest ih =>
    have firstIrrefl := irrefl first List.mem_cons_self
    by_cases alone : rest = []
    · refine ⟨first, List.mem_cons_self, fun b member => ?_⟩
      rw [alone] at member
      rw [List.mem_singleton.mp member]
      exact firstIrrefl
    obtain ⟨a, member, last⟩ := ih (fun a member => irrefl a (List.mem_cons_of_mem _ member)) alone
    by_cases leads : r a first
    · -- then `first` leads to nothing that `a` doesn't
      refine ⟨first, List.mem_cons_self, fun b inside onward => ?_⟩
      rcases List.mem_cons.mp inside with rfl | later
      · exact firstIrrefl onward
      · exact last b later (trans leads onward)
    · refine ⟨a, List.mem_cons_of_mem _ member, fun b inside onward => ?_⟩
      rcases List.mem_cons.mp inside with rfl | later
      · exact leads onward
      · exact last b later onward

/-- Some item needs none of the others. -/
theorem Acyclic.exists_free (acyclic : Acyclic needs items) (some : items ≠ []) : ∃ a ∈ items, ∀ b ∈ needs a, b ∉ items := by
  obtain ⟨a, member, last⟩ := exists_last (fun first second => first.trans second) acyclic some
  exact ⟨a, member, fun b needed inside => last b inside (.single ⟨needed, inside⟩)⟩

/-! ## Layers -/

/-- Each layer is all of what is left that some choice takes, and needs nothing left. -/
inductive Layered (needs : α → List α) : List α → List (List α) → Prop where
  | nil : Layered needs [] []
  | cons {items : List α} {layers : List (List α)} (takes : α → Bool) (free : ∀ a ∈ items.filter takes, ∀ b ∈ needs a, b ∉ items)
      (rest : Layered needs (items.filter fun a => !takes a) layers) : Layered needs items (items.filter takes :: layers)

namespace Layered
variable {layers : List (List α)}

theorem perm (layered : Layered needs items layers) : layers.flatten.Perm items := by
  induction layered with
  | nil => exact .nil
  | cons takes _ _ ih =>
    rw [List.flatten_cons]
    exact (ih.append_left _).trans (List.filter_append_perm _ _)

variable {a : α}

theorem mem_iff (layered : Layered needs items layers) : a ∈ items ↔ ∃ layer ∈ layers, a ∈ layer := by
  rw [← layered.perm.mem_iff, List.mem_flatten]

/-- No item is in two layers. -/
theorem apart (layered : Layered needs items layers) : layers.Pairwise List.Disjoint := by
  induction layered with
  | nil => exact .nil
  | cons takes _ rest ih =>
    refine List.pairwise_cons.mpr ⟨fun layer member a inside inside' => ?_, ih⟩
    have left := (List.mem_filter.mp (rest.mem_iff.mpr ⟨layer, member, inside'⟩)).2
    rw [(List.mem_filter.mp inside).2] at left
    cases left

/-- What an item needs is in no layer from its own on. -/
theorem ordered (layered : Layered needs items layers) :
    layers.Pairwise (fun layer later => ∀ a ∈ layer, ∀ b ∈ needs a, b ∉ later) ∧ ∀ layer ∈ layers, ∀ a ∈ layer, ∀ b ∈ needs a, b ∉ layer := by
  induction layered with
  | nil => exact ⟨.nil, fun _ none => absurd none List.not_mem_nil⟩
  | cons takes free rest ih =>
    constructor
    · refine List.pairwise_cons.mpr ⟨fun later member a inside b needed inside' => ?_, ih.1⟩
      exact free a inside b needed (List.mem_filter.mp (rest.mem_iff.mpr ⟨later, member, inside'⟩)).1
    · intro layer member a inside b needed inside'
      rcases List.mem_cons.mp member with rfl | later
      · exact free a inside b needed (List.mem_filter.mp inside').1
      · exact ih.2 layer later a inside b needed inside'

/-- Each item is in one layer. -/
theorem exists_unique (layered : Layered needs items layers) (member : a ∈ items) :
    ∃! i : Nat, ∃ layer, layers[i]? = some layer ∧ a ∈ layer := by
  obtain ⟨layer, inside, there⟩ := layered.mem_iff.mp member
  obtain ⟨i, found⟩ := List.mem_iff_getElem?.mp inside
  refine ⟨i, ⟨layer, found, there⟩, ?_⟩
  intro j ⟨other, found', there'⟩
  obtain ⟨bound, here⟩ := List.getElem?_eq_some_iff.mp found
  obtain ⟨bound', here'⟩ := List.getElem?_eq_some_iff.mp found'
  have separate := List.pairwise_iff_getElem.mp layered.apart
  rcases Nat.lt_trichotomy j i with before | same | after
  · exact absurd (here ▸ there) (separate j i bound' bound before (here' ▸ there'))
  · exact same
  · exact absurd (here' ▸ there') (separate i j bound bound' after (here ▸ there))

/-- An item is in a later layer than one that it needs. -/
theorem lt_of_needs (layered : Layered needs items layers) {i j : Nat} {layer layer' : List α} (found : layers[i]? = some layer)
    (found' : layers[j]? = some layer') {b : α} (inside : a ∈ layer) (inside' : b ∈ layer') (needed : b ∈ needs a) : j < i := by
  obtain ⟨bound, here⟩ := List.getElem?_eq_some_iff.mp found
  obtain ⟨bound', here'⟩ := List.getElem?_eq_some_iff.mp found'
  by_contra from_
  rcases Nat.eq_or_lt_of_le (Nat.le_of_not_lt from_) with same | after
  · subst same
    obtain rfl := Option.some.inj (found.symm.trans found')
    exact layered.ordered.2 layer (List.mem_of_getElem? found) a inside b needed inside'
  · exact List.pairwise_iff_getElem.mp layered.ordered.1 i j bound bound' after a (here ▸ inside) b needed (here' ▸ inside')

end Layered
end Oxplow.Library
