import Mathlib.Data.List.Perm.Basic
import Mathlib.Data.List.Dedup
import Mathlib.Data.List.Sort

/-! Entries put into buckets, and the buckets emptied one after the other: every
entry comes out once. -/

namespace Oxplow.Library

variable {α κ : Type}

/-- The entries that have a key, each under its key, in the order of the keys. -/
def buckets [LinearOrder κ] (key : α → Option κ) (items : List α) : List (κ × List α) :=
  ((items.filterMap key).dedup.insertionSort (· ≤ ·)).map fun k => (k, items.filter (key · = some k))

/-- Each entry once, where it came first. -/
def firstSeen [DecidableEq α] : List α → List α
  | [] => []
  | a :: items => a :: (firstSeen items).filter (· ≠ a)

theorem filter_or_perm {p q : α → Bool} (apart : ∀ a, p a = true → q a = false) (items : List α) :
    (items.filter p ++ items.filter q).Perm (items.filter (fun a => p a || q a)) := by
  have first : (items.filter (fun a => p a || q a)).filter p = items.filter p := by
    rw [List.filter_filter]
    apply List.filter_congr
    intro a _
    cases p a <;> simp
  have second : (items.filter (fun a => p a || q a)).filter (fun a => !p a) = items.filter q := by
    rw [List.filter_filter]
    apply List.filter_congr
    intro a _
    cases holds : p a
    · simp
    · simp [apart a holds]
  have parts := List.filter_append_perm p (items.filter (fun a => p a || q a))
  rwa [first, second] at parts

section
variable [DecidableEq κ]

variable {keys : List κ}

/-- Emptying the buckets of distinct keys gives the entries of those keys. -/
theorem flatMap_filter_perm (key : α → κ) (distinct : keys.Nodup) (items : List α) :
    (keys.flatMap (fun k => items.filter (key · = k))).Perm (items.filter (key · ∈ keys)) := by
  induction keys with
  | nil => simp
  | cons k keys ih =>
    have fresh := (List.nodup_cons.mp distinct).1
    have apart : ∀ a, decide (key a = k) = true → decide (key a ∈ keys) = false := by
      intro a same
      have same : key a = k := by simpa using same
      simpa [same] using fresh
    have parts := filter_or_perm apart items
    rw [List.flatMap_cons]
    refine ((List.Perm.append_left _ (ih distinct.of_cons)).trans parts).trans (List.Perm.of_eq ?_)
    apply List.filter_congr
    intro a _
    simp

/-- Where the keys cover every entry, every entry comes out once. -/
theorem flatMap_filter_perm_of_cover (key : α → κ) (distinct : keys.Nodup) {items : List α} (cover : ∀ a ∈ items, key a ∈ keys) :
    (keys.flatMap (fun k => items.filter (key · = k))).Perm items := by
  have whole : items.filter (key · ∈ keys) = items :=
    List.filter_eq_self.mpr (fun a member => by simpa using cover a member)
  simpa only [whole] using flatMap_filter_perm key distinct items

/-- Of the results of distinct keys, those at one key are that key's result. -/
theorem filter_filterMap_of_key (f : κ → Option α) (key : α → κ) (carries : ∀ k a, f k = some a → key a = k)
    (distinct : keys.Nodup) (k : κ) : (keys.filterMap f).filter (key · = k) = if k ∈ keys then (f k).toList else [] := by
  induction keys with
  | nil => simp
  | cons other keys ih =>
    have rest := ih distinct.of_cons
    have fresh := (List.nodup_cons.mp distinct).1
    cases result : f other with
    | none =>
      rw [List.filterMap_cons_none result, rest]
      by_cases same : k = other
      · subst same
        simp [fresh, result]
      · simp [same]
    | some a =>
      have at_other := carries other a result
      rw [List.filterMap_cons_some result, List.filter_cons, rest, at_other]
      by_cases same : other = k
      · subst same
        simp [fresh, result]
      · have differ : k ≠ other := fun eq => same eq.symm
        simp [same, differ]

end

/-! ## Buckets in order -/

variable {β : Type} [LinearOrder κ]

/-- Buckets of the images are the images of the buckets. -/
theorem buckets_map (f : β → α) (key : α → Option κ) (items : List β) :
    buckets key (items.map f) = (buckets (key ∘ f) items).map fun bucket => (bucket.1, bucket.2.map f) := by
  simp only [buckets, List.filterMap_map, List.filter_map, List.map_map, Function.comp_def]

variable {items : List α}

theorem buckets_congr {key key' : α → Option κ} (same : ∀ a ∈ items, key a = key' a) :
    buckets key items = buckets key' items := by
  unfold buckets
  rw [List.filterMap_congr same]
  apply List.map_congr_left
  intro k _
  have kept : items.filter (key · = some k) = items.filter (key' · = some k) :=
    List.filter_congr fun a member => by rw [same a member]
  rw [kept]

/-- What is made of each bucket whatever the order of its entries is made whatever the order
of all the entries. -/
theorem buckets_filterMap_perm {γ : Type} (key : α → Option κ) (make : κ × List α → Option γ)
    (same : ∀ k entries entries', entries.Perm entries' → make (k, entries) = make (k, entries')) {items' : List α}
    (perm : items.Perm items') : (buckets key items).filterMap make = (buckets key items').filterMap make := by
  have keys : (items.filterMap key).dedup.insertionSort (· ≤ ·) = (items'.filterMap key).dedup.insertionSort (· ≤ ·) := by
    apply List.Perm.eq_of_sortedLE List.sortedLE_insertionSort List.sortedLE_insertionSort
    exact (List.perm_insertionSort _ _).trans (((perm.filterMap key).dedup).trans (List.perm_insertionSort _ _).symm)
  unfold buckets
  rw [keys, List.filterMap_map, List.filterMap_map]
  apply List.filterMap_congr
  intro k _
  exact same k _ _ (perm.filter _)

theorem mem_buckets {key : α → Option κ} {bucket : κ × List α} :
    bucket ∈ buckets key items ↔ bucket.2 = items.filter (key · = some bucket.1) ∧ bucket.2 ≠ [] := by
  unfold buckets
  simp only [List.mem_map, List.mem_insertionSort, List.mem_dedup, List.mem_filterMap]
  constructor
  · rintro ⟨k, ⟨a, member, at_k⟩, rfl⟩
    exact ⟨rfl, List.ne_nil_of_mem (List.mem_filter.mpr ⟨member, by simpa using at_k⟩)⟩
  · rintro ⟨entries, nonempty⟩
    obtain ⟨a, inside⟩ := List.exists_mem_of_ne_nil _ nonempty
    rw [entries] at inside
    obtain ⟨member, at_k⟩ := List.mem_filter.mp inside
    exact ⟨bucket.1, ⟨a, member, by simpa using at_k⟩, Prod.ext rfl entries.symm⟩

end Oxplow.Library
