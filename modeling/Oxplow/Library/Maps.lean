import Std.Data.ExtTreeMap
import Mathlib.Data.List.Nodup

/-! A map that lists its entries in the order their keys came. -/

namespace Oxplow.Library

structure InsertionMap (κ ρ : Type) where
  entries : List (κ × ρ)
  distinct : (entries.map (·.1)).Nodup

namespace InsertionMap

variable {κ ρ : Type} [DecidableEq κ] {m : InsertionMap κ ρ} {key other : κ} {row : ρ}

def empty : InsertionMap κ ρ := ⟨[], List.nodup_nil⟩

def get (m : InsertionMap κ ρ) (key : κ) : Option ρ := List.lookup key m.entries

theorem get_eq_some : m.get key = some row ↔ (key, row) ∈ m.entries := by
  obtain ⟨entries, distinct⟩ := m
  change List.lookup key entries = some row ↔ (key, row) ∈ entries
  induction entries with
  | nil => simp
  | cons entry entries ih =>
    obtain ⟨fresh, distinct⟩ := List.nodup_cons.mp distinct
    have rest := ih distinct
    rw [List.lookup_cons, List.mem_cons]
    obtain ⟨first, value⟩ := entry
    by_cases same : key = first
    · subst same
      have absent : (key, row) ∉ entries := fun member => fresh (List.mem_map.mpr ⟨_, member, rfl⟩)
      simp [absent, eq_comm]
    · have differ : (key == first) = false := by simpa using same
      simp [differ, rest, same]

/-- A key that is there keeps its place. -/
def set (m : InsertionMap κ ρ) (key : κ) (row : ρ) : InsertionMap κ ρ where
  entries := if key ∈ m.entries.map (·.1) then m.entries.map fun e => if e.1 = key then (key, row) else e else m.entries ++ [(key, row)]
  distinct := by
    split
    · have kept : (m.entries.map fun e => if e.1 = key then (key, row) else e).map (·.1) = m.entries.map (·.1) := by
        rw [List.map_map]
        apply List.map_congr_left
        intro e _
        by_cases same : e.1 = key <;> simp [same]
      rw [kept]
      exact m.distinct
    · rename_i fresh
      rw [List.map_append, List.map_cons, List.map_nil]
      refine List.nodup_append.mpr ⟨m.distinct, List.nodup_singleton key, ?_⟩
      intro a here b there same
      rw [List.mem_singleton] at there
      rw [same, there] at here
      exact fresh here

def delete (m : InsertionMap κ ρ) (key : κ) : InsertionMap κ ρ where
  entries := m.entries.filter (·.1 ≠ key)
  distinct := m.distinct.sublist (List.filter_sublist.map _)

@[simp] theorem get_empty : (empty : InsertionMap κ ρ).get key = none := rfl

theorem get_set : (m.set key row).get other = if other = key then some row else m.get other := by
  apply Option.ext
  intro found
  rw [get_eq_some]
  change (other, found) ∈ (if _ then _ else _) ↔ _
  by_cases same : other = key
  · subst same
    rw [if_pos rfl]
    split
    · rename_i there
      obtain ⟨e, member, here⟩ := List.mem_map.mp there
      constructor
      · intro inside
        obtain ⟨e', _, moved⟩ := List.mem_map.mp inside
        by_cases own : e'.1 = other
        · rw [if_pos own] at moved
          simp [(Prod.mk.inj moved).2]
        · rw [if_neg own] at moved
          exact absurd (congrArg Prod.fst moved) own
      · intro same
        exact List.mem_map.mpr ⟨e, member, by simp [here, Option.some.inj same]⟩
    · rename_i fresh
      have absent : (other, found) ∉ m.entries := fun member => fresh (List.mem_map_of_mem member)
      simp [absent, eq_comm]
  · rw [if_neg same, get_eq_some]
    split
    · constructor
      · intro inside
        obtain ⟨e, member, moved⟩ := List.mem_map.mp inside
        by_cases own : e.1 = key
        · rw [if_pos own] at moved
          exact absurd (congrArg Prod.fst moved).symm same
        · rw [if_neg own] at moved
          exact moved ▸ member
      · intro member
        exact List.mem_map.mpr ⟨_, member, if_neg same⟩
    · simp [same]

theorem get_delete : (m.delete key).get other = if other = key then none else m.get other := by
  apply Option.ext
  intro found
  rw [get_eq_some]
  change (other, found) ∈ List.filter _ _ ↔ _
  rw [List.mem_filter]
  by_cases same : other = key
  · simp [same]
  · rw [if_neg same, get_eq_some]
    simp [same]

end InsertionMap

end Oxplow.Library

/-! Tree maps, by what they hold at each key. -/

namespace Oxplow.Library.TreeMaps

variable {κ ρ : Type} {cmp : κ → κ → Ordering} [Std.TransCmp cmp] [Std.LawfulEqCmp cmp] [DecidableEq κ]

theorem get_insert (map : Std.ExtTreeMap κ ρ cmp) (key other : κ) (row : ρ) :
    (map.insert key row)[other]? = if key = other then some row else map[other]? := by
  rw [Std.ExtTreeMap.getElem?_insert]
  by_cases same : key = other
  · rw [if_pos same, if_pos (Std.LawfulEqCmp.compare_eq_iff_eq.mpr same)]
  · rw [if_neg same, if_neg fun alike => same (Std.LawfulEqCmp.eq_of_compare alike)]

theorem get_erase (map : Std.ExtTreeMap κ ρ cmp) (key other : κ) : (map.erase key)[other]? = if key = other then none else map[other]? := by
  rw [Std.ExtTreeMap.getElem?_erase]
  by_cases same : key = other
  · rw [if_pos same, if_pos (Std.LawfulEqCmp.compare_eq_iff_eq.mpr same)]
  · rw [if_neg same, if_neg fun alike => same (Std.LawfulEqCmp.eq_of_compare alike)]

/-- Erasing keys one after the other. -/
theorem get_eraseAll (keys : List κ) (map : Std.ExtTreeMap κ ρ cmp) (other : κ) :
    (keys.foldl (fun map key => map.erase key) map)[other]? = if other ∈ keys then none else map[other]? := by
  induction keys generalizing map with
  | nil => simp
  | cons key keys ih =>
    rw [List.foldl_cons, ih, get_erase]
    by_cases later : other ∈ keys
    · simp [later]
    · simp [later, eq_comm]

end Oxplow.Library.TreeMaps
