import Mathlib.Data.List.Basic

/-! Walks of a tree of named entries that skip what they drop: a file that is dropped, and a
directory that is dropped with all under it. Names are of any type. -/

namespace Oxplow.Library

inductive PathTree (ν : Type) where
  | file (name : ν)
  | dir (name : ν) (entries : List (PathTree ν))

section Walks

variable {ν : Type} (drops : List ν → Bool → Bool)

mutual

/-- The files that a walk reaches and keeps in what lies at a path. -/
def prunedEntry (place : List ν) : PathTree ν → List (List ν)
  | .file name => if drops (place ++ [name]) false then [] else [place ++ [name]]
  | .dir name entries => if drops (place ++ [name]) true then [] else prunedWalk (place ++ [name]) entries

def prunedWalk (place : List ν) : List (PathTree ν) → List (List ν)
  | [] => []
  | entry :: entries => prunedEntry place entry ++ prunedWalk place entries

end

/-- All files of a tree. -/
def treeFiles (place : List ν) (entries : List (PathTree ν)) : List (List ν) := prunedWalk (fun _ _ => false) place entries

/-- A directory on the way from one path to another, neither end counted. -/
structure Between (place dir path : List ν) : Prop where
  starts : place <+: dir
  past : dir ≠ place
  leads : dir <+: path
  short : dir ≠ path

variable {drops}

theorem between_cons {place : List ν} {name : ν} {dir path : List ν} (under : place ++ [name] <+: path) (apart : place ++ [name] ≠ path) :
    Between place dir path ↔ dir = place ++ [name] ∨ Between (place ++ [name]) dir path := by
  constructor
  · rintro ⟨⟨rest, rfl⟩, past, leads, short⟩
    cases rest with
    | nil => exact absurd (List.append_nil place) past
    | cons first rest =>
      have same : first = name := by
        obtain ⟨tail, eq⟩ := leads
        obtain ⟨tail', eq'⟩ := under
        rw [← eq'] at eq
        simp only [List.append_assoc, List.cons_append, List.append_cancel_left_eq, List.cons.injEq] at eq
        exact eq.1
      subst same
      have split : place ++ first :: rest = place ++ [first] ++ rest := by simp
      cases rest with
      | nil => exact .inl rfl
      | cons second rest =>
        refine .inr ⟨⟨second :: rest, split.symm⟩, ?_, leads, short⟩
        rw [split]
        simp
  · rintro (rfl | ⟨starts, past, leads, short⟩)
    · exact ⟨List.prefix_append place [name], by simp, under, apart⟩
    · refine ⟨(List.prefix_append place [name]).trans starts, ?_, leads, short⟩
      rintro rfl
      have longer := starts.length_le
      rw [List.length_append, List.length_singleton] at longer
      omega

mutual

theorem prunedEntry_below {place : List ν} : (entry : PathTree ν) → {path : List ν} → path ∈ prunedEntry drops place entry →
    place <+: path ∧ place ≠ path
  | .file name, path, member => by
    rw [prunedEntry] at member
    split at member
    · cases member
    · obtain rfl := List.mem_singleton.mp member
      exact ⟨List.prefix_append place [name], by simp⟩
  | .dir name entries, path, member => by
    rw [prunedEntry] at member
    split at member
    · cases member
    · obtain ⟨under, apart⟩ := prunedWalk_below entries member
      refine ⟨(List.prefix_append place [name]).trans under, ?_⟩
      rintro rfl
      have longer := under.length_le
      rw [List.length_append, List.length_singleton] at longer
      omega

theorem prunedWalk_below {place : List ν} : (entries : List (PathTree ν)) → {path : List ν} → path ∈ prunedWalk drops place entries →
    place <+: path ∧ place ≠ path
  | [], _, member => by simp [prunedWalk] at member
  | entry :: entries, path, member => by
    rw [prunedWalk, List.mem_append] at member
    obtain here | later := member
    · exact prunedEntry_below entry here
    · exact prunedWalk_below entries later

end

mutual

/-- What a walk reaches and keeps: the files it does not drop, under directories it does
not drop. -/
theorem mem_prunedEntry {place : List ν} : (entry : PathTree ν) → {path : List ν} →
    (path ∈ prunedEntry drops place entry ↔ path ∈ prunedEntry (fun _ _ => false) place entry ∧ drops path false = false ∧
      ∀ dir, Between place dir path → drops dir true = false)
  | .file name, path => by
    rw [prunedEntry, prunedEntry, if_neg Bool.false_ne_true, List.mem_singleton]
    have nothing : ∀ dir, ¬ Between place dir (place ++ [name]) := by
      rintro dir ⟨starts, past, leads, short⟩
      have above := starts.length_le
      have below := leads.length_le
      rw [List.length_append, List.length_singleton] at below
      obtain same | same : dir.length = place.length ∨ dir.length = (place ++ [name]).length := by
        rw [List.length_append, List.length_singleton]
        omega
      · exact past (starts.eq_of_length same.symm).symm
      · exact short (leads.eq_of_length same)
    constructor
    · intro member
      split at member
      · cases member
      · rename_i kept
        obtain rfl := List.mem_singleton.mp member
        exact ⟨rfl, Bool.eq_false_iff.mpr kept, fun dir between => absurd between (nothing dir)⟩
    · rintro ⟨rfl, kept, -⟩
      rw [kept, if_neg Bool.false_ne_true]
      exact List.mem_singleton.mpr rfl
  | .dir name entries, path => by
    rw [prunedEntry, prunedEntry, if_neg Bool.false_ne_true]
    constructor
    · intro member
      split at member
      · cases member
      · rename_i kept
        obtain ⟨file, own, above⟩ := (mem_prunedWalk entries).mp member
        obtain ⟨under, apart⟩ := prunedWalk_below entries file
        refine ⟨file, own, ?_⟩
        intro dir between
        obtain rfl | deeper := (between_cons under apart).mp between
        · exact Bool.eq_false_iff.mpr kept
        · exact above dir deeper
    · rintro ⟨file, own, above⟩
      obtain ⟨under, apart⟩ := prunedWalk_below entries file
      have here : drops (place ++ [name]) true = false := above _ ((between_cons under apart).mpr (.inl rfl))
      rw [here, if_neg Bool.false_ne_true]
      exact (mem_prunedWalk entries).mpr ⟨file, own, fun dir deeper => above dir ((between_cons under apart).mpr (.inr deeper))⟩

theorem mem_prunedWalk {place : List ν} : (entries : List (PathTree ν)) → {path : List ν} →
    (path ∈ prunedWalk drops place entries ↔ path ∈ prunedWalk (fun _ _ => false) place entries ∧ drops path false = false ∧
      ∀ dir, Between place dir path → drops dir true = false)
  | [], _ => by simp [prunedWalk]
  | entry :: entries, path => by
    rw [prunedWalk, prunedWalk, List.mem_append, List.mem_append, mem_prunedEntry entry, mem_prunedWalk entries, or_and_right]

end

end Walks

end Oxplow.Library
