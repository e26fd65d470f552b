import Mathlib.Data.List.Basic

/-! Patterns of segments, compared with patterns: one segment stands for any one, another for
all that are left. The segments are of any type. -/

namespace Oxplow.Library

variable {α : Type} [DecidableEq α] (one rest : α)

/-- Segment by segment: `one` is any segment, `rest` every one left. -/
def segmentsCover : List α → List α → Bool
  | [], [] => true
  | [], _ :: _ => false
  | w :: _, [] => w == rest
  | w :: want, h :: had => w == rest || ((w == one || w == h) && segmentsCover want had)

attribute [local simp] segmentsCover

variable {one rest}

theorem segmentsCover_refl (pattern : List α) : segmentsCover one rest pattern pattern = true := by
  induction pattern with
  | nil => rfl
  | cons a pattern ih => simp [ih]

variable {had : List α}

theorem segmentsCover_cons {w h : α} {want : List α} (unrest : w ≠ rest) :
    segmentsCover one rest (w :: want) (h :: had) = true ↔ (w = one ∨ w = h) ∧ segmentsCover one rest want had = true := by
  simp [unrest]

theorem segmentsCover_nil : segmentsCover one rest [] had = true ↔ had = [] := by
  cases had <;> simp

theorem segmentsCover_cons_nil {w : α} {want : List α} : segmentsCover one rest (w :: want) [] = true ↔ w = rest := by
  simp

theorem segmentsCover_rest (want had : List α) : segmentsCover one rest (rest :: want) had = true := by
  cases had <;> simp

/-- Through a pattern without `rest`, what covers is carried on. -/
theorem segmentsCover_trans {p q r : List α} (plain : rest ∉ q) (first : segmentsCover one rest p q = true)
    (second : segmentsCover one rest q r = true) : segmentsCover one rest p r = true := by
  induction q generalizing p r with
  | nil =>
    obtain rfl := segmentsCover_nil.mp second
    exact first
  | cons b q ih =>
    have unrest : b ≠ rest := fun same => plain (same ▸ List.mem_cons_self ..)
    have later : rest ∉ q := fun member => plain (List.mem_cons_of_mem _ member)
    cases r with
    | nil => exact absurd (segmentsCover_cons_nil.mp second) unrest
    | cons h had =>
      cases p with
      | nil => exact absurd (segmentsCover_nil.mp first) (List.cons_ne_nil b q)
      | cons a p =>
        by_cases everything : a = rest
        · rw [everything]
          exact segmentsCover_rest p (h :: had)
        obtain ⟨matched, restMatched⟩ := (segmentsCover_cons unrest).mp second
        obtain ⟨fits, restFits⟩ := (segmentsCover_cons everything).mp first
        refine (segmentsCover_cons everything).mpr ⟨?_, ih later restFits restMatched⟩
        rcases fits with any | rfl
        · exact .inl any
        · exact matched

theorem segmentsCover_append {x y front back : List α} (plain : rest ∉ x) (first : segmentsCover one rest x front = true)
    (second : segmentsCover one rest y back = true) : segmentsCover one rest (x ++ y) (front ++ back) = true := by
  induction x generalizing front with
  | nil =>
    obtain rfl := segmentsCover_nil.mp first
    exact second
  | cons a x ih =>
    have unrest : a ≠ rest := fun same => plain (same ▸ List.mem_cons_self ..)
    have later : rest ∉ x := fun member => plain (List.mem_cons_of_mem _ member)
    cases front with
    | nil => exact absurd (segmentsCover_cons_nil.mp first) unrest
    | cons h front =>
      obtain ⟨fits, restFits⟩ := (segmentsCover_cons unrest).mp first
      exact (segmentsCover_cons unrest).mpr ⟨fits, ih later restFits⟩

theorem segmentsCover_replicate (had : List α) : segmentsCover one rest (List.replicate had.length one) had = true := by
  induction had with
  | nil => rfl
  | cons h had ih => simp [List.replicate_succ, ih]

/-! ## A pattern spelled out -/

variable (one rest)

/-- A pattern's segments before its first `rest`, then `n` of any. -/
def spelledOut (pattern : List α) (n : Nat) : List α := pattern.takeWhile (· != rest) ++ List.replicate n one

variable {one rest}

theorem stem_plain (pattern : List α) : rest ∉ pattern.takeWhile (· != rest) := by
  intro member
  have kept := List.all_eq_true.mp List.all_takeWhile rest member
  simp at kept

variable {pattern : List α}

/-- What a pattern with a `rest` covers starts with what the segments before it cover. -/
theorem segmentsCover_iff_stem (wild : rest ∈ pattern) :
    segmentsCover one rest pattern had = true ↔
      ∃ front back, had = front ++ back ∧ segmentsCover one rest (pattern.takeWhile (· != rest)) front = true := by
  induction pattern generalizing had with
  | nil => cases wild
  | cons a pattern ih =>
    by_cases everything : a = rest
    · subst everything
      rw [List.takeWhile_cons_of_neg (by simp)]
      exact ⟨fun _ => ⟨[], had, rfl, rfl⟩, fun _ => segmentsCover_rest pattern had⟩
    have later : rest ∈ pattern := (List.mem_cons.mp wild).resolve_left (Ne.symm everything)
    rw [List.takeWhile_cons_of_pos (by simpa using everything)]
    constructor
    · intro fits
      cases had with
      | nil => exact absurd (segmentsCover_cons_nil.mp fits) everything
      | cons h had =>
        obtain ⟨first, restFits⟩ := (segmentsCover_cons everything).mp fits
        obtain ⟨front, back, rfl, inner⟩ := (ih later).mp restFits
        exact ⟨h :: front, back, rfl, (segmentsCover_cons everything).mpr ⟨first, inner⟩⟩
    · intro ⟨front, back, whole, fits⟩
      cases front with
      | nil => exact absurd (segmentsCover_cons_nil.mp fits) everything
      | cons h front =>
        obtain ⟨first, inner⟩ := (segmentsCover_cons everything).mp fits
        rw [whole, List.cons_append]
        exact (segmentsCover_cons everything).mpr ⟨first, (ih later).mpr ⟨front, back, rfl, inner⟩⟩

/-- A pattern with a `rest` covers each of its forms spelled out. -/
theorem segmentsCover_spelledOut (wild : rest ∈ pattern) (n : Nat) :
    segmentsCover one rest pattern (spelledOut one rest pattern n) = true :=
  (segmentsCover_iff_stem wild).mpr ⟨_, _, rfl, segmentsCover_refl _⟩

/-- What a pattern with a `rest` covers, one of its forms covers. -/
theorem exists_spelledOut (wild : rest ∈ pattern) (fits : segmentsCover one rest pattern had = true) :
    ∃ n, segmentsCover one rest (spelledOut one rest pattern n) had = true := by
  obtain ⟨front, back, rfl, inner⟩ := (segmentsCover_iff_stem wild).mp fits
  exact ⟨back.length, segmentsCover_append (stem_plain pattern) inner (segmentsCover_replicate back)⟩

theorem spelledOut_plain (apart : one ≠ rest) (pattern : List α) (n : Nat) : rest ∉ spelledOut one rest pattern n := by
  intro member
  rcases List.mem_append.mp member with inside | inside
  · exact stem_plain pattern inside
  · exact apart (List.eq_of_mem_replicate inside).symm

end Oxplow.Library
