import Mathlib.Data.List.Basic

/-! A text cut at the first of a separator, and its parts put together again. -/

namespace Oxplow.Library

variable {α : Type} [DecidableEq α]

/-- What is before the first `sep` and what is after it. -/
def splitOnce (sep : α) : List α → Option (List α × List α)
  | [] => none
  | a :: rest => if a = sep then some ([], rest) else (splitOnce sep rest).map fun parts => (a :: parts.1, parts.2)

attribute [local simp] splitOnce

variable {sep : α} {text : List α}

theorem splitOnce_of_not_mem (absent : sep ∉ text) : splitOnce sep text = none := by
  induction text with
  | nil => rfl
  | cons a rest ih =>
    have differ : a ≠ sep := fun same => absent (same ▸ List.mem_cons_self ..)
    have later : sep ∉ rest := fun member => absent (List.mem_cons_of_mem _ member)
    rw [splitOnce, if_neg differ, ih later, Option.map_none]

variable {front : List α}

theorem splitOnce_append (absent : sep ∉ front) (rest : List α) : splitOnce sep (front ++ sep :: rest) = some (front, rest) := by
  induction front with
  | nil => simp [splitOnce]
  | cons a front ih =>
    have differ : a ≠ sep := fun same => absent (same ▸ List.mem_cons_self ..)
    have later : sep ∉ front := fun member => absent (List.mem_cons_of_mem _ member)
    rw [List.cons_append, splitOnce, if_neg differ, ih later, Option.map_some]

/-- The parts are the text's, and the first has no separator. -/
theorem splitOnce_eq_some {rest : List α} (cut : splitOnce sep text = some (front, rest)) :
    text = front ++ sep :: rest ∧ sep ∉ front := by
  induction text generalizing front with
  | nil => simp [splitOnce] at cut
  | cons a text ih =>
    by_cases same : a = sep
    · rw [splitOnce, if_pos same] at cut
      obtain ⟨rfl, rfl⟩ := Prod.mk.inj (Option.some.inj cut)
      exact ⟨by rw [same, List.nil_append], List.not_mem_nil⟩
    · rw [splitOnce, if_neg same] at cut
      obtain ⟨parts, found, whole⟩ := Option.map_eq_some_iff.mp cut
      obtain ⟨rfl, rfl⟩ := Prod.mk.inj whole
      obtain ⟨joined, absent⟩ := ih found
      refine ⟨by rw [joined, List.cons_append], fun member => ?_⟩
      rcases List.mem_cons.mp member with here | later
      · exact same here.symm
      · exact absent later

theorem splitOnce_eq_none : splitOnce sep text = none ↔ sep ∉ text := by
  refine ⟨fun uncut member => ?_, splitOnce_of_not_mem⟩
  obtain ⟨front, rest, whole, absent⟩ := List.eq_append_cons_of_mem member
  rw [whole, splitOnce_append absent] at uncut
  cases uncut

/-- Cutting at the index of the first separator is the same. -/
theorem splitOnce_eq_findIdx? (sep : α) (text : List α) :
    splitOnce sep text = (text.findIdx? (· == sep)).map fun i => (text.take i, text.drop (i + 1)) := by
  induction text with
  | nil => rfl
  | cons a text ih =>
    rw [splitOnce, List.findIdx?_cons]
    by_cases same : a = sep
    · simp [same]
    · rw [if_neg same, if_neg (by simpa using same), ih]
      cases text.findIdx? (· == sep) <;> rfl

theorem splitOnce_append_left (absent : sep ∉ front) (rest : List α) :
    splitOnce sep (front ++ rest) = (splitOnce sep rest).map fun parts => (front ++ parts.1, parts.2) := by
  induction front with
  | nil => simp
  | cons a front ih =>
    have differ : a ≠ sep := fun same => absent (same ▸ List.mem_cons_self ..)
    have later : sep ∉ front := fun member => absent (List.mem_cons_of_mem _ member)
    rw [List.cons_append, splitOnce, if_neg differ, ih later, Option.map_map]
    rfl

theorem findIdx?_append (absent : sep ∉ front) (rest : List α) :
    (front ++ sep :: rest).findIdx? (· == sep) = some front.length := by
  induction front with
  | nil => simp [List.findIdx?_cons]
  | cons a front ih =>
    have differ : (a == sep) = false := beq_eq_false_iff_ne.mpr fun same => absent (same ▸ List.mem_cons_self ..)
    have later : sep ∉ front := fun member => absent (List.mem_cons_of_mem _ member)
    rw [List.cons_append, List.findIdx?_cons, differ, ih later]
    rfl

/-- What is before the first `sep` and what is after it; without one, the whole and nothing. -/
def cutOnce (sep : α) (text : List α) : List α × List α := (splitOnce sep text).getD (text, [])

theorem cutOnce_append_left (absent : sep ∉ front) (rest : List α) :
    cutOnce sep (front ++ rest) = (front ++ (cutOnce sep rest).1, (cutOnce sep rest).2) := by
  rw [cutOnce, cutOnce, splitOnce_append_left absent]
  cases splitOnce sep rest <;> rfl

theorem cutOnce_of_not_mem (absent : sep ∉ text) : cutOnce sep text = (text, []) := by
  rw [cutOnce, splitOnce_of_not_mem absent, Option.getD_none]

theorem cutOnce_append (absent : sep ∉ front) (rest : List α) : cutOnce sep (front ++ sep :: rest) = (front, rest) := by
  rw [cutOnce, splitOnce_append absent, Option.getD_some]

/-- The first part has no separator, and the text starts with it. -/
theorem cutOnce_fst (sep : α) (text : List α) : sep ∉ (cutOnce sep text).1 ∧ (cutOnce sep text).1 <+: text := by
  cases found : splitOnce sep text with
  | none => simpa [cutOnce, found] using splitOnce_eq_none.mp found
  | some parts =>
    obtain ⟨whole, absent⟩ := splitOnce_eq_some found
    rw [cutOnce, found, Option.getD_some]
    exact ⟨absent, sep :: parts.2, whole.symm⟩

/-- No part of a split text has the separator. -/
theorem not_mem_of_mem_splitOn {part : List α} (member : part ∈ text.splitOn sep) : sep ∉ part := by
  induction text generalizing part with
  | nil =>
    rw [List.splitOn_nil, List.mem_singleton] at member
    exact member ▸ List.not_mem_nil
  | cons a text ih =>
    rw [List.splitOn_cons_eq_if_modifyHead] at member
    split at member
    · rcases List.mem_cons.mp member with rfl | later
      · exact List.not_mem_nil
      · exact ih later
    · rename_i differ
      cases parts : text.splitOn sep with
      | nil => exact absurd parts (List.splitOn_ne_nil sep text)
      | cons first rest =>
        rw [parts] at ih
        rw [parts, List.modifyHead_cons] at member
        rcases List.mem_cons.mp member with rfl | later
        · intro inside
          rcases List.mem_cons.mp inside with same | inside
          · exact differ (by simpa using same.symm)
          · exact ih (List.mem_cons_self ..) inside
        · exact ih (List.mem_cons_of_mem _ later)

end Oxplow.Library

/-! Texts with escapes: a letter that stands for itself, or a mark and two digits. The
alphabet of the text and what it spells are any. -/

namespace Oxplow.Library

variable {α β : Type}

/-- The letters of a text, each plain or an escape after the mark, and what they spell. -/
inductive Spells (mark : α) (plain : α → β → Prop) (digits : α → α → β → Prop) : List α → List β → Prop where
  | nil : Spells mark plain digits [] []
  | letter {a : α} {b : β} {text : List α} {out : List β} (itself : plain a b) (rest : Spells mark plain digits text out) :
      Spells mark plain digits (a :: text) (b :: out)
  | escape {h l : α} {b : β} {text : List α} {out : List β} (value : digits h l b) (rest : Spells mark plain digits text out) :
      Spells mark plain digits (mark :: h :: l :: text) (b :: out)

namespace Spells

variable {mark : α} {plain : α → β → Prop} {digits : α → α → β → Prop} {text : List α} {out : List β}

/-- In a text that spells something, what comes after a mark are its two digits. -/
theorem after_mark (spells : Spells mark plain digits text out) (unplain : ∀ b, ¬ plain mark b)
    (high : ∀ h l b, digits h l b → h ≠ mark) (low : ∀ h l b, digits h l b → l ≠ mark) {h l : α} {before after : List α}
    (whole : text = before ++ mark :: h :: l :: after) : ∃ b, digits h l b := by
  induction spells generalizing before with
  | nil => exact absurd whole (by simp)
  | letter itself _ ih =>
    cases before with
    | nil =>
      rw [(List.cons.inj whole).1] at itself
      exact absurd itself (unplain _)
    | cons _ before => exact ih (List.cons.inj whole).2
  | @escape h' l' b text out value _ ih =>
    rcases before with _ | ⟨first, _ | ⟨second, _ | ⟨third, before⟩⟩⟩
    · obtain ⟨rfl, rest⟩ := List.cons.inj (List.cons.inj whole).2
      obtain ⟨rfl, -⟩ := List.cons.inj rest
      exact ⟨b, value⟩
    · exact absurd (List.cons.inj (List.cons.inj whole).2).1 (high _ _ _ value)
    · exact absurd (List.cons.inj (List.cons.inj (List.cons.inj whole).2).2).1 (low _ _ _ value)
    · exact ih (List.cons.inj (List.cons.inj (List.cons.inj whole).2).2).2

end Spells
end Oxplow.Library
