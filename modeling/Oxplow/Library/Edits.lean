import Mathlib.Data.List.Sort

/-! Edits of a base sequence, and three sequences cut side by side. An edit
replaces a range of the base; a list of edits in base order is a patch. Two
patches of one base meet in a common cut into segments. -/

namespace Oxplow.Library.Edits

variable {α : Type}

/-- The part of `items` from `lo` up to `hi`. -/
def slice (items : List α) (lo hi : Nat) : List α := (items.drop lo).take (hi - lo)

variable {mid hi : Nat}

theorem slice_split (items : List α) {lo : Nat} (first : lo ≤ mid) (last : mid ≤ hi) :
    slice items lo mid ++ slice items mid hi = slice items lo hi := by
  have width : hi - lo = (mid - lo) + (hi - mid) := by omega
  have start : items.drop mid = (items.drop lo).drop (mid - lo) := by
    rw [List.drop_drop]
    congr 1
    omega
  unfold slice
  rw [width, List.take_add, start]

@[simp] theorem slice_self (items : List α) (lo : Nat) : slice items lo lo = [] := by
  simp [slice]

theorem slice_length (items : List α) (lo : Nat) : slice items lo items.length = items.drop lo := by
  apply List.take_of_length_le
  simp

/-- The base range `[start, stop)` replaced by `new`; an insertion has an empty range. -/
structure Edit (α : Type) where
  start : Nat
  stop : Nat
  new : List α
  deriving DecidableEq

/-- The base from `pos` to `hi` with `edits` made to it. -/
def patch (base : List α) (hi : Nat) : Nat → List (Edit α) → List α
  | pos, [] => slice base pos hi
  | pos, edit :: edits => slice base pos edit.start ++ edit.new ++ patch base hi edit.stop edits

/-- The edits lie in order between `pos` and `hi`, none over another. -/
def Ordered (hi : Nat) : Nat → List (Edit α) → Prop
  | pos, [] => pos ≤ hi
  | pos, edit :: edits => pos ≤ edit.start ∧ edit.start ≤ edit.stop ∧ Ordered hi edit.stop edits

variable {pos : Nat} {edits : List (Edit α)}

theorem Ordered.le (ordered : Ordered hi pos edits) : pos ≤ hi := by
  induction edits generalizing pos with
  | nil => exact ordered
  | cons edit edits ih =>
    have rest := ih ordered.2.2
    have first := ordered.1
    have range := ordered.2.1
    omega

theorem Ordered.from_later {later : Nat} (ordered : Ordered hi pos edits) (fits : later ≤ hi)
    (starts : ∀ edit ∈ edits, later ≤ edit.start) : Ordered hi later edits := by
  cases edits with
  | nil => exact fits
  | cons edit edits => exact ⟨starts edit (by simp), ordered.2⟩

theorem Ordered.from_earlier {earlier : Nat} (ordered : Ordered hi pos edits) (start : earlier ≤ pos) :
    Ordered hi earlier edits := by
  cases edits with
  | nil => exact start.trans ordered
  | cons edit edits => exact ⟨start.trans ordered.1, ordered.2⟩

theorem Ordered.start_ge (ordered : Ordered hi pos edits) : ∀ edit ∈ edits, pos ≤ edit.start := by
  induction edits generalizing pos with
  | nil => simp
  | cons edit edits ih =>
    intro other member
    rcases List.mem_cons.mp member with rfl | member
    · exact ordered.1
    · have later := ih ordered.2.2 other member
      have first := ordered.1
      have range := ordered.2.1
      omega

variable {first rest : List (Edit α)}

theorem Ordered.left (ordered : Ordered hi pos (first ++ rest)) (ends : ∀ edit ∈ first, edit.stop ≤ mid) (from_mid : pos ≤ mid) :
    Ordered mid pos first := by
  induction first generalizing pos with
  | nil => exact from_mid
  | cons edit edits ih =>
    refine ⟨ordered.1, ordered.2.1, ?_⟩
    exact ih ordered.2.2 (fun other member => ends other (by simp [member])) (ends edit (by simp))

theorem Ordered.right (ordered : Ordered hi pos (first ++ rest)) (fits : mid ≤ hi) (starts : ∀ edit ∈ rest, mid ≤ edit.start) :
    Ordered hi mid rest := by
  induction first generalizing pos with
  | nil => exact ordered.from_later fits starts
  | cons edit edits ih => exact ih ordered.2.2

theorem Ordered.width (ordered : Ordered hi pos edits) : ∀ edit ∈ edits, edit.start ≤ edit.stop ∧ edit.stop ≤ hi := by
  induction edits generalizing pos with
  | nil => simp
  | cons edit edits ih =>
    intro other member
    rcases List.mem_cons.mp member with rfl | member
    · exact ⟨ordered.2.1, ordered.2.2.le⟩
    · exact ih ordered.2.2 other member

/-- A patch read up to a cut and from it on is the whole patch. -/
theorem patch_append (base : List α) (left : Ordered mid pos first) (right : Ordered hi mid rest) :
    patch base mid pos first ++ patch base hi mid rest = patch base hi pos (first ++ rest) := by
  induction first generalizing pos with
  | nil =>
    cases rest with
    | nil => exact slice_split base left right
    | cons edit edits =>
      simp only [patch, List.nil_append, ← List.append_assoc]
      rw [slice_split base left right.1]
  | cons edit edits ih =>
    simp only [patch, List.cons_append, List.append_assoc]
    rw [ih left.2.2]

theorem patch_nil (base : List α) (hi pos : Nat) : patch base hi pos [] = slice base pos hi := rfl

/-- The base before the first edit can be read apart. -/
theorem patch_start (base : List α) (start : pos ≤ mid) (right : Ordered hi mid rest) :
    slice base pos mid ++ patch base hi mid rest = patch base hi pos rest := by
  have none : Ordered mid pos ([] : List (Edit α)) := start
  have joined := patch_append base none right
  rw [patch_nil, List.nil_append] at joined
  exact joined

/-- One segment of three sequences and a fourth merged from them. -/
structure Segment (α : Type) where
  base : List α
  ours : List α
  theirs : List α
  merged : List α

/-- A segment merges soundly: both sides agree, or one side left it alone and
the other side's text stands. -/
def Segment.Sound (segment : Segment α) : Prop :=
  segment.ours = segment.theirs ∧ segment.merged = segment.ours ∨
  segment.ours = segment.base ∧ segment.merged = segment.theirs ∨
  segment.theirs = segment.base ∧ segment.merged = segment.ours

/-- One piece of a common cut of the base and the two sides. -/
structure Chunk (α : Type) where
  base : List α
  ours : List α
  theirs : List α
  deriving DecidableEq

namespace Chunk

/-- A piece neither side changed. -/
def same (items : List α) : Chunk α := ⟨items, items, items⟩

/-- Both sides changed the piece, and differently. -/
def Conflicting (chunk : Chunk α) : Prop :=
  chunk.ours ≠ chunk.theirs ∧ chunk.ours ≠ chunk.base ∧ chunk.theirs ≠ chunk.base

theorem same_agrees (items : List α) : ¬ (same items).Conflicting := by
  simp [Conflicting, same]

variable [DecidableEq α]

instance (chunk : Chunk α) : Decidable chunk.Conflicting := inferInstanceAs (Decidable (_ ∧ _))

/-- The text of the side that changed the piece. -/
def text (chunk : Chunk α) : List α := if chunk.ours = chunk.base then chunk.theirs else chunk.ours

def segment (chunk : Chunk α) : Segment α := ⟨chunk.base, chunk.ours, chunk.theirs, chunk.text⟩

@[simp] theorem same_text (items : List α) : (same items).text = items := by
  simp [text, same]

theorem segment_sound {chunk : Chunk α} (agrees : ¬ chunk.Conflicting) : chunk.segment.Sound := by
  unfold Segment.Sound segment text
  by_cases ours : chunk.ours = chunk.base
  · simp [ours]
  · by_cases theirs : chunk.theirs = chunk.base
    · simp [ours, theirs]
    · by_cases both : chunk.ours = chunk.theirs
      · simp [both]
      · exact absurd ⟨both, ours, theirs⟩ agrees

/-- What a piece merges to is the text of one of the two sides. -/
theorem text_of_side (chunk : Chunk α) : chunk.text = chunk.ours ∨ chunk.text = chunk.theirs := by
  unfold text
  split
  · exact .inr rfl
  · exact .inl rfl

end Chunk
end Oxplow.Library.Edits
