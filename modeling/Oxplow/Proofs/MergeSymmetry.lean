import Oxplow.Proofs.SmartMerge

/-! The merge does not know which side is which. The two orders of the sides walk the same
ranges, and two changes of one range always fall into one cluster. -/

namespace Oxplow.Proofs.SmartMerge
open Library.Edits Oxplow.SmartMerge

variable {T : Type}

/-! ## The sides swapped -/

def swap : Change T → Change T := relabel (!·)

theorem changesFromOps_swap (ops : List DiffOp) (side : List T) (theirs : Bool) :
    (changesFromOps ops side theirs).map swap = changesFromOps ops side !theirs := by
  rw [changesFromOps, changesFromOps, List.map_flatMap]
  apply List.flatMap_congr
  intro op _
  cases op <;> rfl

/-- The range a change is sorted by. -/
def range (change : Change T) : Nat × Nat := (change.start, change.stop)

def rangeBefore (a b : Nat × Nat) : Prop := a.1 < b.1 ∨ a.1 = b.1 ∧ a.2 ≤ b.2

/-- Two lists of changes with the same ranges in the same order, and each side's changes in
the same order. -/
structure Alike (left right : List (Change T)) : Prop where
  ranges : left.map range = right.map range
  sides : ∀ flag, left.filter (·.theirs == flag) = right.filter (·.theirs == flag)

theorem sorted_alike {left right : List (Change T)} (sorted : left.Pairwise before) (sorted' : right.Pairwise before)
    (ours : ∀ change ∈ left, change.theirs = false) (theirs : ∀ change ∈ right, change.theirs = true) :
    Alike ((left ++ right).insertionSort before) ((right ++ left).insertionSort before) where
  ranges := by
    have antisymm : ∀ a b : Nat × Nat, rangeBefore a b → rangeBefore b a → a = b := by
      rintro ⟨a, a'⟩ ⟨b, b'⟩ first second
      unfold rangeBefore at first second
      apply Prod.ext
      all_goals
        simp only at first second ⊢
        omega
    have ordered : ∀ changes : List (Change T), ((changes.insertionSort before).map range).Pairwise rangeBefore :=
      fun changes => List.pairwise_map.mpr (List.pairwise_insertionSort before changes)
    apply List.Perm.eq_of_pairwise (fun a b _ _ => antisymm a b) (ordered _) (ordered _)
    apply List.Perm.map
    exact (List.perm_insertionSort _ _).trans (List.perm_append_comm.trans (List.perm_insertionSort _ _).symm)
  sides := by
    intro flag
    have mine : left.filter (·.theirs == false) = left := List.filter_eq_self.mpr (fun c member => by simp [ours c member])
    have other : left.filter (·.theirs == true) = [] := List.filter_eq_nil_iff.mpr (fun c member => by simp [ours c member])
    have mine' : right.filter (·.theirs == true) = right := List.filter_eq_self.mpr (fun c member => by simp [theirs c member])
    have other' : right.filter (·.theirs == false) = [] := List.filter_eq_nil_iff.mpr (fun c member => by simp [theirs c member])
    cases flag with
    | false =>
      rw [sorted_side (·.theirs == false) sorted (by rw [List.filter_append, mine, other', List.append_nil]),
        sorted_side (·.theirs == false) sorted (by rw [List.filter_append, mine, other', List.nil_append])]
    | true =>
      rw [sorted_side (·.theirs == true) sorted' (by rw [List.filter_append, mine', other, List.nil_append]),
        sorted_side (·.theirs == true) sorted' (by rw [List.filter_append, mine', other, List.append_nil])]

/-! ## The walk -/

/-- The changes whose range comes before another. -/
def earlier (at' : Nat × Nat) (change : Change T) : Bool :=
  decide (change.start < at'.1) || (change.start == at'.1 && decide (change.stop < at'.2))

theorem earlier_iff {next change : Change T} : earlier (range next) change = true ↔
    change.start < next.start ∨ change.start = next.start ∧ change.stop < next.stop := by
  change (decide (change.start < next.start) || (change.start == next.start && decide (change.stop < next.stop))) = true ↔ _
  rw [Bool.or_eq_true, Bool.and_eq_true, decide_eq_true_eq, decide_eq_true_eq, beq_iff_eq]

/-- A complete cluster is what has an earlier range than the change that opens the next. -/
theorem taken_earlier {taken rest : List (Change T)} {next : Change T} (sorted : ((taken ++ next :: rest).map range).Pairwise rangeBefore)
    (apart : ∀ change ∈ taken, range change ≠ range next) : (taken ++ next :: rest).filter (earlier (range next)) = taken := by
  rw [List.map_append, List.pairwise_append] at sorted
  obtain ⟨-, after, across⟩ := sorted
  have inside : taken.filter (earlier (range next)) = taken := by
    apply List.filter_eq_self.mpr
    intro change member
    have order := across (range change) (List.mem_map_of_mem member) (range next) (by simp)
    have differ := apart change member
    unfold rangeBefore range at order
    unfold range at differ
    rw [Ne, Prod.mk.injEq] at differ
    rw [earlier_iff]
    omega
  have outside : (next :: rest).filter (earlier (range next)) = [] := by
    apply List.filter_eq_nil_iff.mpr
    intro change member
    have order : rangeBefore (range next) (range change) := by
      rcases List.mem_cons.mp member with rfl | later
      · exact .inr ⟨rfl, Nat.le_refl _⟩
      · exact List.rel_of_pairwise_cons after (List.mem_map_of_mem later)
    unfold rangeBefore range at order
    rw [earlier_iff]
    omega
  rw [List.filter_append, inside, outside, List.append_nil]

structure AlikeCluster (left right : Cluster T) : Prop where
  lo : left.lo = right.lo
  hi : left.hi = right.hi
  sides : ∀ flag, left.changes.filter (·.theirs == flag) = right.changes.filter (·.theirs == flag)

/-- The walk along two such lists. Changes of one range are never cut apart: where the first
is in the cluster, the second overlaps it or is an insert at the same gap. -/
theorem clustersFrom_alike {rest : List (Change T)} : ∀ {rest' taken taken' : List (Change T)} {lo hi : Nat} {pureInsert : Bool},
    rest.map range = rest'.map range → taken.map range = taken'.map range →
    (∀ flag, (taken ++ rest).filter (·.theirs == flag) = (taken' ++ rest').filter (·.theirs == flag)) →
    ((taken ++ rest).map range).Pairwise rangeBefore → (∀ change ∈ taken ++ rest, change.start ≤ change.stop) →
    (∀ change ∈ taken, change.stop ≤ hi) → (pureInsert = false → ∀ change ∈ taken, change.start < hi) →
    List.Forall₂ AlikeCluster (clustersFrom lo hi pureInsert taken rest) (clustersFrom lo hi pureInsert taken' rest') := by
  induction rest with
  | nil =>
    intro rest' taken taken' lo hi pureInsert ranges _ sides _ _ _ _
    have none : rest' = [] := List.map_eq_nil_iff.mp ranges.symm
    subst none
    rw [List.append_nil] at sides
    refine .cons ⟨rfl, rfl, fun flag => ?_⟩ .nil
    rw [sides flag, List.append_nil]
  | cons next rest ih =>
    intro rest' taken taken' lo hi pureInsert ranges takenRanges sides sorted widths ends starts
    cases rest' with
    | nil => cases ranges
    | cons next' rest' =>
      obtain ⟨one, more⟩ := List.cons.inj ranges
      have start : next'.start = next.start := (congrArg Prod.fst one).symm
      have stop : next'.stop = next.stop := (congrArg Prod.snd one).symm
      have width := widths next (by simp)
      rw [clustersFrom, clustersFrom, start, stop]
      split
      · rename_i joins
        rw [List.append_cons taken] at sorted widths
        have joined : ∀ flag, (taken ++ [next] ++ rest).filter (·.theirs == flag) =
            (taken' ++ [next'] ++ rest').filter (·.theirs == flag) := by
          intro flag
          rw [← List.append_cons, ← List.append_cons]
          exact sides flag
        apply ih more
        · rw [List.map_append, List.map_append, takenRanges, List.map_singleton, List.map_singleton, one]
        · exact joined
        · exact sorted
        · exact widths
        · intro change member
          rcases List.mem_append.mp member with old | new
          · exact (ends change old).trans (Nat.le_max_left _ _)
          · rw [List.mem_singleton.mp new]
            exact Nat.le_max_right _ _
        · intro broad change member
          rcases List.mem_append.mp member with old | new
          · exact Nat.lt_of_lt_of_le (starts broad change old) (Nat.le_max_left _ _)
          · rw [List.mem_singleton.mp new]
            rw [broad, Bool.false_and, Bool.false_and, Bool.or_false, decide_eq_true_eq] at joins
            exact Nat.lt_of_lt_of_le joins (Nat.le_max_left _ _)
      · rename_i parts
        have apart : ∀ change ∈ taken, range change ≠ range next := by
          intro change member same
          have sameStart : change.start = next.start := congrArg Prod.fst same
          have sameStop : change.stop = next.stop := congrArg Prod.snd same
          have within := ends change member
          simp only [Bool.or_eq_true, Bool.and_eq_true, decide_eq_true_eq, beq_iff_eq, not_or, not_and] at parts
          cases pureInsert with
          | false =>
            have inner := starts rfl change member
            omega
          | true =>
            have gap : next.start = hi → ¬ next.start = next.stop := fun here => parts.2 ⟨rfl, here⟩
            omega
        have apart' : ∀ change ∈ taken', range change ≠ range next' := by
          intro change member same
          have listed : range change ∈ taken.map range := takenRanges ▸ List.mem_map_of_mem member
          obtain ⟨other, inside, equal⟩ := List.mem_map.mp listed
          exact apart other inside (equal.trans (same.trans one.symm))
        have sorted' : ((taken' ++ next' :: rest').map range).Pairwise rangeBefore := by
          have same : (taken' ++ next' :: rest').map range = (taken ++ next :: rest).map range := by
            rw [List.map_append, List.map_append, takenRanges, ranges]
          rw [same]
          exact sorted
        have cut := taken_earlier sorted apart
        have cut' := taken_earlier sorted' apart'
        have split : ∀ flag, taken.filter (·.theirs == flag) = taken'.filter (·.theirs == flag) := by
          intro flag
          rw [← cut, ← cut', List.filter_filter, List.filter_filter, ← one]
          have comm : ∀ changes : List (Change T), changes.filter (fun c => c.theirs == flag && earlier (range next) c) =
              (changes.filter (·.theirs == flag)).filter (earlier (range next)) := by
            intro changes
            rw [List.filter_filter]
            apply List.filter_congr
            exact fun c _ => Bool.and_comm _ _
          rw [comm, comm, sides flag]
        refine .cons ⟨rfl, rfl, split⟩ ?_
        apply ih more
        · rw [List.map_singleton, List.map_singleton, one]
        · intro flag
          have whole := sides flag
          rw [List.filter_append, List.filter_append, split flag] at whole
          exact List.append_cancel_left whole
        · rw [List.map_append] at sorted
          exact (List.pairwise_append.mp sorted).2.1
        · exact fun change member => widths change (List.mem_append_right _ member)
        · intro change member
          rw [List.mem_singleton.mp member]
        · intro broad change member
          rw [List.mem_singleton.mp member]
          have differ : next.start ≠ next.stop := by simpa using broad
          omega

theorem clusters_alike {left right : List (Change T)} (alike : Alike left right) (sorted : left.Pairwise before)
    (widths : ∀ change ∈ left, change.start ≤ change.stop) : List.Forall₂ AlikeCluster (clusters left) (clusters right) := by
  obtain ⟨ranges, sides⟩ := alike
  cases left with
  | nil =>
    have none : right = [] := List.map_eq_nil_iff.mp ranges.symm
    subst none
    exact .nil
  | cons first rest =>
    cases right with
    | nil => cases ranges
    | cons first' rest' =>
      obtain ⟨one, more⟩ := List.cons.inj ranges
      have start : first'.start = first.start := (congrArg Prod.fst one).symm
      have stop : first'.stop = first.stop := (congrArg Prod.snd one).symm
      rw [clusters, clusters, start, stop]
      apply clustersFrom_alike more
      · rw [List.map_singleton, List.map_singleton, one]
      · exact sides
      · exact List.pairwise_map.mpr sorted
      · exact widths
      · intro change member
        rw [List.mem_singleton.mp member]
      · intro broad change member
        rw [List.mem_singleton.mp member]
        have width := widths first (by simp)
        have differ : first.start ≠ first.stop := by simpa using broad
        omega

/-! ## The common cut -/

theorem chunks_congr (base : List T) {left right : List (Cluster T)} (alike : List.Forall₂ AlikeCluster left right) (pos : Nat) :
    chunks base pos left = chunks base pos right := by
  induction alike generalizing pos with
  | nil => rfl
  | @cons first first' rest rest' same _ ih =>
    have side : ∀ flag, reconstruct base first.lo first.hi first.changes flag = reconstruct base first'.lo first'.hi first'.changes flag := by
      intro flag
      rw [reconstruct_eq, reconstruct_eq, edits, edits, same.sides flag, same.lo, same.hi]
    rw [chunks, chunks, side, side, same.lo, same.hi, ih]

def swapCluster : Cluster T → Cluster T := relabelCluster (!·)

theorem edits_swap (changes : List (Change T)) (flag : Bool) : edits (changes.map swap) flag = edits changes !flag := by
  rw [edits, edits, List.filter_map, List.map_map]
  have side : (fun change : Change T => change.theirs == flag) ∘ swap = fun change => change.theirs == !flag := by
    funext change
    change ((!change.theirs) == flag) = (change.theirs == !flag)
    cases change.theirs <;> cases flag <;> rfl
  rw [side]
  rfl

def swapChunk (chunk : Chunk T) : Chunk T := ⟨chunk.base, chunk.theirs, chunk.ours⟩

theorem chunks_swap (base : List T) (left : List (Cluster T)) (pos : Nat) :
    chunks base pos (left.map swapCluster) = (chunks base pos left).map swapChunk := by
  induction left generalizing pos with
  | nil => rfl
  | cons first rest ih =>
    have side : ∀ flag, reconstruct base first.lo first.hi (first.changes.map swap) flag =
        reconstruct base first.lo first.hi first.changes !flag := by
      intro flag
      rw [reconstruct_eq, reconstruct_eq, edits_swap]
    rw [List.map_cons, chunks, chunks, List.map_cons, List.map_cons, ← ih first.hi]
    have piece : (⟨slice base first.lo first.hi, reconstruct base first.lo first.hi (first.changes.map swap) false,
        reconstruct base first.lo first.hi (first.changes.map swap) true⟩ : Chunk T) =
        swapChunk ⟨slice base first.lo first.hi, reconstruct base first.lo first.hi first.changes false,
          reconstruct base first.lo first.hi first.changes true⟩ := by
      rw [side, side]
      rfl
    rw [← piece]
    rfl

variable {diff : List T → List T → List DiffOp}

theorem changesFromOps_width (ops : List DiffOp) (side : List T) (theirs : Bool) :
    ∀ change ∈ changesFromOps ops side theirs, change.start ≤ change.stop := by
  intro change member
  obtain ⟨op, _, inside⟩ := List.mem_flatMap.mp member
  cases op with
  | equal => cases inside
  | insert =>
    rw [List.mem_singleton.mp inside]
  | delete | replace =>
    rw [List.mem_singleton.mp inside]
    exact Nat.le_add_right _ _

/-- The other order of the sides has the same cut, with the sides swapped. -/
theorem commonCut_swap (edited : ∀ old new, EditScript old new (diff old new)) (base a b : List T) :
    commonCut diff base b a = (commonCut diff base a b).map swapChunk := by
  have ordered : ∀ (side : List T) (flag : Bool), (changesFromOps (diff base side) side flag).Pairwise before :=
    fun side flag => ordered_before (script_patches flag (edited base side)).1
  have flags : ∀ (side : List T) (flag : Bool), ∀ change ∈ changesFromOps (diff base side) side flag, change.theirs = flag :=
    fun side flag => changesFromOps_side (diff base side) side flag
  have alike := sorted_alike (ordered b false) (ordered a true) (flags b false) (flags a true)
  have swapped : (changesFromOps (diff base a) a true ++ changesFromOps (diff base b) b false).insertionSort before =
      (sortedChanges diff base a b).map swap := by
    rw [sortedChanges, List.map_insertionSort before before swap _ (fun _ _ _ _ => Iff.rfl), List.map_append,
      changesFromOps_swap, changesFromOps_swap]
    rfl
  have widths : ∀ change ∈ sortedChanges diff base b a, change.start ≤ change.stop := by
    intro change member
    rw [sortedChanges, List.mem_insertionSort, List.mem_append] at member
    rcases member with inside | inside
    · exact changesFromOps_width _ _ _ change inside
    · exact changesFromOps_width _ _ _ change inside
  rw [swapped] at alike
  have walked := clusters_alike alike (List.pairwise_insertionSort before _) widths
  rw [show (sortedChanges diff base a b).map swap = (sortedChanges diff base a b).map (relabel (!·)) from rfl, clusters_relabel] at walked
  rw [commonCut, commonCut, ← chunks_swap]
  exact chunks_congr base walked 0

section
variable [DecidableEq T] (edited : ∀ old new, EditScript old new (diff old new))
include edited

theorem merge3_swap (base a b : List T) : merge3 diff base b a = merge3 diff base a b := by
  have conflict : ∀ chunk : Chunk T, (swapChunk chunk).Conflicting ↔ chunk.Conflicting := by
    intro chunk
    unfold Chunk.Conflicting swapChunk
    constructor
    · exact fun ⟨differ, theirs, ours⟩ => ⟨differ.symm, ours, theirs⟩
    · exact fun ⟨differ, ours, theirs⟩ => ⟨differ.symm, theirs, ours⟩
  have text : ∀ chunk : Chunk T, ¬ chunk.Conflicting → (swapChunk chunk).text = chunk.text := by
    intro chunk agrees
    unfold Chunk.text swapChunk
    unfold Chunk.Conflicting at agrees
    by_cases ours : chunk.ours = chunk.base
    · by_cases theirs : chunk.theirs = chunk.base
      · simp [ours, theirs]
      · simp [ours, theirs]
    · by_cases theirs : chunk.theirs = chunk.base
      · simp [ours, theirs]
      · have same : chunk.ours = chunk.theirs := by
          by_contra differ
          exact agrees ⟨differ, ours, theirs⟩
        simp [same]
  rw [merge3_commonCut, merge3_commonCut, commonCut_swap edited base a b]
  have both : (∃ chunk ∈ (commonCut diff base a b).map swapChunk, chunk.Conflicting) ↔
      ∃ chunk ∈ commonCut diff base a b, chunk.Conflicting := by
    constructor
    · rintro ⟨chunk, member, differs⟩
      obtain ⟨other, inside, rfl⟩ := List.mem_map.mp member
      exact ⟨other, inside, (conflict other).mp differs⟩
    · rintro ⟨chunk, inside, differs⟩
      exact ⟨_, List.mem_map_of_mem inside, (conflict chunk).mpr differs⟩
  by_cases some' : ∃ chunk ∈ commonCut diff base a b, chunk.Conflicting
  · rw [if_pos (both.mpr some'), if_pos some']
  · rw [if_neg (fun there => some' (both.mp there)), if_neg some', List.flatMap_map]
    congr 1
    apply List.flatMap_congr
    exact fun chunk inside => text chunk (fun differs => some' ⟨chunk, inside, differs⟩)

/-- Both sides the same: each piece is what both make of it. -/
theorem merge3_agree (base x : List T) : merge3 diff base x x = .ok x := by
  have own := commonCut_swap edited base x x
  obtain ⟨-, ours, -⟩ := commonCut_covers edited base x x
  have agrees : ∀ chunk ∈ commonCut diff base x x, chunk.ours = chunk.theirs := by
    have pointwise : ∀ cut : List (Chunk T), cut = cut.map swapChunk → ∀ chunk ∈ cut, chunk.ours = chunk.theirs := by
      intro cut
      induction cut with
      | nil => exact fun _ _ member => absurd member List.not_mem_nil
      | cons first rest ih =>
        intro same chunk member
        obtain ⟨head, tail⟩ := List.cons.inj same
        rcases List.mem_cons.mp member with rfl | inside
        · exact congrArg Chunk.ours head
        · exact ih tail chunk inside
    exact pointwise _ own
  rw [merge3_commonCut, if_neg]
  · have texts : (commonCut diff base x x).flatMap Chunk.text = (commonCut diff base x x).flatMap Chunk.ours := by
      apply List.flatMap_congr
      intro chunk inside
      rcases chunk.text_of_side with side | side
      · exact side
      · exact side.trans (agrees chunk inside).symm
    rw [texts, ours]
  · rintro ⟨chunk, inside, differs⟩
    exact differs.1 (agrees chunk inside)

/-- Ours the base, as the diff says: each piece is what theirs makes of it. -/
theorem merge3_unchanged {base : List T} (unchanged : changesFromOps (diff base base) base false = []) (x : List T) :
    merge3 diff base base x = .ok x := by
  obtain ⟨-, -, theirs⟩ := commonCut_covers edited base base x
  have none : ∀ change ∈ sortedChanges diff base base x, change.theirs = true := by
    intro change member
    rw [sortedChanges, unchanged, List.nil_append, List.mem_insertionSort] at member
    exact changesFromOps_side _ _ _ change member
  have kept : ∀ chunk ∈ commonCut diff base base x, chunk.ours = chunk.base := by
    have walk : ∀ (left : List (Cluster T)) (pos : Nat), (∀ cluster ∈ left, ∀ change ∈ cluster.changes, change.theirs = true) →
        ∀ chunk ∈ chunks base pos left, chunk.ours = chunk.base := by
      intro left
      induction left with
      | nil =>
        intro pos _ chunk member
        rw [List.mem_singleton.mp member]
        rfl
      | cons first rest ih =>
        intro pos all chunk member
        rcases List.mem_cons.mp member with rfl | member
        · rfl
        · rcases List.mem_cons.mp member with rfl | member
          · have empty : edits first.changes false = [] := by
              rw [edits, List.map_eq_nil_iff, List.filter_eq_nil_iff]
              intro change inside
              rw [all first List.mem_cons_self change inside]
              exact Bool.false_ne_true
            change reconstruct base first.lo first.hi first.changes false = _
            rw [reconstruct_eq, empty]
            rfl
          · exact ih first.hi (fun cluster inside => all cluster (List.mem_cons_of_mem _ inside)) chunk member
    apply walk
    intro cluster member change inside
    exact none change (clusters_changes _ cluster member change inside)
  rw [merge3_commonCut, if_neg]
  · have texts : (commonCut diff base base x).flatMap Chunk.text = (commonCut diff base base x).flatMap Chunk.theirs := by
      apply List.flatMap_congr
      intro chunk inside
      exact if_pos (kept chunk inside)
    rw [texts, theirs]
  · rintro ⟨chunk, inside, differs⟩
    exact differs.2.1 (kept chunk inside)

end

/-- An edit script of a text to itself that only keeps has no change. -/
theorem changesFromOps_equal {ops : List DiffOp} (keeps : ∀ op ∈ ops, ∃ oldIndex newIndex len, op = .equal oldIndex newIndex len)
    (side : List T) (theirs : Bool) : changesFromOps ops side theirs = [] := by
  apply List.flatMap_eq_nil_iff.mpr
  intro op member
  obtain ⟨oldIndex, newIndex, len, rfl⟩ := keeps op member
  rfl

/-- The merge is symmetric; where one side is the base, or both are one, it is the other. -/
theorem merge3_symmetric [DecidableEq T] (edited : ∀ old new, EditScript old new (diff old new))
    (unchanged : ∀ text, ∀ op ∈ diff text text, ∃ oldIndex newIndex len, op = .equal oldIndex newIndex len) (base a b x : List T) :
    merge3 diff base a b = merge3 diff base b a ∧
      merge3 diff base base x = .ok x ∧ merge3 diff base x base = .ok x ∧ merge3 diff base x x = .ok x := by
  have alone := merge3_unchanged edited (changesFromOps_equal (unchanged base) base false) x
  refine ⟨merge3_swap edited base b a, alone, ?_, merge3_agree edited base x⟩
  rw [merge3_swap edited base base x]
  exact alone

theorem commonPrefix_self [DecidableEq T] (text : List T) : commonPrefix text text = text.length := by
  induction text with
  | nil => rfl
  | cons a text ih => rw [commonPrefix, if_pos rfl, ih, List.length_cons]

theorem trimDiff_self [DecidableEq T] (text : List T) :
    ∀ op ∈ trimDiff text text, ∃ oldIndex newIndex len, op = .equal oldIndex newIndex len := by
  have whole : trimDiff text text = keepOp 0 0 text.length := by
    rw [trimDiff, commonPrefix_self, List.drop_length, List.reverse_nil]
    simp [commonPrefix, changeOp, keepOp]
  intro op member
  rw [whole, keepOp] at member
  split at member
  · cases member
  · exact ⟨0, 0, text.length, List.mem_singleton.mp member⟩

theorem merge3_symmetric_both_sides :
    merge3 trimDiff [1, 2, 3] [1, 9, 3] [1, 2, 3, 4] = merge3 trimDiff [1, 2, 3] [1, 2, 3, 4] [1, 9, 3] ∧
      merge3 trimDiff [1, 2, 3] [1, 2, 3] [1, 9] = .ok [1, 9] ∧ merge3 trimDiff [1, 2, 3] [1, 9] [1, 2, 3] = .ok [1, 9] ∧
        merge3 trimDiff [1, 2, 3] [1, 9] [1, 9] = .ok [1, 9] :=
  merge3_symmetric trimDiff_edits trimDiff_self [1, 2, 3] [1, 9, 3] [1, 2, 3, 4] [1, 9]

end Oxplow.Proofs.SmartMerge
