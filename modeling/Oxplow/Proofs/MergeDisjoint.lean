import Oxplow.Proofs.SmartMerge

/-! Where no change of one side is on top of one of the other, the merge is the base with
both sides' changes made. -/

namespace Oxplow.Proofs.SmartMerge
open Library.Edits Oxplow.SmartMerge

variable {T : Type}

/-! ## Changes on top of each other -/

def SharesToken (a b : Change T) : Prop := ∃ i, (a.start ≤ i ∧ i < a.stop) ∧ b.start ≤ i ∧ i < b.stop

def SameGap (a b : Change T) : Prop := a.start = a.stop ∧ b.start = b.stop ∧ a.start = b.start

/-- `a` inserts between two tokens that `b` replaces. -/
def Inside (a b : Change T) : Prop := a.start = a.stop ∧ b.start < a.start ∧ a.start < b.stop

instance (a b : Change T) : Decidable (SameGap a b) := inferInstanceAs (Decidable (_ ∧ _))
instance (a b : Change T) : Decidable (Inside a b) := inferInstanceAs (Decidable (_ ∧ _))

/-- One change ends before the next starts, and inserts at one gap are one side's. -/
def Clear (a b : Change T) : Prop :=
  a.stop ≤ b.start ∧ (a.start = a.stop → b.start = b.stop → a.start = b.start → a.theirs = b.theirs)

theorem clear_of_apart {a b : Change T} (order : before a b) (range' : b.start ≤ b.stop)
    (tokens : ¬ SharesToken a b) (gaps : ¬ SameGap a b) (inside : ¬ Inside b a) : Clear a b := by
  constructor
  · by_contra beyond
    unfold before at order
    unfold Inside at inside
    by_cases empty : b.start = b.stop
    · omega
    · exact tokens ⟨b.start, ⟨by omega, by omega⟩, Nat.le_refl _, by omega⟩
  · exact fun insert insert' same => absurd ⟨insert, insert', same⟩ gaps

variable {changes : List (Change T)}

/-- What holds of each side's pairs and of the pairs across holds of all. -/
theorem pairwise_of_sides {R : Change T → Change T → Prop} (sorted : changes.Pairwise before)
    (sides : ∀ flag, (changes.filter (·.theirs == flag)).Pairwise R)
    (across : ∀ a ∈ changes, ∀ b ∈ changes, a.theirs ≠ b.theirs → before a b → R a b) : changes.Pairwise R := by
  induction changes with
  | nil => exact .nil
  | cons first rest ih =>
    have later : ∀ flag, (rest.filter (·.theirs == flag)).Pairwise R := fun flag =>
      (sides flag).sublist ((List.sublist_cons_self first rest).filter _)
    refine .cons ?_ (ih sorted.of_cons later fun a member b member' =>
      across a (List.mem_cons_of_mem _ member) b (List.mem_cons_of_mem _ member'))
    intro other member
    by_cases same : other.theirs = first.theirs
    · have own := sides first.theirs
      rw [List.filter_cons_of_pos (by simp)] at own
      exact List.rel_of_pairwise_cons own (List.mem_filter.mpr ⟨member, by simp [same]⟩)
    · exact across first List.mem_cons_self other (List.mem_cons_of_mem _ member) (Ne.symm same) (List.rel_of_pairwise_cons sorted member)

theorem ordered_pairwise {hi pos : Nat} {edits : List (Edit T)} (ordered : Ordered hi pos edits) :
    edits.Pairwise fun a b => a.stop ≤ b.start := by
  induction edits generalizing pos with
  | nil => exact .nil
  | cons edit edits ih => exact .cons (fun other member => ordered.2.2.start_ge other member) (ih ordered.2.2)

/-- Changes that end before the next starts are in order along the base. -/
theorem ordered_of_clear {hi pos : Nat} (clear : changes.Pairwise Clear) (fits : pos ≤ hi)
    (bounds : ∀ change ∈ changes, pos ≤ change.start ∧ change.start ≤ change.stop ∧ change.stop ≤ hi) :
    Ordered hi pos (changes.map Change.toEdit) := by
  induction changes generalizing pos with
  | nil => exact fits
  | cons change changes ih =>
    obtain ⟨start, range, stop⟩ := bounds change List.mem_cons_self
    refine ⟨start, range, ih clear.of_cons stop ?_⟩
    intro other member
    have after := (List.rel_of_pairwise_cons clear member).1
    exact ⟨after, (bounds other (List.mem_cons_of_mem _ member)).2⟩

/-! ## The clusters -/

def OneSide (cluster : Cluster T) : Prop := ∃ flag, ∀ change ∈ cluster.changes, change.theirs = flag

/-- Only inserts of one side at one gap join an open cluster. -/
theorem clustersFrom_oneSide {rest : List (Change T)} : ∀ {taken : List (Change T)} {lo hi : Nat} {pureInsert : Bool},
    (taken ++ rest).Pairwise Clear → (∃ flag, ∀ change ∈ taken, change.theirs = flag) → (∃ last ∈ taken, last.stop = hi) →
    (pureInsert = true → ∀ change ∈ taken, change.start = hi ∧ change.stop = hi) →
    ∀ cluster ∈ clustersFrom lo hi pureInsert taken rest, OneSide cluster := by
  induction rest with
  | nil =>
    intro taken lo hi pureInsert _ side _ _ cluster member
    rw [List.mem_singleton.mp member]
    exact side
  | cons next rest ih =>
    intro taken lo hi pureInsert clear side reach inserts cluster member
    obtain ⟨last, lastTaken, ends⟩ := reach
    obtain ⟨-, after, across⟩ := List.pairwise_append.mp clear
    have gap : hi ≤ next.start := ends ▸ (across last lastTaken next List.mem_cons_self).1
    rw [clustersFrom] at member
    split at member
    · rename_i joins
      simp only [Bool.or_eq_true, Bool.and_eq_true, decide_eq_true_eq, beq_iff_eq] at joins
      have joined := joins.resolve_left (Nat.not_lt.mpr gap)
      obtain ⟨⟨insert, start⟩, empty⟩ := joined
      have stop : max hi next.stop = hi := by omega
      rw [stop] at member
      apply ih ?_ ?_ ?_ ?_ cluster member
      · rw [← List.append_cons]
        exact clear
      · obtain ⟨flag, all⟩ := side
        refine ⟨flag, ?_⟩
        intro change inside
        rcases List.mem_append.mp inside with old | new
        · exact all change old
        · rw [List.mem_singleton.mp new]
          obtain ⟨lastStart, lastStop⟩ := inserts insert last lastTaken
          have same := (across last lastTaken next List.mem_cons_self).2 (lastStart.trans lastStop.symm) empty (lastStart.trans start.symm)
          exact same.symm.trans (all last lastTaken)
      · exact ⟨last, List.mem_append_left _ lastTaken, ends⟩
      · intro _ change inside
        rcases List.mem_append.mp inside with old | new
        · exact inserts insert change old
        · rw [List.mem_singleton.mp new]
          exact ⟨start, empty ▸ start⟩
    · rcases List.mem_cons.mp member with rfl | later
      · exact side
      · apply ih ?_ ?_ ?_ ?_ cluster later
        · exact after
        · exact ⟨next.theirs, fun change inside => by rw [List.mem_singleton.mp inside]⟩
        · exact ⟨next, List.mem_cons_self, rfl⟩
        · intro insert change inside
          rw [List.mem_singleton.mp inside]
          exact ⟨eq_of_beq insert, rfl⟩

theorem clusters_oneSide (clear : changes.Pairwise Clear) : ∀ cluster ∈ clusters changes, OneSide cluster := by
  cases changes with
  | nil => exact fun _ member => absurd member List.not_mem_nil
  | cons first rest =>
    apply clustersFrom_oneSide clear
    · exact ⟨first.theirs, fun change inside => by rw [List.mem_singleton.mp inside]⟩
    · exact ⟨first, List.mem_cons_self, rfl⟩
    · intro insert change inside
      rw [List.mem_singleton.mp inside]
      exact ⟨eq_of_beq insert, rfl⟩

/-! ## The result -/

/-- Where a cluster is one side's, its piece is the base with all its changes made. -/
theorem oneSide_chunk [DecidableEq T] (base : List T) {cluster : Cluster T} (one : OneSide cluster) :
    let chunk : Chunk T := ⟨slice base cluster.lo cluster.hi, reconstruct base cluster.lo cluster.hi cluster.changes false,
      reconstruct base cluster.lo cluster.hi cluster.changes true⟩
    ¬ chunk.Conflicting ∧ chunk.text = patch base cluster.hi cluster.lo (cluster.changes.map Change.toEdit) := by
  obtain ⟨flag, all⟩ := one
  have mine : edits cluster.changes flag = cluster.changes.map Change.toEdit := by
    rw [edits, List.filter_eq_self.mpr (fun change member => by simp [all change member])]
  have other : edits cluster.changes (!flag) = [] := by
    rw [edits, List.filter_eq_nil_iff.mpr (fun change member => by simp [all change member]), List.map_nil]
  simp only [reconstruct_eq]
  cases flag with
  | false =>
    rw [Bool.not_false] at other
    rw [mine, other, patch_nil]
    refine ⟨fun differs => differs.2.2 rfl, ?_⟩
    unfold Chunk.text
    split
    · rename_i same
      exact same.symm
    · rfl
  | true =>
    rw [Bool.not_true] at other
    rw [mine, other, patch_nil]
    exact ⟨fun differs => differs.2.1 rfl, if_pos rfl⟩

/-- The walk over all changes as if they were one side's makes all of them. -/
theorem chunks_all [DecidableEq T] (base : List T) {left : List (Cluster T)} (one : ∀ cluster ∈ left, OneSide cluster) (pos : Nat) :
    (¬ ∃ chunk ∈ chunks base pos left, chunk.Conflicting) ∧
      (chunks base pos left).flatMap Chunk.text = (chunks base pos (left.map (relabelCluster fun _ => false))).flatMap Chunk.ours := by
  induction left generalizing pos with
  | nil =>
    constructor
    · rintro ⟨chunk, member, differs⟩
      rw [List.mem_singleton.mp member] at differs
      exact Chunk.same_agrees _ differs
    · change (Chunk.same (base.drop pos)).text ++ [] = base.drop pos ++ []
      rw [Chunk.same_text]
  | cons first rest ih =>
    obtain ⟨agrees, text⟩ := oneSide_chunk base (one first List.mem_cons_self)
    obtain ⟨clean, texts⟩ := ih (fun cluster member => one cluster (List.mem_cons_of_mem _ member)) first.hi
    have relabelled : edits (first.changes.map (relabel fun _ => false)) false = first.changes.map Change.toEdit := by
      rw [edits, List.filter_eq_self.mpr, List.map_map]
      · rfl
      · intro change member
        obtain ⟨old, -, rfl⟩ := List.mem_map.mp member
        rfl
    constructor
    · rintro ⟨chunk, member, differs⟩
      rcases List.mem_cons.mp member with rfl | member
      · exact Chunk.same_agrees _ differs
      · rcases List.mem_cons.mp member with rfl | member
        · exact agrees differs
        · exact clean ⟨chunk, member, differs⟩
    · rw [List.map_cons, chunks, chunks, List.flatMap_cons, List.flatMap_cons, List.flatMap_cons, List.flatMap_cons, Chunk.same_text, text,
        texts]
      change _ = slice base pos first.lo ++ (reconstruct base first.lo first.hi (first.changes.map (relabel fun _ => false)) false ++ _)
      rw [reconstruct_eq, relabelled]
      rfl

section
variable {diff : List T → List T → List DiffOp} (edited : ∀ old new, EditScript old new (diff old new)) (base ours theirs : List T)
include edited

theorem sortedChanges_bounds : ∀ change ∈ sortedChanges diff base ours theirs, change.start ≤ change.stop ∧ change.stop ≤ base.length := by
  intro change member
  have bound : ∀ (side : List T) (flag : Bool), change ∈ changesFromOps (diff base side) side flag →
      change.start ≤ change.stop ∧ change.stop ≤ base.length := fun side flag inside =>
    (script_patches flag (edited base side)).1.width _ (List.mem_map_of_mem inside)
  rw [sortedChanges, List.mem_insertionSort, List.mem_append] at member
  rcases member with inside | inside
  · exact bound ours false inside
  · exact bound theirs true inside

theorem sortedChanges_clear
    (apart : ∀ a ∈ changesFromOps (diff base ours) ours false, ∀ b ∈ changesFromOps (diff base theirs) theirs true,
      ¬ SharesToken a b ∧ ¬ SameGap a b ∧ ¬ Inside a b ∧ ¬ Inside b a) : (sortedChanges diff base ours theirs).Pairwise Clear := by
  have bounds := sortedChanges_bounds edited base ours theirs
  have flags : ∀ (side : List T) (flag : Bool), ∀ change ∈ changesFromOps (diff base side) side flag, change.theirs = flag :=
    fun side flag => changesFromOps_side (diff base side) side flag
  apply pairwise_of_sides (List.pairwise_insertionSort before _)
  · intro flag
    have own := sortedChanges_side edited base ours theirs flag
    have ordered := ordered_pairwise (script_patches flag (edited base (if flag then theirs else ours))).1
    rw [← own, edits, List.pairwise_map] at ordered
    apply ordered.imp_of_mem
    intro a b member member' after
    refine ⟨after, fun _ _ _ => ?_⟩
    have side := eq_of_beq (List.mem_filter.mp member).2
    have side' := eq_of_beq (List.mem_filter.mp member').2
    exact side.trans side'.symm
  · intro a member b member' differ order
    have range' := (bounds b member').1
    rw [List.mem_insertionSort, List.mem_append] at member member'
    rcases member with mine | mine <;> rcases member' with other | other
    · exact absurd ((flags _ _ a mine).trans (flags _ _ b other).symm) differ
    · obtain ⟨tokens, gaps, -, inside⟩ := apart a mine b other
      exact clear_of_apart order range' tokens gaps inside
    · obtain ⟨tokens, gaps, inside, -⟩ := apart b other a mine
      refine clear_of_apart order range' ?_ ?_ inside
      · rintro ⟨i, first, second⟩
        exact tokens ⟨i, second, first⟩
      · rintro ⟨insert, insert', same⟩
        exact gaps ⟨insert', insert, same.symm⟩
    · exact absurd ((flags _ _ a mine).trans (flags _ _ b other).symm) differ

end

theorem ours_replaces : changesFromOps (trimDiff [1, 2, 3] [1, 9, 3]) [1, 9, 3] false = [⟨⟨1, 2, [9]⟩, false⟩] := by decide

theorem theirs_appends : changesFromOps (trimDiff [1, 2, 3] [1, 2, 3, 4]) [1, 2, 3, 4] true = [⟨⟨3, 3, [4]⟩, true⟩] := by decide

end Oxplow.Proofs.SmartMerge
