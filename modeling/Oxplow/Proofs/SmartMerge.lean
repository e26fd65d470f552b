import Oxplow.Git.SmartMerge

/-! Soundness of the token merge. The base, the two sides and the merged text
have one common cut, and in each piece the merge takes the text of a side that
changed it, or of both where they agree. -/

namespace Oxplow.Proofs.SmartMerge
open Library.Edits Oxplow.SmartMerge

variable {T : Type}

/-- The edits of one side among `changes`, in their order. -/
def edits (changes : List (Change T)) (theirs : Bool) : List (Edit T) :=
  (changes.filter (·.theirs == theirs)).map Change.toEdit

@[simp] theorem edits_nil (theirs : Bool) : edits ([] : List (Change T)) theirs = [] := rfl

theorem edits_append (first rest : List (Change T)) (theirs : Bool) :
    edits (first ++ rest) theirs = edits first theirs ++ edits rest theirs := by
  simp [edits]

variable {changes : List (Change T)}

theorem mem_edits {theirs : Bool} {edit : Edit T} (member : edit ∈ edits changes theirs) :
    ∃ change ∈ changes, change.toEdit = edit := by
  obtain ⟨change, inside, rfl⟩ := List.mem_map.mp member
  exact ⟨change, (List.mem_filter.mp inside).1, rfl⟩

/-! ## The edit script of a side -/

/-- From any point of the script on, its changes lie in order up to the end of
the base and turn the rest of the base into the rest of the side. -/
theorem script_patches {old new : List T} (theirs : Bool) {i j : Nat} {ops : List DiffOp}
    (script : Script old new i j ops) :
    Ordered old.length i ((changesFromOps ops new theirs).map Change.toEdit) ∧
      patch old old.length i ((changesFromOps ops new theirs).map Change.toEdit) = new.drop j := by
  induction script with
  | done =>
    refine ⟨Nat.le_refl _, ?_⟩
    simp [changesFromOps, patch]
  | @equal i j n ops inOld inNew same rest ih =>
    obtain ⟨ordered, patched⟩ := ih
    have shifted := patch_start old (Nat.le_add_right i n) ordered
    have skipped : changesFromOps (.equal i j n :: ops) new theirs = changesFromOps ops new theirs := by
      simp [changesFromOps]
    rw [skipped]
    refine ⟨ordered.from_earlier (Nat.le_add_right i n), ?_⟩
    rw [← shifted, patched, same, ← slice_length, ← slice_length]
    exact slice_split new (Nat.le_add_right j n) inNew
  | @delete i j n ops inOld rest ih =>
    obtain ⟨ordered, patched⟩ := ih
    have made : changesFromOps (.delete i n j :: ops) new theirs =
        ⟨⟨i, i + n, []⟩, theirs⟩ :: changesFromOps ops new theirs := by
      simp [changesFromOps]
    rw [made]
    refine ⟨⟨Nat.le_refl i, Nat.le_add_right i n, ordered⟩, ?_⟩
    simpa [patch] using patched
  | @insert i j n ops inNew rest ih =>
    obtain ⟨ordered, patched⟩ := ih
    have made : changesFromOps (.insert i j n :: ops) new theirs =
        ⟨⟨i, i, slice new j (j + n)⟩, theirs⟩ :: changesFromOps ops new theirs := by
      simp [changesFromOps]
    rw [made]
    refine ⟨⟨Nat.le_refl i, Nat.le_refl i, ordered⟩, ?_⟩
    simp only [List.map_cons, patch, slice_self, List.nil_append]
    rw [patched, ← slice_length, ← slice_length]
    exact slice_split new (Nat.le_add_right j n) inNew
  | @replace i j n k ops inOld inNew rest ih =>
    obtain ⟨ordered, patched⟩ := ih
    have made : changesFromOps (.replace i n j k :: ops) new theirs =
        ⟨⟨i, i + n, slice new j (j + k)⟩, theirs⟩ :: changesFromOps ops new theirs := by
      simp [changesFromOps]
    rw [made]
    refine ⟨⟨Nat.le_refl i, Nat.le_add_right i n, ordered⟩, ?_⟩
    simp only [List.map_cons, patch, slice_self, List.nil_append]
    rw [patched, ← slice_length, ← slice_length]
    exact slice_split new (Nat.le_add_right j k) inNew

theorem changesFromOps_side (ops : List DiffOp) (side : List T) (theirs : Bool) :
    ∀ change ∈ changesFromOps ops side theirs, change.theirs = theirs := by
  intro change member
  obtain ⟨op, _, inside⟩ := List.mem_flatMap.mp member
  cases op with
  | equal => simp at inside
  | delete | insert | replace => simp only [List.mem_singleton] at inside; rw [inside]

/-! ## The walk order -/

theorem before_trans {a b c : Change T} (first : before a b) (rest : before b c) : before a c := by
  unfold before at *
  omega

theorem before_total (a b : Change T) : before a b ∨ before b a := by
  unfold before
  omega

instance : Std.Total (before (T := T)) := ⟨before_total⟩
instance : IsTrans (Change T) before := ⟨fun _ _ _ => before_trans⟩

/-- Edits in order along the base are in the walk order already. -/
theorem ordered_before {hi pos : Nat} (ordered : Ordered hi pos (changes.map Change.toEdit)) : changes.Pairwise before := by
  induction changes generalizing pos with
  | nil => exact List.Pairwise.nil
  | cons change changes ih =>
    refine List.Pairwise.cons ?_ (ih ordered.2.2)
    intro other member
    have later := ordered.2.2.start_ge other.toEdit (List.mem_map.mpr ⟨other, member, rfl⟩)
    have range : change.start ≤ change.stop := ordered.2.1
    have width := (ordered.2.2.width other.toEdit (List.mem_map.mpr ⟨other, member, rfl⟩)).1
    change change.start < other.start ∨ change.start = other.start ∧ change.stop ≤ other.stop
    omega

/-- The stable sort keeps a side's changes in the order of its own script. -/
theorem sorted_side {side : List (Change T)} (p : Change T → Bool) (sorted : side.Pairwise before)
    (selected : changes.filter p = side) : (changes.insertionSort before).filter p = side := by
  have inside : side.Sublist changes := selected ▸ List.filter_sublist
  have kept : side.Sublist (changes.insertionSort before) := List.sublist_insertionSort sorted inside
  have fits : side.filter p = side := by
    rw [← selected, List.filter_filter]
    simp
  have filtered : side.Sublist ((changes.insertionSort before).filter p) := by
    simpa only [fits] using kept.filter p
  have size : ((changes.insertionSort before).filter p).length = side.length := by
    rw [← selected]
    exact ((List.perm_insertionSort before changes).filter p).length_eq
  exact (filtered.eq_of_length size.symm).symm

theorem sortedChanges_side {diff : List T → List T → List DiffOp}
    (edited : ∀ old new, EditScript old new (diff old new)) (base ours theirs : List T) (flag : Bool) :
    edits (sortedChanges diff base ours theirs) flag =
      (changesFromOps (diff base (if flag then theirs else ours)) (if flag then theirs else ours) flag).map
        Change.toEdit := by
  have sides : ∀ (side : List T) (theirs kept : Bool), (changesFromOps (diff base side) side theirs).filter
      (fun change => change.theirs == kept) =
        if theirs = kept then changesFromOps (diff base side) side theirs else [] := by
    intro side theirs kept
    have flags := changesFromOps_side (diff base side) side theirs
    split
    next same => exact List.filter_eq_self.mpr (fun change member => by simp [flags change member, same])
    next differ => exact List.filter_eq_nil_iff.mpr (fun change member => by simp [flags change member, differ])
  have sorted := ordered_before (script_patches flag (edited base (if flag then theirs else ours))).1
  have own : (changesFromOps (diff base ours) ours false ++ changesFromOps (diff base theirs) theirs true).filter
      (fun change => change.theirs == flag) =
        changesFromOps (diff base (if flag then theirs else ours)) (if flag then theirs else ours) flag := by
    rw [List.filter_append, sides, sides]
    cases flag <;> simp
  have kept := sorted_side (fun change => change.theirs == flag) sorted own
  unfold edits sortedChanges
  rw [kept]

/-! ## The cluster loop -/

theorem reconstruct_eq (base : List T) (lo hi : Nat) (cluster : List (Change T)) (theirs : Bool) :
    reconstruct base lo hi cluster theirs = patch base hi lo (edits cluster theirs) := by
  have loop : ∀ (changes : List (Change T)) (out : List T) (pos : Nat),
      let written := changes.foldl
        (fun (written : List T × Nat) ch => (written.1 ++ slice base written.2 ch.start ++ ch.new, ch.stop)) (out, pos)
      written.1 ++ slice base written.2 hi = out ++ patch base hi pos (changes.map Change.toEdit) := by
    intro changes
    induction changes with
    | nil => intro out pos; rfl
    | cons change changes ih =>
      intro out pos
      have rest := ih (out ++ slice base pos change.start ++ change.new) change.stop
      simp only [List.foldl_cons, List.map_cons, patch] at rest ⊢
      rw [rest]
      simp only [List.append_assoc]
  have whole := loop (cluster.filter (·.theirs == theirs)) [] lo
  rw [List.nil_append] at whole
  exact whole

/-- A change as one of another side. The walk looks at ranges alone. -/
def relabel (side : Bool → Bool) (change : Change T) : Change T := { change with theirs := side change.theirs }

def relabelCluster (side : Bool → Bool) (cluster : Cluster T) : Cluster T :=
  { cluster with changes := cluster.changes.map (relabel side) }

theorem clusters_relabel (side : Bool → Bool) (changes : List (Change T)) :
    clusters (changes.map (relabel side)) = (clusters changes).map (relabelCluster side) := by
  have walk : ∀ (rest taken : List (Change T)) (lo hi : Nat) (pureInsert : Bool),
      clustersFrom lo hi pureInsert (taken.map (relabel side)) (rest.map (relabel side)) =
        (clustersFrom lo hi pureInsert taken rest).map (relabelCluster side) := by
    intro rest
    induction rest with
    | nil => exact fun _ _ _ _ => rfl
    | cons next rest ih =>
      intro taken lo hi pureInsert
      rw [List.map_cons, clustersFrom, clustersFrom]
      change (if (next.start < hi || (pureInsert && next.start == hi && next.start == next.stop)) = true then _ else _) = _
      split
      · have joined := ih (taken ++ [next]) lo (max hi next.stop) pureInsert
        rw [List.map_append] at joined
        exact joined
      · rw [List.map_cons]
        exact congrArg _ (ih [next] next.start next.stop (next.start == next.stop))
  cases changes with
  | nil => rfl
  | cons first rest => exact walk rest [first] first.start first.stop (first.start == first.stop)

/-- A cluster is made of the changes walked along. -/
theorem clusters_changes (changes : List (Change T)) : ∀ cluster ∈ clusters changes, ∀ change ∈ cluster.changes, change ∈ changes := by
  have walk : ∀ (rest taken : List (Change T)) (lo hi : Nat) (pureInsert : Bool), ∀ cluster ∈ clustersFrom lo hi pureInsert taken rest,
      ∀ change ∈ cluster.changes, change ∈ taken ++ rest := by
    intro rest
    induction rest with
    | nil =>
      intro taken lo hi pureInsert cluster member change inside
      rw [List.mem_singleton.mp member] at inside
      exact List.mem_append_left _ inside
    | cons next rest ih =>
      intro taken lo hi pureInsert cluster member change inside
      rw [clustersFrom] at member
      split at member
      · rw [List.append_cons]
        exact ih _ _ _ _ cluster member change inside
      · rcases List.mem_cons.mp member with rfl | later
        · exact List.mem_append_left _ inside
        · exact List.mem_append_right _ (ih _ _ _ _ cluster later change inside)
  cases changes with
  | nil => exact fun _ member => absurd member List.not_mem_nil
  | cons first rest => exact walk rest [first] _ _ _

/-- The common cut of the base and both sides from `pos` on: the clusters, and
the unchanged base between them. -/
def chunks (base : List T) : Nat → List (Cluster T) → List (Chunk T)
  | pos, [] => [Chunk.same (base.drop pos)]
  | pos, cluster :: rest =>
    Chunk.same (slice base pos cluster.lo) ::
      ⟨slice base cluster.lo cluster.hi, reconstruct base cluster.lo cluster.hi cluster.changes false,
        reconstruct base cluster.lo cluster.hi cluster.changes true⟩ ::
      chunks base cluster.hi rest

/-- The walk from an open cluster on cuts the rest of the base, and what either
side makes of it, into its chunks. The induction is on the changes left; the
open cluster's changes stay within `[lo, hi)`. -/
theorem walk_chunks {base : List T} {rest : List (Change T)} :
    ∀ {lo hi pos : Nat} (pureInsert : Bool) {taken : List (Change T)},
      pos ≤ lo → hi ≤ base.length →
      (∀ theirs, Ordered base.length lo (edits (taken ++ rest) theirs)) →
      (∀ change ∈ taken, change.stop ≤ hi) → lo ≤ hi →
      rest.Pairwise before → (∀ change ∈ rest, change.stop ≤ base.length ∧ change.start ≤ change.stop) →
      let cut := chunks base pos (clustersFrom lo hi pureInsert taken rest)
      cut.flatMap Chunk.base = base.drop pos ∧
      cut.flatMap Chunk.ours = patch base base.length pos (edits (taken ++ rest) false) ∧
      cut.flatMap Chunk.theirs = patch base base.length pos (edits (taken ++ rest) true) := by
  induction rest with
  | nil =>
    intro lo hi pos pureInsert taken start fits ordered ends range _ _
    have within : ∀ theirs, Ordered hi lo (edits taken theirs) := by
      intro theirs
      have whole : Ordered base.length lo (edits taken theirs ++ []) := by simpa using ordered theirs
      refine whole.left ?_ range
      intro edit member
      obtain ⟨change, inside, rfl⟩ := mem_edits member
      exact ends change inside
    have side : ∀ theirs, slice base pos lo ++ (patch base hi lo (edits taken theirs) ++ base.drop hi) =
        patch base base.length pos (edits (taken ++ []) theirs) := by
      intro theirs
      have tail := patch_append base (within theirs) (show Ordered base.length hi [] from fits)
      have head := patch_start base start (ordered theirs)
      rw [patch_nil, slice_length, List.append_nil] at tail
      rw [tail, ← List.append_nil (edits taken theirs), ← edits_nil theirs, ← edits_append, head]
    have cut : slice base pos lo ++ (slice base lo hi ++ base.drop hi) = base.drop pos := by
      rw [← slice_length base hi, slice_split base range fits, slice_split base start (range.trans fits), slice_length]
    simp only [clustersFrom, chunks, List.flatMap_cons, List.flatMap_nil, List.append_nil, Chunk.same,
      reconstruct_eq]
    exact ⟨cut, by simpa using side false, by simpa using side true⟩
  | cons next rest ih =>
    intro lo hi pos pureInsert taken start fits ordered ends range sorted bounds
    have nextBounds := bounds next (by simp)
    simp only [clustersFrom]
    split
    · have grouped : taken ++ next :: rest = taken ++ [next] ++ rest := by simp
      rw [grouped] at ordered ⊢
      refine ih _ start (by omega) ordered ?_ (by omega) sorted.of_cons
        (fun change member => bounds change (by simp [member]))
      intro change member
      rcases List.mem_append.mp member with member | member
      · exact (ends change member).trans (Nat.le_max_left _ _)
      · rw [List.mem_singleton.mp member]
        exact Nat.le_max_right _ _
    · rename_i apart
      have gap : hi ≤ next.start := by
        simp only [Bool.or_eq_true, decide_eq_true_eq, not_or, Nat.not_lt] at apart
        exact apart.1
      have starts : ∀ change ∈ next :: rest, next.start ≤ change.start := by
        intro change member
        rcases List.mem_cons.mp member with rfl | member
        · exact Nat.le_refl _
        · have order := List.rel_of_pairwise_cons sorted member
          unfold before at order
          omega
      have split : ∀ theirs, Ordered hi lo (edits taken theirs) ∧
          Ordered base.length next.start (edits (next :: rest) theirs) := by
        intro theirs
        have whole := ordered theirs
        rw [edits_append] at whole
        constructor
        · refine whole.left ?_ range
          intro edit member
          obtain ⟨change, inside, rfl⟩ := mem_edits member
          exact ends change inside
        · refine whole.right (by omega) ?_
          intro edit member
          obtain ⟨change, inside, rfl⟩ := mem_edits member
          exact starts change inside
      have opened : ∀ theirs, Ordered base.length next.start (edits ([next] ++ rest) theirs) := fun theirs => (split theirs).2
      obtain ⟨baseCut, oursCut, theirsCut⟩ := ih (next.start == next.stop) gap nextBounds.1 opened
        (by simp) nextBounds.2 sorted.of_cons (fun change member => bounds change (by simp [member]))
      have side : ∀ theirs, slice base pos lo ++ (patch base hi lo (edits taken theirs) ++
          patch base base.length hi (edits ([next] ++ rest) theirs)) =
          patch base base.length pos (edits (taken ++ next :: rest) theirs) := by
        intro theirs
        have tail := patch_append base (split theirs).1 ((split theirs).2.from_earlier gap)
        have head := patch_start base start (ordered theirs)
        rw [List.singleton_append, tail, ← edits_append, head]
      have cut : slice base pos lo ++ (slice base lo hi ++ base.drop hi) = base.drop pos := by
        rw [← slice_length base hi, slice_split base range fits, slice_split base start (range.trans fits), slice_length]
      simp only [chunks, List.flatMap_cons, Chunk.same, reconstruct_eq, baseCut, oursCut, theirsCut]
      exact ⟨cut, side false, side true⟩

/-- The whole walk cuts the base and what either side's changes make of it. -/
theorem walk_cut {base : List T} (sorted : changes.Pairwise before)
    (bounds : ∀ change ∈ changes, change.start ≤ change.stop ∧ change.stop ≤ base.length)
    (ordered : ∀ flag, Ordered base.length 0 (edits changes flag)) :
    (chunks base 0 (clusters changes)).flatMap Chunk.base = base ∧
    (chunks base 0 (clusters changes)).flatMap Chunk.ours = patch base base.length 0 (edits changes false) ∧
    (chunks base 0 (clusters changes)).flatMap Chunk.theirs = patch base base.length 0 (edits changes true) := by
  cases changes with
  | nil => simp [clusters, chunks, Chunk.same, patch_nil, slice_length]
  | cons first rest =>
    have fits := bounds first (by simp)
    have starts : ∀ flag, Ordered base.length first.start (edits ([first] ++ rest) flag) := by
      intro flag
      refine (ordered flag).from_later (fits.1.trans fits.2) ?_
      intro edit member
      obtain ⟨change, inside, rfl⟩ := mem_edits member
      rcases List.mem_cons.mp inside with rfl | inside
      · exact Nat.le_refl _
      · have order := List.rel_of_pairwise_cons sorted inside
        unfold before at order
        omega
    have cut := walk_chunks (first.start == first.stop) (Nat.zero_le _) fits.2 starts
      (by simp) fits.1 sorted.of_cons (fun change member => (bounds change (by simp [member])).symm)
    simpa only [clusters, List.singleton_append, List.drop_zero] using cut

/-- The common cut of the base and both sides that the diffs give. -/
def commonCut (diff : List T → List T → List DiffOp) (base ours theirs : List T) : List (Chunk T) :=
  chunks base 0 (clusters (sortedChanges diff base ours theirs))

theorem commonCut_covers {diff : List T → List T → List DiffOp}
    (edited : ∀ old new, EditScript old new (diff old new)) (base ours theirs : List T) :
    (commonCut diff base ours theirs).flatMap Chunk.base = base ∧
    (commonCut diff base ours theirs).flatMap Chunk.ours = ours ∧
    (commonCut diff base ours theirs).flatMap Chunk.theirs = theirs := by
  have side := sortedChanges_side edited base ours theirs
  have whole : ∀ flag, Ordered base.length 0 (edits (sortedChanges diff base ours theirs) flag) ∧
      patch base base.length 0 (edits (sortedChanges diff base ours theirs) flag) =
        if flag then theirs else ours := by
    intro flag
    rw [side flag]
    simpa using script_patches flag (edited base (if flag then theirs else ours))
  have sorted : (sortedChanges diff base ours theirs).Pairwise before := List.pairwise_insertionSort before _
  have bounds : ∀ change ∈ sortedChanges diff base ours theirs, change.start ≤ change.stop ∧ change.stop ≤ base.length := by
    intro change member
    have inside : change.toEdit ∈ edits (sortedChanges diff base ours theirs) change.theirs :=
      List.mem_map.mpr ⟨change, List.mem_filter.mpr ⟨member, by simp⟩, rfl⟩
    exact (whole change.theirs).1.width _ inside
  have cut := walk_cut sorted bounds (fun flag => (whole flag).1)
  rw [(whole false).2, (whole true).2] at cut
  exact cut

section Loop
variable [DecidableEq T]

theorem resolve_chunk (base : List T) (cluster : Cluster T) :
    resolve base cluster =
      let chunk : Chunk T := ⟨slice base cluster.lo cluster.hi,
        reconstruct base cluster.lo cluster.hi cluster.changes false,
        reconstruct base cluster.lo cluster.hi cluster.changes true⟩
      if chunk.Conflicting then .error {} else .ok chunk.text := by
  unfold resolve Chunk.Conflicting Chunk.text
  generalize reconstruct base cluster.lo cluster.hi cluster.changes false = ours
  generalize reconstruct base cluster.lo cluster.hi cluster.changes true = theirs
  generalize slice base cluster.lo cluster.hi = stretch
  by_cases both : ours = theirs
  · simp [both]
  · by_cases left : ours = stretch
    · simp [left]
    · by_cases right : theirs = stretch <;> simp [both, left, right]

/-- The loop stops at the first chunk both sides changed differently, and else
emits the chunks' texts one after the other. -/
theorem foldlM_chunks (base : List T) (rest : List (Cluster T)) (out : List T) (pos : Nat) :
    (do let (text, last) ← rest.foldlM (mergeCluster base) (out, pos)
        return text ++ base.drop last : Except Conflicted (List T)) =
      if ∃ chunk ∈ chunks base pos rest, chunk.Conflicting then .error {}
      else .ok (out ++ (chunks base pos rest).flatMap Chunk.text) := by
  induction rest generalizing out pos with
  | nil => simp [chunks, Chunk.same_agrees, bind, Except.bind, pure, Except.pure]
  | cons cluster rest ih =>
    let chunk : Chunk T := ⟨slice base cluster.lo cluster.hi,
      reconstruct base cluster.lo cluster.hi cluster.changes false,
      reconstruct base cluster.lo cluster.hi cluster.changes true⟩
    have resolved : resolve base cluster = if chunk.Conflicting then .error {} else .ok chunk.text :=
      resolve_chunk base cluster
    have unfolded : chunks base pos (cluster :: rest) =
        Chunk.same (slice base pos cluster.lo) :: chunk :: chunks base cluster.hi rest := rfl
    rw [List.foldlM_cons, unfolded, mergeCluster, resolved]
    by_cases conflict : chunk.Conflicting
    · simp [conflict, bind, Except.bind]
    · rw [if_neg conflict]
      have rest := ih (out ++ slice base pos cluster.lo ++ chunk.text) cluster.hi
      simp only [bind, Except.bind, pure, Except.pure] at rest ⊢
      rw [rest]
      simp [conflict, Chunk.same_agrees]

/-- The merge is a conflict when both sides changed a piece differently, and else
the text of every piece, from the side that changed it. -/
theorem merge3_commonCut (diff : List T → List T → List DiffOp) (base ours theirs : List T) :
    merge3 diff base ours theirs =
      if ∃ chunk ∈ commonCut diff base ours theirs, chunk.Conflicting then .error {}
      else .ok ((commonCut diff base ours theirs).flatMap Chunk.text) := by
  have loop := foldlM_chunks base (clusters (sortedChanges diff base ours theirs)) [] 0
  rw [List.nil_append] at loop
  exact loop

/-- The merge of any base and any two sides is sound: it has a common cut with
them, and every piece of it is a side's text for that piece. -/
theorem merge3_sound (diff : List T → List T → List DiffOp)
    (edited : ∀ old new, EditScript old new (diff old new)) (base ours theirs merged : List T)
    (result : merge3 diff base ours theirs = .ok merged) :
    ∃ segments : List (Segment T),
      base = segments.flatMap Segment.base ∧ ours = segments.flatMap Segment.ours ∧
      theirs = segments.flatMap Segment.theirs ∧ merged = segments.flatMap Segment.merged ∧
      ∀ segment ∈ segments,
        segment.ours = segment.theirs ∧ segment.merged = segment.ours ∨
        segment.ours = segment.base ∧ segment.merged = segment.theirs ∨
        segment.theirs = segment.base ∧ segment.merged = segment.ours := by
  obtain ⟨baseCut, oursCut, theirsCut⟩ := commonCut_covers edited base ours theirs
  rw [merge3_commonCut] at result
  split at result
  next => cases result
  next agrees =>
    cases result
    refine ⟨(commonCut diff base ours theirs).map Chunk.segment, ?_, ?_, ?_, ?_, ?_⟩
    · simpa [List.flatMap_map, Chunk.segment] using baseCut.symm
    · simpa [List.flatMap_map, Chunk.segment] using oursCut.symm
    · simpa [List.flatMap_map, Chunk.segment] using theirsCut.symm
    · simp [List.flatMap_map, Chunk.segment]
    · intro segment member
      obtain ⟨chunk, inside, rfl⟩ := List.mem_map.mp member
      exact Chunk.segment_sound (fun conflict => agrees ⟨chunk, inside, conflict⟩)

/-! ## A diff to merge with -/

def commonPrefix : List T → List T → Nat
  | a :: as, b :: bs => if a = b then commonPrefix as bs + 1 else 0
  | _, _ => 0

theorem commonPrefix_take (old new : List T) :
    old.take (commonPrefix old new) = new.take (commonPrefix old new) ∧
      commonPrefix old new ≤ old.length ∧ commonPrefix old new ≤ new.length := by
  induction old generalizing new with
  | nil => simp [commonPrefix]
  | cons a old ih =>
    cases new with
    | nil => simp [commonPrefix]
    | cons b new =>
      unfold commonPrefix
      split
      next same =>
        obtain ⟨prefixes, inOld, inNew⟩ := ih new
        simp [same, prefixes, inOld, inNew]
      next => simp

/-- The run `len` long that stays, when there is one. -/
def keepOp (oldIndex newIndex len : Nat) : List DiffOp :=
  if len = 0 then [] else [.equal oldIndex newIndex len]

/-- The one op for the stretch that changes, when there is one. -/
def changeOp (oldIndex oldLen newIndex newLen : Nat) : List DiffOp :=
  if newLen = 0 then if oldLen = 0 then [] else [.delete oldIndex oldLen newIndex]
  else if oldLen = 0 then [.insert oldIndex newIndex newLen]
  else [.replace oldIndex oldLen newIndex newLen]

/-- The diff that keeps the common head and tail and changes what is between:
what `similar` answers where the two texts differ in one stretch. -/
def trimDiff (old new : List T) : List DiffOp :=
  let head := commonPrefix old new
  let tail := commonPrefix (old.drop head).reverse (new.drop head).reverse
  let gone := old.length - head - tail
  let come := new.length - head - tail
  keepOp 0 0 head ++ changeOp head gone head come ++ keepOp (head + gone) (head + come) tail

theorem trimDiff_edits (old new : List T) : EditScript old new (trimDiff old new) := by
  obtain ⟨heads, headOld, headNew⟩ := commonPrefix_take old new
  let head := commonPrefix old new
  obtain ⟨tails, tailOld, tailNew⟩ := commonPrefix_take (old.drop head).reverse (new.drop head).reverse
  let tail := commonPrefix (old.drop head).reverse (new.drop head).reverse
  have keep : ∀ {i j n : Nat} {ops : List DiffOp}, i + n ≤ old.length → j + n ≤ new.length →
      slice old i (i + n) = slice new j (j + n) → Script old new (i + n) (j + n) ops →
      Script old new i j (keepOp i j n ++ ops) := by
    intro i j n ops inOld inNew same rest
    unfold keepOp
    split
    next none => subst none; exact rest
    next => exact .equal inOld inNew same rest
  have change : ∀ {i j n k : Nat} {ops : List DiffOp}, i + n ≤ old.length → j + k ≤ new.length →
      Script old new (i + n) (j + k) ops → Script old new i j (changeOp i n j k ++ ops) := by
    intro i j n k ops inOld inNew rest
    unfold changeOp
    split
    next noNew =>
      subst noNew
      split
      next noOld => subst noOld; exact rest
      next => exact .delete inOld rest
    next =>
      split
      next noOld => subst noOld; exact .insert inNew rest
      next => exact .replace inOld inNew rest
  simp only [List.length_reverse, List.length_drop] at tailOld tailNew
  have endOld : head + (old.length - head - tail) + tail = old.length := by omega
  have endNew : head + (new.length - head - tail) + tail = new.length := by omega
  have lastOld : slice old (head + (old.length - head - tail)) (head + (old.length - head - tail) + tail) =
      ((old.drop head).reverse.take tail).reverse := by
    rw [endOld, slice_length, List.take_reverse, List.reverse_reverse, List.length_drop, List.drop_drop]
  have lastNew : slice new (head + (new.length - head - tail)) (head + (new.length - head - tail) + tail) =
      ((new.drop head).reverse.take tail).reverse := by
    rw [endNew, slice_length, List.take_reverse, List.reverse_reverse, List.length_drop, List.drop_drop]
  unfold EditScript trimDiff
  rw [List.append_assoc]
  refine keep (by omega) (by omega) ?_ ?_
  · simpa [slice] using heads
  · rw [Nat.zero_add]
    refine change (by omega) (by omega) ?_
    have finished : Script old new (head + (old.length - head - tail) + tail) (head + (new.length - head - tail) + tail) [] := by
      rw [endOld, endNew]
      exact .done
    simpa using keep endOld.le endNew.le (by rw [lastOld, lastNew, tails]) finished

/-- Ours changes the second of three tokens and theirs adds a fourth. -/
theorem merge3_sound_both_sides :
    merge3 trimDiff [1, 2, 3] [1, 9, 3] [1, 2, 3, 4] = .ok [1, 9, 3, 4] ∧
    ∃ segments : List (Segment Nat),
      [1, 2, 3] = segments.flatMap Segment.base ∧ [1, 9, 3] = segments.flatMap Segment.ours ∧
      [1, 2, 3, 4] = segments.flatMap Segment.theirs ∧ [1, 9, 3, 4] = segments.flatMap Segment.merged ∧
      ∀ segment ∈ segments,
        segment.ours = segment.theirs ∧ segment.merged = segment.ours ∨
        segment.ours = segment.base ∧ segment.merged = segment.theirs ∨
        segment.theirs = segment.base ∧ segment.merged = segment.ours :=
  ⟨by decide, merge3_sound trimDiff trimDiff_edits _ _ _ _ (by decide)⟩

end Loop
end Oxplow.Proofs.SmartMerge
