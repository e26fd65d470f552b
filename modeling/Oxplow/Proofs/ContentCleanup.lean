import Oxplow.Library.Machine
import Oxplow.Snapshots.BlobStore

/-! The cleanup expires no content a newest row names, and breaks no blob write, where its
deletions keep clear of the captures under way; nothing makes them. -/

namespace Oxplow.Proofs.ContentCleanup
open Library Snapshots Snapshots.BlobStore

/-- Every path's newest row has the blob that was written for it. -/
def Held (s : BlobStore) : Prop :=
  ∀ r ∈ s.rows, Newest s.rows r → ∀ hash, writes r.row r.contents = some hash → hash ∈ s.blobs

/-- A deletion keeps clear of captures and rows newer than its keep-set: no capture that found
or placed the blob has yet to be recorded, no row recorded since names it, and no capture has
yet to rename the temporary file. -/
def Clear (s : BlobStore) : Event → Prop
  | .delete cleanup hash =>
    (∀ c ∈ s.captures, c.phase = .settled → writes c.row c.contents ≠ some hash) ∧
      ∀ since ∈ s.cleanups[cleanup]?, ∀ r ∈ s.rows, since.seen ≤ r.row.id → writes r.row r.contents ≠ some hash
  | .deleteTemp _ temp => ∀ c ∈ s.captures, c.phase = .temporary temp.2 → writes c.row c.contents ≠ some temp.1
  | _ => True

/-- Where a capture is up to, its files are. -/
def Placed (blobs : Finset String) (temps : Finset (String × Nat)) (counter : Nat) (c : Capture) : Prop :=
  (c.phase = .settled → ∀ hash, writes c.row c.contents = some hash → hash ∈ blobs) ∧
    ∀ n, c.phase = .temporary n → n < counter ∧ ∀ hash, writes c.row c.contents = some hash → (hash, n) ∈ temps

/-- What holds between steps. -/
structure Kept (s : BlobStore) : Prop where
  held : Held s
  placed : ∀ (i : Nat) (c : Capture), s.captures[i]? = some c → Placed s.blobs s.temps s.counter c
  apart : ∀ (i j : Nat) (c d : Capture) (n : Nat), s.captures[i]? = some c → s.captures[j]? = some d →
    c.phase = .temporary n → d.phase = .temporary n → i = j
  rowBound : ∀ r ∈ s.rows, r.row.id < s.nextFile
  /-- A newest row that a keep-set was read after is in it. -/
  keeps : ∀ k ∈ s.cleanups, k.seen ≤ s.nextFile ∧
    ∀ r ∈ s.rows, Newest s.rows r → r.row.id < k.seen → ∀ hash, writes r.row r.contents = some hash → hash ∈ k.keep

variable {s next : BlobStore} {index : Nat} {phase : Phase} {event : Event} {out : Outcome} {found : String × Nat}
  {blobs : Finset String} {temps : Finset (String × Nat)} {counter : Nat} {c : Capture}

theorem blobHash_of_writes {row : FileSnapshot} {contents : Bool} {hash : String} (at_ : writes row contents = some hash) :
    row.blobHash = some hash := by
  unfold writes at at_
  split at at_
  · exact at_
  · exact absurd at_ (Option.some_ne_none _).symm

theorem getElem?_setPhase {i : Nat} (at_ : (s.setPhase index phase).captures[i]? = some c) :
    (i ≠ index ∧ s.captures[i]? = some c) ∨ i = index ∧ ∃ old, s.captures[i]? = some old ∧ c = { old with phase } := by
  simp only [setPhase, List.getElem?_modify, Option.map_eq_map, Option.map_eq_some_iff] at at_
  obtain ⟨old, there, rfl⟩ := at_
  by_cases same : index = i
  · exact .inr ⟨same.symm, old, there, if_pos same⟩
  · exact .inl ⟨Ne.symm same, by rw [if_neg same]; exact there⟩

theorem writing_eq {phaseOf : Phase → Option Nat} (at_ : s.writing index phaseOf = some found) :
    ∃ c, s.captures[index]? = some c ∧ writes c.row c.contents = some found.1 ∧ phaseOf c.phase = some found.2 := by
  simp only [writing, Option.bind_eq_bind, Option.bind_eq_some_iff] at at_
  obtain ⟨c, there, hash, written, n, far, same⟩ := at_
  obtain rfl := Option.some.inj same
  exact ⟨c, there, written, far⟩

theorem Placed.mono (placed : Placed s.blobs s.temps s.counter c) (moreBlobs : s.blobs ⊆ blobs) (moreTemps : s.temps ⊆ temps)
    (grown : s.counter ≤ counter) : Placed blobs temps counter c := by
  refine ⟨fun at_ hash written => moreBlobs (placed.1 at_ hash written), fun n at_ => ?_⟩
  obtain ⟨below, there⟩ := placed.2 n at_
  exact ⟨below.trans_le grown, fun hash written => moreTemps (there hash written)⟩

/-- A capture moves on: the others stay placed, and a temporary file it writes is a new one. -/
theorem Kept.advance (kept : Kept s) (moreBlobs : s.blobs ⊆ blobs)
    (others : ∀ (i : Nat) (c : Capture), i ≠ index → s.captures[i]? = some c → Placed blobs temps counter c)
    (own : ∀ c, s.captures[index]? = some c → Placed blobs temps counter { c with phase })
    (fresh : ∀ n, phase = .temporary n → s.counter ≤ n) :
    Kept { s.setPhase index phase with blobs, temps, counter } where
  held r inside newest hash written := moreBlobs (kept.held r inside newest hash written)
  placed i c at_ := by
    obtain ⟨other, there⟩ | ⟨rfl, old, there, rfl⟩ := getElem?_setPhase at_
    · exact others i c other there
    · exact own old there
  apart i j c d n atI atJ isI isJ := by
    have below : ∀ (i : Nat) (c : Capture), s.captures[i]? = some c → c.phase = .temporary n → n < s.counter :=
      fun i c at_ is => ((kept.placed i c at_).2 n is).1
    obtain ⟨_, thereI⟩ | ⟨rfl, oldI, _, rfl⟩ := getElem?_setPhase atI
    · obtain ⟨_, thereJ⟩ | ⟨rfl, oldJ, _, rfl⟩ := getElem?_setPhase atJ
      · exact kept.apart i j c d n thereI thereJ isI isJ
      · exact absurd (below i c thereI isI) (fresh n isJ).not_gt
    · obtain ⟨_, thereJ⟩ | ⟨rfl, _, _, _⟩ := getElem?_setPhase atJ
      · exact absurd (below j d thereJ isJ) (fresh n isI).not_gt
      · rfl
  rowBound := kept.rowBound
  keeps := kept.keeps

/-- A capture that moves on without leaving a temporary file behind. -/
theorem Kept.setPhase (kept : Kept s) (own : ∀ c, s.captures[index]? = some c → Placed s.blobs s.temps s.counter { c with phase })
    (fresh : ∀ n, phase = .temporary n → s.counter ≤ n) : Kept (s.setPhase index phase) :=
  kept.advance (Finset.Subset.refl _) (fun i c _ at_ => kept.placed i c at_) own fresh

theorem Kept.exists_ (kept : Kept s) (moves : s.step (.exists_ index) = some (next, out)) : Kept next := by
  obtain ⟨found, at_, same⟩ := Option.map_eq_some_iff.mp moves
  obtain ⟨rfl, rfl⟩ := Prod.mk.inj same
  obtain ⟨c, there, written, _⟩ := writing_eq at_
  by_cases present : found.1 ∈ s.blobs
  · rw [if_pos present]
    refine kept.setPhase (fun d atD => ⟨fun _ hash writtenD => ?_, by simp⟩) (by simp)
    obtain rfl := Option.some.inj (there.symm.trans atD)
    obtain rfl := Option.some.inj (written.symm.trans writtenD)
    exact present
  · rw [if_neg present]
    exact kept.setPhase (fun d _ => ⟨by simp, by simp⟩) (by simp)

theorem Kept.writeTemp (kept : Kept s) (moves : s.step (.writeTemp index) = some (next, out)) : Kept next := by
  obtain ⟨found, at_, same⟩ := Option.map_eq_some_iff.mp moves
  obtain ⟨rfl, rfl⟩ := Prod.mk.inj same
  obtain ⟨c, there, written, _⟩ := writing_eq at_
  refine kept.advance (Finset.Subset.refl _) (fun i d _ atD => ?_) (fun d atD => ⟨by simp, fun n is => ?_⟩) ?_
  · exact (kept.placed i d atD).mono (Finset.Subset.refl _) (Finset.subset_insert _ _) (Nat.le_succ _)
  · obtain rfl := Phase.temporary.inj is
    obtain rfl := Option.some.inj (there.symm.trans atD)
    refine ⟨Nat.lt_succ_self _, fun hash writtenD => ?_⟩
    obtain rfl := Option.some.inj (written.symm.trans writtenD)
    exact Finset.mem_insert_self _ _
  · intro n is
    exact (Phase.temporary.inj is).le

/-- With its temporary file in place, a rename puts the blob in place. -/
theorem Kept.rename (kept : Kept s) (moves : s.step (.rename index) = some (next, out)) : Kept next ∧ out ≠ .failed := by
  obtain ⟨found, at_, same⟩ := Option.map_eq_some_iff.mp moves
  obtain ⟨c, there, written, far⟩ := writing_eq at_
  have is : c.phase = .temporary found.2 := by
    cases phase : c.phase <;> simp [phase, atTemporary] at far
    rw [far]
  have present : found ∈ s.temps := ((kept.placed index c there).2 found.2 is).2 found.1 written
  rw [if_pos present] at same
  obtain ⟨rfl, rfl⟩ := Prod.mk.inj same
  refine ⟨kept.advance (Finset.subset_insert _ _) (fun i d other atD => ?_) (fun d atD => ⟨fun _ hash writtenD => ?_, by simp⟩)
    (by simp), by simp⟩
  · have placed := kept.placed i d atD
    refine ⟨fun at_ hash writtenD => Finset.mem_insert_of_mem (placed.1 at_ hash writtenD), fun n isD => ?_⟩
    obtain ⟨below, inTemps⟩ := placed.2 n isD
    refine ⟨below, fun hash writtenD => Finset.mem_erase.mpr ⟨fun clash => other ?_, inTemps hash writtenD⟩⟩
    exact kept.apart i index d c n atD there isD (by rw [is, ← clash])
  · obtain rfl := Option.some.inj (there.symm.trans atD)
    obtain rfl := Option.some.inj (written.symm.trans writtenD)
    exact Finset.mem_insert_self _ _

theorem Kept.capture (kept : Kept s) {row : FileSnapshot} {contents : Bool}
    (moves : s.step (.capture row contents) = some (next, out)) : Kept next := by
  obtain ⟨rfl, rfl⟩ := Prod.mk.inj (Option.some.inj moves)
  have untemporary : ∀ n, (if (writes row contents).isSome = true then Phase.hashed else .settled) ≠ .temporary n := by
    intro n
    split <;> simp
  have new : ∀ (i : Nat) (c : Capture),
      (s.captures ++ [⟨row, contents, if (writes row contents).isSome = true then .hashed else .settled⟩])[i]? = some c →
        s.captures[i]? = some c ∨ c = ⟨row, contents, if (writes row contents).isSome = true then .hashed else .settled⟩ := by
    intro i c at_
    rcases List.mem_append.mp (List.mem_of_getElem? at_) with _ | last
    · rw [List.getElem?_append] at at_
      split at at_
      · exact .inl at_
      · exact .inr (List.mem_singleton.mp (List.mem_of_getElem? at_))
    · exact .inr (List.mem_singleton.mp last)
  refine ⟨kept.held, fun i c at_ => ?_, fun i j c d n atI atJ isI isJ => ?_, kept.rowBound, kept.keeps⟩
  · rcases new i c at_ with there | rfl
    · exact kept.placed i c there
    · refine ⟨fun is hash written => ?_, fun n is => absurd is (untemporary n)⟩
      simp [written] at is
  · rcases new i c atI with thereI | rfl
    · rcases new j d atJ with thereJ | rfl
      · exact kept.apart i j c d n thereI thereJ isI isJ
      · exact absurd isJ (untemporary n)
    · exact absurd isI (untemporary n)

/-- What is newest with one row more was newest before, or is that row. -/
theorem newest_of_append {rows : List StoredRow} {r last : StoredRow} (newest : Newest (rows ++ [last]) r) : Newest rows r :=
  fun other inside => newest other (List.mem_append_left _ inside)

theorem Kept.commit (kept : Kept s) (moves : s.step (.commit index) = some (next, out)) : Kept next := by
  obtain ⟨c, at_, same⟩ := Option.map_eq_some_iff.mp moves
  obtain ⟨rfl, rfl⟩ := Prod.mk.inj same
  obtain ⟨there, is⟩ := Option.filter_eq_some_iff.mp at_
  have moved : Kept (s.setPhase index .over) := kept.setPhase (fun d _ => ⟨by simp, by simp⟩) (by simp)
  refine ⟨fun r inside newest hash written => ?_, moved.placed, moved.apart, fun r inside => ?_, fun k inside => ⟨?_, ?_⟩⟩
  · rcases List.mem_append.mp inside with inside | last
    · exact kept.held r inside (newest_of_append newest) hash written
    · obtain rfl := List.mem_singleton.mp last
      exact (kept.placed index c there).1 (of_decide_eq_true is) hash written
  · rcases List.mem_append.mp inside with inside | last
    · exact (kept.rowBound r inside).trans (Nat.lt_succ_self _)
    · obtain rfl := List.mem_singleton.mp last
      exact Nat.lt_succ_self _
  · exact (kept.keeps k inside).1.trans (Nat.le_succ _)
  · intro r inRows newest before hash written
    rcases List.mem_append.mp inRows with inRows | last
    · exact (kept.keeps k inside).2 r inRows (newest_of_append newest) before hash written
    · obtain rfl := List.mem_singleton.mp last
      exact absurd before (kept.keeps k inside).1.not_gt

theorem mem_retained {rows : List StoredRow} {r : StoredRow} {cutoff : Nat} {hash : String} (inside : r ∈ rows) (newest : Newest rows r)
    (written : writes r.row r.contents = some hash) : hash ∈ retained rows cutoff :=
  List.mem_filterMap.mpr ⟨r, List.mem_filter.mpr ⟨inside, decide_eq_true (.inr newest)⟩, blobHash_of_writes written⟩

theorem Kept.readKeep (kept : Kept s) {cutoff : Nat} (moves : s.step (.readKeep cutoff) = some (next, out)) : Kept next := by
  obtain ⟨rfl, rfl⟩ := Prod.mk.inj (Option.some.inj moves)
  refine ⟨kept.held, kept.placed, kept.apart, kept.rowBound, fun k inside => ?_⟩
  rcases List.mem_append.mp inside with inside | last
  · exact kept.keeps k inside
  · obtain rfl := List.mem_singleton.mp last
    exact ⟨le_rfl, fun r inRows newest _ hash written => mem_retained inRows newest written⟩

/-- A deletion clear of what is under way takes no newest row's blob. -/
theorem Kept.delete (kept : Kept s) {cleanup : Nat} {name : String} (clear : Clear s (.delete cleanup name))
    (moves : s.step (.delete cleanup name) = some (next, out)) : Kept next := by
  obtain ⟨k, at_, same⟩ := Option.map_eq_some_iff.mp moves
  obtain ⟨rfl, rfl⟩ := Prod.mk.inj same
  obtain ⟨there, unkept⟩ := Option.filter_eq_some_iff.mp at_
  have unkept : name ∉ k.keep := of_decide_eq_true unkept
  refine ⟨fun r inside newest hash written => ?_, fun i c at_ => ⟨fun is hash written => ?_, (kept.placed i c at_).2⟩, kept.apart,
    kept.rowBound, kept.keeps⟩
  · refine Finset.mem_erase.mpr ⟨?_, kept.held r inside newest hash written⟩
    rintro rfl
    by_cases early : r.row.id < k.seen
    · exact unkept ((kept.keeps k (List.mem_of_getElem? there)).2 r inside newest early hash written)
    · exact clear.2 k there r inside (Nat.le_of_not_lt early) written
  · refine Finset.mem_erase.mpr ⟨?_, (kept.placed i c at_).1 is hash written⟩
    rintro rfl
    exact clear.1 c (List.mem_of_getElem? at_) is written

theorem Kept.deleteTemp (kept : Kept s) {cleanup : Nat} {temp : String × Nat} (clear : Clear s (.deleteTemp cleanup temp))
    (moves : s.step (.deleteTemp cleanup temp) = some (next, out)) : Kept next := by
  obtain ⟨_, _, same⟩ := Option.map_eq_some_iff.mp moves
  obtain ⟨rfl, rfl⟩ := Prod.mk.inj same
  refine ⟨kept.held, fun i c at_ => ⟨(kept.placed i c at_).1, fun n is => ?_⟩, kept.apart, kept.rowBound, kept.keeps⟩
  obtain ⟨below, there⟩ := (kept.placed i c at_).2 n is
  refine ⟨below, fun hash written => Finset.mem_erase.mpr ⟨?_, there hash written⟩⟩
  rintro rfl
  exact clear c (List.mem_of_getElem? at_) is written

theorem Kept.restart (kept : Kept s) (moves : s.step .restart = some (next, out)) : Kept next := by
  obtain ⟨rfl, rfl⟩ := Prod.mk.inj (Option.some.inj moves)
  exact ⟨kept.held, by simp, by simp, kept.rowBound, by simp⟩

theorem kept_start : Kept start := by
  constructor <;> simp [start, Held]

/-- Only a rename can fail. -/
theorem done_of_moves (moves : s.step event = some (next, out)) (other : ∀ index, event ≠ .rename index) : out = .done := by
  cases event with
  | rename index => exact absurd rfl (other index)
  | _ =>
    simp only [BlobStore.step, Option.map_eq_some_iff, Option.some.injEq, Prod.mk.injEq] at moves
    grind

theorem Kept.step (kept : Kept s) (clear : Clear s event) (moves : s.step event = some (next, out)) : Kept next ∧ out ≠ .failed := by
  have unfailing : (∀ index, event ≠ .rename index) → out ≠ .failed := fun other => by simp [done_of_moves moves other]
  cases event with
  | capture row contents => exact ⟨kept.capture moves, unfailing (by simp)⟩
  | exists_ index => exact ⟨kept.exists_ moves, unfailing (by simp)⟩
  | writeTemp index => exact ⟨kept.writeTemp moves, unfailing (by simp)⟩
  | rename index => exact kept.rename moves
  | commit index => exact ⟨kept.commit moves, unfailing (by simp)⟩
  | drop index =>
    refine ⟨?_, unfailing (by simp)⟩
    obtain ⟨rfl, rfl⟩ := Prod.mk.inj (Option.some.inj moves)
    exact kept.setPhase (fun d _ => ⟨by simp, by simp⟩) (by simp)
  | readKeep cutoff => exact ⟨kept.readKeep moves, unfailing (by simp)⟩
  | delete cleanup name => exact ⟨kept.delete clear moves, unfailing (by simp)⟩
  | deleteTemp cleanup temp => exact ⟨kept.deleteTemp clear moves, unfailing (by simp)⟩
  | restart => exact ⟨kept.restart moves, unfailing (by simp)⟩

theorem kept_run {events : List Event} (clear : Machine.Admits BlobStore.step Clear start events) :
    Kept (Machine.run BlobStore.step start events) := by
  have run := Machine.run_allowed (fun _ _ => True) (fun _ => trivial) (fun _ _ => trivial) Kept
    (fun s event next out kept clear moves => ⟨(kept.step clear moves).1, trivial⟩) kept_start clear
  exact run.1

instance (s : BlobStore) : DecidablePred (Clear s) := fun event => by
  cases event <;> unfold Clear <;> infer_instance

/-- A file read and hashed, of no path's row yet. -/
def edited : FileSnapshot := ⟨0, 1, "a.rs", some "h", 3, 20, .oxplow, none, some 7, none⟩

/-- A cleanup's keep-set is read after the blob is in place and before its row is. -/
def expiring : List Event :=
  [.capture edited true, .exists_ 0, .writeTemp 0, .rename 0, .readKeep 10, .delete 0 "h", .commit 0]

/-- A cleanup comes between a blob's temporary file and its rename. -/
def breaking : List Event := [.capture edited true, .exists_ 0, .writeTemp 0, .readKeep 10, .deleteTemp 0 ("h", 0)]

end Oxplow.Proofs.ContentCleanup
