import Oxplow.Library.Machine
import Oxplow.Proofs.SnapshotReads

/-! Takes keep the history in order, so every reading of every snapshot they leave agrees. -/

namespace Oxplow.Proofs.SnapshotTakes
open Library Snapshots Snapshots.SnapshotDb SnapshotReads

variable {η : Type} {db db' : SnapshotDb η} {take : TakeRecord} {n s : Snapshot η} {row : FileSnapshot} {path : String}

/-! ## Rows of a new snapshot -/

/-- A take's rows as they are stored. -/
def storedRows (db : SnapshotDb η) (take : TakeRecord) : List FileSnapshot :=
  (take.rows.map fun row => { row with snapshotId := some db.nextSnapshot }).mapIdx fun n row =>
    { row with id := db.nextFile + n, contentHash := row.storedHash }

/-- `db'` has one snapshot more, with the take's rows under it. -/
structure Appends (db db' : SnapshotDb η) (take : TakeRecord) (n : Snapshot η) : Prop where
  snapshots : db'.snapshots = db.snapshots ++ [n]
  id : n.id = db.nextSnapshot
  stream : n.streamId = take.streamId
  files : db'.files = db.files ++ storedRows db take
  nextSnapshot : db'.nextSnapshot = db.nextSnapshot + 1
  nextFile : db'.nextFile = db.nextFile + take.rows.length

theorem mem_storedRows (member : row ∈ storedRows db take) :
    ∃ (i : Nat) (raw : FileSnapshot), take.rows[i]? = some raw ∧
      row = { raw with snapshotId := some db.nextSnapshot, id := db.nextFile + i, contentHash := raw.storedHash } := by
  obtain ⟨i, inside, rfl⟩ := List.mem_mapIdx.mp member
  rw [List.length_map] at inside
  exact ⟨i, take.rows[i], List.getElem?_eq_getElem inside, by rw [List.getElem_map]; rfl⟩

theorem storedHash_stored (row : FileSnapshot) :
    ({ row with contentHash := row.storedHash } : FileSnapshot).storedHash = row.storedHash := by
  simp only [FileSnapshot.storedHash]
  cases row.contentHash <;> simp

theorem told_stored (told : row.Told) : ({ row with contentHash := row.storedHash } : FileSnapshot).Told := by
  unfold FileSnapshot.Told FileSnapshot.storedHash at *
  cases storage : row.storage <;> simp_all

theorem storedRows_ordered : (storedRows db take).Pairwise fun a b => a.id < b.id ∧ under a ≤ under b ∧ (under a = under b → a.path ≠ b.path) := by
  refine List.pairwise_iff_getElem.mpr fun i j inI inJ less => ?_
  have distinct := List.pairwise_iff_getElem.mp take.distinct
  simp only [storedRows, List.length_mapIdx, List.length_map] at inI inJ
  simp only [storedRows, List.getElem_mapIdx, List.getElem_map, under]
  exact ⟨by omega, le_rfl, fun _ => distinct i j inI inJ less⟩

theorem Appends.rows (appends : Appends db db' take n) (kept : Rows db) : Rows db' where
  snapshotsUp := by
    rw [appends.snapshots]
    refine List.pairwise_append.mpr ⟨kept.snapshotsUp, List.pairwise_singleton _ _, fun a inside b last => ?_⟩
    obtain rfl := List.mem_singleton.mp last
    exact appends.id ▸ kept.snapshotBound a inside
  snapshotBound := by
    intro a inside
    rw [appends.snapshots] at inside
    rw [appends.nextSnapshot]
    rcases List.mem_append.mp inside with inside | last
    · have := kept.snapshotBound a inside
      omega
    · obtain rfl := List.mem_singleton.mp last
      have := appends.id
      omega
  filesUp := by
    rw [appends.files]
    refine List.pairwise_append.mpr ⟨kept.filesUp, storedRows_ordered, fun a inside b new => ?_⟩
    obtain ⟨i, raw, _, rfl⟩ := mem_storedRows new
    obtain ⟨t, inT, at_, _⟩ := kept.filed a inside
    have bound := kept.fileBound a inside
    have below := kept.snapshotBound t inT
    have under_a : under a = t.id := by simp [under, at_]
    have under_b : under ({ raw with snapshotId := some db.nextSnapshot, id := db.nextFile + i, contentHash := raw.storedHash } : FileSnapshot) = db.nextSnapshot := rfl
    rw [under_b, under_a]
    exact ⟨Nat.lt_of_lt_of_le bound (Nat.le_add_right _ _), below.le, fun same => absurd same below.ne⟩
  fileBound := by
    intro a inside
    rw [appends.files] at inside
    rw [appends.nextFile]
    rcases List.mem_append.mp inside with inside | new
    · have := kept.fileBound a inside
      omega
    · obtain ⟨i, raw, at_, rfl⟩ := mem_storedRows new
      have := (List.getElem?_eq_some_iff.mp at_).1
      exact Nat.add_lt_add_left this _
  filed := by
    intro a inside
    rw [appends.files] at inside
    rw [appends.snapshots]
    rcases List.mem_append.mp inside with inside | new
    · obtain ⟨t, inT, rest⟩ := kept.filed a inside
      exact ⟨t, List.mem_append_left _ inT, rest⟩
    · obtain ⟨i, raw, at_, rfl⟩ := mem_storedRows new
      refine ⟨n, List.mem_append_right _ List.mem_cons_self, by rw [appends.id], ?_⟩
      rw [appends.stream]
      exact take.own raw (List.mem_of_getElem? at_)
  told := by
    intro a inside
    rw [appends.files] at inside
    rcases List.mem_append.mp inside with inside | new
    · exact kept.told a inside
    · obtain ⟨i, raw, at_, rfl⟩ := mem_storedRows new
      exact ⟨told_stored (take.told raw (List.mem_of_getElem? at_)), storedHash_stored raw⟩

/-! ## Trees under a new snapshot -/

/-- What a tree is read from. -/
theorem treeAt_congr {id : Nat} (stream : (db'.snapshot? id).map (·.streamId) = (db.snapshot? id).map (·.streamId))
    (rows : ∀ stream, db'.rowsUpTo stream id = db.rowsUpTo stream id) : db'.treeAt id = db.treeAt id := by
  unfold treeAt
  cases there : db.snapshot? id <;> cases here : db'.snapshot? id <;> simp_all

theorem Appends.treeAt_old (appends : Appends db db' take n) (kept : Rows db) (member : s ∈ db.snapshots) :
    db'.treeAt s.id = db.treeAt s.id := by
  have inside : s ∈ db'.snapshots := by
    rw [appends.snapshots]
    exact List.mem_append_left _ member
  refine treeAt_congr ?_ fun stream => ?_
  · rw [kept.snapshot?_of_mem member, (appends.rows kept).snapshot?_of_mem inside]
  · have below := kept.snapshotBound s member
    have none_ : (storedRows db take).filter (fun row => row.streamId = stream ∧ row.snapshotId.any (· ≤ s.id)) = [] := by
      refine List.filter_eq_nil_iff.mpr fun row new => ?_
      obtain ⟨i, raw, _, rfl⟩ := mem_storedRows new
      simp [below]
    rw [rowsUpTo, appends.files, List.filter_append, none_, List.append_nil, rowsUpTo]

theorem Appends.previous_new (appends : Appends db db' take n) (kept : Rows db) :
    previous db' n = ((db.snapshots.filter (·.streamId = take.streamId)).getLast?).map (·.id) := by
  rw [previous, appends.snapshots, List.filter_append]
  have self : [n].filter (fun t => t.streamId = n.streamId ∧ t.id < n.id) = [] := by simp
  rw [self, List.append_nil, appends.stream, appends.id]
  congr 2
  exact List.filter_congr fun t inside => by simp [kept.snapshotBound t inside]

theorem Appends.previous_old (appends : Appends db db' take n) (kept : Rows db) (member : s ∈ db.snapshots) :
    previous db' s = previous db s := by
  have below := kept.snapshotBound s member
  have fresh : [n].filter (fun t => t.streamId = s.streamId ∧ t.id < s.id) = [] := by
    simp [appends.id, below.le]
  rw [previous, appends.snapshots, List.filter_append, fresh, List.append_nil, previous]

theorem Appends.recorded_new (appends : Appends db db' take n) (kept : Rows db) : recorded db' n = storedRows db take := by
  have old : db.files.filter (·.snapshotId = some n.id) = [] := by
    refine List.filter_eq_nil_iff.mpr fun row inside => ?_
    obtain ⟨t, inT, at_, _⟩ := kept.filed row inside
    have := kept.snapshotBound t inT
    simp [at_, appends.id, this.ne]
  have new : (storedRows db take).filter (·.snapshotId = some n.id) = storedRows db take := by
    refine List.filter_eq_self.mpr fun row inside => ?_
    obtain ⟨i, raw, _, rfl⟩ := mem_storedRows inside
    simp [appends.id]
  rw [recorded, appends.files, List.filter_append, old, new, List.nil_append]

theorem Appends.treeFrom (appends : Appends db db' take n) (kept : Rows db) :
    db'.treeFrom (previous db' n) = db.treeFrom (previous db' n) := by
  rw [appends.previous_new kept]
  cases last : (db.snapshots.filter (·.streamId = take.streamId)).getLast? with
  | none => rfl
  | some t => exact appends.treeAt_old kept (List.mem_filter.mp (List.mem_of_getLast? last)).1

/-- The new snapshot's tree is the stream's tree before with the take's rows over it. -/
theorem Appends.treeAt_new (appends : Appends db db' take n) (kept : Rows db) :
    db'.treeAt n.id = overlay (db.treeFrom (previous db' n)) take.rows := by
  have inside : n ∈ db'.snapshots := by
    rw [appends.snapshots]
    exact List.mem_append_right _ List.mem_cons_self
  refine Std.ExtTreeMap.ext_getElem? fun path => ?_
  rw [(appends.rows kept).getElem?_treeAt_recorded inside, appends.treeFrom kept, appends.recorded_new kept, getElem?_overlay]
  refine congrFun (Overlay.lay_of_map ?_) path
  refine List.ext_getElem (by simp [storedRows]) fun i _ _ => ?_
  simp [storedRows, storedEntry, entryOf, FileSnapshot.toEntry, FileSnapshot.storedHash]

/-! ## Between takes -/

variable (digest : List (String × String) → η)

/-- Between takes: the rows are in order, each stream stands at its last snapshot, every
snapshot has its tree's hash and the op that made it, with the snapshot before as its parent. -/
structure Kept (db : SnapshotDb η) : Prop extends Rows db where
  opsUp : db.ops.Pairwise fun a b => a.seq < b.seq
  opBound : ∀ op ∈ db.ops, op.seq < db.nextOp
  opSnapshots : ∀ op ∈ db.ops, op.snapshotId < db.nextSnapshot ∧ ∀ p, op.parentSnapshotId = some p → p < db.nextSnapshot
  current : ∀ stream, (db.ops.filter (·.streamId = stream)).getLast?.map (·.snapshotId) =
    (db.snapshots.filter (·.streamId = stream)).getLast?.map (·.id)
  hashed : ∀ s ∈ db.snapshots, s.treeHash = some (manifestHash digest (db.treeAt s.id))
  parents : ∀ op ∈ db.ops, op.Made → ∃ s ∈ db.snapshots, s.id = op.snapshotId ∧ op.parentSnapshotId = previous db s
  made : ∀ s ∈ db.snapshots, ∃ op ∈ db.ops, op.snapshotId = s.id ∧ op.Made

variable {digest}

theorem kept_empty : Kept digest (SnapshotDb.empty : SnapshotDb η) := by
  refine ⟨⟨?_, ?_, ?_, ?_, ?_, ?_⟩, ?_, ?_, ?_, ?_, ?_, ?_, ?_⟩ <;> simp [SnapshotDb.empty]

theorem Kept.currentSnapshot_eq (kept : Kept digest db) (stream : Nat) :
    db.currentSnapshot stream = (db.snapshots.filter (·.streamId = stream)).getLast?.map (·.id) := by
  rw [currentSnapshot, Overlay.head?_mergeSort, kept.current]
  · refine List.Pairwise.sublist List.filter_sublist (kept.opsUp.imp fun up => ?_)
    simpa using up
  · intro x y z
    simp only [decide_eq_true_eq]
    omega
  · intro x y
    simp only [Bool.or_eq_true, decide_eq_true_eq]
    omega

/-- The snapshot a stream stands at is one of its own. -/
theorem Kept.current_mem (kept : Kept digest db) {stream p : Nat} (at_ : db.currentSnapshot stream = some p) :
    ∃ s ∈ db.snapshots, s.id = p ∧ s.streamId = stream := by
  rw [kept.currentSnapshot_eq] at at_
  obtain ⟨s, last, rfl⟩ := Option.map_eq_some_iff.mp at_
  obtain ⟨inside, own⟩ := List.mem_filter.mp (List.mem_of_getLast? last)
  exact ⟨s, inside, rfl, of_decide_eq_true own⟩

/-- Only the operation log grows: the take found the worktree as the stream's snapshot has it. -/
structure Restates (db db' : SnapshotDb η) (take : TakeRecord) (op : SnapshotOp) : Prop where
  snapshots : db'.snapshots = db.snapshots
  files : db'.files = db.files
  ops : db'.ops = db.ops ++ [op]
  seq : op.seq = db.nextOp
  nextOp : db'.nextOp = db.nextOp + 1
  stream : op.streamId = take.streamId
  found : db.currentSnapshot take.streamId = some op.snapshotId
  parent : op.parentSnapshotId = some op.snapshotId
  nextSnapshot : db.nextSnapshot ≤ db'.nextSnapshot
  nextFile : db.nextFile ≤ db'.nextFile

variable {op : SnapshotOp}

theorem Restates.treeAt (restates : Restates db db' take op) (id : Nat) : db'.treeAt id = db.treeAt id := by
  refine treeAt_congr ?_ fun stream => ?_
  · rw [snapshot?, restates.snapshots, snapshot?]
  · rw [rowsUpTo, restates.files, rowsUpTo]

theorem ops_concat (up : db.ops.Pairwise fun a b => a.seq < b.seq) (bound : ∀ op ∈ db.ops, op.seq < db.nextOp)
    (seq : op.seq = db.nextOp) :
    (db.ops ++ [op]).Pairwise (fun a b => a.seq < b.seq) ∧ ∀ o ∈ db.ops ++ [op], o.seq < db.nextOp + 1 := by
  refine ⟨List.pairwise_append.mpr ⟨up, List.pairwise_singleton _ _, fun a inside b last => ?_⟩, fun o inside => ?_⟩
  · obtain rfl := List.mem_singleton.mp last
    exact seq ▸ bound a inside
  · rcases List.mem_append.mp inside with inside | last
    · exact (bound o inside).trans (Nat.lt_succ_self _)
    · obtain rfl := List.mem_singleton.mp last
      exact seq ▸ Nat.lt_succ_self _

theorem last_concat {α : Type} {items : List α} {item : α} {keep : α → Bool} :
    ((items ++ [item]).filter keep).getLast? = if keep item then some item else (items.filter keep).getLast? := by
  cases kept : keep item <;> simp [List.filter_append, kept]

theorem Restates.kept (restates : Restates db db' take op) (kept : Kept digest db) : Kept digest db' := by
  obtain ⟨opsUp, opBound⟩ := ops_concat kept.opsUp kept.opBound restates.seq
  obtain ⟨p, inP, at_, stream⟩ := kept.current_mem restates.found
  have below := kept.snapshotBound p inP
  have grown := restates.nextSnapshot
  have unmade : ¬ op.Made := fun made => made restates.parent
  constructor
  · constructor
    · rw [restates.snapshots]
      exact kept.snapshotsUp
    · rw [restates.snapshots]
      exact fun s inside => (kept.snapshotBound s inside).trans_le restates.nextSnapshot
    · rw [restates.files]
      exact kept.filesUp
    · rw [restates.files]
      exact fun row inside => (kept.fileBound row inside).trans_le restates.nextFile
    · rw [restates.files, restates.snapshots]
      exact kept.filed
    · rw [restates.files]
      exact kept.told
  · rw [restates.ops]
    exact opsUp
  · rw [restates.ops, restates.nextOp]
    exact opBound
  · rw [restates.ops]
    intro o inside
    rcases List.mem_append.mp inside with inside | last
    · exact ⟨(kept.opSnapshots o inside).1.trans_le grown, fun q at_ => ((kept.opSnapshots o inside).2 q at_).trans_le grown⟩
    · obtain rfl := List.mem_singleton.mp last
      rw [restates.parent, ← at_]
      refine ⟨below.trans_le grown, fun q same => ?_⟩
      obtain rfl := Option.some.inj same
      exact below.trans_le grown
  · intro stream'
    rw [restates.ops, restates.snapshots, last_concat, ← kept.current]
    by_cases own : op.streamId = stream'
    · have here := restates.found
      rw [kept.currentSnapshot_eq, ← restates.stream, own] at here
      rw [if_pos (decide_eq_true own), kept.current, here]
      rfl
    · rw [if_neg (by simpa using own)]
  · rw [restates.snapshots]
    intro s inside
    rw [restates.treeAt]
    exact kept.hashed s inside
  · rw [restates.ops, restates.snapshots]
    intro o inside made
    rcases List.mem_append.mp inside with inside | last
    · obtain ⟨s, inS, at_, parent⟩ := kept.parents o inside made
      refine ⟨s, inS, at_, ?_⟩
      rw [parent, previous, previous, restates.snapshots]
    · obtain rfl := List.mem_singleton.mp last
      exact absurd made unmade
  · rw [restates.ops, restates.snapshots]
    intro s inside
    obtain ⟨o, inO, rest⟩ := kept.made s inside
    exact ⟨o, List.mem_append_left _ inO, rest⟩

variable (digest) in
/-- The take made a snapshot. -/
structure Makes (db db' : SnapshotDb η) (take : TakeRecord) (n : Snapshot η) (op : SnapshotOp) : Prop
    extends Appends db db' take n where
  ops : db'.ops = db.ops ++ [op]
  seq : op.seq = db.nextOp
  nextOp : db'.nextOp = db.nextOp + 1
  opStream : op.streamId = take.streamId
  opSnapshot : op.snapshotId = n.id
  parent : op.parentSnapshotId = db.currentSnapshot take.streamId
  hash : n.treeHash = some (manifestHash digest (db'.treeAt n.id))

theorem Makes.kept (makes : Makes digest db db' take n op) (kept : Kept digest db) : Kept digest db' := by
  obtain ⟨opsUp, opBound⟩ := ops_concat kept.opsUp kept.opBound makes.seq
  have appends := makes.toAppends
  have new : previous db' n = db.currentSnapshot take.streamId := by
    rw [appends.previous_new kept.toRows, kept.currentSnapshot_eq]
  have below : ∀ p, op.parentSnapshotId = some p → p < db.nextSnapshot := by
    intro p at_
    rw [makes.parent] at at_
    obtain ⟨s, inside, rfl, _⟩ := kept.current_mem at_
    exact kept.snapshotBound s inside
  have made : op.Made := fun same => by
    have := below _ same
    rw [makes.opSnapshot, makes.id] at this
    exact absurd this (Nat.lt_irrefl _)
  refine ⟨appends.rows kept.toRows, ?_, ?_, ?_, ?_, ?_, ?_, ?_⟩
  · rw [makes.ops]
    exact opsUp
  · rw [makes.ops, makes.nextOp]
    exact opBound
  · rw [makes.ops, makes.nextSnapshot]
    intro o inside
    rcases List.mem_append.mp inside with inside | last
    · have bounds := kept.opSnapshots o inside
      exact ⟨bounds.1.trans (Nat.lt_succ_self _), fun q at_ => (bounds.2 q at_).trans (Nat.lt_succ_self _)⟩
    · obtain rfl := List.mem_singleton.mp last
      rw [makes.opSnapshot, makes.id]
      exact ⟨Nat.lt_succ_self _, fun q at_ => (below q at_).trans (Nat.lt_succ_self _)⟩
  · intro stream
    rw [makes.ops, makes.snapshots, last_concat, last_concat, makes.opStream, makes.stream]
    by_cases own : take.streamId = stream
    · rw [if_pos (decide_eq_true own), if_pos (decide_eq_true own), Option.map_some, Option.map_some, makes.opSnapshot]
    · rw [if_neg (by simpa using own), if_neg (by simpa using own), kept.current]
  · rw [makes.snapshots]
    intro s inside
    rcases List.mem_append.mp inside with inside | last
    · rw [appends.treeAt_old kept.toRows inside]
      exact kept.hashed s inside
    · obtain rfl := List.mem_singleton.mp last
      exact makes.hash
  · rw [makes.ops, makes.snapshots]
    intro o inside opMade
    rcases List.mem_append.mp inside with inside | last
    · obtain ⟨s, inS, at_, parent⟩ := kept.parents o inside opMade
      exact ⟨s, List.mem_append_left _ inS, at_, parent.trans (appends.previous_old kept.toRows inS).symm⟩
    · obtain rfl := List.mem_singleton.mp last
      exact ⟨n, List.mem_append_right _ List.mem_cons_self, makes.opSnapshot.symm, makes.parent.trans new.symm⟩
  · rw [makes.ops, makes.snapshots]
    intro s inside
    rcases List.mem_append.mp inside with inside | last
    · obtain ⟨o, inO, rest⟩ := kept.made s inside
      exact ⟨o, List.mem_append_left _ inO, rest⟩
    · obtain rfl := List.mem_singleton.mp last
      exact ⟨op, List.mem_append_right _ List.mem_cons_self, makes.opSnapshot, made⟩

/-! ## A take -/

theorem staged_appends : Appends db (staged db take) take ⟨db.nextSnapshot, take.streamId, take.branch, take.revision, none⟩ := by
  constructor <;> simp [staged, insertRows, insertSnapshot, storedRows]

theorem overlay_map {tree : SnapshotTree} {rows : List FileSnapshot} (id : Nat) :
    overlay tree (rows.map fun row => { row with snapshotId := some id }) = overlay tree rows := by
  rw [overlay, List.foldl_map]
  rfl

/-- A tree read before a transaction is the one its snapshot still has. -/
def Read (db : SnapshotDb η) (before : ParentTree) : Prop :=
  ∀ read, before = some read → ∃ s ∈ db.snapshots, s.id = read.1 ∧ read.2 = db.treeAt read.1

variable {before : ParentTree}

/-- Read before or in the transaction, the tree that is hashed is the stream's with the take's rows over it. -/
theorem takeTree_eq (kept : Kept digest db) (valid : Read db before) :
    (staged db take).takeTree db.nextSnapshot (take.rows.map fun row => { row with snapshotId := some db.nextSnapshot })
        (db.currentSnapshot take.streamId) before =
      overlay (db.treeFrom (db.currentSnapshot take.streamId)) take.rows := by
  have whole : (staged db take).treeAt db.nextSnapshot = overlay (db.treeFrom (db.currentSnapshot take.streamId)) take.rows := by
    rw [kept.currentSnapshot_eq, ← staged_appends.previous_new kept.toRows]
    exact staged_appends.treeAt_new kept.toRows
  cases before with
  | none => exact whole
  | some read =>
    rw [takeTree]
    split
    next same =>
      obtain ⟨_, _, _, tree⟩ := valid read rfl
      rw [← same, overlay_map, tree]
      rfl
    next => exact whole

/-- The op a take adds. -/
def opOf (take : TakeRecord) (parent : Option Nat) (recorded : Recorded η) : SnapshotOp :=
  ⟨recorded.db.nextOp, take.streamId, recorded.snapshotId, parent, take.trigger, take.threadId, take.turnId, take.effortId,
    take.elapsedMs, take.budgetMs, overBudget take, recorded.fileCount, take.provider, take.contents, take.handle⟩

theorem conclude_frame (take : TakeRecord) (parent : Option Nat) (recorded : Recorded η) :
    (conclude take parent recorded).2.snapshots = recorded.db.snapshots ∧
      (conclude take parent recorded).2.files = recorded.db.files ∧
      (conclude take parent recorded).2.ops = recorded.db.ops ++ [opOf take parent recorded] ∧
      (conclude take parent recorded).2.nextSnapshot = recorded.db.nextSnapshot ∧
      (conclude take parent recorded).2.nextFile = recorded.db.nextFile ∧
      (conclude take parent recorded).2.nextOp = recorded.db.nextOp + 1 := by
  unfold conclude endTurn
  cases take.turnId <;> exact ⟨rfl, rfl, rfl, rfl, rfl, rfl⟩

/-- The snapshot's rows go with it, and the store is as it was but for the ids used up. -/
theorem deleted_staged (kept : Kept digest db) (take : TakeRecord) :
    ((staged db take).deleteSnapshot db.nextSnapshot).snapshots = db.snapshots ∧
      ((staged db take).deleteSnapshot db.nextSnapshot).files = db.files ∧
      ((staged db take).deleteSnapshot db.nextSnapshot).ops = db.ops := by
  have appends : Appends db (staged db take) take ⟨db.nextSnapshot, take.streamId, take.branch, take.revision, none⟩ := staged_appends
  refine ⟨?_, ?_, ?_⟩
  · rw [deleteSnapshot, appends.snapshots, List.filter_append]
    have old : db.snapshots.filter (·.id ≠ db.nextSnapshot) = db.snapshots :=
      List.filter_eq_self.mpr fun s inside => decide_eq_true (kept.snapshotBound s inside).ne
    simp only [old]
    simp
  · have old : db.files.filter (·.snapshotId ≠ some db.nextSnapshot) = db.files := by
      refine List.filter_eq_self.mpr fun row inside => decide_eq_true ?_
      obtain ⟨s, inS, at_, _⟩ := kept.filed row inside
      rw [at_]
      exact fun same => (kept.snapshotBound s inS).ne (Option.some.inj same)
    have new : (storedRows db take).filter (·.snapshotId ≠ some db.nextSnapshot) = [] := by
      refine List.filter_eq_nil_iff.mpr fun row inside => ?_
      obtain ⟨i, raw, _, rfl⟩ := mem_storedRows inside
      simp
    simp only [deleteSnapshot, appends.files, List.filter_append, old, new, List.append_nil]
  · have same : (staged db take).ops = db.ops := rfl
    have stays : db.ops.filter (·.snapshotId ≠ db.nextSnapshot) = db.ops :=
      List.filter_eq_self.mpr fun op inside => decide_eq_true (kept.opSnapshots op inside).1.ne
    simp only [deleteSnapshot, same, stays]
    refine List.map_congr_left (g := id) (fun op inside => ?_) |>.trans (List.map_id _)
    exact if_neg fun at_ => absurd ((kept.opSnapshots op inside).2 _ at_) (Nat.lt_irrefl _)

/-- Every tree but the deleted one's has its hash, so a take that stands at its parent's hash has its parent's files. -/
theorem identities_of_hash (injective : Function.Injective digest) {left right : SnapshotTree}
    (same : manifestHash digest left = manifestHash digest right) : identities left = identities right :=
  Std.ExtTreeMap.toList_inj.mp (injective same)

/-- A take that comes to the stream's own snapshot only adds its op. -/
theorem restates_of {p : Nat} {recorded : Recorded η} (at_ : db.currentSnapshot take.streamId = some p) (snapshot : recorded.snapshotId = p)
    (snapshots : recorded.db.snapshots = db.snapshots) (files : recorded.db.files = db.files) (ops : recorded.db.ops = db.ops)
    (nextOp : recorded.db.nextOp = db.nextOp) (nextSnapshot : db.nextSnapshot ≤ recorded.db.nextSnapshot)
    (nextFile : db.nextFile ≤ recorded.db.nextFile) :
    Restates db (conclude take (some p) recorded).2 take (opOf take (some p) recorded) := by
  obtain ⟨snapshots', files', ops', nextSnapshot', nextFile', nextOp'⟩ := conclude_frame take (some p) recorded
  constructor
  · exact snapshots'.trans snapshots
  · exact files'.trans files
  · rw [ops', ops]
  · exact nextOp
  · rw [nextOp', nextOp]
  · rfl
  · rw [at_]
    exact congrArg some snapshot.symm
  · exact congrArg some snapshot.symm
  · exact nextSnapshot' ▸ nextSnapshot
  · exact nextFile' ▸ nextFile

/-- The new snapshot's row, with its tree's hash. -/
def hashed (db : SnapshotDb η) (take : TakeRecord) (hash : η) : Snapshot η :=
  ⟨db.nextSnapshot, take.streamId, take.branch, take.revision, some hash⟩

theorem makes_of (kept : Kept digest db) {hash : η} (fileCount : Nat)
    (tree : hash = manifestHash digest (overlay (db.treeFrom (db.currentSnapshot take.streamId)) take.rows)) :
    Makes digest db
      (conclude take (db.currentSnapshot take.streamId)
        ⟨db.nextSnapshot, false, fileCount, (staged db take).setTreeHash db.nextSnapshot hash⟩).2
      take (hashed db take hash)
      (opOf take (db.currentSnapshot take.streamId) ⟨db.nextSnapshot, false, fileCount, (staged db take).setTreeHash db.nextSnapshot hash⟩) := by
  have appends : Appends db (staged db take) take ⟨db.nextSnapshot, take.streamId, take.branch, take.revision, none⟩ := staged_appends
  obtain ⟨snapshots, files, ops, nextSnapshot, nextFile, nextOp⟩ := conclude_frame take (db.currentSnapshot take.streamId)
    ⟨db.nextSnapshot, false, fileCount, (staged db take).setTreeHash db.nextSnapshot hash⟩
  have grown : Appends db (conclude take (db.currentSnapshot take.streamId)
      ⟨db.nextSnapshot, false, fileCount, (staged db take).setTreeHash db.nextSnapshot hash⟩).2 take (hashed db take hash) := by
    refine ⟨?_, rfl, rfl, files.trans appends.files, nextSnapshot.trans appends.nextSnapshot, nextFile.trans appends.nextFile⟩
    have old : db.snapshots.map (fun s => if s.id = db.nextSnapshot then { s with treeHash := some hash } else s) = db.snapshots := by
      refine List.map_congr_left (g := id) (fun s inside => ?_) |>.trans (List.map_id _)
      exact if_neg (kept.snapshotBound s inside).ne
    rw [snapshots]
    simp only [setTreeHash, appends.snapshots, List.map_append, old, List.map_cons, List.map_nil, if_true, hashed]
  refine ⟨grown, ops, rfl, nextOp, rfl, rfl, rfl, ?_⟩
  rw [grown.treeAt_new kept.toRows, grown.previous_new kept.toRows, ← kept.currentSnapshot_eq, ← tree]
  rfl

/-- What a take's rows come to: nothing new when the stream's snapshot has the hash already. -/
theorem recordRows_eq [DecidableEq η] (kept : Kept digest db) (valid : Read db before) {hash : η}
    (tree : hash = manifestHash digest (overlay (db.treeFrom (db.currentSnapshot take.streamId)) take.rows)) :
    (∃ p, db.currentSnapshot take.streamId = some p ∧ hash = manifestHash digest (db.treeAt p) ∧
      db.recordRows digest take (db.currentSnapshot take.streamId) before =
        ⟨p, true, 0, (staged db take).deleteSnapshot db.nextSnapshot⟩) ∨
    db.recordRows digest take (db.currentSnapshot take.streamId) before =
      ⟨db.nextSnapshot, false, take.rows.length, (staged db take).setTreeHash db.nextSnapshot hash⟩ := by
  have hashes : (staged db take).takeTree db.nextSnapshot (take.rows.map fun row => { row with snapshotId := some db.nextSnapshot })
      (db.currentSnapshot take.streamId) before = overlay (db.treeFrom (db.currentSnapshot take.streamId)) take.rows :=
    takeTree_eq kept valid
  cases at_ : db.currentSnapshot take.streamId with
  | none =>
    rw [at_] at hashes tree
    refine .inr ?_
    simp only [recordRows, hashes, ← tree, List.length_map]
  | some p =>
    rw [at_] at hashes tree
    obtain ⟨s, inside, rfl, _⟩ := kept.current_mem at_
    have appends : Appends db (staged db take) take ⟨db.nextSnapshot, take.streamId, take.branch, take.revision, none⟩ := staged_appends
    have inStaged : s ∈ (staged db take).snapshots := by
      rw [appends.snapshots]
      exact List.mem_append_left _ inside
    have parent : ((staged db take).snapshot? s.id).bind (·.treeHash) = some (manifestHash digest (db.treeAt s.id)) := by
      rw [(appends.rows kept.toRows).snapshot?_of_mem inStaged]
      exact kept.hashed s inside
    simp only [recordRows, hashes, ← tree, List.length_map, parent]
    by_cases same : manifestHash digest (db.treeAt s.id) = hash
    · exact .inl ⟨s.id, rfl, same.symm, if_pos (congrArg some same)⟩
    · exact .inr (if_neg fun alike => same (Option.some.inj alike))

variable {outcome : TakeOutcome}

/-- What a take comes to: the stream's snapshot again, whose files are as the take has them, or
a new one. -/
theorem taken [DecidableEq η] (kept : Kept digest db) (valid : Read db before) (injective : Function.Injective digest)
    (done : db.recordTakeTx digest take before = some (outcome, db')) :
    (∃ op, Restates db db' take op ∧ outcome.snapshotId = op.snapshotId ∧
      identities (db.treeAt op.snapshotId) = identities (overlay (db.treeFrom (db.currentSnapshot take.streamId)) take.rows)) ∨
    ∃ n op, Makes digest db db' take n op ∧ outcome.snapshotId = n.id := by
  rw [recordTakeTx] at done
  obtain ⟨recorded, came, done⟩ := Option.map_eq_some_iff.mp done
  obtain ⟨rfl, rfl⟩ := Prod.mk.inj done
  by_cases idle : take.rows.isEmpty = true
  · rw [if_pos idle] at came
    obtain ⟨p, at_, rfl⟩ := Option.map_eq_some_iff.mp came
    rw [at_]
    refine .inl ⟨_, restates_of at_ rfl rfl rfl rfl rfl le_rfl le_rfl, rfl, ?_⟩
    rw [List.isEmpty_iff.mp idle]
    rfl
  · rw [if_neg idle] at came
    obtain rfl := Option.some.inj came
    obtain ⟨p, at_, same, came⟩ | came := recordRows_eq kept valid rfl
    · obtain ⟨snapshots, files, ops⟩ := deleted_staged kept take
      rw [came]
      have alike := identities_of_hash injective same
      rw [at_] at alike ⊢
      refine .inl ⟨_, restates_of at_ rfl snapshots files ops rfl ?_ ?_, rfl, alike.symm⟩
      · exact Nat.le_succ _
      · exact Nat.le_add_right _ _
    · rw [came]
      exact .inr ⟨_, _, makes_of kept _ rfl, rfl⟩

/-- A snapshot keeps its tree whatever is taken after it. -/
theorem taken_frame [DecidableEq η] (kept : Kept digest db) (valid : Read db before) (injective : Function.Injective digest)
    (done : db.recordTakeTx digest take before = some (outcome, db')) :
    Kept digest db' ∧ ∀ s ∈ db.snapshots, s ∈ db'.snapshots ∧ db'.treeAt s.id = db.treeAt s.id := by
  obtain ⟨op, restates, _⟩ | ⟨n, op, makes, _⟩ := taken kept valid injective done
  · refine ⟨restates.kept kept, fun s inside => ⟨?_, restates.treeAt s.id⟩⟩
    rw [restates.snapshots]
    exact inside
  · refine ⟨makes.kept kept, fun s inside => ⟨?_, makes.treeAt_old kept.toRows inside⟩⟩
    rw [makes.snapshots]
    exact List.mem_append_left _ inside

/-- The tree of what a take came to is the stream's tree with its rows over it. -/
theorem taken_identities [DecidableEq η] (kept : Kept digest db) (valid : Read db before) (injective : Function.Injective digest)
    (done : db.recordTakeTx digest take before = some (outcome, db')) :
    identities (db'.treeAt outcome.snapshotId) = identities (overlay (db.treeFrom (db.currentSnapshot take.streamId)) take.rows) := by
  obtain ⟨op, restates, at_, same⟩ | ⟨n, op, makes, at_⟩ := taken kept valid injective done
  · rw [at_, restates.treeAt, same]
  · rw [at_, makes.treeAt_new kept.toRows, makes.previous_new kept.toRows, ← kept.currentSnapshot_eq]

/-! ## Runs -/

theorem readBefore_read (kept : Kept digest db) : Read db (db.readBefore take) := by
  intro read at_
  rw [readBefore] at at_
  split at at_
  · exact absurd at_ (Option.some_ne_none _).symm
  · obtain ⟨p, here, rfl⟩ := Option.map_eq_some_iff.mp at_
    obtain ⟨t, inside, rfl, _⟩ := kept.current_mem here
    exact ⟨t, inside, rfl, rfl⟩

theorem Read.mono (valid : Read db before) (stays : ∀ s ∈ db.snapshots, s ∈ db'.snapshots ∧ db'.treeAt s.id = db.treeAt s.id) :
    Read db' before := by
  intro read at_
  obtain ⟨t, inside, same, tree⟩ := valid read at_
  exact ⟨t, (stays t inside).1, same, by rw [tree, ← same, (stays t inside).2]⟩

variable [DecidableEq η] {s : Takes η}

variable (digest) in
/-- The store is between takes, and what the takes under way have read still holds. -/
structure Sound (s : Takes η) : Prop where
  db : Kept digest s.db
  reading : ∀ read ∈ s.reading, Read s.db read.2

theorem Sound.step (sound : Sound digest s) (injective : Function.Injective digest) {event : TakeStep} {next : Takes η}
    {out : Option (TakeRecord × Option TakeOutcome)} (moves : s.step digest event = some (next, out)) : Sound digest next := by
  cases event with
  | read take =>
    obtain ⟨rfl, rfl⟩ := Prod.mk.inj (Option.some.inj moves)
    refine ⟨sound.db, fun read inside => ?_⟩
    rcases List.mem_append.mp inside with inside | last
    · exact sound.reading read inside
    · obtain rfl := List.mem_singleton.mp last
      exact readBefore_read sound.db
  | write index =>
    obtain ⟨read, at_, moved⟩ := Option.map_eq_some_iff.mp moves
    obtain ⟨rfl, rfl⟩ := Prod.mk.inj moved
    have valid := sound.reading read (List.mem_of_getElem? at_)
    have others : ∀ other ∈ s.reading.eraseIdx index, Read s.db other.2 := fun other inside =>
      sound.reading other (List.mem_of_mem_eraseIdx inside)
    cases done : s.db.recordTakeTx digest read.1 read.2 with
    | none =>
      simp only [Option.map_none, Option.getD_none]
      exact ⟨sound.db, others⟩
    | some came =>
      obtain ⟨outcome, db'⟩ := came
      obtain ⟨kept, stays⟩ := taken_frame sound.db valid injective done
      simp only [Option.map_some, Option.getD_some]
      exact ⟨kept, fun other inside => (others other inside).mono stays⟩

variable (digest) in
/-- Every reading of every snapshot agrees with the others. -/
structure Agreed (s : Takes η) : Prop where
  overlaid : ∀ index next take outcome, s.step digest (.write index) = some (next, some (take, some outcome)) →
    identities (next.db.treeAt outcome.snapshotId) =
      identities (overlay (s.db.treeFrom (s.db.currentSnapshot take.streamId)) take.rows)
  made : ∀ snapshot ∈ s.db.snapshots, ∃ op ∈ s.db.ops, op.snapshotId = snapshot.id ∧ op.Made
  changes : ∀ op ∈ s.db.ops, op.Made →
    (s.db.listChangesForSnapshot op.snapshotId).map SnapshotChangeEntry.toChange =
      s.db.diffSnapshots op.parentSnapshotId op.snapshotId
  spans : ∀ a ∈ s.db.snapshots, ∀ b ∈ s.db.snapshots, a.streamId = b.streamId → a.id ≤ b.id →
    overlay (s.db.treeAt a.id) (s.db.listSpanFiles a.id b.id) = s.db.treeAt b.id
  hashes : ∀ snapshot ∈ s.db.snapshots, snapshot.treeHash = some (manifestHash digest (s.db.treeAt snapshot.id))

theorem Sound.agreed (sound : Sound digest s) (injective : Function.Injective digest) : Agreed digest s where
  overlaid := by
    intro index next take outcome moves
    obtain ⟨read, at_, moved⟩ := Option.map_eq_some_iff.mp moves
    obtain ⟨rfl, told⟩ := Prod.mk.inj moved
    obtain ⟨rfl, came⟩ := Prod.mk.inj (Option.some.inj told)
    obtain ⟨done, at', rfl⟩ := Option.map_eq_some_iff.mp came
    simp only [at', Option.map_some, Option.getD_some]
    exact taken_identities sound.db (sound.reading read (List.mem_of_getElem? at_)) injective at'
  made := sound.db.made
  changes := by
    intro op inside made
    obtain ⟨t, inT, at_, parent⟩ := sound.db.parents op inside made
    rw [← at_, parent]
    exact sound.db.changes_eq inT
  spans := fun a inA b inB stream le => sound.db.span_overlaid inA inB stream le
  hashes := sound.db.hashed

/-- However takes read and write in turn, every reading of every snapshot agrees. -/
theorem readings_agree (injective : Function.Injective digest) (events : List TakeStep) :
    Agreed digest (Machine.run (Takes.step digest) Takes.start events) := by
  have sound : Sound digest (Machine.run (Takes.step digest) Takes.start events) := by
    refine Machine.run_invariant (fun s _ => Sound digest s) ?_ [] ⟨kept_empty, fun read none_ => ?_⟩ events
    · intro s _ event next out sound moves
      exact sound.step injective moves
    · exact absurd none_ List.not_mem_nil
  exact sound.agreed injective

/-- A take of one file, read and told by its blob. -/
def oneFile : TakeRecord where
  streamId := 1
  rows := [⟨0, 1, "a.rs", some "h", 3, 0, .oxplow, none, some 7, none⟩]
  trigger := .manual
  threadId := none
  turnId := none
  effortId := none
  branch := none
  revision := none
  elapsedMs := 1
  budgetMs := none
  source := "system:snapshot_capture"
  provider := none
  contents := true
  handle := none
  own := by decide
  told := by decide
  distinct := by decide

theorem readings_agree_oneFile :
    Agreed (id : List (String × String) → List (String × String))
      (Machine.run (Takes.step id) Takes.start [.read oneFile, .read oneFile, .write 0, .write 0]) :=
  readings_agree Function.injective_id _

end Oxplow.Proofs.SnapshotTakes
