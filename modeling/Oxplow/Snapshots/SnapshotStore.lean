import Std.Data.ExtTreeMap
import Oxplow.Library.Overlay

/-! `analytics_stores.rs`, `snapshot_tree.rs` and `tree_diff.rs`: what a take records of a
worktree, and the ways a snapshot is read back. -/

namespace Oxplow.Snapshots
open Library

inductive SnapshotStorage
  | oxplow
  | git
  | oversize
  | deleted
  deriving DecidableEq

/-- One path's row. -/
structure FileSnapshot where
  id : Nat
  streamId : Nat
  path : String
  blobHash : Option String
  sizeBytes : Int
  capturedAt : Nat
  storage : SnapshotStorage
  snapshotId : Option Nat
  mtimeMs : Option Int
  contentHash : Option String
  deriving DecidableEq

/-! ## Trees -/

structure TreeEntry where
  storage : SnapshotStorage
  address : Option String
  contentHash : Option String
  sizeBytes : Int
  mtimeMs : Option Int
  deriving DecidableEq

abbrev SnapshotTree := Std.ExtTreeMap String TreeEntry

abbrev Identities := Std.ExtTreeMap String String

/-- What tells a file too big to hash from another. -/
def oversizeIdentity (sizeBytes : Int) (mtimeMs : Option Int) : String :=
  "oversize:" ++ toString sizeBytes ++ ":" ++ toString (mtimeMs.getD 0)

def TreeEntry.identity (entry : TreeEntry) : String :=
  match entry.contentHash with
  | some hash => hash
  | none =>
    match entry.storage, entry.address with
    | .git, some oid => "git:" ++ oid
    | _, _ => oversizeIdentity entry.sizeBytes entry.mtimeMs

def identities (tree : SnapshotTree) : Identities := tree.map fun _ entry => entry.identity

/-- The manifest's lines, by path. -/
def manifest (tree : SnapshotTree) : List (String × String) := (identities tree).toList

inductive ChangeStatus
  | added
  | modified
  | deleted
  deriving DecidableEq

structure FileChange where
  path : String
  status : ChangeStatus
  deriving DecidableEq

def byPath (a b : FileChange) : Bool := (compare a.path b.path).isLE

/-- How a path of the later tree came to what it is. -/
def arrived (before : Identities) (entry : String × String) : Option FileChange :=
  match before[entry.1]? with
  | none => some ⟨entry.1, .added⟩
  | some identity => if identity ≠ entry.2 then some ⟨entry.1, .modified⟩ else none

/-- A path of the earlier tree that the later one lacks. -/
def gone (after : Identities) (entry : String × String) : Option FileChange :=
  if entry.1 ∈ after then none else some ⟨entry.1, .deleted⟩

def diffTrees (before after : Identities) : List FileChange :=
  (after.toList.filterMap (arrived before) ++ before.toList.filterMap (gone after)).mergeSort byPath

/-! ## Rows -/

namespace FileSnapshot

/-- The content hash a row is stored with. -/
def storedHash (row : FileSnapshot) : Option String :=
  row.contentHash.or (if row.storage = .oxplow then row.blobHash else none)

def toEntry (row : FileSnapshot) : TreeEntry := ⟨row.storage, row.blobHash, row.contentHash, row.sizeBytes, row.mtimeMs⟩

/-- The identity that SQL compares, null where the row tells none. -/
def ident (row : FileSnapshot) : Option String :=
  row.contentHash.or <|
    match row.storage with
    | .oxplow => row.blobHash
    | .git => row.blobHash.map ("git:" ++ ·)
    | .oversize => some (oversizeIdentity row.sizeBytes row.mtimeMs)
    | .deleted => none

/-- The row names content that can be told apart: content that was read has its hash. -/
def Told (row : FileSnapshot) : Prop :=
  match row.storage with
  | .oxplow | .git => row.contentHash.isSome ∨ row.blobHash.isSome
  | .oversize | .deleted => True

instance : DecidablePred Told := fun row => by
  unfold Told
  cases row.storage <;> infer_instance

end FileSnapshot

/-- The tree `rows` make over `tree`. -/
def overlay (tree : SnapshotTree) (rows : List FileSnapshot) : SnapshotTree :=
  rows.foldl (fun tree row =>
    if row.storage = .deleted then tree.erase row.path
    else tree.insert row.path { row.toEntry with contentHash := row.storedHash }) tree

/-- The tree of rows of different paths. -/
def treeOf (rows : List FileSnapshot) : SnapshotTree := Std.ExtTreeMap.ofList (rows.map fun row => (row.path, row.toEntry))

inductive SnapshotTrigger
  | turnEnd
  | quiet
  | effortStart
  | effortEnd
  | startup
  | manual
  | gitRefs
  | headMoved
  | runMeasured
  deriving DecidableEq

/-- What a take captured. Its rows are of its stream, of different paths, and each tells
its content. -/
structure TakeRecord where
  streamId : Nat
  rows : List FileSnapshot
  trigger : SnapshotTrigger
  threadId : Option Nat
  turnId : Option Nat
  effortId : Option Nat
  branch : Option String
  revision : Option String
  elapsedMs : Nat
  budgetMs : Option Nat
  source : String
  provider : Option String
  contents : Bool
  handle : Option String
  own : ∀ row ∈ rows, row.streamId = streamId
  told : ∀ row ∈ rows, row.Told
  distinct : rows.Pairwise fun a b => a.path ≠ b.path

structure TakeOutcome where
  opSeq : Nat
  snapshotId : Nat
  parentSnapshotId : Option Nat
  unchanged : Bool
  fileCount : Nat
  overBudget : Bool
  deriving DecidableEq

/-! ## The store -/

variable {η : Type}

/-- A `snapshot` row. -/
structure Snapshot (η : Type) where
  id : Nat
  streamId : Nat
  branch : Option String
  revision : Option String
  treeHash : Option η

structure SnapshotOp where
  seq : Nat
  streamId : Nat
  snapshotId : Nat
  parentSnapshotId : Option Nat
  trigger : SnapshotTrigger
  threadId : Option Nat
  turnId : Option Nat
  effortId : Option Nat
  elapsedMs : Nat
  budgetMs : Option Nat
  overBudget : Bool
  fileCount : Nat
  provider : Option String
  contents : Bool
  handle : Option String
  deriving DecidableEq

/-- The op made its snapshot, and didn't find the worktree at it. -/
def SnapshotOp.Made (op : SnapshotOp) : Prop := op.parentSnapshotId ≠ some op.snapshotId

/-- What `snapshot.taken` tells. -/
structure SnapshotTaken where
  source : String
  stream : Nat
  snapshot : Nat
  parent : Option Nat
  trigger : SnapshotTrigger
  unchanged : Bool
  fileCount : Nat
  elapsedMs : Nat
  budgetMs : Option Nat
  overBudget : Bool
  deriving DecidableEq

/-- The tables, each in the order of its ids, and the next ids. -/
structure SnapshotDb (η : Type) where
  snapshots : List (Snapshot η)
  files : List FileSnapshot
  ops : List SnapshotOp
  /-- The snapshot each turn ended at. -/
  turns : List (Nat × Nat)
  events : List SnapshotTaken
  nextSnapshot : Nat
  nextFile : Nat
  nextOp : Nat

namespace SnapshotDb

def empty : SnapshotDb η := ⟨[], [], [], [], [], 1, 1, 1⟩

/-- A row comes before another by snapshot, then by id. -/
def before (a b : FileSnapshot) : Prop :=
  a.snapshotId.getD 0 < b.snapshotId.getD 0 ∨ a.snapshotId.getD 0 = b.snapshotId.getD 0 ∧ a.id < b.id

instance : DecidableRel before := fun _ _ => inferInstanceAs (Decidable (_ ∨ _))

def snapshot? (db : SnapshotDb η) (id : Nat) : Option (Snapshot η) := db.snapshots.find? (·.id = id)

/-- The rows of a stream recorded after one snapshot and up to another. -/
def spanRows (db : SnapshotDb η) (streamId after upTo : Nat) : List FileSnapshot :=
  db.files.filter fun row => row.streamId = streamId ∧ row.snapshotId.any fun id => after < id ∧ id ≤ upTo

/-- The rows of a stream up to a snapshot. -/
def rowsUpTo (db : SnapshotDb η) (streamId upTo : Nat) : List FileSnapshot :=
  db.files.filter fun row => row.streamId = streamId ∧ row.snapshotId.any (· ≤ upTo)

/-- The latest row of each path, but for the deleted ones. -/
def treeAt (db : SnapshotDb η) (snapshotId : Nat) : SnapshotTree :=
  match db.snapshot? snapshotId with
  | none => ∅
  | some snapshot =>
    treeOf <| (Overlay.tops FileSnapshot.path before (db.rowsUpTo snapshot.streamId snapshotId)).filter (·.storage ≠ .deleted)

/-- The files recorded since `after` up to `upTo`, each at its latest row. -/
def listSpanFiles (db : SnapshotDb η) (after upTo : Nat) : List FileSnapshot :=
  match db.snapshot? upTo with
  | none => []
  | some snapshot =>
    (Overlay.tops FileSnapshot.path before (db.spanRows snapshot.streamId after upTo)).mergeSort fun a b => a.id ≤ b.id

/-- The row of the same stream and path before a row. -/
def prior (db : SnapshotDb η) (row : FileSnapshot) : Option FileSnapshot :=
  ((db.files.filter fun other => other.streamId = row.streamId ∧ other.path = row.path ∧ other.id < row.id).mergeSort
    fun a b => b.id ≤ a.id).head?

/-- How a row changes what the row before it left. -/
def kind (db : SnapshotDb η) (row : FileSnapshot) : Option ChangeStatus :=
  match db.prior row with
  | none => if row.storage = .deleted then none else some .added
  | some old =>
    if row.storage = .deleted then
      if old.storage = .deleted then none else some .deleted
    else if old.storage = .deleted then some .added
    else if row.ident.isSome ∧ row.ident = old.ident then none
    else some .modified

/-- A row of `list_changes_for_snapshot`. -/
structure SnapshotChangeEntry where
  currentFileId : Nat
  path : String
  priorFileId : Option Nat
  status : ChangeStatus
  oversize : Bool
  deriving DecidableEq

def SnapshotChangeEntry.toChange (entry : SnapshotChangeEntry) : FileChange := ⟨entry.path, entry.status⟩

def changeEntry (db : SnapshotDb η) (row : FileSnapshot) : Option SnapshotChangeEntry :=
  (db.kind row).map fun status => ⟨row.id, row.path, (db.prior row).map (·.id), status, row.storage = .oversize⟩

def listChangesForSnapshot (db : SnapshotDb η) (snapshotId : Nat) : List SnapshotChangeEntry :=
  ((db.files.filter (·.snapshotId = some snapshotId)).filterMap db.changeEntry).mergeSort
    fun a b => byPath a.toChange b.toChange

/-- The tree a diff starts from. -/
def treeFrom (db : SnapshotDb η) : Option Nat → SnapshotTree
  | some snapshotId => db.treeAt snapshotId
  | none => ∅

/-- With no hasher: identities are compared as they are. -/
def diffSnapshots (db : SnapshotDb η) (from_ : Option Nat) (onto : Nat) : List FileChange :=
  diffTrees (identities (db.treeFrom from_)) (identities (db.treeAt onto))

/-! ## Takes -/

def insertSnapshot (db : SnapshotDb η) (take : TakeRecord) : SnapshotDb η :=
  { db with
    snapshots := db.snapshots ++ [⟨db.nextSnapshot, take.streamId, take.branch, take.revision, none⟩]
    nextSnapshot := db.nextSnapshot + 1 }

def insertRows (db : SnapshotDb η) (rows : List FileSnapshot) : SnapshotDb η :=
  { db with
    files := db.files ++ rows.mapIdx fun n row => { row with id := db.nextFile + n, contentHash := row.storedHash }
    nextFile := db.nextFile + rows.length }

def currentSnapshot (db : SnapshotDb η) (streamId : Nat) : Option Nat :=
  ((db.ops.filter (·.streamId = streamId)).mergeSort fun a b => b.seq ≤ a.seq).head?.map (·.snapshotId)

/-- A snapshot goes, and its rows with it. -/
def deleteSnapshot (db : SnapshotDb η) (id : Nat) : SnapshotDb η :=
  { db with
    snapshots := db.snapshots.filter (·.id ≠ id)
    files := db.files.filter (·.snapshotId ≠ some id)
    ops := (db.ops.filter (·.snapshotId ≠ id)).map fun op =>
      if op.parentSnapshotId = some id then { op with parentSnapshotId := none } else op
    turns := db.turns.filter (·.2 ≠ id) }

def setTreeHash (db : SnapshotDb η) (id : Nat) (hash : η) : SnapshotDb η :=
  { db with snapshots := db.snapshots.map fun s => if s.id = id then { s with treeHash := some hash } else s }

def overBudget (take : TakeRecord) : Bool := take.budgetMs.any (· < take.elapsedMs)

def insertOp (db : SnapshotDb η) (take : TakeRecord) (snapshotId : Nat) (parent : Option Nat) (fileCount : Nat) : SnapshotDb η :=
  { db with
    ops := db.ops ++ [⟨db.nextOp, take.streamId, snapshotId, parent, take.trigger, take.threadId, take.turnId, take.effortId,
      take.elapsedMs, take.budgetMs, overBudget take, fileCount, take.provider, take.contents, take.handle⟩]
    nextOp := db.nextOp + 1 }

def endTurn (db : SnapshotDb η) (turnId : Option Nat) (snapshotId : Nat) : SnapshotDb η :=
  match turnId with
  | none => db
  | some turn => { db with turns := db.turns.filter (·.1 ≠ turn) ++ [(turn, snapshotId)] }

def appendEvent (db : SnapshotDb η) (event : SnapshotTaken) : SnapshotDb η := { db with events := db.events ++ [event] }

/-- The stream's current snapshot and its tree, read before the transaction. -/
abbrev ParentTree := Option (Nat × SnapshotTree)

def readBefore (db : SnapshotDb η) (take : TakeRecord) : ParentTree :=
  if take.rows.isEmpty then none else (db.currentSnapshot take.streamId).map fun parent => (parent, db.treeAt parent)

section Digest
variable (digest : List (String × String) → η)

def manifestHash (tree : SnapshotTree) : η := digest (manifest tree)

/-- What a take's rows came to. -/
structure Recorded (η : Type) where
  snapshotId : Nat
  unchanged : Bool
  fileCount : Nat
  db : SnapshotDb η

/-- The tree a take leaves: the one read before holds when no take landed since. -/
def takeTree (db : SnapshotDb η) (sid : Nat) (rows : List FileSnapshot) (parent : Option Nat) : ParentTree → SnapshotTree
  | some read => if some read.1 = parent then overlay read.2 rows else db.treeAt sid
  | none => db.treeAt sid

/-- The store with a take's rows under a new snapshot. -/
def staged (db : SnapshotDb η) (take : TakeRecord) : SnapshotDb η :=
  (db.insertSnapshot take).insertRows (take.rows.map fun row => { row with snapshotId := some db.nextSnapshot })

/-- The rows under a new snapshot, or nothing when they leave the parent's files as they were. -/
def recordRows [DecidableEq η] (db : SnapshotDb η) (take : TakeRecord) (parent : Option Nat) (readBefore : ParentTree) :
    Recorded η :=
  let sid := db.nextSnapshot
  let rows := take.rows.map fun row => { row with snapshotId := some sid }
  let stored := db.staged take
  let hash := manifestHash digest (stored.takeTree sid rows parent readBefore)
  match parent with
  | some p =>
    if (stored.snapshot? p).bind (·.treeHash) = some hash then ⟨p, true, 0, stored.deleteSnapshot sid⟩
    else ⟨sid, false, rows.length, stored.setTreeHash sid hash⟩
  | none => ⟨sid, false, rows.length, stored.setTreeHash sid hash⟩

/-- The op, the turn's end and the event, once the rows are in. -/
def conclude (take : TakeRecord) (parent : Option Nat) (recorded : Recorded η) : TakeOutcome × SnapshotDb η :=
  let ended := (recorded.db.insertOp take recorded.snapshotId parent recorded.fileCount).endTurn take.turnId recorded.snapshotId
  (⟨recorded.db.nextOp, recorded.snapshotId, parent, recorded.unchanged, recorded.fileCount, overBudget take⟩,
    ended.appendEvent ⟨take.source, take.streamId, recorded.snapshotId, parent, take.trigger, recorded.unchanged,
      recorded.fileCount, take.elapsedMs, take.budgetMs, overBudget take⟩)

def recordTakeTx [DecidableEq η] (db : SnapshotDb η) (take : TakeRecord) (readBefore : ParentTree) :
    Option (TakeOutcome × SnapshotDb η) :=
  let parent := db.currentSnapshot take.streamId
  let recorded : Option (Recorded η) := if take.rows.isEmpty then parent.map fun p => ⟨p, true, 0, db⟩
    else some (db.recordRows digest take parent readBefore)
  recorded.map (conclude take parent)

end Digest
end SnapshotDb

/-! ## Takes under way -/

/-- A take reads, then writes; others may read and write between. -/
inductive TakeStep
  | read (take : TakeRecord)
  | write (index : Nat)

structure Takes (η : Type) where
  db : SnapshotDb η
  /-- The takes that have read and not written. -/
  reading : List (TakeRecord × SnapshotDb.ParentTree)

def Takes.start : Takes η := ⟨.empty, []⟩

/-- A write gives the take and what it recorded, if anything. -/
def Takes.step [DecidableEq η] (digest : List (String × String) → η) (s : Takes η) :
    TakeStep → Option (Takes η × Option (TakeRecord × Option TakeOutcome))
  | .read take => some (⟨s.db, s.reading ++ [(take, s.db.readBefore take)]⟩, none)
  | .write index =>
    s.reading[index]?.map fun read =>
      let done := s.db.recordTakeTx digest read.1 read.2
      (⟨(done.map (·.2)).getD s.db, s.reading.eraseIdx index⟩, some (read.1, done.map (·.1)))

end Oxplow.Snapshots
