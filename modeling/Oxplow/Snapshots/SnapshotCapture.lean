import Oxplow.Snapshots.SnapshotStore

/-! `snapshot_capture.rs`: the dirty set of one stream's worktree, the sweeps that look for what
changed, and the takes that record it. Edits, events, sweeps and takes move in any order; a
take waits for the one before it. -/

namespace Oxplow.Snapshots
open Library

variable {β η : Type}

/-- What is at a path. -/
inductive Node (β : Type)
  | absent
  | other
  | file (bytes : β) (mtimeMs : Option Int)
  deriving DecidableEq

/-- What one stream's capture works with: a file's size, its hash and the id its VCS gives
it, and the settings. -/
structure SnapshotCapture (β η : Type) where
  streamId : Nat
  size : β → Nat
  hash : β → String
  idOf : β → String
  digest : List (String × String) → η
  maxFileBytes : Nat
  settleMs : Nat
  sparseHistory : Bool
  /-- The workspace filter leaves the path out. -/
  ignore : String → Bool

/-- Content that can be told apart has its hash or its address, and the rest has no hash. -/
def Formed (storage : SnapshotStorage) (blobHash contentHash : Option String) : Prop :=
  match storage with
  | .oxplow | .git => contentHash.isSome ∨ blobHash.isSome
  | .oversize | .deleted => contentHash = none

/-- A row to be, less its path. -/
structure CaptureStaging where
  sizeBytes : Int
  mtimeMs : Option Int
  blobHash : Option String
  storage : SnapshotStorage
  contentHash : Option String
  formed : Formed storage blobHash contentHash

namespace CaptureStaging

def deleted : CaptureStaging := ⟨0, none, none, .deleted, none, rfl⟩

def oversize (sizeBytes : Int) (mtimeMs : Option Int) : CaptureStaging := ⟨sizeBytes, mtimeMs, none, .oversize, none, rfl⟩

/-- A file read, its bytes behind the row or only its hash. -/
def read (sizeBytes : Int) (mtimeMs : Option Int) (hash : String) (keepBytes : Bool) : CaptureStaging :=
  ⟨sizeBytes, mtimeMs, some hash, .oxplow, if keepBytes then none else some hash, .inr rfl⟩

/-- A file the VCS has, read or not. -/
def git (sizeBytes : Int) (mtimeMs : Option Int) (oid : String) (hash : Option String) : CaptureStaging :=
  ⟨sizeBytes, mtimeMs, some oid, .git, hash, .inr rfl⟩

def toRow (staging : CaptureStaging) (streamId : Nat) (path : String) (capturedAt : Nat) : FileSnapshot :=
  ⟨0, streamId, path, staging.blobHash, staging.sizeBytes, capturedAt, staging.storage, none, staging.mtimeMs, staging.contentHash⟩

end CaptureStaging

/-! ## What was recorded last -/

structure LatestStat where
  blobHash : Option String
  sizeBytes : Int
  mtimeMs : Option Int
  storage : SnapshotStorage
  contentHash : Option String

abbrev LatestStats := Std.ExtTreeMap String LatestStat

def FileSnapshot.toStat (row : FileSnapshot) : LatestStat :=
  ⟨row.blobHash, row.sizeBytes, row.mtimeMs, row.storage, row.storedHash⟩

/-- The rows of a stream that have no later row of their path. -/
def SnapshotDb.latestRows (db : SnapshotDb η) (streamId : Nat) : List FileSnapshot :=
  Overlay.tops FileSnapshot.path (fun a b => a.id < b.id) (db.files.filter (·.streamId = streamId))

def SnapshotDb.latestStats (db : SnapshotDb η) (streamId : Nat) (keep : String → Bool) : LatestStats :=
  Std.ExtTreeMap.ofList (((db.latestRows streamId).filter fun row => keep row.path).map fun row => (row.path, row.toStat))

/-- The path is `dir` without the slashes that end it, or below it. -/
def below (dir path : String) : Bool :=
  let dir := String.ofList (dir.toList.reverse.dropWhile (· = '/')).reverse
  dir.isEmpty || (dir ++ "/" ≤ path && path < dir ++ "0")

/-! ## The dirty set -/

/-- A path heard of, with what a sweep read of it if it was a sweep that told. -/
structure DirtyEntry where
  staging : Option CaptureStaging
  firstSeen : Nat

abbrev DirtySet := Std.ExtTreeMap String DirtyEntry

def markDirty (dirty : DirtySet) (path : String) (now : Nat) : DirtySet := dirty.insertIfNew path ⟨none, now⟩

/-- An hour ago, so that the settle gate lets it through. -/
def bypass (now : Nat) : Nat := if 3600000 ≤ now then now - 3600000 else now

def markDirtyWithStaging (dirty : DirtySet) (path : String) (staging : CaptureStaging) (now : Nat) : DirtySet :=
  dirty.insert path ⟨some staging, bypass now⟩

/-! ## Sweeps and takes under way -/

/-- A file the walk left to be read. -/
structure Pending where
  sizeBytes : Int
  mtimeMs : Option Int
  prior : Option LatestStat

/-- A sweep: the rows of the paths not met, the files to read and what it found. -/
structure Sweep where
  under : String
  keepBytes : Bool
  latest : LatestStats
  needsHash : Std.ExtTreeMap String Pending
  staged : Std.ExtTreeMap String CaptureStaging
  /-- The walk is over, and what it did not meet is staged as deleted. -/
  walked : Bool

/-- Where a path that a take drained stands. -/
inductive TakeEntry
  | unstaged (entry : DirtyEntry)
  /-- Its metadata is read, and its bytes are next. -/
  | statted (sizeBytes : Nat) (mtimeMs : Option Int)
  | row (staging : CaptureStaging)
  | defer (entry : DirtyEntry)
  | dropped

structure Take where
  keepBytes : Bool
  /-- The latest rows of the paths to look at, and when they were asked for. -/
  latest : Option (LatestStats × Nat)
  entries : Std.ExtTreeMap String TakeEntry
  /-- The deferred paths are in the dirty set again. -/
  requeued : Bool

/-- One stream's capture: the disk, how many events of each path are still to come, and what
the process holds. -/
structure Capturing (β η : Type) where
  disk : String → Node β
  events : String → Nat
  dirty : DirtySet
  sweeps : List Sweep
  take : Option Take
  db : SnapshotDb η

structure TakeRequest where
  trigger : SnapshotTrigger
  threadId : Option Nat
  turnId : Option Nat
  effortId : Option Nat
  budgetMs : Option Nat
  provider : Option String

/-- What the rest of the process tells as a take is recorded: the head, the capture's own
provider, and the clock. -/
structure Surroundings where
  branch : Option String
  revision : Option String
  provider : Option String
  elapsedMs : Nat
  now : Nat

inductive CaptureStep (β : Type)
  | edit (path : String) (node : Node β)
  /-- An event arrives. -/
  | mark (path : String) (now : Nat)
  | sweep (under : String) (keepBytes : Bool)
  /-- The walk meets a file; `ok`: its metadata could be read. -/
  | visit (index : Nat) (path : String) (ok : Bool)
  /-- A file is read. `clean` and `head`: the ids the VCS has for it, by its stat and in the head. -/
  | hash (index : Nat) (path : String) (clean head : Option String) (ok written : Bool)
  | walked (index : Nat)
  | stage (index : Nat) (path : String) (now : Nat)
  | drain (keepBytes : Bool)
  | lookup (now : Nat) (ok : Bool)
  | stat (path : String) (ok : Bool)
  | read (path : String) (ok written : Bool)
  | requeue
  | record (request : TakeRequest) (around : Surroundings) (ok : Bool)

inductive CaptureOutcome
  | quiet
  /-- The take gives an error back; the paths it had drained. -/
  | failed (drained : List String)
  | taken (outcome : Option TakeOutcome)

namespace Capturing

/-- Nothing recorded and nothing heard. -/
def start (disk : String → Node β) : Capturing β η := ⟨disk, fun _ => 0, ∅, [], none, .empty⟩

end Capturing

/-- The bytes a read gives. -/
def Node.read (node : Node β) (ok : Bool) : Option β :=
  match node with
  | .file bytes _ => if ok then some bytes else none
  | _ => none

/-! ## Sweeps -/

namespace SnapshotCapture
variable (capture : SnapshotCapture β η)

/-- The bytes are what the row before has. -/
def sameContent (prior : Option LatestStat) (bytes : β) : Bool :=
  match prior with
  | none => false
  | some stat =>
    match stat.contentHash, stat.storage, stat.blobHash with
    | some content, _, _ => content = capture.hash bytes
    | none, .git, some oid => capture.idOf bytes = oid
    | _, _, _ => false

/-- The walk meets a file. -/
def visit (sweep : Sweep) (path : String) (node : Node β) (ok : Bool) : Option Sweep :=
  match node with
  | .file bytes mtimeMs =>
    if sweep.walked ∨ capture.ignore path ∨ ¬ (below sweep.under path ∨ path = sweep.under) then none
    else
      let prior := sweep.latest[path]?
      let met := { sweep with latest := sweep.latest.erase path }
      let size : Int := capture.size bytes
      let same : LatestStat → Bool := fun stat => stat.mtimeMs.isSome && stat.mtimeMs = mtimeMs && stat.sizeBytes = size
      some <|
        if !ok || prior.any same then met
        else if capture.maxFileBytes < capture.size bytes then
          { met with staged := met.staged.insert path (.oversize size mtimeMs) }
        else { met with needsHash := met.needsHash.insert path ⟨size, mtimeMs, prior⟩ }
  | _ => none

/-- What a file left to be read comes to: nothing when it is no change. -/
def hashed (pending : Pending) (keepBytes : Bool) (bytes : Option β) (clean head : Option String) (written : Bool) :
    Option CaptureStaging :=
  match if pending.mtimeMs.isSome then clean else none with
  | some oid =>
    if capture.sparseHistory ∧ pending.prior.isNone then none
    else if pending.prior.bind (·.blobHash) = some oid then none
    else
      match pending.prior.bind (·.contentHash) with
      | none => some (.git pending.sizeBytes pending.mtimeMs oid none)
      | some prior =>
        bytes.bind fun bytes =>
          if capture.hash bytes = prior then none
          else some (.git pending.sizeBytes pending.mtimeMs oid (some (capture.hash bytes)))
  | none =>
    bytes.bind fun bytes =>
      if capture.sparseHistory ∧ pending.prior.isNone ∧ head = some (capture.idOf bytes) then none
      else if capture.sameContent pending.prior bytes then none
      else if keepBytes ∧ ¬ written then none
      else some (.read pending.sizeBytes pending.mtimeMs (capture.hash bytes) keepBytes)

def hashFile (sweep : Sweep) (path : String) (node : Node β) (clean head : Option String) (ok written : Bool) : Option Sweep :=
  sweep.needsHash[path]?.map fun pending =>
    let read := { sweep with needsHash := sweep.needsHash.erase path }
    match capture.hashed pending sweep.keepBytes (node.read ok) clean head written with
    | none => read
    | some staging => { read with staged := read.staged.insert path staging }

end SnapshotCapture

/-- The walk is over: a path it did not meet is gone, unless its row says so already. -/
def Sweep.finishWalk (sweep : Sweep) : Option Sweep :=
  if sweep.walked ∨ ¬ sweep.needsHash.isEmpty then none
  else some { sweep with
    walked := true
    latest := ∅
    staged := sweep.staged ∪
      sweep.latest.filterMap fun _ stat => if stat.storage = .deleted then none else some CaptureStaging.deleted }

def Capturing.onSweep (s : Capturing β η) (index : Nat) (move : Sweep → Option Sweep) : Option (Capturing β η) :=
  (s.sweeps[index]?.bind move).map fun sweep => { s with sweeps := s.sweeps.set index sweep }

/-- A sweep's reading goes into the dirty set. -/
def Capturing.stage (s : Capturing β η) (index : Nat) (path : String) (now : Nat) : Option (Capturing β η) := do
  let sweep ← s.sweeps[index]?
  let staging ← sweep.staged[path]?
  guard sweep.walked
  return { s with
    sweeps := s.sweeps.set index { sweep with staged := sweep.staged.erase path }
    dirty := markDirtyWithStaging s.dirty path staging now }

/-! ## Takes -/

namespace TakeEntry

def ofDirty (entry : DirtyEntry) : TakeEntry :=
  match entry.staging with
  | some staging => .row staging
  | none => .unstaged entry

def isUnstaged : TakeEntry → Bool
  | .unstaged _ => true
  | _ => false

/-- Nothing is left to read. -/
def isSettled : TakeEntry → Bool
  | .unstaged _ | .statted _ _ => false
  | _ => true

def deferred : TakeEntry → Option DirtyEntry
  | .defer entry => some entry
  | _ => none

def staging : TakeEntry → Option CaptureStaging
  | .row staging => some staging
  | _ => none

end TakeEntry

namespace SnapshotCapture
variable (capture : SnapshotCapture β η)

/-- A drained path that nothing was staged of, as its metadata is read. -/
def classify (prior : Option LatestStat) (now : Nat) (entry : DirtyEntry) (node : Node β) (ok : Bool) : TakeEntry :=
  if !ok then .dropped
  else
    match node with
    | .absent => if prior.all (·.storage = .deleted) then .dropped else .row .deleted
    | .other => .dropped
    | .file bytes mtimeMs =>
      if prior.isNone ∧ now - entry.firstSeen < capture.settleMs then .defer entry
      else if capture.maxFileBytes < capture.size bytes then
        if prior.any fun stat => stat.storage = .oversize && stat.sizeBytes = (capture.size bytes : Int) && stat.mtimeMs = mtimeMs then
          .dropped
        else .row (.oversize (capture.size bytes) mtimeMs)
      else .statted (capture.size bytes) mtimeMs

/-- The same path, as its bytes are read. -/
def readEntry (prior : Option LatestStat) (keepBytes : Bool) (sizeBytes : Nat) (mtimeMs : Option Int) (bytes : Option β)
    (written : Bool) : TakeEntry :=
  match bytes with
  | none => .dropped
  | some bytes =>
    if capture.sameContent prior bytes then .dropped
    else if keepBytes ∧ ¬ written then .dropped
    else .row (.read sizeBytes mtimeMs (capture.hash bytes) keepBytes)

end SnapshotCapture

namespace Take

def lookedAt (take : Take) (path : String) : Bool := take.entries[path]?.any TakeEntry.isUnstaged

def stat (capture : SnapshotCapture β η) (take : Take) (path : String) (node : Node β) (ok : Bool) : Option Take :=
  match take.latest, take.entries[path]? with
  | some (latest, now), some (.unstaged entry) =>
    some { take with entries := take.entries.insert path (capture.classify latest[path]? now entry node ok) }
  | _, _ => none

def read (capture : SnapshotCapture β η) (take : Take) (path : String) (node : Node β) (ok written : Bool) : Option Take :=
  match take.latest, take.entries[path]? with
  | some (latest, _), some (.statted sizeBytes mtimeMs) =>
    some { take with
      entries := take.entries.insert path
        (capture.readEntry latest[path]? take.keepBytes sizeBytes mtimeMs (node.read ok) written) }
  | _, _ => none

/-- Every path is settled, so the deferred ones go back. -/
def requeue (take : Take) (dirty : DirtySet) : Option (Take × DirtySet) :=
  if take.requeued ∨ take.latest.isNone ∨ ¬ take.entries.toList.all (·.2.isSettled) then none
  else some ({ take with requeued := true }, take.entries.filterMap (fun _ entry => entry.deferred) ∪ dirty)

def rowOf (streamId now : Nat) (entry : String × TakeEntry) : Option FileSnapshot :=
  entry.2.staging.map fun staging => staging.toRow streamId entry.1 now

def rows (take : Take) (streamId now : Nat) : List FileSnapshot := take.entries.toList.filterMap (rowOf streamId now)

variable {take : Take} {streamId now : Nat} {row : FileSnapshot}

theorem mem_rows : row ∈ take.rows streamId now ↔
    ∃ path, ∃ staging : CaptureStaging, take.entries[path]? = some (.row staging) ∧ staging.toRow streamId path now = row := by
  rw [rows, List.mem_filterMap]
  constructor
  · rintro ⟨⟨path, entry⟩, member, made⟩
    have here : take.entries[path]? = some entry := Std.ExtTreeMap.mem_toList_iff_getElem?_eq_some.mp member
    cases entry with
    | row staging => exact ⟨path, staging, here, Option.some.inj made⟩
    | unstaged _ | statted _ _ | defer _ | dropped => exact absurd made (Option.some_ne_none row).symm
  · rintro ⟨path, staging, here, rfl⟩
    exact ⟨(path, .row staging), Std.ExtTreeMap.mem_toList_iff_getElem?_eq_some.mpr here, rfl⟩

theorem told_rows (member : row ∈ take.rows streamId now) : row.Told := by
  obtain ⟨path, staging, _, rfl⟩ := mem_rows.mp member
  have formed := staging.formed
  unfold FileSnapshot.Told
  cases class_ : staging.storage <;> simp_all [CaptureStaging.toRow, Formed]

theorem rows_distinct : (take.rows streamId now).Pairwise fun a b => a.path ≠ b.path := by
  refine List.Pairwise.filterMap (rowOf streamId now) ?_ Std.ExtTreeMap.distinct_keys_toList
  rintro ⟨path, entry⟩ ⟨path', entry'⟩ apart row made row' made' same
  obtain ⟨_, _, rfl⟩ := Option.map_eq_some_iff.mp made
  obtain ⟨_, _, rfl⟩ := Option.map_eq_some_iff.mp made'
  exact apart (Std.LawfulEqCmp.compare_eq_iff_eq.mpr same)

/-- What the store is given. A take with no rows asks nothing of the VCS. -/
def toRecord (take : Take) (streamId : Nat) (request : TakeRequest) (around : Surroundings) : TakeRecord where
  streamId := streamId
  rows := take.rows streamId around.now
  trigger := request.trigger
  threadId := request.threadId
  turnId := request.turnId
  effortId := request.effortId
  branch := if (take.rows streamId around.now).isEmpty then none else around.branch
  revision := if (take.rows streamId around.now).isEmpty then none else around.revision
  elapsedMs := around.elapsedMs
  budgetMs := request.budgetMs
  source := "system:snapshot_capture"
  provider := request.provider.or around.provider
  contents := take.keepBytes
  handle := none
  own := fun row member => by
    obtain ⟨_, _, _, rfl⟩ := mem_rows.mp member
    rfl
  told := fun row member => told_rows member
  distinct := rows_distinct

end Take

/-- The take drains the dirty set. With nothing in it there is nothing to look up. -/
def Capturing.drain (s : Capturing β η) (keepBytes : Bool) : Capturing β η :=
  { s with
    dirty := ∅
    take := some {
      keepBytes := keepBytes
      latest := if s.dirty.isEmpty then some (∅, 0) else none
      entries := s.dirty.map fun _ entry => .ofDirty entry
      requeued := s.dirty.isEmpty } }

namespace SnapshotCapture
variable [DecidableEq η] (capture : SnapshotCapture β η)

/-- A failing store leaves the take's paths to the next take. -/
def record (s : Capturing β η) (take : Take) (request : TakeRequest) (around : Surroundings) (ok : Bool) :
    Capturing β η × CaptureOutcome :=
  let record := take.toRecord capture.streamId request around
  if ok then
    let done := s.db.recordTakeTx capture.digest record (s.db.readBefore record)
    ({ s with take := none, db := (done.map (·.2)).getD s.db }, .taken (done.map (·.1)))
  else
    ({ s with take := none, dirty := record.rows.foldl (fun dirty row => markDirty dirty row.path around.now) s.dirty },
      .failed take.entries.keys)

def step (s : Capturing β η) : CaptureStep β → Option (Capturing β η × CaptureOutcome)
  | .edit path node =>
    some ({ s with
      disk := Function.update s.disk path node
      events := Function.update s.events path (s.events path + 1) }, .quiet)
  | .mark path now =>
    some ({ s with
      events := Function.update s.events path (s.events path - 1)
      dirty := markDirty s.dirty path now }, .quiet)
  | .sweep under keepBytes =>
    let sweep : Sweep := ⟨under, keepBytes, s.db.latestStats capture.streamId (below under), ∅, ∅, false⟩
    some ({ s with sweeps := s.sweeps ++ [sweep] }, .quiet)
  | .visit index path ok => (s.onSweep index fun sweep => capture.visit sweep path (s.disk path) ok).map (·, .quiet)
  | .hash index path clean head ok written =>
    (s.onSweep index fun sweep => capture.hashFile sweep path (s.disk path) clean head ok written).map (·, .quiet)
  | .walked index => (s.onSweep index Sweep.finishWalk).map (·, .quiet)
  | .stage index path now => (s.stage index path now).map (·, .quiet)
  | .drain keepBytes => if s.take.isSome then none else some (s.drain keepBytes, .quiet)
  | .lookup now ok =>
    s.take.bind fun take =>
      if take.latest.isSome then none
      else if ok then
        let latest := s.db.latestStats capture.streamId take.lookedAt
        some ({ s with take := some { take with latest := some (latest, now) } }, .quiet)
      else some ({ s with take := none }, .failed take.entries.keys)
  | .stat path ok =>
    (s.take.bind fun take => take.stat capture path (s.disk path) ok).map fun take => ({ s with take := some take }, .quiet)
  | .read path ok written =>
    (s.take.bind fun take => take.read capture path (s.disk path) ok written).map fun take =>
      ({ s with take := some take }, .quiet)
  | .requeue =>
    (s.take.bind fun take => take.requeue s.dirty).map fun moved => ({ s with take := some moved.1, dirty := moved.2 }, .quiet)
  | .record request around ok =>
    s.take.bind fun take => if take.requeued then some (capture.record s take request around ok) else none

end SnapshotCapture
end Oxplow.Snapshots
