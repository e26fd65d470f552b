import Oxplow.Library.Machine

/-! The stored changes. One change is its row of `change` and its rows of the tables under
it; each write of the store is one transaction on them. -/

namespace Oxplow.Changes

inductive Revision where
  | vcs (kind rev : String)
  | snapshot (id : Nat)
  | working
deriving DecidableEq

inductive Status where
  | pending
  | running
  | done
  | failed
deriving DecidableEq

structure ChangeFileRow where
  path : String
  status : String
  additions : Int
  deletions : Int
  zone : Option String
  isTest : Bool
  /-- For a working tree's file: its change is in the index. With none, what was stored stays. -/
  staged : Option Bool
  untracked : Option Bool
deriving DecidableEq

structure ChangeFunctionRow where
  path : String
  symbolRef : String
  container : String
  name : String
  status : String
  signatureChanged : Bool
  bodyChanged : Bool
  startLine : Int
  visibility : String
  isTest : Bool
  complexity : Option Rat
  length : Option Int
  paramsBefore : Option Int
  paramsAfter : Option Int
  complexityDelta : Option Rat
  lengthDelta : Option Int
  addedLines : Option Int
  deletedLines : Option Int
  modifiedLines : Option Int
  churnShare : Option Rat

structure ChangeImportRow where
  path : String
  module : String
  direction : String
  startLine : Option Int
  fromZone : Option String
  toZone : Option String
  crossZone : Bool

structure ChangeDuplicateRow where
  path : String
  startLine : Int
  endLine : Int
  lines : Int
  peerPath : String
  peerStartLine : Int
  peerEndLine : Int

structure ChangeTestFileRow where
  path : String
  testsBefore : Int
  testsAfter : Int
  assertionsBefore : Int
  assertionsAfter : Int
  skipsBefore : Int
  skipsAfter : Int

/-- Everything an analysis computed for one change. -/
structure ChangeResults where
  files : List ChangeFileRow
  functions : List ChangeFunctionRow
  imports : List ChangeImportRow
  testFiles : List ChangeTestFileRow

/-- What is read of a change's row. -/
structure ChangeRow where
  baseRevision : Option Revision
  headRevision : Option Revision
  status : Status
  error : Option String
  computedAt : Option String
  snapshotId : Option Nat
  /-- The event log's highest seq when the analysis began. -/
  eventsTo : Option Nat
  analyzedFrom : Option String

structure Change extends ChangeRow where
  filesAt : Option String
  filesEventsTo : Option Nat
  conflicted : Option Nat
  inProgress : Option String
  duplicatesEventsTo : Option Nat
  files : List ChangeFileRow
  functions : List ChangeFunctionRow
  imports : List ChangeImportRow
  testFiles : List ChangeTestFileRow
  duplicates : List ChangeDuplicateRow

/-- `INSERT OR REPLACE` of each row in turn, by its key. -/
def replaced {ρ κ : Type} [DecidableEq κ] (key : ρ → κ) (rows : List ρ) : List ρ :=
  rows.foldl (fun kept row => kept.filter (fun other => key other ≠ key row) ++ [row]) []

/-- Inserts each file, unless its path is there already. -/
def insertFiles : List ChangeFileRow → List ChangeFileRow → Option (List ChangeFileRow)
  | kept, [] => some kept
  | kept, file :: files => if kept.any (·.path == file.path) then none else insertFiles (kept ++ [file]) files

/-- The rows of `path`, and of what is under it where it names a folder. -/
def covers (path : String) (row : String) : Bool :=
  row == path || (decide (path ++ "/" < row) && decide (row < path ++ "0"))

namespace Change

/-- A change as `get_or_create` first stores it. -/
def created (base : Option Revision) (head : Revision) : Change where
  baseRevision := base
  headRevision := some head
  status := .pending
  error := none
  computedAt := none
  snapshotId := none
  eventsTo := none
  analyzedFrom := none
  filesAt := none
  filesEventsTo := none
  conflicted := none
  inProgress := none
  duplicatesEventsTo := none
  files := []
  functions := []
  imports := []
  testFiles := []
  duplicates := []

/-- The change with its revisions updated, and whether its head moved. -/
def getOrCreate (base : Option Revision) (head : Revision) : Option Change → Change × Bool
  | none => (created base head, false)
  | some change =>
    let moved := change.headRevision != some head
    let rebased := base.isSome && base != change.baseRevision
    if moved || rebased then
      ({ change with baseRevision := base.or change.baseRevision, headRevision := some head }, moved)
    else (change, moved)

def setStatus (change : Change) (status : Status) (error : Option String) : Change := { change with status, error }

/-- What `writeFiles` stamps: this list is the latest. -/
def stampFiles (change : Change) (at' : String) (eventsTo : Nat) : Change :=
  { change with filesAt := some at', filesEventsTo := some eventsTo }

/-- The stored list saw later events. -/
def newerListStored (change : Change) (eventsTo : Nat) : Bool := change.filesEventsTo.any fun stored => decide (eventsTo < stored)

/-- A file as `write_files` inserts it: a list that does not ask git keeps what was stored. -/
def keptFlags (change : Change) (file : ChangeFileRow) : ChangeFileRow :=
  let was := change.files.find? (·.path == file.path)
  { file with
    staged := file.staged.or (was.bind (·.staged))
    untracked := file.untracked.or (was.bind (·.untracked)) }

/-- Replaces the file rows and stamps them, unless the stored list saw later events, and
says whether they were written. Nothing where two rows have one path. -/
def writeFiles (change : Change) (files : List ChangeFileRow) (at' : String) (eventsTo : Nat) : Option (Change × Bool) :=
  if change.newerListStored eventsTo then some (change, false)
  else (insertFiles [] (files.map change.keptFlags)).map fun rows => ({ change with files := rows }.stampFiles at' eventsTo, true)

/-- Replaces the analysis and marks it done. -/
def storeResults (change : Change) (results : ChangeResults) (snapshotId : Option Nat) (eventsTo : Nat)
    (analyzedFrom : Option String) (at' : String) : Option Change :=
  (change.writeFiles results.files at' eventsTo).map fun (written, _) =>
    { written with
      functions := replaced (fun row => (row.path, row.symbolRef)) results.functions
      imports := results.imports
      testFiles := replaced (·.path) results.testFiles
      status := .done
      error := none
      computedAt := some at'
      snapshotId
      eventsTo := some eventsTo
      analyzedFrom }

/-- Replaces the files alone, and for a working tree what git says of a merge. -/
def storeFiles (change : Change) (files : List ChangeFileRow) (eventsTo : Nat) (conflicted : Option Nat)
    (inProgress : Option String) (at' : String) : Option Change :=
  (change.writeFiles files at' eventsTo).map fun (written, wrote) =>
    if wrote then { written with conflicted, inProgress } else written

/-- Whether there is a list of files, how many conflict, and whether an operation was in
progress. -/
def listState (change : Change) : Bool × Nat × Bool :=
  (change.filesAt.isSome, change.conflicted.getD 0, change.inProgress.isSome)

/-- The rows of `paths` give way to `files`, and the rest of the list stands. -/
def storePathFiles (change : Change) (paths : List String) (files : List ChangeFileRow) (eventsTo : Nat) (at' : String) :
    Option (Change × Bool) :=
  if change.newerListStored eventsTo then some (change, false)
  else
    let rest := change.files.filter fun row => !paths.any fun path => covers path row.path
    (insertFiles rest files).map fun rows => ({ change with files := rows }.stampFiles at' eventsTo, true)

/-- Replaces the duplicates, when they belong to the latest analysis. -/
def storeDuplicates (change : Change) (rows : List ChangeDuplicateRow) (eventsTo : Nat) : Change × Bool :=
  if change.eventsTo = some eventsTo then
    ({ change with duplicates := rows, duplicatesEventsTo := some eventsTo }, true)
  else (change, false)

/-- What a scan of the change needs, when it was analyzed since its duplicates were last
stored: its head, the analysis, and its files. -/
def awaitingDuplicates (change : Change) : Option (Revision × Nat × List String) :=
  match change.headRevision, change.eventsTo with
  | some head, some eventsTo =>
    if change.status = .done ∧ change.duplicatesEventsTo ≠ some eventsTo ∧ change.files ≠ [] then
      some (head, eventsTo, (change.files.map (·.path)).mergeSort)
    else none
  | _, _ => none

end Change

end Oxplow.Changes

/-! The file list of one change. A refresh or an analysis reads the event log's highest seq,
then the disk and the index, and then stores what it read; files are edited meanwhile. -/

namespace Oxplow.Changes

/-- Who lists the files: `refresh_files`, `refresh_paths` or an analysis. -/
inductive Listing where
  | files
  | paths (asked : List String) (base : Option Revision)
  | analysis
deriving DecidableEq

/-- What a listing finds besides the files. -/
structure Seen where
  /-- An effort's own files. -/
  own : Option (List String)
  /-- What git names of the paths asked for, and under them. -/
  named : List String
  conflicted : Nat
  inProgress : Option String
  /-- A path is a folder that git can't say, or is gone without a trace. -/
  unknown : Bool
  results : ChangeResults
  snapshotId : Option Nat
  analyzedFrom : Option String

/-- What was read of the disk, the `time`th reading made. The paths it is of are none where
it is of all. -/
structure Reading where
  time : Nat
  paths : Option (List String)
  rows : List ChangeFileRow
  seen : Seen

inductive ListCall where
  | asked (listing : Listing)
  | counted (listing : Listing) (eventsTo : Nat)
  | read (listing : Listing) (eventsTo : Nat) (reading : Reading)

/-- `tree` has a row for each file that differs from the base now. `readings` and `readAt`
are what each reading saw, and which is the one stored of a path; the program keeps neither. -/
structure ListState where
  change : Change
  /-- The change is of a working tree. -/
  working : Bool
  tree : List ChangeFileRow
  log : Nat
  clock : Nat
  calls : Nat → Option ListCall
  next : Nat
  readings : Nat → List ChangeFileRow
  readAt : String → Nat

inductive ListStep where
  /-- A file comes to differ so from the base, or not to differ, and it may be logged. -/
  | edit (path : String) (row : Option ChangeFileRow) (logged : Bool)
  /-- The change's revisions are resolved again. -/
  | resolve (base : Option Revision) (head : Revision)
  | begin (listing : Listing)
  | count (id : Nat)
  | read (id : Nat) (seen : Seen)
  | store (id : Nat) (at' : String)
  /-- It returns with an error, or its future is dropped. -/
  | leave (id : Nat)

/-- A row as a list says it that does not ask git. -/
def unflagged (row : ChangeFileRow) : ChangeFileRow := { row with staged := none, untracked := none }

/-- What a reading is of. -/
def Reading.covers (reading : Reading) (path : String) : Bool :=
  match reading.paths with
  | none => true
  | some paths => paths.any (Changes.covers · path)

namespace ListState

def start (working : Bool) (base : Option Revision) (head : Revision) : ListState where
  change := .created base head
  working
  tree := []
  log := 0
  clock := 1
  calls := fun _ => none
  next := 0
  readings := fun _ => []
  readAt := fun _ => 0

/-- `refresh_paths` leaves the change to a whole list. -/
def refuses (s : ListState) : Listing → Bool
  | .paths _ base =>
    let (listed, conflicted, inProgress) := s.change.listState
    !listed || s.change.baseRevision != base || (s.working && (conflicted != 0 || inProgress))
  | _ => false

/-- What `refresh_paths` finds it can't be trusted with. -/
def stops (s : ListState) (seen : Seen) : Listing → Bool
  | .paths _ _ => if s.working then seen.inProgress.isSome || seen.conflicted != 0 else seen.unknown
  | _ => false

/-- What is read of the disk and the index now. -/
def reading (s : ListState) (seen : Seen) : Listing → Reading
  | .files =>
    let own := s.tree.filter fun row => seen.own.all (·.contains row.path)
    { time := s.clock, paths := none, rows := if s.working then own else own.map unflagged, seen }
  | .analysis =>
    let own := s.tree.filter fun row => seen.own.all (·.contains row.path)
    { time := s.clock, paths := none, rows := own.map unflagged, seen }
  | .paths asked _ =>
    let lookedAt := if s.working then asked ++ seen.named else asked
    let rows := s.tree.filter fun row => lookedAt.contains row.path
    { time := s.clock, paths := some lookedAt, rows := if s.working then rows else rows.map unflagged, seen }

/-- The change once a listing stored what it read, and whether it wrote its files. -/
def write (s : ListState) (eventsTo : Nat) (reading : Reading) (at' : String) : Listing → Option (Change × Bool)
  | .files =>
    let conflicted := if s.working then some reading.seen.conflicted else none
    let inProgress := if s.working then reading.seen.inProgress else none
    (s.change.storeFiles reading.rows eventsTo conflicted inProgress at').map fun change =>
      (change, !s.change.newerListStored eventsTo)
  | .analysis =>
    (s.change.storeResults { reading.seen.results with files := reading.rows } reading.seen.snapshotId eventsTo
      reading.seen.analyzedFrom at').map fun change => (change, !s.change.newerListStored eventsTo)
  | .paths _ _ => s.change.storePathFiles (reading.paths.getD []) reading.rows eventsTo at'

def step (s : ListState) : ListStep → Option (ListState × Unit)
  | .edit path row logged =>
    let rest := s.tree.filter (·.path != path)
    some ({ s with
      tree := rest ++ (row.map fun row => { row with path }).toList
      log := if logged then s.log + 1 else s.log }, ())
  | .resolve base head => some ({ s with change := (Change.getOrCreate base head (some s.change)).1 }, ())
  | .begin listing =>
    if s.refuses listing then none
    else some ({ s with calls := Function.update s.calls s.next (some (.asked listing)), next := s.next + 1 }, ())
  | .count id =>
    match s.calls id with
    | some (.asked listing) => some ({ s with calls := Function.update s.calls id (some (.counted listing s.log)) }, ())
    | _ => none
  | .read id seen =>
    match s.calls id with
    | some (.counted listing eventsTo) =>
      if s.stops seen listing then some ({ s with calls := Function.update s.calls id none }, ())
      else
        let reading := s.reading seen listing
        some ({ s with
          calls := Function.update s.calls id (some (.read listing eventsTo reading))
          readings := Function.update s.readings s.clock reading.rows
          clock := s.clock + 1 }, ())
    | _ => none
  | .store id at' =>
    match s.calls id with
    | some (.read listing eventsTo reading) =>
      let calls := Function.update s.calls id none
      match s.write eventsTo reading at' listing with
      | some (change, wrote) =>
        some ({ s with
          change
          calls
          readAt := fun path => if wrote && reading.covers path then reading.time else s.readAt path }, ())
      | none => some ({ s with calls }, ())
    | _ => none
  | .leave id => (s.calls id).map fun _ => ({ s with calls := Function.update s.calls id none }, ())

end ListState

end Oxplow.Changes
