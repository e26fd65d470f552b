import Oxplow.Changes.ChangeStore

/-! The analyses of one change. A call runs from one await to the next; between them other
calls run, its future may be dropped, and the program may stop. What the guard, the stored
row and the scan queue hold is shared. -/

namespace Oxplow.Changes

/-- How a change was asked for: `ensure_change`, `refresh_change` or `request`. -/
inductive Ask where
  | ensure
  | refresh
  | request
deriving DecidableEq

/-- What a target was resolved to. -/
structure Target where
  base : Option Revision
  head : Revision
deriving DecidableEq

/-- One analysis: what it was computed from and against, and what it found. -/
structure Analysis where
  results : ChangeResults
  snapshotId : Option Nat
  eventsTo : Nat
  analyzedFrom : Option String

/-- A duplicate scan to run. The call is the one whose analysis it belongs to. -/
structure DupJob where
  eventsTo : Nat
  revision : Revision
  changed : List String
  call : Nat

/-- What a call waits for. -/
inductive Phase where
  /-- The row being looked up or made. -/
  | resolved
  /-- The row being read. -/
  | keyed (moved : Bool)
  /-- The inputs being named. -/
  | found (row : ChangeRow) (moved : Bool)
  /-- The status `running` being written. The guard is held from here until the analysis is
  computed. -/
  | guarded (analyzedFrom : Option String)
  | marked (analyzedFrom : Option String)
  | counted (analyzedFrom : Option String) (eventsTo : Nat)
  | against (analyzedFrom : Option String) (eventsTo : Nat) (snapshotId : Option Nat)
  /-- The results being stored. -/
  | computed (analysis : Analysis)
  /-- The status `failed` being written. -/
  | failed (error : String)
  /-- Stored, its duplicates not asked for yet. -/
  | stored (analysis : Analysis)

structure Call where
  ask : Ask
  target : Target
  phase : Phase
  /-- Its future was dropped with a write on its way: the write still lands. -/
  dropped : Bool

/-- What the calls of one change share. `analysis` is the call whose analysis is stored and
`made` has every analysis computed; the program keeps neither. -/
structure Shared where
  change : Option Change
  /-- The event log's highest seq. -/
  log : Nat
  /-- The change is in the analyzer's running set. -/
  running : Bool
  queued : Option DupJob
  analysis : Option Nat
  made : List (Nat × Analysis)

inductive Move where
  | create
  /-- Whether snapshots keep contents now. -/
  | read (contents : Bool)
  | lock (analyzedFrom : Option String)
  | mark
  | count
  | pin (latest : Option Nat)
  | compute (result : Except String ChangeResults)
  | store (at' : String)
  | submit
  /-- It returns with an error, or its future is dropped. -/
  | leave
  /-- Its future is dropped with a write on its way. -/
  | drop

namespace Revision

def isSnapshot : Revision → Bool
  | .snapshot _ => true
  | _ => false

/-- The snapshot an analysis of this head is against. -/
def against (latest : Option Nat) : Revision → Option Nat
  | .snapshot id => some id
  | .working => latest
  | .vcs _ _ => none

end Revision

def Target.readsSnapshots (target : Target) : Bool := target.base.any Revision.isSnapshot || target.head.isSnapshot

/-- The guard is held in this phase. -/
def Phase.guards : Phase → Bool
  | .guarded _ | .marked _ | .counted _ _ | .against _ _ _ => true
  | _ => false

def Call.holds (call : Call) : Bool := !call.dropped && call.phase.guards

namespace Shared

/-- The guard dropped by a call that holds it. -/
def letGo (s : Shared) (call : Call) : Shared := if call.holds then { s with running := false } else s

/-- The row is current for these inputs, however it was asked for, or its head stands and
nothing forces a rerun. -/
def current (row : ChangeRow) (moved : Bool) (ask : Ask) (analyzedFrom : Option String) : Bool :=
  row.status == .done && ((analyzedFrom.isSome && row.analyzedFrom == analyzedFrom) || (!moved && ask != .refresh))

/-- What a call does up to its next await: what is shared then, what is left of the call,
and the call it starts. -/
def move (s : Shared) (id : Nat) (call : Call) (m : Move) : Option (Shared × Option Call × Option Call) :=
  match m, call.phase with
  | .create, .resolved =>
    let (change, moved) := Change.getOrCreate call.target.base call.target.head s.change
    some ({ s with change := some change }, some { call with phase := .keyed moved }, none)
  | .read contents, .keyed moved =>
    s.change.map fun change =>
      if call.ask = .request then
        let starts := change.status = .pending ∨ moved
        (s, none, if starts then some ⟨.ensure, call.target, .resolved, false⟩ else none)
      else if !contents && call.target.readsSnapshots then (s, none, none)
      else (s, some { call with phase := .found change.toChangeRow moved }, none)
  | .lock analyzedFrom, .found row moved =>
    if s.running || current row moved call.ask analyzedFrom then some (s, none, none)
    else some ({ s with running := true }, some { call with phase := .guarded analyzedFrom }, none)
  | .mark, .guarded analyzedFrom =>
    s.change.map fun change =>
      ({ s with change := some (change.setStatus .running none) },
        if call.dropped then none else some { call with phase := .marked analyzedFrom }, none)
  | .count, .marked analyzedFrom => some (s, some { call with phase := .counted analyzedFrom s.log }, none)
  | .pin latest, .counted analyzedFrom eventsTo =>
    some (s, some { call with phase := .against analyzedFrom eventsTo (call.target.head.against latest) }, none)
  | .compute (.ok results), .against analyzedFrom eventsTo snapshotId =>
    let analysis : Analysis := { results, snapshotId, eventsTo, analyzedFrom }
    some ({ s with running := false, made := s.made ++ [(id, analysis)] }, some { call with phase := .computed analysis }, none)
  | .compute (.error error), .against _ _ _ =>
    some ({ s with running := false }, some { call with phase := .failed error }, none)
  | .store at', .computed analysis =>
    s.change.map fun change =>
      match change.storeResults analysis.results analysis.snapshotId analysis.eventsTo analysis.analyzedFrom at' with
      | some stored =>
        ({ s with change := some stored, analysis := some id },
          if call.dropped then none else some { call with phase := .stored analysis }, none)
      | none => (s, none, none)
  | .store _, .failed error =>
    s.change.map fun change => ({ s with change := some (change.setStatus .failed (some error)) }, none, none)
  | .submit, .stored analysis =>
    let changed := analysis.results.files.map (·.path)
    some (if changed.isEmpty then s else { s with queued := some ⟨analysis.eventsTo, call.target.head, changed, id⟩ }, none, none)
  | .leave, _ => if call.dropped then none else some (s.letGo call, none, none)
  | .drop, .guarded _ | .drop, .computed _ | .drop, .failed _ =>
    if call.dropped then none else some (s.letGo call, some { call with dropped := true }, none)
  | _, _ => none

/-- A call that leaves lets go of what it holds. -/
theorem move_leave {s s' : Shared} {id : Nat} {call : Call} {call' spawned : Option Call}
    (moves : s.move id call .leave = some (s', call', spawned)) : s.letGo call = s' ∧ none = call' ∧ none = spawned := by
  simp only [move] at moves
  split at moves
  · cases moves
  · obtain ⟨same, others⟩ := Prod.mk.inj (Option.some.inj moves)
    exact ⟨same, Prod.mk.inj others⟩

end Shared

/-- Where the one duplicate worker is with this change. -/
inductive Worker where
  | idle
  | scanning (job : DupJob)
  | found (job : DupJob) (rows : List ChangeDuplicateRow)

structure State where
  shared : Shared
  calls : Nat → Option Call
  next : Nat
  worker : Worker
  /-- A scan that a stop cut off, read at boot and not queued yet. -/
  awaited : Option DupJob
  /-- The call whose analysis' duplicates are stored. -/
  duplicates : Option Nat

inductive Step where
  /-- More events are logged. -/
  | log (more : Nat)
  /-- A call's target is resolved. -/
  | call (ask : Ask) (target : Target)
  | move (id : Nat) (m : Move)
  | restart
  | scan
  | findings (rows : List ChangeDuplicateRow)
  | scanFailed
  | storeScan
  /-- `resume_duplicates` reads what awaits a scan, and then queues it. -/
  | await
  | resume

namespace State

def start : State where
  shared := { change := none, log := 0, running := false, queued := none, analysis := none, made := [] }
  calls := fun _ => none
  next := 0
  worker := .idle
  awaited := none
  duplicates := none

def begin (s : State) (call : Call) : State :=
  { s with calls := Function.update s.calls s.next (some call), next := s.next + 1 }

/-- The state once call `id` moved. -/
def moved (s : State) (id : Nat) (shared : Shared) (call spawned : Option Call) : State :=
  let s := { s with shared, calls := Function.update s.calls id call }
  match spawned with
  | some call => s.begin call
  | none => s

def withChange (s : State) (change : Change) : State := { s with shared := { s.shared with change := some change } }

def step (s : State) : Step → Option (State × Unit)
  | .log more => some ({ s with shared := { s.shared with log := s.shared.log + more } }, ())
  | .call ask target => some (s.begin ⟨ask, target, .resolved, false⟩, ())
  | .move id m =>
    (s.calls id).bind fun call =>
      (s.shared.move id call m).map fun (shared, call, spawned) => (s.moved id shared call spawned, ())
  | .restart =>
    some ({ s with shared := { s.shared with running := false, queued := none }, calls := fun _ => none, worker := .idle, awaited := none }, ())
  | .scan =>
    match s.worker, s.shared.queued with
    | .idle, some job => some ({ s with shared := { s.shared with queued := none }, worker := .scanning job }, ())
    | _, _ => none
  | .findings rows =>
    match s.worker with
    | .scanning job => some ({ s with worker := .found job (rows.filter fun row => job.changed.contains row.path) }, ())
    | _ => none
  | .scanFailed =>
    match s.worker with
    | .idle => none
    | _ => some ({ s with worker := .idle }, ())
  | .storeScan =>
    match s.worker, s.shared.change with
    | .found job rows, some change =>
      let (change, stored) := change.storeDuplicates rows job.eventsTo
      some ({ s.withChange change with worker := .idle, duplicates := if stored then some job.call else s.duplicates }, ())
    | _, _ => none
  | .await =>
    match s.shared.change.bind Change.awaitingDuplicates, s.shared.analysis with
    | some (head, eventsTo, paths), some call => some ({ s with awaited := some ⟨eventsTo, head, paths, call⟩ }, ())
    | _, _ => none
  | .resume => s.awaited.map fun job => ({ s with shared := { s.shared with queued := some job }, awaited := none }, ())

end State

end Oxplow.Changes
