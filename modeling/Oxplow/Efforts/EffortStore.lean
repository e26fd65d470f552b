import Oxplow.Library.Transaction

/-! `effort_store.rs`: a thread's efforts, and the rows that carry the effort they belong
to. Times are the stored ones, in microseconds. -/

namespace Oxplow.Efforts
open Library

/-- How an effort ended. -/
inductive ClosedBy where
  | commit | switch | person | agent | system
  deriving DecidableEq

structure Effort where
  id : Nat
  /-- `none` while unlinked. -/
  workItem : Option String
  closedBy : Option ClosedBy
  threadId : Nat
  startedAt : Nat
  endedAt : Option Nat
  startSnapshotId : Option Nat
  endSnapshotId : Option Nat
  summary : Option String
  deriving DecidableEq

/-- `EFFORT_STAMPED`: the tables whose rows carry the effort they belong to. -/
inductive StampedTable where
  | agentToolCall | agentTokenUsage | metricCapture | agentNudge | claim | decision
  deriving DecidableEq

/-- A row of one, with the table's time column. -/
structure StampedRow where
  threadId : Option Nat
  effortId : Option Nat
  time : Nat
  deriving DecidableEq

inductive EffortEvent where
  | opened (effort : Nat) (workItem : Option String) (thread : Nat) (startSnapshot : Option Nat)
  | closed (effort : Nat) (workItem : Option String) (endSnapshot : Option Nat) (closedBy : ClosedBy)
  deriving DecidableEq

structure EffortStore where
  efforts : List Effort
  nextEffort : Nat
  rows : StampedTable → List StampedRow
  events : List EffortEvent

/-- How an effort opens. -/
structure EffortStart where
  thread : Nat
  workItem : Option String
  at_ : Nat
  /-- Adopt the thread's un-efforted activity back to here. -/
  adoptSince : Option Nat
  startSnapshotId : Option Nat

/-- How an effort is closed. -/
structure EffortEnd where
  endSnapshotId : Option Nat
  summary : Option String
  at_ : Nat
  closedBy : ClosedBy

/-- A close at a time, with nothing else. -/
def EffortEnd.at (time : Nat) (closedBy : ClosedBy) : EffortEnd := ⟨none, none, time, closedBy⟩

/-- An effort that is open. -/
def Effort.isOpen (effort : Effort) : Bool := effort.endedAt.isNone

def Effort.close (end_ : EffortEnd) (effort : Effort) : Effort :=
  { effort with
    endedAt := some end_.at_, endSnapshotId := end_.endSnapshotId, summary := end_.summary, closedBy := some end_.closedBy }

namespace EffortStore

def empty : EffortStore := ⟨[], 1, fun _ => [], []⟩

def openForThread (store : EffortStore) (thread : Nat) : Option Nat :=
  (store.efforts.find? fun effort => effort.threadId == thread && effort.isOpen).map (·.id)

/-- Closes an open effort, and releases what came after. One that is closed, or gone, is
left alone. -/
def finishTx (store : EffortStore) (id : Nat) (end_ : EffortEnd) : Bool × EffortStore :=
  match store.efforts.find? fun effort => effort.id == id && effort.isOpen with
  | none => (false, store)
  | some closed =>
    (true, { store with
      efforts := updateRows (fun effort => effort.id == id && effort.isOpen) (Effort.close end_) store.efforts
      rows := fun table => updateRows (fun row => row.effortId == some id && end_.at_ < row.time)
        (fun row => { row with effortId := none }) (store.rows table)
      events := store.events ++ [.closed id closed.workItem end_.endSnapshotId end_.closedBy] })

/-- `max(ended_at)` over the thread's efforts. -/
def previousEnd (store : EffortStore) (thread : Nat) : Option Nat :=
  ((store.efforts.filter (·.threadId == thread)).filterMap (·.endedAt)).max?

/-- Where an effort starts: back to `adoptSince`, never before the thread's previous effort
ended, never after now. -/
def startedAt (store : EffortStore) (start : EffortStart) : Nat :=
  match start.adoptSince with
  | none => start.at_
  | some since => min (((store.previousEnd start.thread).map (max since ·)).getD since) start.at_

/-- The effort that the thread has open closes first. -/
def switch (store : EffortStore) (thread now : Nat) : EffortStore :=
  match store.openForThread thread with
  | some current => (store.finishTx current (.at now .switch)).2
  | none => store

/-- Opens an effort, which adopts the thread's un-efforted rows since it starts. -/
def insertEffort (store : EffortStore) (start : EffortStart) (startedAt : Nat) : EffortStore where
  efforts := store.efforts ++
    [⟨store.nextEffort, start.workItem, none, start.thread, startedAt, none, start.startSnapshotId, none, none⟩]
  nextEffort := store.nextEffort + 1
  rows := fun table => updateRows (fun row => row.threadId == some start.thread && row.effortId.isNone && startedAt ≤ row.time)
    (fun row => { row with effortId := some store.nextEffort }) (store.rows table)
  events := store.events ++ [.opened store.nextEffort start.workItem start.thread start.startSnapshotId]

def startTx (store : EffortStore) (start : EffortStart) : EffortStore :=
  let switched := store.switch start.thread start.at_
  switched.insertEffort start (switched.startedAt start)

/-- Links an effort to a work item, or unlinks it; an unknown effort is refused. -/
def linkTx (store : EffortStore) (id : Nat) (workItem : Option String) : Option EffortStore :=
  if store.efforts.any (·.id == id) then
    some { store with efforts := updateRows (·.id == id) (fun effort => { effort with workItem }) store.efforts }
  else none

/-- The work item of each linked effort. -/
def workItems (store : EffortStore) (id : Nat) : Option String := (store.efforts.find? (·.id == id)).bind (·.workItem)

/-- A row is recorded with its thread's open effort. -/
def record (store : EffortStore) (table : StampedTable) (thread : Option Nat) (now : Nat) : EffortStore :=
  { store with
    rows := fun other =>
      if other = table then store.rows table ++ [⟨thread, thread.bind store.openForThread, now⟩] else store.rows other }

end EffortStore

inductive EffortStep where
  | start (start : EffortStart)
  | finish (id : Nat) (end_ : EffortEnd)
  | record (table : StampedTable) (thread : Option Nat) (now : Nat)

/-- The store, and the last time at which something happened on each thread. -/
structure EffortClock where
  store : EffortStore
  clock : Nat → Nat

namespace EffortClock

def start : EffortClock := ⟨.empty, fun _ => 0⟩

def tick (state : EffortClock) (thread now : Nat) (store : EffortStore) : EffortClock where
  store := store
  clock := fun other => if other = thread then max (state.clock thread) now else state.clock other

/-- Times on a thread never go back; an effort may be finished as of a past time, not
before it started. -/
def step (state : EffortClock) : EffortStep → Option EffortClock
  | .start start =>
    if state.clock start.thread ≤ start.at_ then some (state.tick start.thread start.at_ (state.store.startTx start)) else none
  | .finish id end_ =>
    match state.store.efforts.find? fun effort => effort.id == id && effort.isOpen with
    | none => some { state with store := (state.store.finishTx id end_).2 }
    | some effort =>
      if effort.startedAt ≤ end_.at_ then some (state.tick effort.threadId end_.at_ (state.store.finishTx id end_).2) else none
  | .record table none now => some { state with store := state.store.record table none now }
  | .record table (some thread) now =>
    if state.clock thread ≤ now then some (state.tick thread now (state.store.record table (some thread) now)) else none

/-- The state after a sequence of steps; a step that cannot be taken is none. -/
def run (state : EffortClock) (steps : List EffortStep) : EffortClock :=
  steps.foldl (fun state step => (state.step step).getD state) state

end EffortClock
end Oxplow.Efforts
