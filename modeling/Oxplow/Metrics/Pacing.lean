import Oxplow.Library.Machine

/-! `pacing.rs` and the `pending_run` table of `collector_store.rs`: paced runs, deferred as
their events arrive and run by passes over the deferred ones. Times are Unix milliseconds. -/

namespace Oxplow.Paced
open Library

structure Pacing where
  settleSecs : Option Nat
  atMostSecs : Option Nat
  idleSecs : Option Nat
  deriving DecidableEq

def secs (s : Nat) : Nat := s * 1000

/-- Whether a pending run may go now. The durations are in milliseconds. -/
def due (pacing : Pacing) (sinceTouched : Nat) (sinceRun idle : Option Nat) : Bool :=
  pacing.settleSecs.all (fun s => secs s ≤ sinceTouched) &&
    pacing.atMostSecs.all (fun s => sinceRun.all fun r => secs s ≤ r) &&
    pacing.idleSecs.all fun s => idle.any fun i => secs s ≤ i

/-- `now - then`, zero when `then` is later. -/
def between (since now : Int) : Nat := (now - since).toNat

/-- A job is named by its owner and its id. -/
structure Job where
  owner : String
  id : String
  deriving DecidableEq

/-- A row of `pending_run`. -/
structure PendingRun where
  job : Job
  /-- The latest triggering event it'll run for. -/
  eventSeq : Int
  since : Int
  /-- When a triggering event last arrived. -/
  touched : Int
  deriving DecidableEq

def i64Max : Int := 9223372036854775807

/-! ## The table -/

def markPending (rows : List PendingRun) (job : Job) (seq now : Int) : List PendingRun :=
  if rows.any (·.job == job) then
    rows.map fun row => if row.job == job then { row with eventSeq := max row.eventSeq seq, touched := now } else row
  else rows ++ [⟨job, seq, now, now⟩]

def pendingLe (a b : PendingRun) : Bool :=
  a.since < b.since || a.since == b.since && (a.job.owner < b.job.owner ||
    a.job.owner == b.job.owner && a.job.id ≤ b.job.id)

def listPending (rows : List PendingRun) : List PendingRun := rows.mergeSort pendingLe

/-- The rows left, and whether one was cleared. -/
def clearPending (rows : List PendingRun) (job : Job) (seq : Int) : List PendingRun × Bool :=
  (rows.filter fun row => !(row.job == job && row.eventSeq ≤ seq), rows.any fun row => row.job == job && row.eventSeq ≤ seq)

/-! ## Passes -/

/-- How far a pass is with the first of its rows. -/
inductive Phase where
  | deciding
  | due
  | running
  /-- Its row is to be cleared up to an event. -/
  | clearing (seq : Int)
  deriving DecidableEq

/-- A call of `run_due`: what it listed and has not gone through. -/
structure Pass where
  now : Int
  idle : Option Nat
  pending : List PendingRun
  phase : Phase

def Pass.next (pass : Pass) : Pass := { pass with pending := pass.pending.tail, phase := .deciding }

structure State where
  rows : List PendingRun
  passes : List Pass

/-- What `run_one` meets before a run begins. -/
inductive Start where
  | began
  /-- The event's payload is gone: there is nothing to run. -/
  | expired
  /-- The analysis is running already. -/
  | busy

inductive Event where
  | mark (job : Job) (seq now : Int)
  | list (now : Int) (idle : Option Nat)
  /-- With the job's pacing if it is still declared and paced, and how long ago it ran. -/
  | decide (pass : Nat) (pacing : Option Pacing) (sinceRun : Option Nat)
  | start (pass : Nat) (answer : Start)
  /-- Whether the run ends as `Busy`; one that fails on its own is only logged. -/
  | finish (pass : Nat) (busy : Bool)
  | clear (pass : Nat)
  /-- An error ends the pass. -/
  | fail (pass : Nat)

/-- What a step did to a job. -/
inductive Output where
  | quiet
  | began (job : Job) (seq : Int)
  | gone (job : Job)
  | expired (job : Job)
  | cleared (job : Job)
  deriving DecidableEq

def decideOn (rows : List PendingRun) (pass : Pass) (p : PendingRun) (pacing : Option Pacing) (sinceRun : Option Nat) :
    Option (List PendingRun × Pass × Output) :=
  if pass.phase = .deciding then
    match pacing with
    | none => some (rows, { pass with phase := .clearing i64Max }, .gone p.job)
    | some pacing =>
      if due pacing (between p.touched pass.now) sinceRun pass.idle then some (rows, { pass with phase := .due }, .quiet)
      else some (rows, pass.next, .quiet)
  else none

def startOn (rows : List PendingRun) (pass : Pass) (p : PendingRun) : Start → Option (List PendingRun × Pass × Output)
  | .began => if pass.phase = .due then some (rows, { pass with phase := .running }, .began p.job p.eventSeq) else none
  | .expired =>
    if pass.phase = .due then some (rows, { pass with phase := .clearing p.eventSeq }, .expired p.job) else none
  | .busy => if pass.phase = .due then some (rows, pass.next, .quiet) else none

def finishOn (rows : List PendingRun) (pass : Pass) (p : PendingRun) (busy : Bool) : Option (List PendingRun × Pass × Output) :=
  if pass.phase = .running then
    some (rows, if busy then pass.next else { pass with phase := .clearing p.eventSeq }, .quiet)
  else none

def clearOn (rows : List PendingRun) (pass : Pass) (p : PendingRun) : Option (List PendingRun × Pass × Output) :=
  match pass.phase with
  | .clearing seq =>
    let cleared := clearPending rows p.job seq
    some (cleared.1, pass.next, if cleared.2 then .cleared p.job else .quiet)
  | _ => none

/-- A step of one pass, on the first of its rows. -/
def State.act (s : State) (i : Nat) (body : Pass → PendingRun → Option (List PendingRun × Pass × Output)) : Option (State × Output) :=
  s.passes[i]?.bind fun pass => pass.pending.head?.bind fun p =>
    (body pass p).map fun next => (⟨next.1, s.passes.set i next.2.1⟩, next.2.2)

def State.step (s : State) : Event → Option (State × Output)
  | .mark job seq now => some ({ s with rows := markPending s.rows job seq now }, .quiet)
  | .list now idle => some ({ s with passes := s.passes ++ [⟨now, idle, listPending s.rows, .deciding⟩] }, .quiet)
  | .decide i pacing sinceRun => s.act i fun pass p => decideOn s.rows pass p pacing sinceRun
  | .start i answer => s.act i fun pass p => startOn s.rows pass p answer
  | .finish i busy => s.act i fun pass p => finishOn s.rows pass p busy
  | .clear i => s.act i fun pass p => clearOn s.rows pass p
  | .fail i => s.act i fun pass _ => some (s.rows, { pass with pending := [] }, .quiet)

def State.start : State := ⟨[], []⟩

/-- The steps that were taken, each with what it did. -/
abbrev Log := List (Event × Output)

def State.run (events : List Event) : State := Machine.run State.step .start events

def State.log (events : List Event) : Log := Machine.accepted State.step .start events

/-! ## What a run says of a job -/

def Event.markOf (job : Job) : Event → Option (Int × Int)
  | .mark other seq now => if other = job then some (seq, now) else none
  | _ => none

/-- The job's deferrals, each with its event and its time. -/
def marks (job : Job) (log : Log) : List (Int × Int) := log.filterMap (·.1.markOf job)

/-- The job was not found gone, unpaced or without its event's payload. -/
def Output.keeps (job : Job) : Output → Prop
  | .gone other | .expired other => other ≠ job
  | _ => True

def runFor (job : Job) : Output → Option Int
  | .began other seq => if other = job then some seq else none
  | _ => none

/-- The deferrals no run has begun for since, oldest first. -/
def unrun (job : Job) (log : Log) : List (Int × Int) :=
  log.foldl (fun left entry =>
    ((runFor job entry.2).elim left fun seq => left.filter (seq < ·.1)) ++ (entry.1.markOf job).toList) []

/-- The deferrals since the job's row was last cleared. -/
def waiting (job : Job) (log : Log) : List (Int × Int) :=
  log.foldl (fun left entry =>
    (if entry.2 = .cleared job then [] else left) ++ (entry.1.markOf job).toList) []

end Oxplow.Paced
