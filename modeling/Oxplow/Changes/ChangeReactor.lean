import Mathlib.Data.List.Basic

/-! `change_reactor.rs`: the file lists and the analyses of a stream's mutable changes, kept as
the stream moves. -/

namespace Oxplow.Changes

def snapshotTaken : String := "snapshot.taken"
def headMoved : String := "vcs.head.moved"
def effortFinished : String := "effort.finished"

/-- A logged event: its anchors, and what the reactor reads of its payload. -/
structure Event where
  eventType : String
  stream : Option Nat
  thread : Option Nat
  unchanged : Option Bool
  fileCount : Option Nat
  trigger : Option String
  /-- The effort that finished, where its payload names one. -/
  effort : Option Nat
  payloadExpired : Bool
  deriving DecidableEq

inductive ChangeTarget where
  | working (stream : Nat)
  | effort (effort : Nat)
  | range (stream : Nat) (base : Option String) (head : String)
  deriving DecidableEq

/-- An effort, with its thread's stream. -/
structure Effort where
  id : Nat
  thread : Nat
  stream : Nat
  startSnapshot : Option Nat
  ended : Bool
  deriving DecidableEq

/-- A range headed at the working tree. -/
structure WorkingRange where
  stream : Nat
  base : Option String
  head : String
  deriving DecidableEq

/-- What the reactor reads of the stores: the efforts by start, and the ranges. -/
structure Services where
  efforts : List Effort
  ranges : List WorkingRange
  distinct : (efforts.map Effort.id).Nodup

/-- What handling an event does to a change. -/
inductive Work where
  /-- `refresh_files`: its file list. -/
  | files (target : ChangeTarget)
  /-- `deep_now`: its analysis, at once. -/
  | deep (target : ChangeTarget)
  /-- `mark_pending`: its analysis, paced. -/
  | paced (target : ChangeTarget)
  deriving DecidableEq

namespace Event

/-- A take that recorded files, or HEAD moving. -/
def movesTheStream (event : Event) : Bool :=
  if event.eventType = snapshotTaken then !(event.unchanged.getD false) && decide (event.fileCount.getD 0 > 0)
  else decide (event.eventType = headMoved)

/-- The row test of `superseded`. -/
def supersedes (stream : Nat) (event : Event) : Bool :=
  decide (event.stream = some stream) && !event.payloadExpired &&
    (decide (event.eventType = headMoved) ||
      decide (event.eventType = snapshotTaken) && event.unchanged == some false && event.fileCount.any (· > 0))

/-- HEAD moving, or a turn's end take, runs the deep analysis at once. -/
def forces (event : Event) : Bool :=
  decide (event.eventType = headMoved) || decide (event.eventType = snapshotTaken) && event.trigger == some "turn_end"

end Event

/-- Whether a newer event that moves `stream` is already logged. -/
def superseded (later : List Event) (stream : Nat) : Bool := later.any (Event.supersedes stream)

namespace Services

def workingTargets (services : Services) (stream : Nat) : List ChangeTarget :=
  .working stream :: (services.ranges.filter fun range => decide (range.stream = stream)).map fun range => .range range.stream range.base range.head

def listOpenForStream (services : Services) (stream : Nat) : List Effort :=
  services.efforts.filter fun effort => decide (effort.stream = stream) && !effort.ended

/-- The changes that an event moves: those of the stream's working tree, and the open efforts' of
its thread, or of every one where it has none. -/
def targets (services : Services) (stream : Nat) (thread : Option Nat) : List ChangeTarget :=
  let efforts := (services.listOpenForStream stream).filter fun effort => thread.all (effort.thread = ·) && effort.startSnapshot.isSome
  services.workingTargets stream ++ efforts.map fun effort => .effort effort.id

/-- `handle`, with the events that are logged after the one handled. -/
def handle (services : Services) (event : Event) (later : List Event) : List Work :=
  if event.eventType = effortFinished then
    match event.effort with
    | some id => if (services.efforts.find? (·.id = id)).any (·.startSnapshot.isSome) then [.deep (.effort id)] else []
    | none => []
  else
    match event.stream with
    | none => []
    | some stream =>
      if !event.movesTheStream || superseded later stream then []
      else
        let targets := services.targets stream event.thread
        targets.map .files ++ targets.map (if event.forces then .deep else .paced)

end Services

/-! ## A sequence of events -/

/-- An event's handling: how many of the later events were logged by then, and the stores. -/
structure Handling where
  event : Event
  ahead : Nat
  services : Services

/-- What each handling of a sequence does, the events handled in the order they were logged. -/
def handleAll : List Handling → List (List Work)
  | [] => []
  | handling :: rest => handling.services.handle handling.event ((rest.take handling.ahead).map (·.event)) :: handleAll rest

end Oxplow.Changes
