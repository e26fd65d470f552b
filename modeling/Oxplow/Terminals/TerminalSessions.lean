import Mathlib.Data.List.Basic
import Std.Data.ExtTreeMap

/-! `terminal_sessions.rs`: the registry of live terminals, two maps that calls and exits change
under locks of their own, and the queues of input that wait for a terminal. -/

namespace Oxplow.Terminals

abbrev SessionKey := String

/-! ## Sessions -/

/-- What a look-up by key is for. -/
inductive Purpose
  | attach
  | closeKey
  deriving DecidableEq

/-- Where a call or an exit stands between its locks and awaits. -/
inductive Call
  /-- Next it reads the index. -/
  | lookup (key : SessionKey) (purpose : Purpose)
  /-- It has an id from the index, and next it looks for the session. -/
  | check (key : SessionKey) (purpose : Purpose) (id : Nat)
  /-- There was no session, and its process is being spawned. -/
  | spawn (key : SessionKey)
  | close (id : Nat)
  /-- A process ended and its session is out of the registry, its key not yet. -/
  | exited (id : Nat) (key : SessionKey)
  /-- `close_all` has the sessions; it stops their forwarders, then empties the index and the queues. -/
  | abort (ids : List Nat)
  | clearKeys
  | clearInput
  deriving DecidableEq

/-- A step that keeps the sessions locked while it takes another lock. -/
inductive Held
  | indexing (id : Nat) (key : SessionKey)
  | unindexing (key : SessionKey)
  | releasing (key : SessionKey)
  deriving DecidableEq

structure Sessions where
  /-- The registered sessions, each with its key. -/
  inner : Std.ExtTreeMap Nat SessionKey
  byKey : Std.ExtTreeMap SessionKey Nat
  held : Option Held
  /-- The sessions whose forwarder runs. -/
  forwarders : Std.ExtTreeMap Nat SessionKey
  calls : List Call
  nextId : Nat

/-- The input queues that a step drops. -/
inductive Dropped
  | none
  | key (key : SessionKey)
  | all
  deriving DecidableEq

inductive SessionStep
  | attach (key : SessionKey)
  | closeKey (key : SessionKey)
  | close (id : Nat)
  | closeAll
  /-- A call goes on; `ok`: the PTY does as it is told. -/
  | proceed (index : Nat) (ok : Bool)
  /-- A process ends. -/
  | exit (id : Nat)
  /-- The step that has the sessions locked goes on. -/
  | advance
  deriving DecidableEq

namespace Sessions

def start : Sessions := ⟨∅, ∅, none, ∅, [], 0⟩

def begin (s : Sessions) (call : Call) : Sessions := { s with calls := s.calls ++ [call] }

def finish (s : Sessions) (index : Nat) : Sessions := { s with calls := s.calls.eraseIdx index }

def become (s : Sessions) (index : Nat) (call : Call) : Sessions := { s with calls := s.calls.set index call }

/-- The process is up: its session goes in, and its key next. -/
def register (s : Sessions) (key : SessionKey) : Sessions :=
  { s with
    inner := s.inner.insert s.nextId key
    forwarders := s.forwarders.insert s.nextId key
    held := some (.indexing s.nextId key)
    nextId := s.nextId + 1 }

/-- A session goes, and its forwarder stops. -/
def remove (s : Sessions) (id : Nat) (key : SessionKey) : Sessions :=
  { s with
    inner := s.inner.erase id
    forwarders := s.forwarders.erase id
    held := some (.unindexing key) }

/-- What comes of a call that finds no session. -/
def missing (s : Sessions) (index : Nat) (key : SessionKey) : Purpose → Sessions
  | .attach => s.become index (.spawn key)
  | .closeKey => s.finish index

/-- What comes of a call that finds its session. -/
def found (s : Sessions) (index : Nat) (id : Nat) : Purpose → Sessions
  | .attach => s.finish index
  | .closeKey => s.become index (.close id)

def proceed (s : Sessions) (index : Nat) (ok : Bool) : Option (Sessions × Dropped) :=
  match s.calls[index]? with
  | none => none
  | some (.lookup key purpose) =>
    match s.byKey[key]? with
    | none => some (s.missing index key purpose, .none)
    | some id => some (s.become index (.check key purpose id), .none)
  | some (.check key purpose id) =>
    if s.held.isSome then none
    else if id ∈ s.inner then some (s.found index id purpose, .none)
    else some (s.missing index key purpose, .none)
  | some (.spawn key) =>
    if !ok then some (s.finish index, .none)
    else if s.held.isSome then none
    else some ((s.finish index).register key, .none)
  | some (.close id) =>
    if s.held.isSome then none
    else
      match s.inner[id]? with
      | none => some (s.finish index, .none)
      | some key => some ((s.finish index).remove id key, .none)
  | some (.exited id key) =>
    if s.byKey[key]? = some id then some ({ s.finish index with byKey := s.byKey.erase key }, .key key)
    else some (s.finish index, .none)
  | some (.abort ids) =>
    some ({ s.become index .clearKeys with forwarders := s.forwarders.filter fun id _ => !ids.contains id }, .none)
  | some .clearKeys => some ({ s.become index .clearInput with byKey := ∅ }, .none)
  | some .clearInput => some (s.finish index, .all)

def advance (s : Sessions) : Option (Sessions × Dropped) :=
  match s.held with
  | none => none
  | some (.indexing id key) => some ({ s with byKey := s.byKey.insert key id, held := none }, .none)
  | some (.unindexing key) => some ({ s with byKey := s.byKey.erase key, held := some (.releasing key) }, .none)
  | some (.releasing key) => some ({ s with held := none }, .key key)

def step (s : Sessions) : SessionStep → Option (Sessions × Dropped)
  | .attach key => some (s.begin (.lookup key .attach), .none)
  | .closeKey key => some (s.begin (.lookup key .closeKey), .none)
  | .close id => some (s.begin (.close id), .none)
  | .closeAll => if s.held.isSome then none else some ({ s.begin (.abort s.inner.keys) with inner := ∅ }, .none)
  | .proceed index ok => s.proceed index ok
  | .exit id =>
    if s.held.isSome then none
    else
      s.forwarders[id]?.map fun key =>
        ({ s.begin (.exited id key) with inner := s.inner.erase id, forwarders := s.forwarders.erase id }, .none)
  | .advance => s.advance

end Sessions

/-! ## Input -/

/-- What a drain does. `tries`: how many more times it waits for a session. -/
inductive Stage
  | receiving
  | waiting (message : Nat) (tries : Nat)
  | sending (message : Nat) (id : Nat) (tries : Nat)
  | writing (message : Nat) (id : Nat)
  deriving DecidableEq

/-- A queue of a key, and the task that drains it. -/
structure Drain where
  key : SessionKey
  queue : List Nat
  stage : Stage

/-- The queues. Messages are numbered as they are queued. -/
structure Inputs where
  /-- The queue each key's messages go to. -/
  input : Std.ExtTreeMap SessionKey Nat
  drains : Std.ExtTreeMap Nat Drain
  nextDrain : Nat
  nextMessage : Nat
  /-- What was written, and to which session. -/
  written : List (SessionKey × Nat × Nat)

inductive InputStep
  | enqueue (key : SessionKey)
  | receive (drain : Nat)
  /-- A session is found for the message. -/
  | ready (drain : Nat) (id : Nat)
  /-- The input wait is over. -/
  | timeOut (drain : Nat)
  /-- The message is read and its session looked for; `valid`: it is one to write. -/
  | send (drain : Nat) (valid : Bool)
  | write (drain : Nat) (ok : Bool)
  deriving DecidableEq

namespace Inputs

def start : Inputs := ⟨∅, ∅, 0, 0, []⟩

def setDrain (s : Inputs) (index : Nat) (drain : Drain) : Inputs := { s with drains := s.drains.insert index drain }

/-- A key's message goes to its queue, or to a new one with a drain of its own. -/
def enqueue (s : Inputs) (key : SessionKey) : Inputs :=
  match s.input[key]?.bind fun index => s.drains[index]?.map fun drain => (index, drain) with
  | some (index, drain) =>
    { s.setDrain index { drain with queue := drain.queue ++ [s.nextMessage] } with nextMessage := s.nextMessage + 1 }
  | none =>
    { s.setDrain s.nextDrain ⟨key, [s.nextMessage], .receiving⟩ with
      input := s.input.insert key s.nextDrain
      nextDrain := s.nextDrain + 1
      nextMessage := s.nextMessage + 1 }

/-- A queue that nothing adds to any more is still drained. -/
def drop (s : Inputs) : Dropped → Inputs
  | .none => s
  | .key key => { s with input := s.input.erase key }
  | .all => { s with input := ∅ }

/-- No session came: the message is dropped, and what is queued behind it. -/
def giveUp (s : Inputs) (index : Nat) (drain : Drain) : Inputs := s.setDrain index { drain with queue := [], stage := .receiving }

/-- `live id`: the session is registered. -/
def step (s : Inputs) (live : Nat → Option SessionKey) : InputStep → Option Inputs
  | .enqueue key => some (s.enqueue key)
  | .receive index =>
    s.drains[index]?.bind fun drain =>
      match drain.stage, drain.queue with
      | .receiving, message :: queue => some (s.setDrain index { drain with queue, stage := .waiting message 2 })
      | _, _ => none
  | .ready index id =>
    s.drains[index]?.bind fun drain =>
      match drain.stage with
      | .waiting message (tries + 1) =>
        if live id = some drain.key then some (s.setDrain index { drain with stage := .sending message id tries }) else none
      | _ => none
  | .timeOut index =>
    s.drains[index]?.bind fun drain =>
      match drain.stage with
      | .waiting _ _ => some (s.giveUp index drain)
      | _ => none
  | .send index valid =>
    s.drains[index]?.bind fun drain =>
      match drain.stage with
      | .sending message id tries =>
        if !valid then some (s.setDrain index { drain with stage := .receiving })
        else if (live id).isSome then some (s.setDrain index { drain with stage := .writing message id })
        else if tries = 0 then some (s.giveUp index drain)
        else some (s.setDrain index { drain with stage := .waiting message tries })
      | _ => none
  | .write index ok =>
    s.drains[index]?.bind fun drain =>
      match drain.stage with
      | .writing message id =>
        let went := s.setDrain index { drain with stage := .receiving }
        some (if ok then { went with written := went.written ++ [(drain.key, id, message)] } else went)
      | _ => none

end Inputs

/-! ## The registry -/

structure Registry where
  sessions : Sessions
  inputs : Inputs

inductive RegistryStep
  | session (step : SessionStep)
  | input (step : InputStep)
  deriving DecidableEq

namespace Registry

def start : Registry := ⟨.start, .start⟩

/-- The registered session of an id, when nothing has the sessions locked. -/
def live (s : Registry) (id : Nat) : Option SessionKey := if s.sessions.held.isSome then none else s.sessions.inner[id]?

/-- A step that looks for a session waits for their lock. -/
def waits (s : Registry) : InputStep → Bool
  | .ready _ _ | .send _ _ => s.sessions.held.isSome
  | _ => false

def step (s : Registry) : RegistryStep → Option (Registry × Unit)
  | .session step => (s.sessions.step step).map fun moved => (⟨moved.1, s.inputs.drop moved.2⟩, ())
  | .input step => if s.waits step then none else (s.inputs.step s.live step).map fun inputs => (⟨s.sessions, inputs⟩, ())

end Registry
end Oxplow.Terminals
