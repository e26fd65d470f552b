import Oxplow.Events.EventLog

/-! `event_pump.rs`: delivery from the event log to its consumers. A run of the sync
consumers, and one of each async consumer, read the log in batches under a lock of their
own; every await is a step, with appends, the other runs and crashes between them. -/

namespace Oxplow.Events
open Library

/-- The consumers by name, which keys their checkpoints and dead letters. -/
structure Consumers where
  sync : List String
  async : List String
  handles : String → String → Bool
  /-- The consumers that an event of a type waits on. -/
  afterFor : String → String → List String
  apart : ∀ name ∈ sync, name ∉ async

/-- Events read at a time. -/
def batch : Nat := 64

inductive HandlerEnd where
  | returned (result : Except DomainError Unit)
  | panicked (message : String)

/-- A panicking handler is a failure too. -/
def HandlerEnd.result : HandlerEnd → Except DomainError Unit
  | returned result => result
  | panicked message => .error (.invariant ("handler panicked: " ++ message))

/-- What a handler does when it runs: the rows it writes, and how it ends. -/
structure HandlerRun where
  rows : List String
  ending : HandlerEnd

/-- Whether an event reaches a consumer: an expired one is checkpointed past. -/
def delivers (handles : Bool) (event : StoredEvent) : Bool := handles && !event.payloadExpired

def Consumers.wants (consumers : Consumers) (name : String) (event : StoredEvent) : Bool :=
  delivers (consumers.handles name event.eventType) event

inductive Delivery where
  | handled | skipped | deadLettered | deferred
  deriving DecidableEq

/-- A transaction of the database: what fails leaves no trace, and is run again while it
is only busy. -/
def transaction {α : Type} (body : EventTx α) : EventTx α := Tx.savepoint body

/-! ## Sync consumers -/

/-- The handler under a savepoint. -/
def runHandler (name : String) (event : StoredEvent) (run : HandlerRun) : EventTx Unit :=
  Tx.savepoint do
    let store ← Tx.read
    Tx.write { store with rows := store.rows ++ run.rows.map fun row => ⟨name, event.seq, row⟩ }
    Tx.lift run.ending.result

/-- A failure becomes a dead letter; a lock blip fails the whole delivery. -/
def afterHandler (name : String) (event : StoredEvent) : Except DomainError Unit → EventTx Delivery
  | .ok () => return .handled
  | .error error =>
    if error.isRetryable then Tx.lift (.error error)
    else do
      deadLetterTx name event.seq error.text
      return .deadLettered

def handleEvent (consumers : Consumers) (name : String) (event : StoredEvent) (run : HandlerRun) : EventTx Delivery :=
  if consumers.wants name event then do
    let result ← Tx.attempt (runHandler name event run)
    afterHandler name event result
  else return .skipped

/-- One event to one consumer, with its checkpoint. -/
def deliver (consumers : Consumers) (name : String) (event : StoredEvent) (run : HandlerRun) : EventTx Delivery :=
  transaction do
    let outcome ← handleEvent consumers name event run
    setCheckpointTx name event.seq
    return outcome

inductive SyncPhase where
  | start
  | read (checkpoint : Nat)
  | events (events : List StoredEvent)

/-- A run of the sync consumers: those still to run, the current one first. -/
structure SyncRun where
  waiting : List String
  phase : SyncPhase

/-! ## Async consumers -/

/-- Where the run of an async consumer is. -/
inductive SlotRun where
  | start
  | read (checkpoint : Nat)
  /-- The rest of the batch, and the last event skipped whose checkpoint is not written. -/
  | events (events : List StoredEvent) (skippedTo : Option Nat)
  /-- `predecessors_past` is to be read. -/
  | waiting (event : StoredEvent) (rest : List StoredEvent) (skippedTo : Option Nat)
  | handling (event : StoredEvent) (rest : List StoredEvent) (skippedTo : Option Nat)
  /-- The handler is done; its checkpoint is to be written. -/
  | handled (event : StoredEvent) (rest : List StoredEvent)
  | parking (event : StoredEvent) (rest : List StoredEvent) (message : String)
  | deferring (event : StoredEvent) (skippedTo : Option Nat)

/-- Move a checkpoint over the events skipped. -/
def checkpointSkipped (name : String) (skippedTo : Option Nat) : EventTx Unit :=
  skippedTo.elim (return ()) fun seq => transaction (setCheckpointTx name seq)

def parkAsync (name : String) (event : StoredEvent) (message : String) : EventTx Unit :=
  transaction do
    deadLetterTx name event.seq message
    setCheckpointTx name event.seq

/-- Whether every consumer in `after` has checkpointed at or past `seq`. -/
def predecessorsPast (store : EventStore) (after : List String) (seq : Nat) : Bool :=
  after.all fun name => !(store.checkpoint name < seq)

/-! ## The pump -/

/-- A delivery that was committed. -/
structure Delivered where
  event : StoredEvent
  run : HandlerRun

/-- What happened to a consumer's events so far. -/
structure History where
  /-- A sync consumer's deliveries. -/
  delivered : List Delivered
  /-- The events an async consumer passed: skipped, handled or parked. -/
  passed : List StoredEvent
  /-- The events its handler succeeded on, in that order. -/
  handled : List Nat

structure PumpState where
  store : EventStore
  /-- The run that holds `run_lock`. -/
  syncRun : Option SyncRun
  /-- For each async consumer the run that holds its lock. -/
  slots : String → Option SlotRun
  history : String → History

inductive PumpStep where
  | append (eventType : String)
  | expire (seq : Nat)
  /-- The loop, a settle, `run_once` or `deliver_projections` takes the lock. -/
  | startSync
  | sync (run : HandlerRun)
  /-- The run ends early: a read or a transaction failed. -/
  | stopSync
  | startSlot (name : String)
  | slot (name : String) (run : HandlerRun)
  | stopSlot (name : String)
  | crash

namespace PumpState

def empty : PumpState where
  store := { log := .empty, checkpoints := [], letters := [], nextLetter := 1, rows := [] }
  syncRun := none
  slots _ := none
  history _ := ⟨[], [], []⟩

def setSlot (state : PumpState) (name : String) (run : Option SlotRun) : PumpState :=
  { state with slots := fun other => if other = name then run else state.slots other }

def record (state : PumpState) (name : String) (update : History → History) : PumpState :=
  { state with history := fun other => if other = name then update (state.history other) else state.history other }

def setStore (state : PumpState) (store : EventStore) : PumpState := { state with store }

def setSync (state : PumpState) (run : Option SyncRun) : PumpState := { state with syncRun := run }

/-- After the delivery of the first event of a batch; a failed one ends the run. -/
def afterDeliver (state : PumpState) (name : String) (waiting : List String) (rest : List StoredEvent) (delivered : Delivered) :
    Except DomainError Delivery → EventStore → PumpState
  | .ok _, store =>
    ((state.setStore store).record name fun history => { history with delivered := history.delivered ++ [delivered] }).setSync
      (some ⟨name :: waiting, .events rest⟩)
  | .error _, store => (state.setStore store).setSync none

/-- The next step of `run_sync` for one consumer. -/
def consumerStep (consumers : Consumers) (state : PumpState) (handler : HandlerRun) (name : String) (waiting : List String) :
    SyncPhase → PumpState
  | .start => state.setSync (some ⟨name :: waiting, .read (state.store.checkpoint name)⟩)
  | .read checkpoint =>
    let events := state.store.readAfter checkpoint batch
    state.setSync (some (if events.isEmpty then ⟨waiting, .start⟩ else ⟨name :: waiting, .events events⟩))
  | .events [] => state.setSync (some ⟨name :: waiting, .start⟩)
  | .events (event :: rest) =>
    let result := deliver consumers name event handler state.store
    state.afterDeliver name waiting rest ⟨event, handler⟩ result.1 result.2

def syncStep (consumers : Consumers) (state : PumpState) (handler : HandlerRun) (run : SyncRun) : PumpState :=
  match run.waiting with
  | [] => state.setSync none
  | name :: waiting => state.consumerStep consumers handler name waiting run.phase

/-- After the handler of an async consumer. -/
def afterHandling (state : PumpState) (name : String) (event : StoredEvent) (rest : List StoredEvent) (skippedTo : Option Nat) :
    Except DomainError Unit → PumpState
  | .ok () =>
    (state.record name fun history => { history with handled := history.handled ++ [event.seq] }).setSlot name
      (some (.handled event rest))
  | .error error =>
    state.setSlot name (some (if error.isRetryable then .deferring event skippedTo else .parking event rest error.text))

/-- The checkpoint is past the event. -/
def passEvent (state : PumpState) (name : String) (event : StoredEvent) (rest : List StoredEvent) :
    Except DomainError Unit → EventStore → PumpState
  | .ok (), store =>
    ((state.setStore store).record name fun history => { history with passed := history.passed ++ [event] }).setSlot name
      (some (.events rest none))
  | .error _, store => (state.setStore store).setSlot name none

/-- The next step of `run_slot`. -/
def slotStep (consumers : Consumers) (state : PumpState) (name : String) (handler : HandlerRun) : SlotRun → PumpState
  | .start => state.setSlot name (some (.read (state.store.checkpoint name)))
  | .read checkpoint =>
    let events := state.store.readAfter checkpoint batch
    state.setSlot name (if events.isEmpty then none else some (.events events none))
  | .events [] skippedTo => (state.setStore (checkpointSkipped name skippedTo state.store).2).setSlot name (some .start)
  | .events (event :: rest) skippedTo =>
    if consumers.wants name event then state.setSlot name (some (.waiting event rest skippedTo))
    else
      (state.record name fun history => { history with passed := history.passed ++ [event] }).setSlot name
        (some (.events rest (some event.seq)))
  | .waiting event rest skippedTo =>
    state.setSlot name (some
      (if predecessorsPast state.store (consumers.afterFor name event.eventType) event.seq then .handling event rest skippedTo
      else .deferring event skippedTo))
  | .handling event rest skippedTo => state.afterHandling name event rest skippedTo handler.ending.result
  | .handled event rest =>
    let result := transaction (setCheckpointTx name event.seq) state.store
    state.passEvent name event rest result.1 result.2
  | .parking event rest message =>
    let result := parkAsync name event message state.store
    state.passEvent name event rest result.1 result.2
  | .deferring _ skippedTo => (state.setStore (checkpointSkipped name skippedTo state.store).2).setSlot name none

def step (consumers : Consumers) (state : PumpState) : PumpStep → Option PumpState
  | .append eventType => some (state.setStore { state.store with log := state.store.log.append eventType })
  | .expire seq => some (state.setStore { state.store with log := state.store.log.expire seq })
  | .startSync => if state.syncRun.isSome then none else some (state.setSync (some ⟨consumers.sync, .start⟩))
  | .sync handler => state.syncRun.map (state.syncStep consumers handler)
  | .stopSync => some (state.setSync none)
  | .startSlot name =>
    if consumers.async.contains name && (state.slots name).isNone then some (state.setSlot name (some .start)) else none
  | .slot name handler => (state.slots name).map (state.slotStep consumers name handler)
  | .stopSlot name => some (state.setSlot name none)
  | .crash => some { state with syncRun := none, slots := fun _ => none }

/-- The state after a sequence of steps; a step that cannot be taken is none. -/
def run (consumers : Consumers) (state : PumpState) (steps : List PumpStep) : PumpState :=
  steps.foldl (fun state step => (state.step consumers step).getD state) state

end PumpState
end Oxplow.Events

/-! `event_pump.rs`: the levels in which a settle runs the named async consumers. -/

namespace Oxplow.Events

/-- Whether each consumer that one runs `after` is placed, or isn't among those left. -/
def settleReady (after : String → List String) (placed names : List String) (name : String) : Bool :=
  (after name).all fun dep => placed.contains dep || !names.contains dep

/-- The levels of the slots left. Consumers that wait on each other are one last level. -/
def settleLevelsFrom (after : String → List String) (placed slots : List String) : List (List String) :=
  if slots = [] then []
  else
    let split := slots.partition (settleReady after placed slots)
    if split.1 = [] then [split.2] else split.1 :: settleLevelsFrom after (placed ++ split.1) split.2
  termination_by slots.length
  decreasing_by
    rename_i some
    have whole := (List.filter_append_perm (settleReady after placed slots) slots).length_eq
    have taken : 0 < (slots.partition (settleReady after placed slots)).1.length := List.length_pos_iff.mpr some
    rw [List.length_append] at whole
    rw [List.partition_eq_filter_filter] at taken ⊢
    simp only [Function.comp_def] at taken ⊢
    omega

/-- `slots` in levels, each consumer in a later one than those of them it runs `after`. -/
def settleLevels (after : String → List String) (slots : List String) : List (List String) := settleLevelsFrom after [] slots

end Oxplow.Events
