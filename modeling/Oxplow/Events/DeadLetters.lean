import Oxplow.Events.EventPump

/-! `event_pump.rs`: a person retries or discards a parked event. The calls run side by
side; every await is a step, and so is every transaction. -/

namespace Oxplow.Events
open Library

def LetterState.text : LetterState → String
  | pending => "pending"
  | retried => "retried"
  | discarded => "discarded"

def findLetter (id : Nat) : EventTx DeadLetter := do
  let letters ← listDeadLettersTx true
  Tx.lift ((letters.find? (·.id == id)).elim (.error .notFound) .ok)

def EventStore.eventBySeq (store : EventStore) (seq : Nat) : Option StoredEvent :=
  (store.readAfter (seq - 1) 1).getLast?.filter (·.seq == seq)

def retryable (event : StoredEvent) (id : Nat) : Except DomainError Unit :=
  if event.payloadExpired then
    .error (.invalid ("dead letter " ++ toString id ++ "'s event payload expired under retention; discard the letter"))
  else .ok ()

/-- The event of a letter, while it can be handled again. -/
def retryEvent (letter : DeadLetter) : EventTx StoredEvent := do
  let store ← Tx.read
  let event ← Tx.lift ((store.eventBySeq letter.eventSeq).elim (.error .notFound) .ok)
  Tx.lift (retryable event letter.id)
  return event

/-- What a retry makes of its letter. -/
def recordRetry (letter : DeadLetter) : Except DomainError Unit → EventTx Unit
  | .ok () => setDeadLetterStateTx letter.id .retried
  | .error error => deadLetterTx letter.consumer letter.eventSeq error.text

/-- A sync consumer's retry: the event, the handler and the letter in one transaction. -/
def retryTx (letter : DeadLetter) (run : HandlerRun) : EventTx Unit :=
  transaction do
    let event ← retryEvent letter
    let result ← Tx.attempt (runHandler letter.consumer event run)
    recordRetry letter result

/-- A retry of an async consumer's letter, under the consumer's lock. -/
inductive AsyncRetry where
  | locked
  | read (event : StoredEvent)
  | running
  | ran (result : Except DomainError Unit)
  | finding

/-- Where a call is. -/
inductive LetterCall where
  | retry (id : Nat)
  /-- A sync consumer's letter was pending. -/
  | transacting (letter : DeadLetter)
  /-- An async consumer's letter was pending: the lock is to be taken. -/
  | waiting (letter : DeadLetter)
  | async (letter : DeadLetter) (phase : AsyncRetry)
  | discard (id : Nat)
  | finding (id : Nat)
  | returned (result : Except DomainError DeadLetter)

/-- The check of a retry, on the letter it read. -/
def checkLetter (consumers : Consumers) (letter : DeadLetter) : LetterCall :=
  if letter.state != .pending then
    .returned (.error (.invalid ("dead letter " ++ toString letter.id ++ " is `" ++ letter.state.text ++
      "`, not `pending`; only a pending letter can be retried")))
  else if consumers.async.contains letter.consumer then .waiting letter
  else if consumers.sync.contains letter.consumer then .transacting letter
  else
    .returned (.error (.invalid ("no consumer named `" ++ letter.consumer ++ "` is registered; discard the letter instead")))

structure LetterDesk where
  store : EventStore
  calls : Nat → Option LetterCall
  /-- The call that holds an async consumer's lock. -/
  locks : String → Option Nat
  /-- For each letter the handlers that retries started, and those that succeeded. -/
  starts : Nat → Nat
  successes : Nat → Nat

inductive CallStep where
  | retry (call id : Nat)
  | discard (call id : Nat)
  /-- The next step of a call; a handler that it runs does this. -/
  | next (call : Nat) (handler : HandlerRun)

namespace LetterDesk

/-- No call is under way. -/
def opened (store : EventStore) : LetterDesk := ⟨store, fun _ => none, fun _ => none, fun _ => 0, fun _ => 0⟩

def setCall (desk : LetterDesk) (call : Nat) (at_ : LetterCall) : LetterDesk :=
  { desk with calls := fun other => if other = call then some at_ else desk.calls other }

def setLock (desk : LetterDesk) (consumer : String) (holder : Option Nat) : LetterDesk :=
  { desk with locks := fun other => if other = consumer then holder else desk.locks other }

def setStore (desk : LetterDesk) (store : EventStore) : LetterDesk := { desk with store }

def noteStart (desk : LetterDesk) (id : Nat) : LetterDesk :=
  { desk with starts := fun other => if other = id then desk.starts id + 1 else desk.starts other }

def noteEnd (desk : LetterDesk) (id : Nat) : Except DomainError Unit → LetterDesk
  | .ok () => { desk with successes := fun other => if other = id then desk.successes id + 1 else desk.successes other }
  | .error _ => desk

/-- A step of a call that ends it when it fails. -/
def answer (desk : LetterDesk) (call : Nat) : Except DomainError LetterCall → LetterDesk
  | .ok at_ => desk.setCall call at_
  | .error error => desk.setCall call (.returned (.error error))

/-- The same of a call that holds a lock. -/
def release (desk : LetterDesk) (call : Nat) (consumer : String) : Except DomainError LetterCall → LetterDesk
  | .ok at_ => desk.setCall call at_
  | .error error => (desk.setLock consumer none).setCall call (.returned (.error error))

/-- The handler of a sync consumer ran, if the event could be read. -/
def noteRun (desk : LetterDesk) (letter : DeadLetter) (result : Except DomainError Unit) : Except DomainError StoredEvent → LetterDesk
  | .ok _ => (desk.noteStart letter.id).noteEnd letter.id result
  | .error _ => desk

def asyncStep (desk : LetterDesk) (call : Nat) (handler : HandlerRun) (letter : DeadLetter) : AsyncRetry → LetterDesk
  | .locked =>
    desk.release call letter.consumer ((retryEvent letter desk.store).1.map fun event => .async letter (.read event))
  | .read _ => (desk.noteStart letter.id).setCall call (.async letter .running)
  | .running => (desk.noteEnd letter.id handler.ending.result).setCall call (.async letter (.ran handler.ending.result))
  | .ran result =>
    let recorded := transaction (recordRetry letter result) desk.store
    (desk.setStore recorded.2).release call letter.consumer (recorded.1.map fun _ => .async letter .finding)
  | .finding => (desk.setLock letter.consumer none).setCall call (.returned (findLetter letter.id desk.store).1)

/-- The next step of a call; a call that waits for a lock takes it when it is free. -/
def callStep (consumers : Consumers) (desk : LetterDesk) (call : Nat) (handler : HandlerRun) : LetterCall → Option LetterDesk
  | .retry id => some (desk.answer call ((findLetter id desk.store).1.map (checkLetter consumers)))
  | .transacting letter =>
    let result := retryTx letter handler desk.store
    let noted := desk.noteRun letter handler.ending.result (retryEvent letter desk.store).1
    some ((noted.setStore result.2).answer call (result.1.map fun _ => .finding letter.id))
  | .waiting letter =>
    if (desk.locks letter.consumer).isSome then none
    else some ((desk.setLock letter.consumer (some call)).setCall call (.async letter .locked))
  | .async letter phase => some (desk.asyncStep call handler letter phase)
  | .discard id =>
    let result := transaction (setDeadLetterStateTx id .discarded) desk.store
    some ((desk.setStore result.2).answer call (result.1.map fun _ => .finding id))
  | .finding id => some (desk.setCall call (.returned (findLetter id desk.store).1))
  | .returned _ => none

def step (consumers : Consumers) (desk : LetterDesk) : CallStep → Option LetterDesk
  | .retry call id => if (desk.calls call).isSome then none else some (desk.setCall call (.retry id))
  | .discard call id => if (desk.calls call).isSome then none else some (desk.setCall call (.discard id))
  | .next call handler => (desk.calls call).bind (desk.callStep consumers call handler)

/-- The desk after a sequence of steps; a step that cannot be taken is none. -/
def run (consumers : Consumers) (desk : LetterDesk) (steps : List CallStep) : LetterDesk :=
  steps.foldl (fun desk step => (desk.step consumers step).getD desk) desk

end LetterDesk
end Oxplow.Events
