import Oxplow.Library.Table
import Oxplow.Library.Transaction

/-! `event_log_store.rs`: the event log, its consumers' checkpoints and their dead
letters. -/

namespace Oxplow.Events
open Library

inductive DomainError where
  | invalid (message : String)
  | notFound
  | invariant (message : String)
  | constraint (message : String)
  | busy (message : String)
  | storage (message : String)
  deriving DecidableEq

namespace DomainError

/-- Transient contention, which a retry may get past. -/
def isRetryable : DomainError → Bool
  | busy _ => true
  | _ => false

def text : DomainError → String
  | invalid message => "invalid value: " ++ message
  | notFound => "not found"
  | invariant message => "invariant violated: " ++ message
  | constraint message => "constraint violated: " ++ message
  | busy message => "storage busy: " ++ message
  | storage message => "storage: " ++ message

end DomainError

structure StoredEvent where
  seq : Nat
  eventType : String
  /-- Retention has replaced the payload. -/
  payloadExpired : Bool
  deriving DecidableEq

/-- The rows of `event_log`, and the last `seq` it gave. -/
structure EventLog where
  events : List StoredEvent
  last : Nat
  ordered : events.Pairwise fun a b => a.seq < b.seq
  below : ∀ event ∈ events, event.seq ≤ last
  positive : ∀ event ∈ events, 0 < event.seq

inductive LetterState where
  | pending | retried | discarded
  deriving DecidableEq

structure DeadLetter where
  id : Nat
  consumer : String
  eventSeq : Nat
  error : String
  attempts : Nat
  state : LetterState
  deriving DecidableEq

/-- A row that a consumer's handler wrote for an event. -/
structure HandlerRow where
  consumer : String
  eventSeq : Nat
  row : String
  deriving DecidableEq

structure EventStore where
  log : EventLog
  checkpoints : Table String Nat
  letters : List DeadLetter
  nextLetter : Nat
  rows : List HandlerRow

abbrev EventTx := Tx EventStore DomainError

def StoredEvent.expire (seq : Nat) (event : StoredEvent) : StoredEvent :=
  if event.seq == seq then { event with payloadExpired := true } else event

theorem StoredEvent.expire_seq (seq : Nat) (event : StoredEvent) : (event.expire seq).seq = event.seq := by
  simp only [StoredEvent.expire]
  split <;> rfl

namespace EventLog

def empty : EventLog := ⟨[], 0, .nil, nofun, nofun⟩

def append (log : EventLog) (eventType : String) : EventLog where
  events := log.events ++ [⟨log.last + 1, eventType, false⟩]
  last := log.last + 1
  ordered := by
    refine List.pairwise_append.mpr ⟨log.ordered, List.pairwise_singleton _ _, ?_⟩
    intro event member made same
    rw [List.mem_singleton.mp same]
    exact Nat.lt_succ_of_le (log.below event member)
  below := by
    intro event member
    rcases List.mem_append.mp member with kept | made
    · exact Nat.le_succ_of_le (log.below event kept)
    · exact Nat.le_of_eq (congrArg StoredEvent.seq (List.mem_singleton.mp made))
  positive := by
    intro event member
    rcases List.mem_append.mp member with kept | made
    · exact log.positive event kept
    · rw [List.mem_singleton.mp made]
      exact Nat.succ_pos _

/-- Retention replaces an event's payload. -/
def expire (log : EventLog) (seq : Nat) : EventLog where
  events := log.events.map (StoredEvent.expire seq)
  last := log.last
  ordered := by
    rw [List.pairwise_map]
    simpa only [StoredEvent.expire_seq] using log.ordered
  below := by
    intro event member
    obtain ⟨old, inside, rfl⟩ := List.mem_map.mp member
    rw [StoredEvent.expire_seq]
    exact log.below old inside
  positive := by
    intro event member
    obtain ⟨old, inside, rfl⟩ := List.mem_map.mp member
    rw [StoredEvent.expire_seq]
    exact log.positive old inside

end EventLog

/-- Events after `after`, oldest first, at most `limit`. -/
def EventStore.readAfter (store : EventStore) (after limit : Nat) : List StoredEvent :=
  (store.log.events.filter fun event => after < event.seq).take limit

/-- The consumer's last handled `seq`; zero when it has never run. -/
def EventStore.checkpoint (store : EventStore) (consumer : String) : Nat := (store.checkpoints.get consumer).getD 0

def setCheckpointTx (consumer : String) (seq : Nat) : EventTx Unit := do
  let store ← Tx.read
  Tx.write { store with checkpoints := store.checkpoints.insert consumer seq }

def DeadLetter.isFor (consumer : String) (eventSeq : Nat) (letter : DeadLetter) : Bool :=
  letter.consumer == consumer && letter.eventSeq == eventSeq

/-- Park an event for a consumer. A repeat failure counts one more attempt on the same
letter, with its error, and makes it pending again. -/
def deadLetterTx (consumer : String) (eventSeq : Nat) (error : String) : EventTx Unit := do
  let store ← Tx.read
  if store.letters.any (DeadLetter.isFor consumer eventSeq) then
    Tx.write { store with
      letters := updateRows (DeadLetter.isFor consumer eventSeq)
        (fun letter => { letter with error, attempts := letter.attempts + 1, state := .pending }) store.letters }
  else if store.log.events.any (·.seq == eventSeq) then
    let letter : DeadLetter := { id := store.nextLetter, consumer, eventSeq, error, attempts := 1, state := .pending }
    Tx.write { store with letters := store.letters ++ [letter], nextLetter := store.nextLetter + 1 }
  else Tx.lift (.error (.constraint "FOREIGN KEY constraint failed"))

/-- The rows that the consumer's handler wrote for the event. -/
def EventStore.rowsFor (store : EventStore) (consumer : String) (eventSeq : Nat) : List HandlerRow :=
  store.rows.filter fun row => row.consumer == consumer && row.eventSeq == eventSeq

def EventStore.lettersFor (store : EventStore) (consumer : String) (eventSeq : Nat) : List DeadLetter :=
  store.letters.filter (DeadLetter.isFor consumer eventSeq)

def setDeadLetterStateTx (id : Nat) (state : LetterState) : EventTx Unit := do
  let store ← Tx.read
  if store.letters.any (·.id == id) then
    Tx.write { store with letters := updateRows (·.id == id) (fun letter => { letter with state }) store.letters }
  else Tx.lift (.error .notFound)

/-- Dead letters, the pending ones only unless `all`, oldest first. -/
def listDeadLettersTx (all : Bool) : EventTx (List DeadLetter) := do
  let store ← Tx.read
  return store.letters.filter fun letter => all || letter.state == .pending

end Oxplow.Events
