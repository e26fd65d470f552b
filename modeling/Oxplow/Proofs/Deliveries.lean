import Oxplow.Library.Readers
import Oxplow.Events.EventPump

/-! What one delivery leaves in the store, and how a batch stays the next of the log. -/

namespace Oxplow.Proofs.Deliveries
open Library Events

/-! ## The store -/

/-- What a consumer's delivery may change: nothing of another consumer. -/
structure OnlyFor (name : String) (store later : EventStore) : Prop where
  log : later.log = store.log
  checkpoint : ∀ other, other ≠ name → later.checkpoint other = store.checkpoint other
  rows : ∀ other seq, other ≠ name → later.rowsFor other seq = store.rowsFor other seq
  letters : ∀ other seq, other ≠ name → later.lettersFor other seq = store.lettersFor other seq

/-- The store with a checkpoint written. -/
def checkpointed (store : EventStore) (name : String) (seq : Nat) : EventStore :=
  { store with checkpoints := store.checkpoints.insert name seq }

theorem setCheckpointTx_eq (store : EventStore) (name : String) (seq : Nat) :
    setCheckpointTx name seq store = (.ok (), checkpointed store name seq) := rfl

@[simp] theorem checkpointed_own (store : EventStore) (name : String) (seq : Nat) : (checkpointed store name seq).checkpoint name = seq := by
  simp [checkpointed, EventStore.checkpoint, Table.get_insert]

theorem checkpointed_only (store : EventStore) (name : String) (seq : Nat) : OnlyFor name store (checkpointed store name seq) := by
  refine ⟨rfl, ?_, fun _ _ _ => rfl, fun _ _ _ => rfl⟩
  intro other apart
  simp [checkpointed, EventStore.checkpoint, Table.get_insert, apart]

theorem isFor_iff {name : String} {seq : Nat} {letter : DeadLetter} :
    letter.isFor name seq = true ↔ letter.consumer = name ∧ letter.eventSeq = seq := by
  simp [DeadLetter.isFor]

/-- Parking an event leaves one letter where there was none, and touches no other. -/
theorem deadLetterTx_ok {name : String} {seq : Nat} {error : String} {store later : EventStore} {done : Unit}
    (parked : deadLetterTx name seq error store = (.ok done, later)) :
    later.log = store.log ∧ later.checkpoints = store.checkpoints ∧ later.rows = store.rows ∧
      (∀ other at_, ¬ (other = name ∧ at_ = seq) → later.lettersFor other at_ = store.lettersFor other at_) ∧
      (later.lettersFor name seq).length = max 1 (store.lettersFor name seq).length := by
  simp only [deadLetterTx, Tx.bind_ok, Tx.read_ok] at parked
  obtain ⟨_, _, ⟨rfl, rfl⟩, parked⟩ := parked
  split at parked
  next known =>
    cases Tx.write_ok.mp parked
    refine ⟨rfl, rfl, rfl, ?_, ?_⟩
    · intro other at_ apart
      simp only [EventStore.lettersFor]
      refine (filter_updateRows ?_ _).trans (updateRows_of_none ?_)
      · exact fun _ => rfl
      intro letter member
      rw [← Bool.not_eq_true]
      intro own
      obtain ⟨consumer, eventSeq⟩ := isFor_iff.mp (List.mem_filter.mp member).2
      obtain ⟨consumer', eventSeq'⟩ := isFor_iff.mp own
      exact apart ⟨consumer.symm.trans consumer', eventSeq.symm.trans eventSeq'⟩
    · obtain ⟨letter, member, own⟩ := List.any_eq_true.mp known
      have there : 0 < (store.lettersFor name seq).length := List.length_pos_of_mem (List.mem_filter.mpr ⟨member, own⟩)
      simp only [EventStore.lettersFor] at there ⊢
      rw [filter_updateRows, updateRows, List.length_map]
      · omega
      · exact fun _ => rfl
  next fresh =>
    split at parked
    · cases Tx.write_ok.mp parked
      have none : store.lettersFor name seq = [] := by
        simp only [EventStore.lettersFor, List.filter_eq_nil_iff]
        intro letter member own
        exact fresh (List.any_eq_true.mpr ⟨letter, member, own⟩)
      refine ⟨rfl, rfl, rfl, ?_, ?_⟩
      · intro other at_ apart
        have others : DeadLetter.isFor other at_ ⟨store.nextLetter, name, seq, error, 1, .pending⟩ = false := by
          rw [← Bool.not_eq_true]
          intro own
          obtain ⟨consumer, eventSeq⟩ := isFor_iff.mp own
          exact apart ⟨consumer.symm, eventSeq.symm⟩
        simp [EventStore.lettersFor, others]
      · simp only [EventStore.lettersFor] at none ⊢
        rw [List.filter_append, none, List.nil_append, List.filter_cons_of_pos (by simp [DeadLetter.isFor])]
        rfl
    · cases parked

/-! ## A delivery -/

/-- The handler runs, and succeeds. -/
def commits (consumers : Consumers) (name : String) (delivered : Delivered) : Bool :=
  consumers.wants name delivered.event && delivered.run.ending.result.toBool

def parks (consumers : Consumers) (name : String) (delivered : Delivered) : Bool :=
  consumers.wants name delivered.event && !delivered.run.ending.result.toBool

/-- The rows that a delivery leaves: those of a handler that succeeds. -/
def written (consumers : Consumers) (name : String) (delivered : Delivered) : List HandlerRow :=
  if commits consumers name delivered then delivered.run.rows.map fun row => ⟨name, delivered.event.seq, row⟩ else []

variable {event : StoredEvent} {handler : HandlerRun}

theorem runHandler_result {name : String} {store later : EventStore} {result : Except DomainError Unit}
    (ran : runHandler name event handler store = (result, later)) :
    result = handler.ending.result ∧
      later = if result.toBool then { store with rows := store.rows ++ handler.rows.map fun row => ⟨name, event.seq, row⟩ } else store := by
  cases ending : handler.ending.result with
  | error error =>
    have failed : runHandler name event handler store = (.error error, store) := by
      simp [runHandler, Tx.savepoint, bind, Tx.next, Tx.read, Tx.write, Tx.lift, Tx.restored, ending]
    rw [failed] at ran
    cases ran
    exact ⟨rfl, rfl⟩
  | ok done =>
    have succeeded : runHandler name event handler store =
        (.ok done, { store with rows := store.rows ++ handler.rows.map fun row => ⟨name, event.seq, row⟩ }) := by
      simp [runHandler, Tx.savepoint, bind, Tx.next, Tx.read, Tx.write, Tx.lift, Tx.restored, ending]
    rw [succeeded] at ran
    cases ran
    exact ⟨rfl, rfl⟩

/-- A delivery that is committed. -/
structure Delivers (consumers : Consumers) (name : String) (delivered : Delivered) (store later : EventStore) : Prop where
  only : OnlyFor name store later
  checkpoint : later.checkpoint name = delivered.event.seq
  rows : later.rows = store.rows ++ written consumers name delivered
  letters : ∀ seq, (later.lettersFor name seq).length =
    if seq = delivered.event.seq ∧ parks consumers name delivered = true then max 1 (store.lettersFor name seq).length
    else (store.lettersFor name seq).length

theorem written_other (consumers : Consumers) (name other : String) (delivered : Delivered) (seq : Nat)
    (apart : ¬ (other = name ∧ seq = delivered.event.seq)) :
    (written consumers name delivered).filter (fun row => row.consumer == other && row.eventSeq == seq) = [] := by
  rw [List.filter_eq_nil_iff]
  intro row member own
  simp only [written] at member
  split at member
  · obtain ⟨text, _, rfl⟩ := List.mem_map.mp member
    simp only [Bool.and_eq_true, beq_iff_eq] at own
    exact apart ⟨own.1.symm, own.2.symm⟩
  · cases member

theorem written_own (consumers : Consumers) (name : String) (delivered : Delivered) :
    (written consumers name delivered).filter (fun row => row.consumer == name && row.eventSeq == delivered.event.seq) =
      written consumers name delivered := by
  rw [List.filter_eq_self]
  intro row member
  simp only [written] at member
  split at member
  · obtain ⟨text, _, rfl⟩ := List.mem_map.mp member
    simp
  · cases member

/-- Before its checkpoint is written: the handler's rows, or its letter. -/
theorem afterHandler_ok {name : String} {result : Except DomainError Unit} {store later : EventStore} {outcome : Delivery}
    (done : afterHandler name event result store = (.ok outcome, later)) :
    later.log = store.log ∧ later.checkpoints = store.checkpoints ∧ later.rows = store.rows ∧
      (∀ other at_, ¬ (other = name ∧ at_ = event.seq) → later.lettersFor other at_ = store.lettersFor other at_) ∧
      (later.lettersFor name event.seq).length =
        if result.toBool then (store.lettersFor name event.seq).length else max 1 (store.lettersFor name event.seq).length := by
  cases result with
  | ok =>
    cases done
    exact ⟨rfl, rfl, rfl, fun _ _ _ => rfl, rfl⟩
  | error error =>
    simp only [afterHandler] at done
    split at done
    · cases done
    · simp only [Tx.bind_ok, Tx.pure_ok] at done
      obtain ⟨_, _, parked, _, rfl⟩ := done
      exact deadLetterTx_ok parked

theorem handleEvent_ok {consumers : Consumers} {name : String} {store later : EventStore} {outcome : Delivery}
    (done : handleEvent consumers name event handler store = (.ok outcome, later)) :
    later.log = store.log ∧ later.checkpoints = store.checkpoints ∧
      later.rows = store.rows ++ written consumers name ⟨event, handler⟩ ∧
      (∀ other at_, ¬ (other = name ∧ at_ = event.seq) → later.lettersFor other at_ = store.lettersFor other at_) ∧
      (later.lettersFor name event.seq).length = if parks consumers name ⟨event, handler⟩ = true then
        max 1 (store.lettersFor name event.seq).length else (store.lettersFor name event.seq).length := by
  simp only [handleEvent] at done
  cases wanted : consumers.wants name event with
  | false =>
    rw [if_neg (by simp [wanted])] at done
    cases done
    simp [written, commits, parks, wanted]
  | true =>
    rw [if_pos wanted] at done
    simp only [Tx.bind_ok, Tx.attempt_ok] at done
    obtain ⟨result, ended, handled, parked⟩ := done
    obtain ⟨rfl, same⟩ := runHandler_result handled
    obtain ⟨log, checkpoints, rows, others, own⟩ := afterHandler_ok parked
    cases ending : handler.ending.result.toBool with
    | true =>
      rw [ending, if_pos rfl] at same own
      rw [same] at log checkpoints rows others own
      refine ⟨log, checkpoints, by simpa [written, commits, wanted, ending] using rows, others, ?_⟩
      rw [if_neg (by simp [parks, ending])]
      exact own
    | false =>
      rw [ending, if_neg Bool.false_ne_true] at same own
      rw [same] at log checkpoints rows others own
      refine ⟨log, checkpoints, by simpa [written, commits, wanted, ending] using rows, others, ?_⟩
      rw [if_pos (by simp [parks, wanted, ending])]
      exact own

theorem deliver_ok {consumers : Consumers} {name : String} {store later : EventStore} {outcome : Delivery}
    (done : deliver consumers name event handler store = (.ok outcome, later)) :
    Delivers consumers name ⟨event, handler⟩ store later := by
  simp only [deliver, transaction, Tx.savepoint_ok, Tx.bind_ok, Tx.pure_ok] at done
  obtain ⟨kind, middle, ran, _, _, moved, _, rfl⟩ := done
  cases (setCheckpointTx_eq middle name event.seq).symm.trans moved
  obtain ⟨log, checkpoints, rows, others, own⟩ := handleEvent_ok ran
  have reached := checkpointed_only middle name event.seq
  refine ⟨⟨log, ?_, ?_, ?_⟩, checkpointed_own middle name event.seq, rows, ?_⟩
  · intro other apart
    rw [reached.checkpoint other apart, EventStore.checkpoint, checkpoints, ← EventStore.checkpoint]
  · intro other seq apart
    rw [reached.rows other seq apart, EventStore.rowsFor, rows, List.filter_append, written_other consumers name other]
    · exact List.append_nil _
    · exact fun same => apart same.1
  · intro other seq apart
    rw [reached.letters other seq apart]
    exact others other seq fun same => apart same.1
  · intro seq
    by_cases here : seq = event.seq
    · rw [here]
      refine Eq.trans own ?_
      simp
    · rw [if_neg fun same => here same.1]
      exact congrArg List.length (others name seq fun same => here same.2)

theorem deliver_failed {consumers : Consumers} {name : String} {store later : EventStore} {error : DomainError}
    (failed : deliver consumers name event handler store = (.error error, later)) : later = store :=
  Tx.atomic_savepoint _ store error later failed

theorem parkAsync_ok {name : String} {message : String} {store later : EventStore} {done : Unit}
    (parked : parkAsync name event message store = (.ok done, later)) :
    OnlyFor name store later ∧ later.checkpoint name = event.seq ∧
      (∀ seq, (store.lettersFor name seq) ≠ [] → later.lettersFor name seq ≠ []) ∧ later.lettersFor name event.seq ≠ [] := by
  simp only [parkAsync, transaction, Tx.savepoint_ok, Tx.bind_ok] at parked
  obtain ⟨_, middle, lettered, moved⟩ := parked
  cases (setCheckpointTx_eq middle name event.seq).symm.trans moved
  obtain ⟨log, checkpoints, rows, others, own⟩ := deadLetterTx_ok lettered
  have reached := checkpointed_only middle name event.seq
  have here : middle.lettersFor name event.seq ≠ [] := by
    intro none
    rw [none] at own
    simp only [List.length_nil] at own
    omega
  refine ⟨⟨log, ?_, ?_, ?_⟩, checkpointed_own middle name event.seq, ?_, here⟩
  · intro other apart
    rw [reached.checkpoint other apart, EventStore.checkpoint, checkpoints, ← EventStore.checkpoint]
  · intro other seq apart
    rw [reached.rows other seq apart, EventStore.rowsFor, rows, ← EventStore.rowsFor]
  · intro other seq apart
    rw [reached.letters other seq apart]
    exact others other seq fun same => apart same.1
  · intro seq there
    by_cases same : seq = event.seq
    · rw [same]
      exact here
    · change middle.lettersFor name seq ≠ []
      rw [others name seq fun both => same both.2]
      exact there

theorem parkAsync_failed {name : String} {message : String} {store later : EventStore} {error : DomainError}
    (failed : parkAsync name event message store = (.error error, later)) : later = store :=
  Tx.atomic_savepoint _ store error later failed

theorem checkpointSkipped_eq (name : String) (skippedTo : Option Nat) (store : EventStore) :
    (checkpointSkipped name skippedTo store).2 = skippedTo.elim store (checkpointed store name) := by
  cases skippedTo <;> rfl

/-! ## A batch that is read ahead -/

/-- How a log grows: by appends, and by payloads that expire. -/
structure LogGrows (log later : EventLog) : Prop where
  kept : ∀ a ∈ log.events, ∃ b ∈ later.events, b.seq = a.seq
  fresh : ∀ b ∈ later.events, (∃ a ∈ log.events, a.seq = b.seq ∧ a.eventType = b.eventType ∧
    (a.payloadExpired = true → b.payloadExpired = true)) ∨ log.last < b.seq
  last : log.last ≤ later.last

theorem append_grows (log : EventLog) (eventType : String) : LogGrows log (log.append eventType) := by
  refine ⟨fun a member => ⟨a, List.mem_append_left _ member, rfl⟩, ?_, Nat.le_succ _⟩
  intro b member
  rcases List.mem_append.mp member with old | made
  · exact .inl ⟨b, old, rfl, rfl, id⟩
  · rw [List.mem_singleton.mp made]
    exact .inr (Nat.lt_succ_self _)

theorem expire_grows (log : EventLog) (seq : Nat) : LogGrows log (log.expire seq) := by
  refine ⟨fun a member => ⟨a.expire seq, List.mem_map_of_mem member, StoredEvent.expire_seq seq a⟩, ?_, Nat.le_refl _⟩
  intro b member
  obtain ⟨a, old, rfl⟩ := List.mem_map.mp member
  refine .inl ⟨a, old, (StoredEvent.expire_seq seq a).symm, ?_, ?_⟩
  · simp only [StoredEvent.expire]
    split <;> rfl
  · intro expired
    simp only [StoredEvent.expire]
    split
    · rfl
    · exact expired

/-- The rest of a batch: the log's next events, as they were read. -/
structure Reading (log : EventLog) (reach : Nat) (rest : List StoredEvent) : Prop where
  ahead : Ahead StoredEvent.seq log.events reach rest
  copies : ∀ e ∈ rest, ∀ event ∈ log.events, event.seq = e.seq →
    event.eventType = e.eventType ∧ (e.payloadExpired = true → event.payloadExpired = true)

theorem same_event {log : EventLog} {a b : StoredEvent} (first : a ∈ log.events) (second : b ∈ log.events) (same : a.seq = b.seq) :
    a = b := by
  have distinct : (log.events.map StoredEvent.seq).Nodup := List.pairwise_map.mpr (log.ordered.imp Nat.ne_of_lt)
  exact List.inj_on_of_nodup_map distinct first second same

theorem reading_of_read (store : EventStore) (reach : Nat) : Reading store.log reach (store.readAfter reach batch) := by
  refine ⟨Ahead.batch store.log.ordered reach batch, ?_⟩
  intro e inside event member same
  have read : e ∈ store.log.events := (List.mem_filter.mp (List.mem_of_mem_take inside)).1
  rw [same_event member read same]
  exact ⟨rfl, id⟩

namespace Reading
variable {log later : EventLog} {reach : Nat} {rest : List StoredEvent}

theorem pass {e : StoredEvent} (reading : Reading log reach (e :: rest)) : Reading log e.seq rest :=
  ⟨reading.ahead.pass, fun a inside => reading.copies a (by simp [inside])⟩

theorem below {e : StoredEvent} (reading : Reading log reach rest) (inside : e ∈ rest) : e.seq ≤ log.last := by
  obtain ⟨event, member, same⟩ := reading.ahead.logged e inside
  exact same ▸ log.below event member

theorem grow (reading : Reading log reach rest) (grows : LogGrows log later) : Reading later reach rest := by
  refine ⟨reading.ahead.grow grows.kept ?_, ?_⟩
  · intro b member
    rcases grows.fresh b member with ⟨a, old, same, _⟩ | new
    · exact .inl ⟨a, old, same⟩
    · exact .inr fun a old => Nat.lt_of_le_of_lt (log.below a old) new
  · intro e inside event member same
    rcases grows.fresh event member with ⟨a, old, seq, type, expires⟩ | new
    · obtain ⟨type', expires'⟩ := reading.copies e inside a old (seq.trans same)
      exact ⟨type.symm.trans type', fun expired => expires (expires' expired)⟩
    · have bound := reading.below inside
      omega

end Reading
end Oxplow.Proofs.Deliveries
