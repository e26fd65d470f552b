import Oxplow.Library.Machine
import Oxplow.Events.DeadLetters
import Oxplow.Proofs.Deliveries

/-! Retries and discards that overlap. While every handler that a retry starts, and every
outcome it records, still finds the letter pending, a letter that was resolved stays so. -/

namespace Oxplow.Proofs.LetterCalls
open Library Events Deliveries

/-! ## Letters -/

/-- The table's keys. -/
structure Distinct (letters : List DeadLetter) : Prop where
  ids : (letters.map (·.id)).Nodup
  pairs : ∀ a ∈ letters, ∀ b ∈ letters, a.consumer = b.consumer → a.eventSeq = b.eventSeq → a.id = b.id

/-- The row of a letter that a call read. -/
def Known (letters : List DeadLetter) (letter : DeadLetter) : Prop :=
  ∃ row ∈ letters, row.id = letter.id ∧ row.consumer = letter.consumer ∧ row.eventSeq = letter.eventSeq

def isPending (letters : List DeadLetter) (id : Nat) : Bool := letters.any fun row => row.id == id && row.state == .pending

/-- A letter moves to a state, and no other one moves. -/
structure Marked (id : Nat) (state : LetterState) (letters later : List DeadLetter) : Prop where
  rows : ∃ update : DeadLetter → DeadLetter, later = letters.map update ∧ ∀ row ∈ letters,
    (update row).id = row.id ∧ (update row).consumer = row.consumer ∧ (update row).eventSeq = row.eventSeq ∧
      (update row).state = if row.id = id then state else row.state

namespace Marked
variable {id : Nat} {state : LetterState} {letters later : List DeadLetter}

theorem kept (marked : Marked id state letters later) {row : DeadLetter} (member : row ∈ letters) :
    ∃ row' ∈ later, row'.id = row.id ∧ row'.consumer = row.consumer ∧ row'.eventSeq = row.eventSeq ∧
      row'.state = if row.id = id then state else row.state := by
  obtain ⟨update, rfl, updates⟩ := marked.rows
  exact ⟨update row, List.mem_map_of_mem member, updates row member⟩

theorem came (marked : Marked id state letters later) {row' : DeadLetter} (member : row' ∈ later) :
    ∃ row ∈ letters, row'.id = row.id ∧ row'.consumer = row.consumer ∧ row'.eventSeq = row.eventSeq ∧
      row'.state = if row.id = id then state else row.state := by
  obtain ⟨update, rfl, updates⟩ := marked.rows
  obtain ⟨row, listed, rfl⟩ := List.mem_map.mp member
  exact ⟨row, listed, updates row listed⟩

theorem known (marked : Marked id state letters later) {letter : DeadLetter} (known : Known letters letter) : Known later letter := by
  obtain ⟨row, member, sameId, sameConsumer, sameSeq⟩ := known
  obtain ⟨row', there, id', consumer', seq', _⟩ := marked.kept member
  exact ⟨row', there, id'.trans sameId, consumer'.trans sameConsumer, seq'.trans sameSeq⟩

theorem distinct (marked : Marked id state letters later) (distinct : Distinct letters) : Distinct later := by
  constructor
  · obtain ⟨update, rfl, updates⟩ := marked.rows
    have same : (letters.map update).map (·.id) = letters.map (·.id) := by
      rw [List.map_map]
      exact List.map_congr_left fun row member => (updates row member).1
    rw [same]
    exact distinct.ids
  · intro a inA b inB consumer seq
    obtain ⟨a', inA', idA, consumerA, seqA, _⟩ := marked.came inA
    obtain ⟨b', inB', idB, consumerB, seqB, _⟩ := marked.came inB
    rw [idA, idB]
    apply distinct.pairs a' inA' b' inB'
    · exact consumerA.symm.trans (consumer.trans consumerB)
    · exact seqA.symm.trans (seq.trans seqB)

/-- Only the letter marked becomes pending, or stops being so. -/
theorem isPending_other (marked : Marked id state letters later) {other : Nat} (apart : other ≠ id) :
    isPending later other = isPending letters other := by
  obtain ⟨update, rfl, updates⟩ := marked.rows
  rw [isPending, List.any_map, isPending, Bool.eq_iff_iff, List.any_eq_true, List.any_eq_true]
  refine exists_congr fun row => and_congr_right fun member => ?_
  obtain ⟨sameId, _, _, states⟩ := updates row member
  simp only [Function.comp, sameId, states, Bool.and_eq_true, beq_iff_eq]
  refine and_congr_right fun own => ?_
  rw [if_neg (fun same => apart (own.symm.trans same))]

theorem isPending_own (marked : Marked id state letters later) (settled : state ≠ .pending) : isPending later id = false := by
  rw [isPending, List.any_eq_false]
  intro row' member own
  obtain ⟨row, _, sameId, _, _, states⟩ := marked.came member
  simp only [Bool.and_eq_true, beq_iff_eq] at own
  rw [if_pos (sameId.symm.trans own.1)] at states
  exact settled (states.symm.trans own.2)

end Marked

variable {id : Nat} {store later : EventStore} {done : Unit}

theorem setDeadLetterStateTx_ok {state : LetterState} (set : setDeadLetterStateTx id state store = (.ok done, later)) :
    Marked id state store.letters later.letters := by
  simp only [setDeadLetterStateTx, Tx.bind_ok, Tx.read_ok] at set
  obtain ⟨_, _, ⟨rfl, rfl⟩, set⟩ := set
  split at set
  · cases Tx.write_ok.mp set
    refine ⟨_, rfl, ?_⟩
    intro row _
    by_cases own : row.id = id <;> simp [own]
  · cases set

variable {letter : DeadLetter}

/-- Parking an event that has a letter. -/
theorem deadLetterTx_known {error : String} (distinct : Distinct store.letters) (known : Known store.letters letter)
    (parked : deadLetterTx letter.consumer letter.eventSeq error store = (.ok done, later)) :
    Marked letter.id .pending store.letters later.letters := by
  obtain ⟨row, member, sameId, sameConsumer, sameSeq⟩ := known
  simp only [deadLetterTx, Tx.bind_ok, Tx.read_ok] at parked
  obtain ⟨_, _, ⟨rfl, rfl⟩, parked⟩ := parked
  rw [if_pos (List.any_eq_true.mpr ⟨row, member, isFor_iff.mpr ⟨sameConsumer, sameSeq⟩⟩)] at parked
  cases Tx.write_ok.mp parked
  refine ⟨_, rfl, ?_⟩
  intro other inside
  have picked : other.isFor letter.consumer letter.eventSeq = true ↔ other.id = letter.id := by
    rw [isFor_iff, ← sameId]
    constructor
    · rintro ⟨consumer, seq⟩
      exact distinct.pairs other inside row member (consumer.trans sameConsumer.symm) (seq.trans sameSeq.symm)
    · intro same
      rw [List.inj_on_of_nodup_map distinct.ids inside member same]
      exact ⟨sameConsumer, sameSeq⟩
  by_cases own : other.id = letter.id
  · rw [if_pos (picked.mpr own), if_pos own]
    exact ⟨rfl, rfl, rfl, rfl⟩
  · rw [if_neg (fun found => own (picked.mp found)), if_neg own]
    exact ⟨rfl, rfl, rfl, rfl⟩

/-- What a retry makes of a letter. -/
def outcome (result : Except DomainError Unit) : LetterState := if result.toBool then .retried else .pending

theorem recordRetry_ok {result : Except DomainError Unit} (distinct : Distinct store.letters) (known : Known store.letters letter)
    (recorded : recordRetry letter result store = (.ok done, later)) :
    Marked letter.id (outcome result) store.letters later.letters := by
  cases result with
  | ok => exact setDeadLetterStateTx_ok recorded
  | error error => exact deadLetterTx_known distinct known recorded

variable {handler : HandlerRun}

theorem retryTx_ok (distinct : Distinct store.letters) (known : Known store.letters letter)
    (retried : retryTx letter handler store = (.ok done, later)) :
    (retryEvent letter store).1.toBool = true ∧ Marked letter.id (outcome handler.ending.result) store.letters later.letters := by
  simp only [retryTx, transaction, Tx.savepoint_ok, Tx.bind_ok, Tx.attempt_ok] at retried
  obtain ⟨event, first, read, result, middle, ran, recorded⟩ := retried
  have same : first = store := by
    simp only [retryEvent, Tx.bind_ok, Tx.read_ok, Tx.lift_ok, Tx.pure_ok] at read
    obtain ⟨_, _, ⟨rfl, rfl⟩, _, _, ⟨_, rfl⟩, _, _, ⟨_, rfl⟩, _, rfl⟩ := read
    rfl
  subst same
  obtain ⟨rfl, left⟩ := runHandler_result ran
  have letters : middle.letters = first.letters := by
    rw [left]
    split <;> rfl
  rw [← letters] at distinct known ⊢
  refine ⟨?_, recordRetry_ok distinct known recorded⟩
  rw [read]
  rfl

theorem setDeadLetterStateTx_known (known : Known store.letters letter) (state : LetterState) :
    ∃ later, setDeadLetterStateTx letter.id state store = (.ok (), later) := by
  obtain ⟨row, member, sameId, _⟩ := known
  have there : store.letters.any (·.id == letter.id) = true := List.any_eq_true.mpr ⟨row, member, by simp [sameId]⟩
  refine ⟨{ store with letters := updateRows (·.id == letter.id) (fun row => { row with state }) store.letters }, ?_⟩
  simp only [setDeadLetterStateTx, Tx.bind_ok, Tx.read_ok]
  refine ⟨store, store, ⟨rfl, rfl⟩, ?_⟩
  rw [if_pos there]
  exact Tx.write_ok.mpr rfl

/-- The outcome of a retry can always be recorded. -/
theorem recordRetry_known (known : Known store.letters letter) (result : Except DomainError Unit) :
    ∃ later, recordRetry letter result store = (.ok (), later) := by
  cases result with
  | ok => exact setDeadLetterStateTx_known known .retried
  | error error =>
    obtain ⟨row, member, _, sameConsumer, sameSeq⟩ := known
    have there : store.letters.any (DeadLetter.isFor letter.consumer letter.eventSeq) = true :=
      List.any_eq_true.mpr ⟨row, member, isFor_iff.mpr ⟨sameConsumer, sameSeq⟩⟩
    refine ⟨{ store with
      letters := updateRows (DeadLetter.isFor letter.consumer letter.eventSeq)
        (fun row => { row with error := error.text, attempts := row.attempts + 1, state := .pending }) store.letters }, ?_⟩
    simp only [recordRetry, deadLetterTx, Tx.bind_ok, Tx.read_ok]
    refine ⟨store, store, ⟨rfl, rfl⟩, ?_⟩
    rw [if_pos there]
    exact Tx.write_ok.mpr rfl

theorem retryTx_known (known : Known store.letters letter) (handler : HandlerRun)
    (readable : (retryEvent letter store).1.toBool = true) : ∃ later, retryTx letter handler store = (.ok (), later) := by
  rcases read : retryEvent letter store with ⟨found, first⟩
  rw [read] at readable
  cases found with
  | error => cases readable
  | ok event =>
    rcases ran : runHandler letter.consumer event handler first with ⟨result, middle⟩
    have same : first = store := by
      simp only [retryEvent, Tx.bind_ok, Tx.read_ok, Tx.lift_ok, Tx.pure_ok] at read
      obtain ⟨_, _, ⟨rfl, rfl⟩, _, _, ⟨_, rfl⟩, _, _, ⟨_, rfl⟩, _, rfl⟩ := read
      rfl
    have letters : middle.letters = store.letters := by
      rw [(runHandler_result ran).2, same]
      split <;> rfl
    obtain ⟨later, recorded⟩ := recordRetry_known (letters ▸ known) result
    refine ⟨later, ?_⟩
    simp only [retryTx, transaction, Tx.savepoint_ok, Tx.bind_ok, Tx.attempt_ok]
    exact ⟨event, first, read, result, middle, ran, recorded⟩

/-! ## Calls -/

/-- The letter of a call that is about to start a handler, or to record how one ended. -/
def resolving (store : EventStore) : LetterCall → Option DeadLetter
  | .transacting letter => if (retryEvent letter store).1.toBool then some letter else none
  | .async letter (.read _) | .async letter (.ran _) => some letter
  | _ => none

def resolved (desk : LetterDesk) : CallStep → Option DeadLetter
  | .next call _ => (desk.calls call).bind (resolving desk.store)
  | _ => none

/-- The letter that a step resolves is still pending. -/
def StillPending (desk : LetterDesk) (step : CallStep) : Prop :=
  ∀ letter ∈ resolved desk step, isPending desk.store.letters letter.id = true

variable {consumers : Consumers} {desk later : LetterDesk} {call : Nat} {letter : DeadLetter}

/-- The handlers that succeeded on a call's letter: its own only. -/
def Counted (successes : Nat) : AsyncRetry → Prop
  | .running => successes = 0
  | .ran result => successes = if result.toBool then 1 else 0
  | _ => True

def CallKept (consumers : Consumers) (desk : LetterDesk) (call : Nat) : LetterCall → Prop
  | .transacting letter => Known desk.store.letters letter ∧ letter.consumer ∈ consumers.sync
  | .waiting letter => Known desk.store.letters letter ∧ letter.consumer ∈ consumers.async
  | .async letter phase => Known desk.store.letters letter ∧ letter.consumer ∈ consumers.async ∧
      desk.locks letter.consumer = some call ∧ Counted (desk.successes letter.id) phase
  | _ => True

/-- A letter on which a handler succeeded is not pending, or that is about to be recorded. -/
def Settled (desk : LetterDesk) (id : Nat) : Prop :=
  desk.successes id = 0 ∨ desk.successes id = 1 ∧ (isPending desk.store.letters id = false ∨
    ∃ call letter, desk.calls call = some (.async letter (.ran (.ok ()))) ∧ letter.id = id)

structure DeskKept (consumers : Consumers) (desk : LetterDesk) : Prop where
  distinct : Distinct desk.store.letters
  calls : ∀ call at_, desk.calls call = some at_ → CallKept consumers desk call at_
  settled : ∀ id, Settled desk id

/-- What holds of a letter that was resolved. -/
structure Onward (desk later : LetterDesk) : Prop where
  settled : ∀ id, isPending desk.store.letters id = false →
    later.starts id = desk.starts id ∧ isPending later.store.letters id = false
  discarded : ∀ row ∈ desk.store.letters, row.state = .discarded → ∃ row' ∈ later.store.letters, row'.id = row.id ∧ row'.state = .discarded

theorem Onward.refl (desk : LetterDesk) : Onward desk desk := ⟨fun _ settled => ⟨rfl, settled⟩, fun row member state => ⟨row, member, rfl, state⟩⟩

theorem Onward.trans {first second third : LetterDesk} (one : Onward first second) (two : Onward second third) : Onward first third := by
  constructor
  · intro id settled
    obtain ⟨same, still⟩ := one.settled id settled
    obtain ⟨same', still'⟩ := two.settled id still
    exact ⟨same'.trans same, still'⟩
  · intro row member state
    obtain ⟨row', member', own, state'⟩ := one.discarded row member state
    obtain ⟨row'', member'', own', state''⟩ := two.discarded row' member' state'
    exact ⟨row'', member'', own'.trans own, state''⟩

theorem Onward.same (store : later.store = desk.store) (starts : later.starts = desk.starts) : Onward desk later := by
  refine ⟨?_, ?_⟩
  · intro id settled
    rw [store, starts]
    exact ⟨rfl, settled⟩
  · intro row member state
    rw [store]
    exact ⟨row, member, rfl, state⟩

/-- A letter that was pending is recorded. -/
theorem Onward.marked {state : LetterState} (pending : isPending desk.store.letters id = true)
    (distinct : Distinct desk.store.letters) (marked : Marked id state desk.store.letters later.store.letters)
    (starts : ∀ other, other ≠ id → later.starts other = desk.starts other) : Onward desk later := by
  constructor
  · intro other settled
    have apart : other ≠ id := by
      rintro rfl
      rw [pending] at settled
      cases settled
    exact ⟨starts other apart, (marked.isPending_other apart).trans settled⟩
  · intro row member discarded
    obtain ⟨row', there, own, _, _, state'⟩ := marked.kept member
    refine ⟨row', there, own, ?_⟩
    rw [state', if_neg ?_]
    · exact discarded
    · intro same
      obtain ⟨found, inside, holds⟩ := List.any_eq_true.mp pending
      simp only [Bool.and_eq_true, beq_iff_eq] at holds
      rw [List.inj_on_of_nodup_map distinct.ids inside member (holds.1.trans same.symm), discarded] at holds
      cases holds.2

variable {phase : AsyncRetry}

/-- Two calls that hold the lock of one consumer are one. -/
theorem DeskKept.alone (kept : DeskKept consumers desk) {other : Nat} {letter' : DeadLetter} {phase' : AsyncRetry}
    (here : desk.calls call = some (.async letter phase)) (there : desk.calls other = some (.async letter' phase'))
    (same : letter'.consumer = letter.consumer) : other = call := by
  have first := (kept.calls call _ here).2.2.1
  have second := (kept.calls other _ there).2.2.1
  rw [same, first] at second
  exact (Option.some.inj second).symm

theorem Known.consumer {letters : List DeadLetter} {letter' : DeadLetter} (distinct : Distinct letters)
    (known : Known letters letter) (known' : Known letters letter') (same : letter'.id = letter.id) :
    letter'.consumer = letter.consumer := by
  obtain ⟨row, member, id, consumer, _⟩ := known
  obtain ⟨row', member', id', consumer', _⟩ := known'
  have one : row' = row := List.inj_on_of_nodup_map distinct.ids member' member (id'.trans (same.trans id.symm))
  rw [← consumer', one, consumer]

/-! ## Steps -/

variable {at_ : LetterCall}

theorem DeskKept.move (kept : DeskKept consumers desk)
    (calls : ∀ other, later.calls other = if other = call then some at_ else desk.calls other)
    (distinct : Distinct later.store.letters)
    (known : ∀ letter, Known desk.store.letters letter → Known later.store.letters letter)
    (others : ∀ other letter phase, other ≠ call → desk.calls other = some (.async letter phase) →
      later.locks letter.consumer = desk.locks letter.consumer ∧ later.successes letter.id = desk.successes letter.id)
    (own : CallKept consumers later call at_) (settled : ∀ id, Settled later id) : DeskKept consumers later := by
  refine ⟨distinct, ?_, settled⟩
  intro other taken there
  rw [calls] at there
  by_cases same : other = call
  · rw [if_pos same] at there
    cases there
    exact same ▸ own
  · rw [if_neg same] at there
    have before := kept.calls other taken there
    cases taken with
    | transacting letter => exact ⟨known letter before.1, before.2⟩
    | waiting letter => exact ⟨known letter before.1, before.2⟩
    | async letter phase =>
      obtain ⟨read, listed, held, counted⟩ := before
      obtain ⟨lock, successes⟩ := others other letter phase same there
      exact ⟨known letter read, listed, lock.trans held, successes ▸ counted⟩
    | retry | discard | finding | returned => trivial

theorem Settled.frame (settled : Settled desk id) (successes : later.successes id = desk.successes id)
    (pending : isPending desk.store.letters id = false → isPending later.store.letters id = false)
    (ran : ∀ other letter, desk.calls other = some (.async letter (.ran (.ok ()))) → letter.id = id →
      later.calls other = desk.calls other) : Settled later id := by
  rcases settled with none | ⟨one, resolved | ⟨other, letter, there, own⟩⟩
  · exact .inl (successes.trans none)
  · exact .inr ⟨successes.trans one, .inl (pending resolved)⟩
  · exact .inr ⟨successes.trans one, .inr ⟨other, letter, (ran other letter there own).trans there, own⟩⟩

/-- A step that touches no letter. -/
theorem DeskKept.quiet (kept : DeskKept consumers desk)
    (calls : ∀ other, later.calls other = if other = call then some at_ else desk.calls other) (store : later.store = desk.store)
    (successes : later.successes = desk.successes) (unran : ∀ letter, desk.calls call ≠ some (.async letter (.ran (.ok ()))))
    (locks : ∀ other letter phase, other ≠ call → desk.calls other = some (.async letter phase) →
      later.locks letter.consumer = desk.locks letter.consumer) (own : CallKept consumers later call at_) :
    DeskKept consumers later := by
  refine kept.move calls (store ▸ kept.distinct) (fun letter known => store ▸ known) ?_ own ?_
  · intro other letter phase apart there
    exact ⟨locks other letter phase apart there, congrFun successes letter.id⟩
  · intro id
    refine (kept.settled id).frame (congrFun successes id) (fun resolved => store ▸ resolved) ?_
    intro other letter there _
    rw [calls, if_neg]
    rintro rfl
    exact unran letter there

theorem DeskKept.setCall (kept : DeskKept consumers desk)
    (unran : ∀ letter, desk.calls call ≠ some (.async letter (.ran (.ok ())))) (own : CallKept consumers desk call at_) :
    DeskKept consumers (desk.setCall call at_) := by
  refine kept.quiet (fun _ => rfl) rfl rfl unran (fun _ _ _ _ _ => rfl) ?_
  cases at_ <;> exact own

/-- The lock of a call's consumer is its own. -/
theorem DeskKept.unlocked (kept : DeskKept consumers desk) (here : desk.calls call = some (.async letter phase))
    (holder : Option Nat) (other : Nat) (letter' : DeadLetter) (phase' : AsyncRetry) (apart : other ≠ call)
    (there : desk.calls other = some (.async letter' phase')) :
    (desk.setLock letter.consumer holder).locks letter'.consumer = desk.locks letter'.consumer := by
  simp only [LetterDesk.setLock]
  rw [if_neg]
  intro same
  exact apart (kept.alone here there same)

theorem findLetter_known (found : (findLetter id store).1 = .ok letter) : Known store.letters letter := by
  have read : findLetter id store = (.ok letter, (findLetter id store).2) := Prod.ext found rfl
  simp only [findLetter, listDeadLettersTx, Tx.bind_ok, Tx.read_ok, Tx.pure_ok, Tx.lift_ok] at read
  obtain ⟨letters, _, ⟨_, _, ⟨rfl, rfl⟩, rfl, rfl⟩, found, _⟩ := read
  cases search : (store.letters.filter fun letter => true || letter.state == .pending).find? (·.id == id) with
  | none =>
    rw [search] at found
    cases found
  | some row =>
    rw [search] at found
    cases found
    exact ⟨letter, (List.mem_filter.mp (List.mem_of_find?_eq_some search)).1, rfl, rfl, rfl⟩

theorem checkLetter_kept (known : Known desk.store.letters letter) : CallKept consumers desk call (checkLetter consumers letter) := by
  simp only [checkLetter]
  split
  · trivial
  · split
    next async => exact ⟨known, by simpa using async⟩
    · split
      next sync => exact ⟨known, by simpa using sync⟩
      · trivial

/-- No handler has succeeded on a pending letter, unless that is about to be recorded. -/
theorem DeskKept.fresh (kept : DeskKept consumers desk) (pending : isPending desk.store.letters id = true)
    (unran : ∀ other letter, desk.calls other = some (.async letter (.ran (.ok ()))) → letter.id ≠ id) :
    desk.successes id = 0 := by
  rcases kept.settled id with none | ⟨_, resolved | ⟨other, letter, there, own⟩⟩
  · exact none
  · rw [pending] at resolved
    cases resolved
  · exact absurd own (unran other letter there)

/-- The handlers that succeeded, after one more on a letter ended. -/
theorem noteEnd_successes (desk : LetterDesk) (id other : Nat) (result : Except DomainError Unit) :
    (desk.noteEnd id result).successes other =
      if other = id ∧ result.toBool = true then desk.successes id + 1 else desk.successes other := by
  cases result with
  | ok => simp [LetterDesk.noteEnd, Except.toBool]
  | error => simp [LetterDesk.noteEnd, Except.toBool]

@[simp] theorem noteEnd_calls (desk : LetterDesk) (id : Nat) (result : Except DomainError Unit) :
    (desk.noteEnd id result).calls = desk.calls := by cases result <;> rfl

@[simp] theorem noteEnd_locks (desk : LetterDesk) (id : Nat) (result : Except DomainError Unit) :
    (desk.noteEnd id result).locks = desk.locks := by cases result <;> rfl

@[simp] theorem noteEnd_store (desk : LetterDesk) (id : Nat) (result : Except DomainError Unit) :
    (desk.noteEnd id result).store = desk.store := by cases result <;> rfl

@[simp] theorem noteEnd_starts (desk : LetterDesk) (id : Nat) (result : Except DomainError Unit) :
    (desk.noteEnd id result).starts = desk.starts := by cases result <;> rfl

/-- The outcome of a retry is recorded, of one whose handler was the first to succeed. -/
theorem Settled.recorded {result : Except DomainError Unit}
    (marked : Marked id (outcome result) desk.store.letters later.store.letters)
    (successes : later.successes id = if result.toBool then 1 else 0) : Settled later id := by
  cases ended : result.toBool with
  | false =>
    rw [ended] at successes
    exact .inl successes
  | true =>
    rw [ended] at successes
    refine .inr ⟨successes, .inl (marked.isPending_own ?_)⟩
    rw [outcome, ended]
    nofun

theorem transact_kept (kept : DeskKept consumers desk) (here : desk.calls call = some (.transacting letter)) (handler : HandlerRun)
    (pending : (retryEvent letter desk.store).1.toBool = true → isPending desk.store.letters letter.id = true)
    (moved : desk.callStep consumers call handler (.transacting letter) = some later) :
    DeskKept consumers later ∧ Onward desk later := by
  obtain ⟨known, member⟩ := kept.calls call _ here
  have unran : ∀ letter', desk.calls call ≠ some (.async letter' (.ran (.ok ()))) := by
    intro letter' there
    rw [here] at there
    cases there
  rcases retried : retryTx letter handler desk.store with ⟨result, store⟩
  simp only [LetterDesk.callStep, retried, Option.some.injEq] at moved
  cases read : (retryEvent letter desk.store).1 with
  | error error =>
    rw [read] at moved
    cases result with
    | ok =>
      have readable := (retryTx_ok kept.distinct known retried).1
      rw [read] at readable
      cases readable
    | error failure =>
      have same : store = desk.store := Tx.atomic_savepoint _ desk.store failure store retried
      rw [← moved, same]
      exact ⟨kept.setCall unran trivial, .same rfl rfl⟩
  | ok event =>
    have readable : (retryEvent letter desk.store).1.toBool = true := by
      rw [read]
      rfl
    obtain ⟨_, certain⟩ := retryTx_known known handler readable
    cases retried.symm.trans certain
    have marked := (retryTx_ok kept.distinct known retried).2
    have open_ := pending readable
    -- Async consumers' calls are on other letters.
    have apart : ∀ other letter' phase, desk.calls other = some (.async letter' phase) → letter'.id ≠ letter.id := by
      intro other letter' phase there same
      obtain ⟨known', listed, _⟩ := kept.calls other _ there
      rw [known.consumer kept.distinct known' same] at listed
      exact consumers.apart _ member listed
    have first : desk.successes letter.id = 0 := kept.fresh open_ fun other letter' there => apart other letter' _ there
    have successes (id : Nat) : later.successes id =
        if id = letter.id ∧ handler.ending.result.toBool = true then 1 else desk.successes id := by
      rw [← moved, read]
      refine (noteEnd_successes _ letter.id id _).trans ?_
      simp only [LetterDesk.noteStart, first]
    have calls : ∀ other, later.calls other = if other = call then some (.finding letter.id) else desk.calls other := by
      intro other
      rw [← moved, read]
      simp [LetterDesk.answer, LetterDesk.setCall, LetterDesk.setStore, LetterDesk.noteRun, LetterDesk.noteStart, Except.map]
    have locks : later.locks = desk.locks := by
      rw [← moved, read]
      simp [LetterDesk.answer, LetterDesk.setCall, LetterDesk.setStore, LetterDesk.noteRun, LetterDesk.noteStart, Except.map]
    have letters : later.store.letters = store.letters := by
      rw [← moved]
      rfl
    rw [← letters] at marked
    constructor
    · refine kept.move calls (marked.distinct kept.distinct) (fun _ => marked.known) ?_ trivial ?_
      · intro other letter' phase _ there
        refine ⟨congrFun locks _, ?_⟩
        rw [successes, if_neg fun same => apart other letter' phase there same.1]
      · intro id
        by_cases own : id = letter.id
        · subst own
          refine Settled.recorded marked ?_
          rw [successes, first]
          simp
        · refine (kept.settled id).frame ?_ (fun resolved => (marked.isPending_other own).trans resolved) ?_
          · rw [successes, if_neg fun same => own same.1]
          · intro other letter' there _
            rw [calls, if_neg]
            rintro rfl
            exact unran letter' there
    · refine Onward.marked open_ kept.distinct marked ?_
      intro other apart
      rw [← moved, read]
      simp [LetterDesk.answer, LetterDesk.setCall, LetterDesk.setStore, LetterDesk.noteRun, LetterDesk.noteStart, Except.map, apart]

theorem asyncStep_kept (kept : DeskKept consumers desk) (here : desk.calls call = some (.async letter phase))
    (handler : HandlerRun)
    (pending : letter ∈ resolving desk.store (.async letter phase) → isPending desk.store.letters letter.id = true) :
    DeskKept consumers (desk.asyncStep call handler letter phase) ∧ Onward desk (desk.asyncStep call handler letter phase) := by
  obtain ⟨known, member, held, counted⟩ := kept.calls call _ here
  -- Calls on the letter hold its consumer's lock.
  have apart : ∀ other letter' phase', other ≠ call → desk.calls other = some (.async letter' phase') → letter'.id ≠ letter.id := by
    intro other letter' phase' differ there same
    have known' := (kept.calls other _ there).1
    exact differ (kept.alone here there (known.consumer kept.distinct known' same))
  cases phase with
  | locked =>
    have unran : ∀ letter', desk.calls call ≠ some (.async letter' (.ran (.ok ()))) := by
      intro letter' there
      cases here.symm.trans there
    simp only [LetterDesk.asyncStep]
    cases (retryEvent letter desk.store).1 with
    | ok event => exact ⟨kept.setCall unran ⟨known, member, held, trivial⟩, .same rfl rfl⟩
    | error error => exact ⟨kept.quiet (fun _ => rfl) rfl rfl unran (kept.unlocked here none) trivial, .same rfl rfl⟩
  | read event =>
    have unran : ∀ letter', desk.calls call ≠ some (.async letter' (.ran (.ok ()))) := by
      intro letter' there
      cases here.symm.trans there
    have open_ := pending rfl
    have first : desk.successes letter.id = 0 := by
      apply kept.fresh open_
      intro other letter' there
      refine apart other letter' _ ?_ there
      rintro rfl
      exact unran letter' there
    refine ⟨kept.quiet (fun _ => rfl) rfl rfl unran (fun _ _ _ _ _ => rfl) ⟨known, member, held, first⟩, ?_⟩
    constructor
    · intro id resolved
      have other : id ≠ letter.id := by
        rintro rfl
        rw [open_] at resolved
        cases resolved
      refine ⟨?_, resolved⟩
      simp [LetterDesk.asyncStep, LetterDesk.setCall, LetterDesk.noteStart, other]
    · exact fun row listed state => ⟨row, listed, rfl, state⟩
  | running =>
    have first : desk.successes letter.id = 0 := counted
    have successes (id : Nat) : (desk.asyncStep call handler letter .running).successes id =
        if id = letter.id ∧ handler.ending.result.toBool = true then 1 else desk.successes id := by
      refine (noteEnd_successes desk letter.id id _).trans ?_
      rw [first]
    have calls : ∀ other, (desk.asyncStep call handler letter .running).calls other =
        if other = call then some (.async letter (.ran handler.ending.result)) else desk.calls other := by
      intro other
      simp [LetterDesk.asyncStep, LetterDesk.setCall]
    have store : (desk.asyncStep call handler letter .running).store = desk.store := noteEnd_store desk _ _
    have locks : (desk.asyncStep call handler letter .running).locks = desk.locks := noteEnd_locks desk _ _
    refine ⟨?_, .same store (noteEnd_starts desk _ _)⟩
    refine kept.move calls (store ▸ kept.distinct) (fun _ known => store ▸ known) ?_ ?_ ?_
    · intro other letter' phase differ there
      refine ⟨congrFun locks _, ?_⟩
      rw [successes, if_neg fun same => apart other letter' phase differ there same.1]
    · refine ⟨store ▸ known, member, locks ▸ held, ?_⟩
      change (desk.asyncStep call handler letter .running).successes letter.id = _
      rw [successes, first]
      simp
    · intro id
      by_cases own : id = letter.id
      · subst own
        rw [Settled, successes, first, store]
        cases ended : handler.ending.result with
        | error error => exact .inl (if_neg fun same => nomatch same.2)
        | ok =>
          refine .inr ⟨if_pos ⟨rfl, rfl⟩, .inr ⟨call, letter, ?_, rfl⟩⟩
          rw [calls, if_pos rfl, ended]
      · refine (kept.settled id).frame ?_ (fun resolved => store ▸ resolved) ?_
        · rw [successes, if_neg fun same => own same.1]
        · intro other letter' there same
          rw [calls, if_neg]
          rintro rfl
          cases here.symm.trans there
  | ran result =>
    have open_ := pending rfl
    obtain ⟨store, recorded⟩ := recordRetry_known known result
    have done : transaction (recordRetry letter result) desk.store = (.ok (), store) := Tx.savepoint_ok.mpr recorded
    have marked := recordRetry_ok kept.distinct known recorded
    have moved : desk.asyncStep call handler letter (.ran result) = (desk.setStore store).setCall call (.async letter .finding) := by
      simp only [LetterDesk.asyncStep, done]
      rfl
    rw [moved]
    constructor
    · refine kept.move (fun _ => rfl) (marked.distinct kept.distinct) (fun _ => marked.known) (fun _ _ _ _ _ => ⟨rfl, rfl⟩) ?_ ?_
      · exact ⟨marked.known known, member, held, trivial⟩
      · intro id
        by_cases own : id = letter.id
        · subst own
          exact Settled.recorded marked counted
        · refine (kept.settled id).frame rfl (fun resolved => (marked.isPending_other own).trans resolved) ?_
          intro other letter' there same
          refine if_neg ?_
          rintro rfl
          cases here.symm.trans there
          exact own same.symm
    · exact Onward.marked open_ kept.distinct marked fun _ _ => rfl
  | finding =>
    have unran : ∀ letter', desk.calls call ≠ some (.async letter' (.ran (.ok ()))) := by
      intro letter' there
      cases here.symm.trans there
    exact ⟨kept.quiet (fun _ => rfl) rfl rfl unran (kept.unlocked here none) trivial, .same rfl rfl⟩

theorem discard_kept (kept : DeskKept consumers desk) (here : desk.calls call = some (.discard id))
    (moved : desk.callStep consumers call handler (.discard id) = some later) : DeskKept consumers later ∧ Onward desk later := by
  have unran : ∀ letter', desk.calls call ≠ some (.async letter' (.ran (.ok ()))) := by
    intro letter' there
    cases here.symm.trans there
  rcases discarded : transaction (setDeadLetterStateTx id .discarded) desk.store with ⟨result, store⟩
  simp only [LetterDesk.callStep, discarded, Option.some.injEq] at moved
  cases result with
  | error error =>
    have same : store = desk.store := Tx.atomic_savepoint _ desk.store error store discarded
    rw [← moved, same]
    exact ⟨kept.setCall unran trivial, .same rfl rfl⟩
  | ok =>
    have marked := setDeadLetterStateTx_ok (Tx.savepoint_ok.mp discarded)
    rw [← moved]
    constructor
    · refine kept.move (fun _ => rfl) (marked.distinct kept.distinct) (fun _ => marked.known) (fun _ _ _ _ _ => ⟨rfl, rfl⟩) trivial ?_
      intro other
      refine (kept.settled other).frame rfl ?_ ?_
      · intro resolved
        by_cases own : other = id
        · exact own ▸ marked.isPending_own nofun
        · exact (marked.isPending_other own).trans resolved
      · intro held letter' there _
        refine if_neg ?_
        rintro rfl
        exact unran letter' there
    · constructor
      · intro other resolved
        refine ⟨rfl, ?_⟩
        by_cases own : other = id
        · exact own ▸ marked.isPending_own nofun
        · exact (marked.isPending_other own).trans resolved
      · intro row member state
        obtain ⟨row', there, own, _, _, state'⟩ := marked.kept member
        refine ⟨row', there, own, ?_⟩
        rw [state', state]
        split <;> rfl

theorem callStep_kept (kept : DeskKept consumers desk) (here : desk.calls call = some at_)
    (pending : ∀ letter ∈ resolving desk.store at_, isPending desk.store.letters letter.id = true)
    (moved : desk.callStep consumers call handler at_ = some later) : DeskKept consumers later ∧ Onward desk later := by
  cases at_ with
  | retry id =>
    have unran : ∀ letter', desk.calls call ≠ some (.async letter' (.ran (.ok ()))) := by
      intro letter' there
      cases here.symm.trans there
    cases moved
    cases found : (findLetter id desk.store).1 with
    | ok letter => exact ⟨kept.setCall unran (checkLetter_kept (findLetter_known found)), .same rfl rfl⟩
    | error error => exact ⟨kept.setCall unran trivial, .same rfl rfl⟩
  | transacting letter =>
    refine transact_kept kept here handler ?_ moved
    intro readable
    exact pending letter (if_pos readable)
  | waiting letter =>
    obtain ⟨known, member⟩ := kept.calls call _ here
    simp only [LetterDesk.callStep] at moved
    split at moved
    · cases moved
    next free =>
      cases moved
      refine ⟨kept.quiet (fun _ => rfl) rfl rfl ?_ ?_ ⟨known, member, if_pos rfl, trivial⟩, .same rfl rfl⟩
      · intro letter' there
        cases here.symm.trans there
      · intro other letter' phase _ there
        refine if_neg fun same => ?_
        have taken := (kept.calls other _ there).2.2.1
        rw [same] at taken
        exact free (Option.isSome_iff_exists.mpr ⟨other, taken⟩)
  | async letter phase =>
    cases moved
    exact asyncStep_kept kept here handler (pending letter)
  | discard id => exact discard_kept kept here moved
  | finding id =>
    cases moved
    refine ⟨kept.setCall ?_ trivial, .same rfl rfl⟩
    intro letter' there
    cases here.symm.trans there
  | returned result => cases moved

theorem step_kept (kept : DeskKept consumers desk) {step : CallStep} (pending : StillPending desk step)
    (moved : desk.step consumers step = some later) : DeskKept consumers later ∧ Onward desk later := by
  cases step with
  | retry call id =>
    simp only [LetterDesk.step] at moved
    split at moved
    · cases moved
    next unused =>
      cases moved
      refine ⟨kept.setCall ?_ trivial, .same rfl rfl⟩
      intro letter' there
      exact unused (Option.isSome_iff_exists.mpr ⟨_, there⟩)
  | discard call id =>
    simp only [LetterDesk.step] at moved
    split at moved
    · cases moved
    next unused =>
      cases moved
      refine ⟨kept.setCall ?_ trivial, .same rfl rfl⟩
      intro letter' there
      exact unused (Option.isSome_iff_exists.mpr ⟨_, there⟩)
  | next call handler =>
    obtain ⟨at_, here, stepped⟩ := Option.bind_eq_some_iff.mp moved
    refine callStep_kept kept here ?_ stepped
    intro letter resolves
    exact pending letter (Option.bind_eq_some_iff.mpr ⟨at_, here, resolves⟩)

/-! ## Runs -/

/-- The calls as a machine. -/
def stepOut (consumers : Consumers) (desk : LetterDesk) (step : CallStep) : Option (LetterDesk × Unit) :=
  (desk.step consumers step).map (·, ())

theorem run_eq (consumers : Consumers) (desk : LetterDesk) (steps : List CallStep) :
    desk.run consumers steps = Machine.run (stepOut consumers) desk steps := by
  have same : (fun (desk : LetterDesk) step => (desk.step consumers step).getD desk) = Machine.advance (stepOut consumers) := by
    funext desk step
    cases moved : desk.step consumers step <;> simp [Machine.advance, stepOut, moved]
  rw [LetterDesk.run, Machine.run, same]

instance (desk : LetterDesk) (step : CallStep) : Decidable (StillPending desk step) :=
  inferInstanceAs (Decidable (∀ letter ∈ resolved desk step, isPending desk.store.letters letter.id = true))

/-- Every letter that a step of the run resolves is still pending then. -/
abbrev RunPending (consumers : Consumers) : LetterDesk → List CallStep → Prop := Machine.Admits (stepOut consumers) StillPending

theorem run_kept (kept : DeskKept consumers desk) {steps : List CallStep} (pending : RunPending consumers desk steps) :
    DeskKept consumers (desk.run consumers steps) ∧ Onward desk (desk.run consumers steps) := by
  rw [run_eq]
  refine Machine.run_allowed Onward .refl .trans (DeskKept consumers) ?_ kept pending
  intro desk step later _ kept pending moved
  obtain ⟨_, taken, same⟩ := Option.map_eq_some_iff.mp moved
  cases same
  exact step_kept kept pending taken

theorem opened_kept (consumers : Consumers) (distinct : Distinct store.letters) : DeskKept consumers (.opened store) :=
  ⟨distinct, nofun, fun _ => .inl rfl⟩

theorem not_pending {letters : List DeadLetter} (distinct : Distinct letters) (member : letter ∈ letters) (settled : letter.state ≠ .pending) :
    isPending letters letter.id = false := by
  rw [isPending, List.any_eq_false]
  intro row listed holds
  simp only [Bool.and_eq_true, beq_iff_eq] at holds
  rw [List.inj_on_of_nodup_map distinct.ids listed member holds.1] at holds
  exact settled holds.2

def projection : Consumers := ⟨["projection"], ["effects"], fun _ _ => true, fun _ _ => [], by decide⟩

/-- A parked event of each consumer. -/
def parked : EventStore where
  log := .append .empty "config.changed"
  checkpoints := []
  letters := [⟨1, "projection", 1, "boom", 1, .pending⟩, ⟨2, "effects", 1, "boom", 1, .pending⟩]
  nextLetter := 3
  rows := []

def works : HandlerRun := ⟨["row"], .returned (.ok ())⟩

theorem parked_distinct : Distinct parked.letters := ⟨by decide, by decide⟩

end Oxplow.Proofs.LetterCalls
