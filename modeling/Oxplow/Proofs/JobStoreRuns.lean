import Mathlib.Data.List.Nodup
import Oxplow.Proofs.JobAttempts

/-! Runs of the job store. A call that is accepted moves one job and its attempt rows
together, and a call that fails leaves both tables as they were. -/

namespace Oxplow.Proofs.JobStoreRuns
open Library Jobs JobTransition JobRuns JobAttempts

variable {fromStr : String → Option Json} {conn last : Connection}

/-! ## Parts of a call -/

variable {done : Unit}

@[simp] theorem check_ok {holds : Bool} {error : JobStoreError} :
    check holds error conn = (.ok done, last) ↔ holds = true ∧ conn = last := by
  cases holds <;> simp [check]

variable {α : Type}

@[simp] theorem found_ok {value : Option α} {error : JobStoreError} {result : α} :
    found value error conn = (.ok result, last) ↔ value = some result ∧ conn = last := by
  cases value <;> simp [found]

theorem mapError_ok {ε δ : Type} {value : Except ε α} {f : ε → δ} {result : α} :
    value.mapError f = .ok result ↔ value = .ok result := by
  cases value <;> simp [Except.mapError]

theorem reads_check (holds : Bool) (error : JobStoreError) : Tx.Reads (check holds error) := Tx.reads_lift _

theorem reads_found (value : Option α) (error : JobStoreError) : Tx.Reads (found value error) := Tx.reads_lift _

theorem reads_pure (value : α) : Tx.Reads (pure value : StoreResult α) := fun _ => rfl

theorem reads_canonicalJson (value : Json) : Tx.Reads (canonicalJson value) := reads_found _ _

theorem reads_ensureTransaction : Tx.Reads ensureTransaction := .bind Tx.reads_read fun _ => reads_check _ _

theorem reads_decodeStoredJobData (row : JobRow) : Tx.Reads (decodeStoredJobData fromStr row) :=
  .bind (reads_found _ _) fun _ => .bind (Tx.reads_lift _) fun _ => .bind (reads_check _ _) fun _ =>
    .bind (reads_check _ _) fun _ => .bind (reads_check _ _) fun _ => .bind (reads_found _ _) fun _ => reads_pure _

theorem reads_decodeRow (row : Option JobRow) : Tx.Reads (decodeRow fromStr row) := by
  cases row with
  | none => exact reads_pure _
  | some row => exact .bind (reads_decodeStoredJobData row) fun _ => reads_pure _

theorem reads_getTx (id : JobId) : Tx.Reads (getTx fromStr id) :=
  .bind (reads_check _ _) fun _ => .bind Tx.reads_read fun _ => reads_decodeRow _

theorem reads_getByIntentTx (contribution : ContributionRef) (intentKey : IntentKey) :
    Tx.Reads (getByIntentTx fromStr contribution intentKey) :=
  .bind Tx.reads_read fun _ => reads_decodeRow _

theorem reads_resultText (result : Option Json) (event : JobEvent) : Tx.Reads (resultText result event) := by
  have text : Tx.Reads (result.elim (pure none) fun value => canonicalJson value >>= fun text => pure (some text)) := by
    cases result with
    | none => exact reads_pure _
    | some value => exact .bind (reads_canonicalJson value) fun _ => reads_pure _
  have refused : Tx.Reads (check result.isNone .invalidData >>= fun _ => pure (none : Option String)) :=
    .bind (reads_check _ _) fun _ => reads_pure _
  cases event with
  | complete => exact text
  | confirmStopped => exact text
  | _ => exact refused

theorem reads_validateNewJob (new : NewExtensionJob) : Tx.Reads (validateNewJob new) :=
  .bind (Tx.reads_lift _) fun _ => .bind (reads_check _ _) fun _ => .bind (reads_check _ _) fun _ =>
    .bind (reads_check _ _) fun _ => .bind (reads_canonicalJson _) fun _ => .bind (reads_check _ _) fun _ => reads_check _ _

theorem reads_answerExisting (new : NewExtensionJob) (existing : StoredExtensionJob) : Tx.Reads (answerExisting new existing) := by
  refine .bind ?_ fun _ => .bind (reads_check _ _) fun _ => reads_pure _
  simp only [duplicateMatches]
  split
  · exact .bind (reads_canonicalJson _) fun _ => .bind (reads_canonicalJson _) fun _ => reads_pure _
  · exact reads_pure _

/-! ## A call that fails -/

theorem atomic_transitionTx (id : JobId) (expectedRevision : Nat) (event : JobEvent) (result : Option Json) :
    Tx.Atomic (transitionTx fromStr id expectedRevision event result) :=
  .after_reads reads_ensureTransaction fun _ => .after_reads (reads_check _ _) fun _ => .after_reads (reads_getTx id) fun _ =>
    .after_reads (reads_found _ _) fun _ => .after_reads (reads_check _ _) fun _ => .after_reads (reads_resultText result event)
      fun _ => .after_reads (Tx.reads_lift _) fun _ => .after_reads (reads_check _ _) fun _ => Tx.atomic_savepoint _

theorem atomic_insertJob (new : NewExtensionJob) : Tx.Atomic (insertJob fromStr new) := by
  refine .after_reads (reads_canonicalJson _) fun _ => .after_reads Tx.reads_read fun _ => .after_reads (reads_check _ _) fun _ => ?_
  split
  · refine Tx.Reads.atomic (.bind (reads_getByIntentTx _ _) fun existing => ?_)
    cases existing with
    | none => exact Tx.reads_lift _
    | some existing => exact reads_answerExisting new existing
  · intro store error last failed
    cases failed

theorem atomic_enqueueTx (new : NewExtensionJob) : Tx.Atomic (enqueueTx fromStr new) := by
  refine .after_reads reads_ensureTransaction fun _ => .after_reads (reads_validateNewJob new) fun _ =>
    .after_reads (reads_getByIntentTx _ _) fun existing => ?_
  cases existing with
  | none => exact atomic_insertJob new
  | some existing => exact (reads_answerExisting new existing).atomic

theorem atomic_call (call : StoreCall) : Tx.Atomic (call.body fromStr) := by
  cases call with
  | enqueue new => exact (atomic_enqueueTx new).map enqueuedJob
  | transition id expectedRevision event result => exact atomic_transitionTx id expectedRevision event result

/-! ## A call that is accepted -/

theorem reference_id {id contribution : ContributionId} (named : id.reference.id = some contribution) : contribution = id := by
  simp only [ContributionId.reference, ContributionRef.id] at named
  split at named
  · cases named
  · exact (Option.some.inj named).symm

variable {row : JobRow} {stored : StoredExtensionJob}

theorem decodeStoredJobData_ok (decoded : decodeStoredJobData fromStr row conn = (.ok stored, last)) :
    stored.job = row.job ∧ stored.revision = row.revision := by
  simp only [decodeStoredJobData, Tx.bind_ok, found_ok, check_ok, Tx.lift_ok, Tx.pure_ok, and_assoc, exists_and_left,
    exists_eq_left', exists_const] at decoded
  obtain ⟨contribution, named, _, _, _, _, _, _, _, rfl, _⟩ := decoded
  rw [reference_id named]
  exact ⟨rfl, rfl⟩

theorem decodeRow_ok {row : Option JobRow} (decoded : decodeRow fromStr row conn = (.ok (some stored), last)) :
    ∃ found, row = some found ∧ stored.job = found.job ∧ stored.revision = found.revision := by
  cases row with
  | none => cases decoded
  | some row =>
    simp only [decodeRow, Tx.bind_ok, Tx.pure_ok] at decoded
    obtain ⟨value, middle, decoded, same, _⟩ := decoded
    cases same
    exact ⟨row, rfl, decodeStoredJobData_ok decoded⟩

theorem updateAttempts_ok {selects : AttemptRow → Bool} {next : AttemptRow → AttemptRow} {changed : Nat}
    (done : updateAttempts selects next conn = (.ok changed, last)) :
    last = { conn with attempts := updateRows selects next conn.attempts } := by
  simp only [updateAttempts, Tx.bind_ok, Tx.read_ok, check_ok, Tx.write_ok, Tx.pure_ok, and_assoc, exists_and_left,
    exists_eq_left', exists_const] at done
  exact done.2.2.symm

theorem closeAttempt_ok {job : ExtensionJob} {nowMs : Int} {outcome : AttemptOutcome} {resultJson : Option String}
    (closed : closeAttempt job nowMs outcome resultJson conn = (.ok done, last)) :
    last = { conn with
      attempts := updateRows job.ownsAttempt
        (fun row => { row with closedAtMs := some nowMs, outcome := some outcome, resultJson }) conn.attempts } := by
  simp only [closeAttempt, Tx.bind_ok, check_ok, and_assoc, exists_and_left, exists_eq_left', exists_const] at closed
  obtain ⟨_, changed, middle, updated, _, rfl⟩ := closed
  exact updateAttempts_ok updated

variable {event : JobEvent}

/-- Only the attempt rows move, as the event says. -/
theorem applyAttemptChange_ok {old : ExtensionJob} {transition : JobTransition} {resultJson : Option String}
    (applied : applyAttemptChange old transition resultJson event conn = (.ok done, last)) :
    ∃ attempts, AttemptsMove old transition.job conn.attempts event attempts ∧ last = { conn with attempts } := by
  cases event with
  | claim nowMs leaseMs intentKey =>
    simp only [applyAttemptChange, openAttempt, insertAttempt, Tx.bind_ok, check_ok, found_ok, Tx.read_ok, Tx.write_ok,
      and_assoc, exists_and_left, exists_eq_left', exists_const] at applied
    obtain ⟨_, leaseUntilMs, granted, _, rfl⟩ := applied
    exact ⟨_, .opened granted, rfl⟩
  | renew nowMs leaseMs token =>
    simp only [applyAttemptChange, renewAttempt, Tx.bind_ok, check_ok, found_ok, and_assoc, exists_and_left,
      exists_eq_left', exists_const] at applied
    obtain ⟨_, leaseUntilMs, granted, _, _, updated, _, rfl⟩ := applied
    exact ⟨_, .renewed granted, updateAttempts_ok updated⟩
  | complete nowMs token outcome =>
    have closed := closeAttempt_ok applied
    exact ⟨_, .closed rfl, closed⟩
  | confirmStopped nowMs token =>
    have closed := closeAttempt_ok applied
    exact ⟨_, .closed rfl, closed⟩
  | recoverExpired nowMs =>
    have closed := closeAttempt_ok applied
    exact ⟨_, .closed rfl, closed⟩
  | requestCancellation nowMs =>
    cases applied
    exact ⟨_, .kept rfl, rfl⟩
  | retryInterrupted nowMs intentKey =>
    cases applied
    exact ⟨_, .kept rfl, rfl⟩
  | rebind nowMs owner =>
    cases applied
    exact ⟨_, .kept rfl, rfl⟩

variable {next : ExtensionJob}

/-- The columns that a transition sets make the row the next job's. -/
theorem set_job (grows : Grows row.job next) (revision : Nat) : (row.set next revision).job = next := by
  obtain ⟨_, id, runId, intentKey, replayPolicy, contribution, contractVersion, createdAtMs, _⟩ := grows
  simp only [JobRow.set, ← id, ← runId, ← intentKey, ← replayPolicy, ← contribution, ← contractVersion, ← createdAtMs]

/-- What an accepted call does to the tables. -/
inductive Accepted (conn : Connection) : StoreCall → Connection → Prop
  | redelivered {new : NewExtensionJob} : Accepted conn (.enqueue new) conn
  | enqueued {new : NewExtensionJob} {row : JobRow} (fresh : ∀ other ∈ conn.jobs, other.job.id ≠ row.job.id)
      (sound : Sound row.job) (unclaimed : row.job.attempt = 0) (first : row.revision = 1) :
      Accepted conn (.enqueue new) { conn with jobs := conn.jobs ++ [row] }
  | moved {id : JobId} {expectedRevision : Nat} {event : JobEvent} {result : Option Json} {row : JobRow} {next : ExtensionJob}
      {token : Option AttemptFence} {attempts : List AttemptRow} {selects : JobRow → Bool} (member : row ∈ conn.jobs)
      (own : row.job.id = id) (revision : row.revision = expectedRevision)
      (transition : row.job.transition event = .ok ⟨next, token⟩)
      (change : AttemptsMove row.job next conn.attempts event attempts) (picked : selects row = true)
      (picks : ∀ other, selects other = true → other.job.id = id ∧ other.revision = expectedRevision) :
      Accepted conn (.transition id expectedRevision event result)
        { conn with jobs := updateRows selects (fun row => row.set next (expectedRevision + 1)) conn.jobs, attempts }

variable {id : JobId} {result : Option Json}

theorem transitionTx_accepted {expectedRevision : Nat}
    (accepted : transitionTx fromStr id expectedRevision event result conn = (.ok stored, last)) :
    Accepted conn (.transition id expectedRevision event result) last := by
  simp only [transitionTx, ensureTransaction, getTx, Tx.bind_ok, found_ok, check_ok, Tx.lift_ok, Tx.read_ok, Tx.savepoint_ok,
    and_assoc, exists_and_left, exists_eq_left', exists_const] at accepted
  obtain ⟨_, _, _, _, middle, decoded, current, rfl, revision, resultJson, later, text, transition, moved, _, written⟩ := accepted
  obtain ⟨row, search, job, stored⟩ := decodeRow_ok decoded
  have own : row.job.id = id := by simpa using List.find?_some search
  have same : later = conn := ((reads_resultText result event).same text).trans ((reads_decodeRow _).same decoded)
  simp only [writeTransition, updateJobs, Tx.bind_ok, check_ok, Tx.read_ok, Tx.write_ok, Tx.pure_ok, and_assoc,
    exists_and_left, exists_eq_left', exists_const, same] at written
  obtain ⟨_, middle, applied, _, _, _, _, rfl⟩ := written
  obtain ⟨attempts, change, rfl⟩ := applyAttemptChange_ok applied
  rw [mapError_ok, job] at moved
  rw [job] at change
  have expected : current.revision = expectedRevision := by simpa using revision
  have transition : row.job.transition event = .ok ⟨transition.job, transition.token⟩ := moved
  refine .moved (List.mem_of_find?_eq_some search) own (stored.symm.trans expected) transition change ?_ ?_
  · simp [StoredExtensionJob.isRow, own, job, ← stored, expected]
  · intro other selected
    simp only [StoredExtensionJob.isRow, Bool.and_eq_true, beq_iff_eq] at selected
    exact selected.1.1.1.1.1.1

variable {new : NewExtensionJob}

theorem validateNewJob_ok (passes : validateNewJob new conn = (.ok done, last)) : Sound new.job ∧ new.job.attempt = 0 := by
  simp only [validateNewJob, Tx.bind_ok, check_ok, Tx.lift_ok, mapError_ok, and_assoc, exists_and_left, exists_eq_left',
    exists_const, Bool.not_eq_true', Bool.or_eq_false_iff, bne_eq_false_iff_eq] at passes
  obtain ⟨_, valid, _, unclaimed, _⟩ := passes
  exact ⟨sound_of_validate valid, unclaimed⟩

theorem insertJob_accepted {result : EnqueueResult} (sound : Sound new.job) (unclaimed : new.job.attempt = 0)
    (inserted : insertJob fromStr new conn = (.ok result, last)) : Accepted conn (.enqueue new) last := by
  simp only [insertJob, Tx.bind_ok, Tx.read_ok, check_ok, and_assoc, exists_and_left, exists_eq_left', exists_const] at inserted
  obtain ⟨requestJson, middle, encoded, _, inserted⟩ := inserted
  have same := (reads_canonicalJson new.request).same encoded
  rw [same] at inserted
  split at inserted
  next taken =>
    simp only [Tx.bind_ok] at inserted
    obtain ⟨existing, middle, search, answered⟩ := inserted
    have before := (reads_getByIntentTx _ _).same search
    have after : last = middle := by
      cases existing with
      | none => exact (Tx.reads_lift _).same answered
      | some existing => exact (reads_answerExisting new existing).same answered
    rw [after, before]
    exact .redelivered
  next free =>
    simp only [Tx.bind_ok, Tx.write_ok, Tx.pure_ok, exists_const, exists_eq_left'] at inserted
    obtain ⟨_, rfl⟩ := inserted
    refine .enqueued ?_ sound unclaimed rfl
    intro other member same
    exact free (List.any_eq_true.mpr ⟨other, member, by simp [same]⟩)

theorem enqueueTx_accepted {result : EnqueueResult} (accepted : enqueueTx fromStr new conn = (.ok result, last)) :
    Accepted conn (.enqueue new) last := by
  simp only [enqueueTx, ensureTransaction, Tx.bind_ok, Tx.read_ok, check_ok, and_assoc, exists_and_left, exists_eq_left',
    exists_const] at accepted
  obtain ⟨_, done, valid, passes, existing, middle, search, answered⟩ := accepted
  have same := ((reads_getByIntentTx _ _).same search).trans ((reads_validateNewJob new).same passes)
  rw [same] at answered
  cases existing with
  | none => exact insertJob_accepted (validateNewJob_ok passes).1 (validateNewJob_ok passes).2 answered
  | some existing =>
    rw [(reads_answerExisting new existing).same answered]
    exact .redelivered

variable {call : StoreCall}

theorem call_accepted (accepted : call.body fromStr conn = (.ok stored, last)) : Accepted conn call last := by
  cases call with
  | enqueue new =>
    simp only [StoreCall.body, Tx.bind_ok, Tx.pure_ok] at accepted
    obtain ⟨result, middle, enqueued, _, rfl⟩ := accepted
    exact enqueueTx_accepted enqueued
  | transition id expectedRevision event result => exact transitionTx_accepted accepted

/-! ## Runs of calls -/

/-- A call as a step: one that fails is no step. -/
def step (fromStr : String → Option Json) (conn : Connection) (call : StoreCall) : Option (Connection × StoredExtensionJob) :=
  (call.body fromStr conn).1.toOption.map fun stored => ((call.body fromStr conn).2, stored)

theorem step_some : step fromStr conn call = some (last, stored) ↔ call.body fromStr conn = (.ok stored, last) := by
  simp only [step]
  rcases call.body fromStr conn with ⟨outcome, after⟩
  cases outcome with
  | error => simp [Except.toOption]
  | ok => simp [Except.toOption, and_comm]

theorem accepts_iff : conn.accepts fromStr call = true ↔ ∃ stored last, call.body fromStr conn = (.ok stored, last) := by
  simp only [Connection.accepts]
  rcases call.body fromStr conn with ⟨outcome, after⟩
  cases outcome <;> simp [Except.toOption]

theorem accepts_step (call : StoreCall) : conn.accepts fromStr call = (step fromStr conn call).isSome := by
  simp [Connection.accepts, step]

theorem advance_step (call : StoreCall) : Machine.advance (step fromStr) conn call = (call.body fromStr conn).2 := by
  simp only [Machine.advance, step]
  cases outcome : (call.body fromStr conn).1 with
  | error => exact (atomic_call call conn _ _ (Prod.ext outcome rfl)).symm
  | ok => rfl

theorem run_eq (calls : List StoreCall) : conn.run fromStr calls = Machine.run (step fromStr) conn calls := by
  simp only [Connection.run, Machine.run]
  congr 1
  funext conn call
  exact (advance_step call).symm

theorem transitions_eq (id : JobId) (calls : List StoreCall) :
    Connection.transitions fromStr id conn calls = (Machine.accepted (step fromStr) conn calls).countP (·.1.moves id) := by
  induction calls generalizing conn with
  | nil => rfl
  | cons call calls ih =>
    have next : conn.run fromStr [call] = Machine.advance (step fromStr) conn call := (advance_step call).symm
    rw [Connection.transitions, ih, next, Machine.accepted, List.countP_append]
    congr 1
    rw [accepts_step]
    cases step fromStr conn call with
    | none => simp
    | some next => simp [List.countP_cons]

/-- The tables after some accepted calls. -/
structure Kept (conn : Connection) (log : List (StoreCall × StoredExtensionJob)) : Prop where
  ids : (conn.jobs.map (·.job.id)).Nodup
  linked : ∀ row ∈ conn.jobs, Linked row.job (conn.attempts.filter (·.jobId == row.job.id))
  homed : ∀ attempt ∈ conn.attempts, ∃ row ∈ conn.jobs, row.job.id = attempt.jobId
  counted : ∀ row ∈ conn.jobs, row.revision = 1 + log.countP (·.1.moves row.job.id)
  unmoved : ∀ id, (∀ row ∈ conn.jobs, row.job.id ≠ id) → log.countP (·.1.moves id) = 0

variable {log : List (StoreCall × StoredExtensionJob)}

theorem Kept.enqueued (kept : Kept conn log) (fresh : ∀ other ∈ conn.jobs, other.job.id ≠ row.job.id) (sound : Sound row.job)
    (unclaimed : row.job.attempt = 0) (first : row.revision = 1) :
    Kept { conn with jobs := conn.jobs ++ [row] } (log ++ [(.enqueue new, stored)]) := by
  have count (id : JobId) : (log ++ [(StoreCall.enqueue new, stored)]).countP (·.1.moves id) = log.countP (·.1.moves id) := by
    simp [StoreCall.moves]
  refine ⟨?_, ?_, ?_, ?_, ?_⟩
  · rw [List.map_append, List.map_singleton]
    refine List.Nodup.append kept.ids (List.nodup_singleton _) ?_
    intro id member same
    obtain ⟨other, inside, rfl⟩ := List.mem_map.mp member
    exact fresh other inside (List.mem_singleton.mp same)
  · intro other member
    rcases List.mem_append.mp member with there | made
    · exact kept.linked other there
    · rw [List.mem_singleton.mp made]
      have none : conn.attempts.filter (·.jobId == row.job.id) = [] := by
        rw [List.filter_eq_nil_iff]
        intro attempt inside own
        obtain ⟨home, there, same⟩ := kept.homed attempt inside
        exact fresh home there (same.trans (by simpa using own))
      rw [none]
      exact Linked.start sound unclaimed
  · intro attempt member
    obtain ⟨home, there, same⟩ := kept.homed attempt member
    exact ⟨home, List.mem_append_left _ there, same⟩
  · intro other member
    rw [count]
    rcases List.mem_append.mp member with there | made
    · exact kept.counted other there
    · rw [List.mem_singleton.mp made, first, kept.unmoved _ fresh]
  · intro id absent
    rw [count]
    exact kept.unmoved id fun other there => absent other (List.mem_append_left _ there)

variable {revision : Nat}

/-- The rows after a transition: the job's is the next one, the others are as they were. -/
theorem moved_row {other : JobRow} {selects : JobRow → Bool} (ids : (conn.jobs.map (·.job.id)).Nodup) (member : row ∈ conn.jobs)
    (own : row.job.id = id) (grows : Grows row.job next) (picked : selects row = true)
    (picks : ∀ other, selects other = true → other.job.id = id ∧ other.revision = revision)
    (inside : other ∈ updateRows selects (fun row => row.set next (revision + 1)) conn.jobs) :
    (other ∈ conn.jobs ∧ other.job.id ≠ id) ∨ (other.job = next ∧ other.revision = revision + 1) := by
  have unique : ∀ other ∈ conn.jobs, other.job.id = id → other = row := by
    intro other there same
    exact List.inj_on_of_nodup_map ids there member (same.trans own.symm)
  rcases mem_updateRows.mp inside with ⟨there, spared⟩ | ⟨old, there, selected, rfl⟩
  · left
    refine ⟨there, fun same => ?_⟩
    rw [unique other there same, picked] at spared
    cases spared
  · right
    rw [unique old there (picks old selected).1]
    exact ⟨set_job grows _, rfl⟩

theorem ids_kept (selects : JobRow → Bool) (next : ExtensionJob) (revision : Nat) (rows : List JobRow) :
    (updateRows selects (fun row => row.set next revision) rows).map (·.job.id) = rows.map (·.job.id) :=
  map_updateRows fun _ _ _ => rfl

theorem Kept.moved (kept : Kept conn log) {expectedRevision : Nat} {token : Option AttemptFence} {attempts : List AttemptRow}
    {selects : JobRow → Bool} (member : row ∈ conn.jobs) (own : row.job.id = id) (revision : row.revision = expectedRevision)
    (transition : row.job.transition event = .ok ⟨next, token⟩) (change : AttemptsMove row.job next conn.attempts event attempts)
    (picked : selects row = true) (picks : ∀ other, selects other = true → other.job.id = id ∧ other.revision = expectedRevision) :
    Kept { conn with jobs := updateRows selects (fun row => row.set next (expectedRevision + 1)) conn.jobs, attempts }
      (log ++ [(.transition id expectedRevision event result, stored)]) := by
  obtain ⟨_, moves, after⟩ := accepted_moves transition
  have grows := Moves.grows moves
  have ids := ids_kept selects next (expectedRevision + 1) conn.jobs
  have mine : (log ++ [(StoreCall.transition id expectedRevision event result, stored)]).countP (·.1.moves id) =
      log.countP (·.1.moves id) + 1 := by
    simp [StoreCall.moves]
  have others (other : JobId) (apart : other ≠ id) :
      (log ++ [(StoreCall.transition id expectedRevision event result, stored)]).countP (·.1.moves other) =
        log.countP (·.1.moves other) := by
    simp [StoreCall.moves, Ne.symm apart]
  refine ⟨ids ▸ kept.ids, ?_, ?_, ?_, ?_⟩
  · intro other inside
    rcases moved_row kept.ids member own grows picked picks inside with ⟨there, apart⟩ | ⟨same, _⟩
    · rw [change.others (own.symm ▸ apart)]
      exact kept.linked other there
    · rw [same, grows.id]
      exact (kept.linked row member).step moves after change.own
  · intro attempt inside
    have home : ∃ other ∈ conn.jobs, other.job.id = attempt.jobId := by
      rcases change.home inside with same | ⟨earlier, there, same⟩
      · exact ⟨row, member, same.symm⟩
      · rw [← same]
        exact kept.homed earlier there
    have listed := List.mem_map.mpr home
    rw [← ids] at listed
    exact List.mem_map.mp listed
  · intro other inside
    rcases moved_row kept.ids member own grows picked picks inside with ⟨there, apart⟩ | ⟨same, counted⟩
    · rw [others _ apart]
      exact kept.counted other there
    · rw [same, grows.id, own, mine, counted, ← revision, kept.counted row member, own]
      omega
  · intro other absent
    have before : ∀ row ∈ conn.jobs, row.job.id ≠ other := by
      intro row there same
      have listed : other ∈ conn.jobs.map (·.job.id) := List.mem_map.mpr ⟨row, there, same⟩
      rw [← ids] at listed
      obtain ⟨later, inside, again⟩ := List.mem_map.mp listed
      exact absent later inside again
    rw [others other fun same => before row member (own.trans same.symm)]
    exact kept.unmoved other before

theorem Kept.step (kept : Kept conn log) (accepted : Accepted conn call last) : Kept last (log ++ [(call, stored)]) := by
  cases accepted with
  | redelivered =>
    refine ⟨kept.ids, kept.linked, kept.homed, ?_, ?_⟩
    · simpa [StoreCall.moves] using kept.counted
    · simpa [StoreCall.moves] using kept.unmoved
  | enqueued fresh sound unclaimed first => exact kept.enqueued fresh sound unclaimed first
  | moved member own revision transition change picked picks =>
    exact kept.moved member own revision transition change picked picks

theorem run_kept (fromStr : String → Option Json) (autocommit : Bool) (calls : List StoreCall) :
    Kept ((Connection.empty autocommit).run fromStr calls)
      (Machine.accepted (step fromStr) (Connection.empty autocommit) calls) := by
  rw [run_eq]
  have start : Kept (Connection.empty autocommit) [] := by
    constructor <;> simp [Connection.empty]
  refine Machine.run_invariant Kept ?_ [] start calls
  intro conn log call next stored kept moved
  exact kept.step (call_accepted (step_some.mp moved))

/-- Rows of jobs stay with a revision that only grows, and closed attempts as they are. -/
structure Later (conn last : Connection) : Prop where
  jobs : ∀ row ∈ conn.jobs, ∃ later ∈ last.jobs, later.job.id = row.job.id ∧ row.revision ≤ later.revision
  closed : ∀ attempt ∈ conn.attempts, attempt.closedAtMs.isSome = true → attempt ∈ last.attempts

theorem Later.refl (conn : Connection) : Later conn conn :=
  ⟨fun row member => ⟨row, member, rfl, Nat.le_refl _⟩, fun _ member _ => member⟩

theorem Later.trans {middle : Connection} (first : Later conn middle) (second : Later middle last) : Later conn last where
  jobs := by
    intro row member
    obtain ⟨next, inside, same, grown⟩ := first.jobs row member
    obtain ⟨later, there, again, more⟩ := second.jobs next inside
    exact ⟨later, there, again.trans same, Nat.le_trans grown more⟩
  closed attempt member done := second.closed attempt (first.closed attempt member done) done

theorem Accepted.later (accepted : Accepted conn call last) : Later conn last := by
  cases accepted with
  | redelivered => exact .refl conn
  | enqueued => exact ⟨fun row member => ⟨row, List.mem_append_left _ member, rfl, Nat.le_refl _⟩, fun _ member _ => member⟩
  | moved member own revision transition change picked picks =>
    refine ⟨?_, fun attempt inside done => change.closed_stays inside done⟩
    intro row inside
    rename_i selects
    cases selected : selects row with
    | false => exact ⟨row, mem_updateRows.mpr (.inl ⟨inside, selected⟩), rfl, Nat.le_refl _⟩
    | true =>
      refine ⟨_, mem_updateRows.mpr (.inr ⟨row, inside, selected, rfl⟩), rfl, ?_⟩
      rw [(picks row selected).2]
      exact Nat.le_succ _

/-- A transition takes the job at the revision it expects. -/
theorem Accepted.expects (accepted : Accepted conn (.transition id revision event result) last) :
    ∃ row ∈ conn.jobs, row.job.id = id ∧ row.revision = revision := by
  cases accepted with
  | moved member own current => exact ⟨_, member, own, current⟩

/-- It leaves the job at the next one. -/
theorem Accepted.raises (accepted : Accepted conn (.transition id revision event result) last) :
    ∃ row ∈ last.jobs, row.job.id = id ∧ row.revision = revision + 1 := by
  cases accepted with
  | moved member own current transition change picked picks =>
    exact ⟨_, mem_updateRows.mpr (.inr ⟨_, member, picked, rfl⟩), own, rfl⟩

theorem run_later (fromStr : String → Option Json) (calls : List StoreCall) : Later conn (conn.run fromStr calls) := by
  rw [run_eq]
  refine (Machine.run_related Later Later.refl Later.trans (fun _ => True) ?_ trivial calls).2
  intro conn call next stored _ moved
  exact ⟨trivial, (call_accepted (step_some.mp moved)).later⟩

theorem run_append (before after : List StoreCall) :
    conn.run fromStr (before ++ after) = (conn.run fromStr before).run fromStr after := List.foldl_append

/-- In every run of calls on a store that starts empty: a job's revision is one more than
the transitions accepted for it; its open attempt is the row of its own token and lease,
there while it runs; its attempts are numbered in order, and one that succeeded or failed
is the last; a revision is taken once; a closed attempt stays as it was closed; and a call
that fails changes nothing. -/
theorem jobs_and_attempts (fromStr : String → Option Json) (autocommit : Bool) :
    (∀ calls conn, (Connection.empty autocommit).run fromStr calls = conn → ∀ row ∈ conn.jobs,
      row.revision = 1 + Connection.transitions fromStr row.job.id (Connection.empty autocommit) calls ∧
      ((∃ attempt ∈ conn.attempts, attempt.jobId = row.job.id ∧ attempt.closedAtMs = none) ↔ row.job.state = .running) ∧
      (∀ attempt ∈ conn.attempts, attempt.jobId = row.job.id → attempt.closedAtMs = none →
        attempt.token = ⟨row.job.attempt, row.job.fence⟩ ∧ row.job.leaseUntilMs = some attempt.leaseUntilMs) ∧
      (conn.attempts.filter (·.jobId == row.job.id)).map (·.token) =
        (List.range row.job.attempt).map (fun i => ⟨i + 1, 2 * (i + 1) - 1⟩) ∧
      ∀ attempt ∈ conn.attempts, attempt.jobId = row.job.id →
        attempt.outcome = some .succeeded ∨ attempt.outcome = some .failed → attempt.token.attempt = row.job.attempt) ∧
    (∀ before middle id revision event result event' result',
      ((Connection.empty autocommit).run fromStr before).accepts fromStr (.transition id revision event result) = true →
      ((Connection.empty autocommit).run fromStr (before ++ .transition id revision event result :: middle)).accepts fromStr
        (.transition id revision event' result') = false) ∧
    (∀ before after, ∀ attempt ∈ ((Connection.empty autocommit).run fromStr before).attempts,
      attempt.closedAtMs.isSome = true → attempt ∈ ((Connection.empty autocommit).run fromStr (before ++ after)).attempts) ∧
    ∀ (conn : Connection) call, conn.accepts fromStr call = false → (call.body fromStr conn).2 = conn := by
  refine ⟨?_, ?_, ?_, ?_⟩
  · rintro calls conn rfl row member
    have kept := run_kept fromStr autocommit calls
    have linked := kept.linked row member
    have own {attempt : AttemptRow} (inside : attempt ∈ ((Connection.empty autocommit).run fromStr calls).attempts)
        (same : attempt.jobId = row.job.id) :
        attempt ∈ ((Connection.empty autocommit).run fromStr calls).attempts.filter (·.jobId == row.job.id) :=
      List.mem_filter.mpr ⟨inside, by simp [same]⟩
    refine ⟨?_, ⟨?_, ?_⟩, ?_, linked.tokens, ?_⟩
    · rw [transitions_eq]
      exact kept.counted row member
    · rintro ⟨attempt, inside, same, unclosed⟩
      exact ((linked.unclosed attempt (own inside same)).mp unclosed).1
    · intro running
      obtain ⟨attempt, inside, current⟩ := linked.current running
      obtain ⟨there, same⟩ := List.mem_filter.mp inside
      exact ⟨attempt, there, by simpa using same, (linked.unclosed attempt inside).mpr ⟨running, current⟩⟩
    · intro attempt inside same unclosed
      have owned := linked.owns (own inside same) unclosed
      exact ⟨(ownsAttempt_open owned).2.1, (ownsAttempt_open owned).2.2.2⟩
    · intro attempt inside same done
      exact (linked.last attempt (own inside same) done).1
  · intro before middle id revision event result event' result' accepted
    obtain ⟨stored, next, taken⟩ := accepts_iff.mp accepted
    obtain ⟨row, member, own, risen⟩ := (call_accepted taken).raises
    obtain ⟨later, there, same, grown⟩ := (run_later fromStr middle).jobs row member
    have split : (Connection.empty autocommit).run fromStr (before ++ .transition id revision event result :: middle) =
        next.run fromStr middle := by
      rw [run_append]
      exact congrArg (Connection.run fromStr · middle) (congrArg Prod.snd taken)
    rw [split, ← Bool.not_eq_true]
    intro again
    obtain ⟨_, _, retaken⟩ := accepts_iff.mp again
    obtain ⟨found, inside, owned, current⟩ := (call_accepted retaken).expects
    have kept := run_kept fromStr autocommit (before ++ .transition id revision event result :: middle)
    rw [split] at kept
    have one : found = later := List.inj_on_of_nodup_map kept.ids inside there (owned.trans (same.trans own).symm)
    rw [one] at current
    omega
  · intro before after attempt member done
    rw [run_append]
    exact (run_later fromStr after).closed attempt member done
  · intro conn call refused
    cases outcome : (call.body fromStr conn).1 with
    | error => exact atomic_call call conn _ _ (Prod.ext outcome rfl)
    | ok => simp [Connection.accepts, outcome, Except.toOption] at refused

end Oxplow.Proofs.JobStoreRuns
