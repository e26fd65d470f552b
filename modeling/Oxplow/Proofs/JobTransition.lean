import Oxplow.Jobs.ExtensionJob

/-! What one lifecycle event can do to a job, guard by guard, and the counters that a
job which passes its own check stands on. -/

namespace Oxplow.Proofs.JobTransition
open Jobs

/-! ## Checks -/

variable {α : Type}

theorem bind_ok {β ε : Type} {first : Except ε α} {next : α → Except ε β} {result : β} :
    first >>= next = .ok result ↔ ∃ value, first = .ok value ∧ next value = .ok result := by
  cases first with
  | error => simp [bind, Except.bind]
  | ok => simp [bind, Except.bind]

variable {done : Unit}

@[simp] theorem require_ok {holds : Bool} {error : TransitionError} : require holds error = .ok done ↔ holds = true := by
  cases holds <;> simp [require]

@[simp] theorem okOr_ok {value : Option α} {error : TransitionError} {a : α} : okOr value error = .ok a ↔ value = some a := by
  cases value <;> simp [okOr]

@[simp] theorem pure_ok {ε : Type} {a b : α} : (pure a : Except ε α) = .ok b ↔ a = b := by
  simp [pure, Except.pure]

@[simp] theorem checkedSucc_ok {counter most next : Nat} :
    ExtensionJob.checkedSucc counter most = .ok next ↔ counter + 1 ≤ most ∧ next = counter + 1 := by
  simp only [ExtensionJob.checkedSucc]
  split
  next fits => simp [fits, eq_comm]
  next full => simp [full]

variable {nowMs : Int}

theorem leaseExpiry_ok {leaseMs expiry : Int} (granted : ExtensionJob.leaseExpiry nowMs leaseMs = .ok expiry) :
    nowMs < expiry ∧ expiry = nowMs + leaseMs := by
  simp only [ExtensionJob.leaseExpiry, bind_ok, require_ok, pure_ok, exists_const, Bool.not_eq_true', Bool.or_eq_false_iff,
    decide_eq_false_iff_not] at granted
  obtain ⟨⟨_, positive⟩, _, rfl⟩ := granted
  exact ⟨by omega, rfl⟩

/-! ## A job that passes its check -/

/-- The counters of the lifecycle: each claim advances the fence once and each recovery
once more. -/
def fenceOf (state : JobState) (attempt : Nat) : Nat :=
  if state = .queued ∨ state = .interrupted then 2 * attempt else 2 * attempt - 1

structure Sound (job : ExtensionJob) : Prop where
  within : job.attempt ≤ maxAttempts
  once : job.replayPolicy = .never → job.attempt ≤ 1
  fence : job.fence = fenceOf job.state job.attempt
  claimed : job.state ≠ .queued → job.state ≠ .cancelled → 0 < job.attempt
  unleased : job.state ≠ .running → job.leaseUntilMs = none
  uncancelled : job.state = .queued → job.cancellationRequestedAtMs = none
  asked : job.state = .cancelled → job.cancellationRequestedAtMs.isSome = true
  started : job.createdAtMs ≤ job.updatedAtMs

variable {job : ExtensionJob}

theorem sound_of_validate (passes : job.validate = .ok ()) : Sound job := by
  simp only [ExtensionJob.validate, bind_ok, require_ok, exists_const, Bool.not_eq_true', Bool.or_eq_false_iff,
    Bool.and_eq_false_iff, decide_eq_false_iff_not, Nat.not_lt, Int.not_lt, beq_eq_false_iff_ne, ne_eq] at passes
  obtain ⟨_, _, _, _, _, _, ⟨⟨⟨⟨⟨⟨_, _⟩, updated⟩, _⟩, _⟩, policy⟩, most⟩, _, fits⟩ := passes
  have once : job.replayPolicy = .never → job.attempt ≤ 1 := by
    intro never
    rcases policy with other | few
    · exact absurd never other
    · exact few
  cases state : job.state <;>
    simp only [ExtensionJob.fits, state, Bool.not_eq_true', Bool.or_eq_false_iff, Bool.and_eq_false_iff, beq_eq_false_iff_ne,
      bne_eq_false_iff_eq, Option.isSome_eq_false_iff, Option.isNone_iff_eq_none, Option.isNone_eq_false_iff,
      decide_eq_false_iff_not, ne_eq] at fits
  case queued =>
    exact ⟨most, once, by simp [fenceOf, state]; omega, by simp [state], fun _ => fits.1.1.1.1, fun _ => fits.1.1.1.2,
      by simp [state], updated⟩
  case running =>
    exact ⟨most, once, by simp [fenceOf, state]; omega, fun _ _ => by omega, by simp [state], by simp [state],
      by simp [state], updated⟩
  case interrupted =>
    exact ⟨most, once, by simp [fenceOf, state]; omega, fun _ _ => by omega, fun _ => fits.2, by simp [state],
      by simp [state], updated⟩
  case succeeded =>
    exact ⟨most, once, by simp [fenceOf, state]; omega, fun _ _ => by omega, fun _ => fits.2, by simp [state],
      by simp [state], updated⟩
  case failed =>
    exact ⟨most, once, by simp [fenceOf, state]; omega, fun _ _ => by omega, fun _ => fits.2, by simp [state],
      by simp [state], updated⟩
  case cancelled =>
    refine ⟨most, once, ?_, by simp [state], fun _ => fits.1.1.1, by simp [state], fun _ => fits.1.1.2, updated⟩
    obtain ⟨⟨⟨_, _⟩, both⟩, counted⟩ := fits
    have none : job.attempt = 0 ↔ job.fence = 0 := by
      rw [← beq_iff_eq, both, beq_iff_eq]
    simp only [fenceOf, state, reduceCtorEq, or_self, if_false]
    omega

/-! ## What an event does -/

/-- The token is that of the attempt under way, and its lease runs. -/
structure Current (job : ExtensionJob) (token : AttemptFence) (nowMs : Int) : Prop where
  running : job.state = .running
  own : token = ⟨job.attempt, job.fence⟩
  leased : ∃ leaseUntil, job.leaseUntilMs = some leaseUntil ∧ nowMs < leaseUntil

inductive Moves (job : ExtensionJob) : JobEvent → ExtensionJob → Option AttemptFence → Prop
  | claim {nowMs leaseMs : Int} {intentKey : IntentKey} (later : job.updatedAtMs ≤ nowMs) (positive : nowMs < nowMs + leaseMs)
      (intent : intentKey = job.intentKey) (queued : job.state = .queued) (wanted : job.cancellationRequestedAtMs = none) :
      Moves job (.claim nowMs leaseMs intentKey)
        { job with attempt := job.attempt + 1, fence := job.fence + 1, state := .running
                   leaseUntilMs := some (nowMs + leaseMs), updatedAtMs := nowMs }
        (some ⟨job.attempt + 1, job.fence + 1⟩)
  | renew {nowMs leaseMs : Int} {token : AttemptFence} (later : job.updatedAtMs ≤ nowMs) (current : Current job token nowMs)
      (longer : ∀ leaseUntil, job.leaseUntilMs = some leaseUntil → leaseUntil ≤ nowMs + leaseMs) :
      Moves job (.renew nowMs leaseMs token) { job with leaseUntilMs := some (nowMs + leaseMs), updatedAtMs := nowMs } none
  | complete {nowMs : Int} {token : AttemptFence} {outcome : Completion} (later : job.updatedAtMs ≤ nowMs)
      (current : Current job token nowMs) :
      Moves job (.complete nowMs token outcome)
        { job with state := ExtensionJob.Completion.state outcome, leaseUntilMs := none, updatedAtMs := nowMs } none
  | cancelQueued {nowMs : Int} (later : job.updatedAtMs ≤ nowMs) (first : job.cancellationRequestedAtMs = none)
      (queued : job.state = .queued) :
      Moves job (.requestCancellation nowMs)
        { job with cancellationRequestedAtMs := some nowMs
                   state := if job.attempt = 0 then .cancelled else .interrupted, updatedAtMs := nowMs } none
  | cancelClaimed {nowMs : Int} (later : job.updatedAtMs ≤ nowMs) (first : job.cancellationRequestedAtMs = none)
      (claimed : job.state = .running ∨ job.state = .interrupted) :
      Moves job (.requestCancellation nowMs) { job with cancellationRequestedAtMs := some nowMs, updatedAtMs := nowMs } none
  | cancelAgain {nowMs : Int} (later : job.updatedAtMs ≤ nowMs) (again : job.cancellationRequestedAtMs.isSome = true)
      (claimed : job.state = .running ∨ job.state = .interrupted) :
      Moves job (.requestCancellation nowMs) { job with updatedAtMs := nowMs } none
  | confirmStopped {nowMs : Int} {token : AttemptFence} (later : job.updatedAtMs ≤ nowMs) (current : Current job token nowMs)
      (asked : job.cancellationRequestedAtMs.isSome = true) :
      Moves job (.confirmStopped nowMs token) { job with state := .cancelled, leaseUntilMs := none, updatedAtMs := nowMs } none
  | recoverExpired {nowMs : Int} (later : job.updatedAtMs ≤ nowMs) (running : job.state = .running)
      (expired : ∃ leaseUntil, job.leaseUntilMs = some leaseUntil ∧ leaseUntil ≤ nowMs) :
      Moves job (.recoverExpired nowMs)
        { job with fence := job.fence + 1, state := .interrupted, leaseUntilMs := none, updatedAtMs := nowMs } none
  | retryInterrupted {nowMs : Int} {intentKey : IntentKey} (later : job.updatedAtMs ≤ nowMs)
      (intent : intentKey = job.intentKey) (interrupted : job.state = .interrupted) (replays : job.replayPolicy = .idempotent)
      (wanted : job.cancellationRequestedAtMs = none) (left : job.attempt < maxAttempts) :
      Moves job (.retryInterrupted nowMs intentKey) { job with state := .queued, updatedAtMs := nowMs } none
  | rebind {nowMs : Int} {owner : JobOwner} (later : job.updatedAtMs ≤ nowMs) (queued : job.state = .queued)
      (wanted : job.cancellationRequestedAtMs = none) (contribution : owner.contribution = job.owner.contribution)
      (contract : owner.contractVersion = job.owner.contractVersion) :
      Moves job (.rebind nowMs owner) { job with owner, updatedAtMs := nowMs } none

theorem checkTime_ok (passes : job.checkTime nowMs = .ok done) : job.updatedAtMs ≤ nowMs := by
  simp only [ExtensionJob.checkTime, bind_ok, require_ok, exists_const, Bool.not_eq_true', decide_eq_false_iff_not,
    Int.not_lt] at passes
  exact passes.2

variable {intentKey : IntentKey}

theorem checkIntent_ok (passes : job.checkIntent intentKey = .ok done) : intentKey = job.intentKey := by
  simp only [ExtensionJob.checkIntent, bind_ok, require_ok, beq_iff_eq] at passes
  obtain ⟨_, _, same⟩ := passes
  exact same

theorem checkRunningToken_ok {token : AttemptFence} (passes : job.checkRunningToken token nowMs = .ok done) :
    Current job token nowMs := by
  simp only [ExtensionJob.checkRunningToken, bind_ok, require_ok, okOr_ok, exists_const, Bool.not_eq_true',
    Bool.or_eq_false_iff, bne_eq_false_iff_eq, decide_eq_false_iff_not, Int.not_le] at passes
  obtain ⟨⟨⟨⟨⟨running, attempt⟩, fence⟩, _⟩, _⟩, leaseUntil, leased, before⟩ := passes
  exact ⟨running, by rw [← attempt, ← fence], leaseUntil, leased, before⟩

theorem applyEvent_moves (sound : Sound job) {event : JobEvent} {next : JobTransition} (applied : job.applyEvent event = .ok next) :
    Moves job event next.job next.token := by
  cases event with
  | claim nowMs leaseMs intentKey =>
    simp only [ExtensionJob.applyEvent, ExtensionJob.claim, bind_ok, require_ok, checkedSucc_ok, pure_ok, exists_const,
      Bool.not_eq_true', Bool.or_eq_false_iff, bne_eq_false_iff_eq, Option.isSome_eq_false_iff, Option.isNone_iff_eq_none]
      at applied
    obtain ⟨_, time, _, intent, ⟨queued, wanted⟩, expiry, granted, _, ⟨_, rfl⟩, _, ⟨_, rfl⟩, rfl⟩ := applied
    obtain ⟨positive, rfl⟩ := leaseExpiry_ok granted
    exact .claim (checkTime_ok time) positive (checkIntent_ok intent) queued wanted
  | renew nowMs leaseMs token =>
    simp only [ExtensionJob.applyEvent, ExtensionJob.renew, bind_ok, require_ok, okOr_ok, pure_ok, exists_const,
      Bool.not_eq_true', decide_eq_false_iff_not, Int.not_lt] at applied
    obtain ⟨_, time, _, current, expiry, granted, leaseUntil, leased, longer, rfl⟩ := applied
    obtain ⟨_, rfl⟩ := leaseExpiry_ok granted
    refine .renew (checkTime_ok time) (checkRunningToken_ok current) ?_
    intro other same
    exact Option.some.inj (same.symm.trans leased) ▸ longer
  | complete nowMs token outcome =>
    simp only [ExtensionJob.applyEvent, ExtensionJob.complete, bind_ok, pure_ok] at applied
    obtain ⟨_, time, _, current, rfl⟩ := applied
    exact .complete (checkTime_ok time) (checkRunningToken_ok current)
  | requestCancellation nowMs =>
    simp only [ExtensionJob.applyEvent, ExtensionJob.requestCancellation, bind_ok, require_ok, exists_const,
      Bool.not_eq_true', Bool.or_eq_false_iff, beq_eq_false_iff_ne, ne_eq] at applied
    obtain ⟨⟨⟨unsucceeded, unfailed⟩, uncancelled⟩, _, time, applied⟩ := applied
    have open_ : job.state = .queued ∨ job.state = .running ∨ job.state = .interrupted := by
      cases state : job.state <;> simp_all
    split at applied
    next first =>
      rw [Option.isNone_iff_eq_none] at first
      cases pure_ok.mp applied
      rcases open_ with queued | claimed
      · have moves := Moves.cancelQueued (checkTime_ok time) first queued
        simpa [queued] using moves
      · have moves := Moves.cancelClaimed (checkTime_ok time) first claimed
        rcases claimed with running | interrupted
        · simpa [running] using moves
        · simpa [interrupted] using moves
    next again =>
      cases pure_ok.mp applied
      have asked : job.cancellationRequestedAtMs.isSome = true := by simpa [Option.isSome_iff_ne_none] using again
      rcases open_ with queued | claimed
      · rw [sound.uncancelled queued] at asked
        cases asked
      · exact .cancelAgain (checkTime_ok time) asked claimed
  | confirmStopped nowMs token =>
    simp only [ExtensionJob.applyEvent, ExtensionJob.confirmStopped, bind_ok, require_ok, pure_ok, exists_const] at applied
    obtain ⟨_, time, _, current, asked, rfl⟩ := applied
    exact .confirmStopped (checkTime_ok time) (checkRunningToken_ok current) asked
  | recoverExpired nowMs =>
    simp only [ExtensionJob.applyEvent, ExtensionJob.recoverExpired, bind_ok, require_ok, okOr_ok, checkedSucc_ok, pure_ok,
      exists_const, Bool.not_eq_true', decide_eq_false_iff_not, Int.not_lt, beq_iff_eq] at applied
    obtain ⟨_, time, running, expiry, leased, expired, _, ⟨_, rfl⟩, rfl⟩ := applied
    exact .recoverExpired (checkTime_ok time) running ⟨expiry, leased, expired⟩
  | retryInterrupted nowMs intentKey =>
    simp only [ExtensionJob.applyEvent, ExtensionJob.retryInterrupted, bind_ok, require_ok, pure_ok, exists_const,
      Bool.not_eq_true', Bool.or_eq_false_iff, bne_eq_false_iff_eq, Option.isSome_eq_false_iff, Option.isNone_iff_eq_none,
      decide_eq_false_iff_not, Nat.not_le] at applied
    obtain ⟨_, time, _, intent, ⟨⟨⟨interrupted, replays⟩, wanted⟩, left⟩, rfl⟩ := applied
    exact .retryInterrupted (checkTime_ok time) (checkIntent_ok intent) interrupted replays wanted left
  | rebind nowMs owner =>
    simp only [ExtensionJob.applyEvent, ExtensionJob.rebind, bind_ok, require_ok, pure_ok, exists_const,
      Bool.not_eq_true', Bool.or_eq_false_iff, bne_eq_false_iff_eq, Option.isSome_eq_false_iff, Option.isNone_iff_eq_none]
      at applied
    obtain ⟨_, time, _, _, ⟨⟨⟨queued, wanted⟩, contribution⟩, contract⟩, rfl⟩ := applied
    exact .rebind (checkTime_ok time) queued wanted contribution contract

/-- An accepted event moves a sound job to a sound one. -/
theorem transition_moves {event : JobEvent} {next : JobTransition} (accepted : job.transition event = .ok next) :
    Sound job ∧ Moves job event next.job next.token ∧ Sound next.job := by
  simp only [ExtensionJob.transition, bind_ok, pure_ok] at accepted
  obtain ⟨_, passes, applied, moves, _, passesNext, rfl⟩ := accepted
  have sound := sound_of_validate passes
  exact ⟨sound, applyEvent_moves sound moves, sound_of_validate passesNext⟩

/-- An enqueued job is queued, and was never claimed. -/
theorem queued_starts {id : JobId} {owner : JobOwner} {runId : RunId} {replayPolicy : ReplayPolicy}
    (made : ExtensionJob.queued id owner runId intentKey replayPolicy nowMs = .ok job) :
    Sound job ∧ job.state = .queued ∧ job.attempt = 0 ∧ job.replayPolicy = replayPolicy := by
  simp only [ExtensionJob.queued, bind_ok, pure_ok] at made
  obtain ⟨_, _, _, passes, rfl⟩ := made
  exact ⟨sound_of_validate passes, rfl, rfl, rfl⟩

theorem queued_given {id : JobId} {owner : JobOwner} {runId : RunId} {replayPolicy : ReplayPolicy}
    (made : ExtensionJob.queued id owner runId intentKey replayPolicy nowMs = .ok job) :
    job.id = id ∧ job.owner = owner ∧ job.runId = runId ∧ job.intentKey = intentKey ∧ job.replayPolicy = replayPolicy ∧
      job.createdAtMs = nowMs := by
  simp only [ExtensionJob.queued, bind_ok, pure_ok] at made
  obtain ⟨_, _, _, _, rfl⟩ := made
  exact ⟨rfl, rfl, rfl, rfl, rfl, rfl⟩

end Oxplow.Proofs.JobTransition
