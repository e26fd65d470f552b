import Oxplow.Proofs.JobRuns

/-! The check that closes a transition. A run of accepted events reaches only jobs that
pass it and whose queued attempts are not used up, and from such a job an event that
passes its own guards makes another. -/

namespace Oxplow.Proofs.JobChecks
open Library Jobs JobTransition JobRuns

/-- What `validate` asks of a job, and that a queued job has an attempt left. -/
structure Valid (job : ExtensionJob) : Prop where
  sound : Sound job
  id : job.id.validate = .ok ()
  owner : job.owner.validate = .ok ()
  intentKey : job.intentKey.validate = .ok ()
  runId : isUuidV7 job.runId.value = true
  created : 0 ≤ job.createdAtMs
  leased : job.state = .running → ∃ leaseUntil, job.leaseUntilMs = some leaseUntil ∧ job.createdAtMs < leaseUntil
  requested : ∀ requestedAt, job.cancellationRequestedAtMs = some requestedAt →
    job.createdAtMs ≤ requestedAt ∧ requestedAt ≤ job.updatedAtMs
  replayed : job.state = .queued → 0 < job.attempt → job.replayPolicy = .idempotent
  left : job.state = .queued → job.attempt < maxAttempts

/-! ## The check -/

variable {job : ExtensionJob}

theorem fits_of_valid (valid : Valid job) : job.fits = true := by
  have fence := valid.sound.fence
  cases state : job.state with
  | queued =>
    have unleased := valid.sound.unleased (by simp [state])
    have uncancelled := valid.sound.uncancelled state
    have replayed := valid.replayed state
    simp only [fenceOf, state, true_or, if_true] at fence
    simp only [ExtensionJob.fits, state, unleased, uncancelled, fence, Option.isSome_none, Bool.or_false, Bool.false_or,
      Bool.not_eq_true', Bool.or_eq_false_iff, bne_eq_false_iff_eq, Bool.and_eq_false_iff, decide_eq_false_iff_not]
    refine ⟨⟨?_, Nat.mul_comm _ _⟩, ?_⟩
    · rw [Bool.eq_iff_iff, beq_iff_eq, beq_iff_eq]
      omega
    · by_cases claimed : 0 < job.attempt
      · exact .inr (replayed claimed)
      · exact .inl claimed
  | running =>
    have claimed := valid.sound.claimed (by simp [state]) (by simp [state])
    obtain ⟨leaseUntil, leased, later⟩ := valid.leased state
    simp only [fenceOf, state, reduceCtorEq, or_self, if_false] at fence
    simp only [ExtensionJob.fits, state, leased, Option.all_some, Bool.not_eq_true', Bool.or_eq_false_iff,
      beq_eq_false_iff_ne, bne_eq_false_iff_eq, decide_eq_false_iff_not, Int.not_le, ne_eq]
    exact ⟨⟨⟨by omega, by omega⟩, by omega⟩, later⟩
  | interrupted =>
    have claimed := valid.sound.claimed (by simp [state]) (by simp [state])
    have unleased := valid.sound.unleased (by simp [state])
    simp only [fenceOf, state, or_true, if_true] at fence
    simp only [ExtensionJob.fits, state, unleased, Option.isSome_none, Bool.or_false, Bool.not_eq_true',
      Bool.or_eq_false_iff, beq_eq_false_iff_ne, bne_eq_false_iff_eq, ne_eq]
    exact ⟨by omega, by omega⟩
  | succeeded =>
    have claimed := valid.sound.claimed (by simp [state]) (by simp [state])
    have unleased := valid.sound.unleased (by simp [state])
    simp only [fenceOf, state, reduceCtorEq, or_self, if_false] at fence
    simp only [ExtensionJob.fits, state, unleased, Option.isSome_none, Bool.or_false, Bool.not_eq_true',
      Bool.or_eq_false_iff, beq_eq_false_iff_ne, bne_eq_false_iff_eq, ne_eq]
    exact ⟨by omega, by omega⟩
  | failed =>
    have claimed := valid.sound.claimed (by simp [state]) (by simp [state])
    have unleased := valid.sound.unleased (by simp [state])
    simp only [fenceOf, state, reduceCtorEq, or_self, if_false] at fence
    simp only [ExtensionJob.fits, state, unleased, Option.isSome_none, Bool.or_false, Bool.not_eq_true',
      Bool.or_eq_false_iff, beq_eq_false_iff_ne, bne_eq_false_iff_eq, ne_eq]
    exact ⟨by omega, by omega⟩
  | cancelled =>
    have unleased := valid.sound.unleased (by simp [state])
    have asked := valid.sound.asked state
    rw [← Option.not_isNone, Bool.not_eq_true'] at asked
    simp only [fenceOf, state, reduceCtorEq, or_self, if_false] at fence
    simp only [ExtensionJob.fits, state, unleased, asked, Option.isSome_none, Bool.or_false, Bool.false_or,
      Bool.not_eq_true', Bool.or_eq_false_iff, bne_eq_false_iff_eq, Bool.and_eq_false_iff, decide_eq_false_iff_not]
    refine ⟨?_, .inr (by omega)⟩
    rw [Bool.eq_iff_iff, beq_iff_eq, beq_iff_eq]
    omega

theorem fence_bounds (sound : Sound job) : job.attempt ≤ job.fence ∧ job.fence ≤ 2 * maxAttempts := by
  have within := sound.within
  rw [sound.fence, fenceOf]
  split
  · exact ⟨by omega, by omega⟩
  · exact ⟨by omega, by omega⟩

theorem validate_of_valid (valid : Valid job) : job.validate = .ok () := by
  have bounds := fence_bounds valid.sound
  have within := valid.sound.within
  have started := valid.sound.started
  have created := valid.created
  have most : 2 * maxAttempts ≤ maxPersistedCounter := by decide
  have counters : (!(!isUuidV7 job.runId.value || job.createdAtMs < 0 || job.updatedAtMs < job.createdAtMs ||
      maxPersistedCounter < job.fence || job.fence < job.attempt || job.replayPolicy == .never && 1 < job.attempt ||
      maxAttempts < job.attempt)) = true := by
    simp only [valid.runId, Bool.not_true, Bool.false_or, Bool.not_eq_true', Bool.or_eq_false_iff, Bool.and_eq_false_iff,
      decide_eq_false_iff_not, beq_eq_false_iff_ne, ne_eq]
    refine ⟨⟨⟨⟨⟨by omega, by omega⟩, by omega⟩, by omega⟩, ?_⟩, by omega⟩
    by_cases never : job.replayPolicy = .never
    · exact .inr (Nat.not_lt.mpr (valid.sound.once never))
    · exact .inl never
  have asked : (!job.cancellationRequestedAtMs.any fun requestedAt =>
      requestedAt < job.createdAtMs || job.updatedAtMs < requestedAt) = true := by
    cases requested : job.cancellationRequestedAtMs with
    | none => rfl
    | some requestedAt =>
      obtain ⟨after, before⟩ := valid.requested requestedAt requested
      simp only [Option.any_some, Bool.not_eq_true', Bool.or_eq_false_iff, decide_eq_false_iff_not]
      exact ⟨by omega, by omega⟩
  simp only [ExtensionJob.validate, bind_ok, require_ok, exists_const]
  exact ⟨(), valid.id, (), valid.owner, (), valid.intentKey, counters, asked, fits_of_valid valid⟩

/-! ## The events -/

variable {owner : JobOwner} {nowMs : Int}

theorem queued_valid {id : JobId} {runId : RunId} {intentKey : IntentKey} {replayPolicy : ReplayPolicy}
    (made : ExtensionJob.queued id owner runId intentKey replayPolicy nowMs = .ok job) : Valid job := by
  obtain ⟨sound, queued, unclaimed, _⟩ := queued_starts made
  simp only [ExtensionJob.queued, bind_ok, pure_ok] at made
  obtain ⟨_, _, _, passes, rfl⟩ := made
  simp only [ExtensionJob.validate, bind_ok, require_ok, exists_const, Bool.not_eq_true', Bool.or_eq_false_iff,
    decide_eq_false_iff_not, Int.not_lt, Bool.not_eq_false'] at passes
  obtain ⟨_, idPasses, _, ownerPasses, _, keyPasses, ⟨⟨⟨⟨⟨⟨runIdPasses, created⟩, _⟩, _⟩, _⟩, _⟩, _⟩, _⟩ := passes
  exact {
    sound
    id := idPasses
    owner := ownerPasses
    intentKey := keyPasses
    runId := runIdPasses
    created
    leased := fun running => by cases running
    requested := fun _ asked => by cases asked
    replayed := fun _ claimed => absurd claimed (Nat.lt_irrefl 0)
    left := fun _ => Nat.zero_lt_succ _ }

variable {next : JobTransition}

/-- An owner that replaces the job's own passed its check. -/
theorem rebind_owner (applied : job.applyEvent (.rebind nowMs owner) = .ok next) : owner.validate = .ok () := by
  simp only [ExtensionJob.applyEvent, ExtensionJob.rebind, bind_ok] at applied
  obtain ⟨_, _, _, passes, _⟩ := applied
  exact passes

/-- An attempt that ends keeps the counters of its claim. -/
theorem ended_valid (valid : Valid job) (running : job.state = .running) (later : job.updatedAtMs ≤ nowMs) {state : JobState}
    (ended : state.ended = true) (asked : state = .cancelled → job.cancellationRequestedAtMs.isSome = true) :
    Valid { job with state, leaseUntilMs := none, updatedAtMs := nowMs } := by
  have started := valid.sound.started
  have claimed := valid.sound.claimed (by simp [running]) (by simp [running])
  have unqueued : state ≠ .queued := by
    rintro rfl
    cases ended
  have unrecovered : ¬ (state = .queued ∨ state = .interrupted) := by
    rintro (rfl | rfl) <;> cases ended
  have unclaimed : state ≠ .running := by
    rintro rfl
    cases ended
  have fence : job.fence = 2 * job.attempt - 1 := by
    have fence := valid.sound.fence
    simpa [fenceOf, running] using fence
  have sound : Sound { job with state, leaseUntilMs := none, updatedAtMs := nowMs } := {
    within := valid.sound.within
    once := valid.sound.once
    fence := fence.trans (if_neg unrecovered).symm
    claimed := fun _ _ => claimed
    unleased := fun _ => rfl
    uncancelled := fun queued => absurd queued unqueued
    asked
    started := Int.le_trans started later }
  exact {
    sound
    id := valid.id
    owner := valid.owner
    intentKey := valid.intentKey
    runId := valid.runId
    created := valid.created
    leased := fun still => absurd still unclaimed
    requested := fun moment requested => ⟨(valid.requested moment requested).1, Int.le_trans (valid.requested moment requested).2 later⟩
    replayed := fun queued => absurd queued unqueued
    left := fun queued => absurd queued unqueued }

/-- A cancellation asked for now lies within the job's times. -/
theorem requested_now (valid : Valid job) {requestedAt : Int} (later : job.updatedAtMs ≤ nowMs)
    (asked : some nowMs = some requestedAt) : job.createdAtMs ≤ requestedAt ∧ requestedAt ≤ nowMs := by
  have started := valid.sound.started
  cases asked
  exact ⟨Int.le_trans started later, Int.le_refl _⟩

variable {leaseMs : Int}

theorem claim_valid (valid : Valid job) (later : job.updatedAtMs ≤ nowMs) (positive : nowMs < nowMs + leaseMs)
    (queued : job.state = .queued) (wanted : job.cancellationRequestedAtMs = none) :
    Valid { job with attempt := job.attempt + 1, fence := job.fence + 1, state := .running
                     leaseUntilMs := some (nowMs + leaseMs), updatedAtMs := nowMs } := by
  have started := valid.sound.started
  have fence : job.fence = 2 * job.attempt := by
    have fence := valid.sound.fence
    simpa [fenceOf, queued] using fence
  have once : job.replayPolicy = .never → job.attempt + 1 ≤ 1 := by
    intro never
    by_contra again
    have replayed := valid.replayed queued (by omega)
    rw [never] at replayed
    cases replayed
  exact {
    sound := {
      within := valid.left queued
      once
      fence := by
        change job.fence + 1 = 2 * (job.attempt + 1) - 1
        omega
      claimed := fun _ _ => Nat.succ_pos _
      unleased := fun idle => absurd rfl idle
      uncancelled := fun other => by cases other
      asked := fun other => by cases other
      started := Int.le_trans started later }
    id := valid.id
    owner := valid.owner
    intentKey := valid.intentKey
    runId := valid.runId
    created := valid.created
    leased := fun _ => ⟨_, rfl, Int.lt_of_le_of_lt (Int.le_trans started later) positive⟩
    requested := fun _ asked => by
      rw [wanted] at asked
      cases asked
    replayed := fun other => by cases other
    left := fun other => by cases other }

theorem renew_valid (valid : Valid job) (later : job.updatedAtMs ≤ nowMs) (running : job.state = .running)
    (positive : nowMs < nowMs + leaseMs) : Valid { job with leaseUntilMs := some (nowMs + leaseMs), updatedAtMs := nowMs } := by
  have started := valid.sound.started
  exact { valid with
    sound := { valid.sound with
      unleased := fun idle => absurd running idle
      started := Int.le_trans started later }
    leased := fun _ => ⟨_, rfl, Int.lt_of_le_of_lt (Int.le_trans started later) positive⟩
    requested := fun moment requested => ⟨(valid.requested moment requested).1, Int.le_trans (valid.requested moment requested).2 later⟩ }

/-- A lease is granted past the time it is asked for at. -/
theorem renew_positive {token : AttemptFence} (applied : job.applyEvent (.renew nowMs leaseMs token) = .ok next) :
    nowMs < nowMs + leaseMs := by
  simp only [ExtensionJob.applyEvent, ExtensionJob.renew, bind_ok] at applied
  obtain ⟨_, _, _, _, expiry, granted, _⟩ := applied
  obtain ⟨positive, rfl⟩ := leaseExpiry_ok granted
  exact positive

/-- Cancelling a queued job ends it, or waits for what an earlier attempt left in flight. -/
theorem cancel_queued_valid (valid : Valid job) (later : job.updatedAtMs ≤ nowMs) (queued : job.state = .queued) :
    Valid { job with cancellationRequestedAtMs := some nowMs
                     state := if job.attempt = 0 then .cancelled else .interrupted, updatedAtMs := nowMs } := by
  have started := valid.sound.started
  have unleased := valid.sound.unleased (by simp [queued])
  have fence : job.fence = 2 * job.attempt := by
    have fence := valid.sound.fence
    simpa [fenceOf, queued] using fence
  have unqueued : (if job.attempt = 0 then JobState.cancelled else .interrupted) ≠ .queued := by
    split <;> simp
  have unclaimed : (if job.attempt = 0 then JobState.cancelled else .interrupted) ≠ .running := by
    split <;> simp
  exact { valid with
    sound := { valid.sound with
      fence := by
        by_cases first : job.attempt = 0
        · simp [fenceOf, first, fence]
        · simpa [fenceOf, first] using fence
      claimed := fun _ waits => Nat.pos_of_ne_zero fun zero => waits (if_pos zero)
      unleased := fun _ => unleased
      uncancelled := fun other => absurd other unqueued
      asked := fun _ => rfl
      started := Int.le_trans started later }
    leased := fun other => absurd other unclaimed
    requested := fun _ asked => requested_now valid later asked
    replayed := fun other => absurd other unqueued
    left := fun other => absurd other unqueued }

theorem cancel_claimed_valid (valid : Valid job) (later : job.updatedAtMs ≤ nowMs)
    (claimed : job.state = .running ∨ job.state = .interrupted) {requestedAtMs : Option Int}
    (requested : requestedAtMs = some nowMs ∨ requestedAtMs = job.cancellationRequestedAtMs) :
    Valid { job with cancellationRequestedAtMs := requestedAtMs, updatedAtMs := nowMs } := by
  have started := valid.sound.started
  have unqueued : job.state ≠ .queued := by
    rcases claimed with state | state <;> simp [state]
  have uncancelled : job.state ≠ .cancelled := by
    rcases claimed with state | state <;> simp [state]
  exact { valid with
    sound := { valid.sound with
      uncancelled := fun other => absurd other unqueued
      asked := fun other => absurd other uncancelled
      started := Int.le_trans started later }
    requested := by
      intro moment asked
      rcases requested with rfl | rfl
      · exact requested_now valid later asked
      · exact ⟨(valid.requested moment asked).1, Int.le_trans (valid.requested moment asked).2 later⟩ }

theorem recovered_valid (valid : Valid job) (later : job.updatedAtMs ≤ nowMs) (running : job.state = .running) :
    Valid { job with fence := job.fence + 1, state := .interrupted, leaseUntilMs := none, updatedAtMs := nowMs } := by
  have started := valid.sound.started
  have claimed := valid.sound.claimed (by simp [running]) (by simp [running])
  have fence : job.fence = 2 * job.attempt - 1 := by
    have fence := valid.sound.fence
    simpa [fenceOf, running] using fence
  exact { valid with
    sound := { valid.sound with
      fence := by
        change job.fence + 1 = 2 * job.attempt
        omega
      claimed := fun _ _ => claimed
      unleased := fun _ => rfl
      uncancelled := fun other => by cases other
      asked := fun other => by cases other
      started := Int.le_trans started later }
    leased := fun other => by cases other
    requested := fun moment asked => ⟨(valid.requested moment asked).1, Int.le_trans (valid.requested moment asked).2 later⟩
    replayed := fun other => by cases other
    left := fun other => by cases other }

theorem retried_valid (valid : Valid job) (later : job.updatedAtMs ≤ nowMs) (interrupted : job.state = .interrupted)
    (replays : job.replayPolicy = .idempotent) (wanted : job.cancellationRequestedAtMs = none) (left : job.attempt < maxAttempts) :
    Valid { job with state := .queued, updatedAtMs := nowMs } := by
  have started := valid.sound.started
  have unleased := valid.sound.unleased (by simp [interrupted])
  have fence : job.fence = 2 * job.attempt := by
    have fence := valid.sound.fence
    simpa [fenceOf, interrupted] using fence
  exact { valid with
    sound := { valid.sound with
      fence
      claimed := fun unqueued => absurd rfl unqueued
      unleased := fun _ => unleased
      uncancelled := fun _ => wanted
      asked := fun other => by cases other
      started := Int.le_trans started later }
    leased := fun other => by cases other
    requested := fun moment asked => ⟨(valid.requested moment asked).1, Int.le_trans (valid.requested moment asked).2 later⟩
    replayed := fun _ _ => replays
    left := fun _ => left }

theorem rebound_valid (valid : Valid job) (later : job.updatedAtMs ≤ nowMs) (passes : owner.validate = .ok ()) :
    Valid { job with owner, updatedAtMs := nowMs } := by
  have started := valid.sound.started
  exact { valid with
    sound := { valid.sound with started := Int.le_trans started later }
    owner := passes
    requested := fun moment asked => ⟨(valid.requested moment asked).1, Int.le_trans (valid.requested moment asked).2 later⟩ }

theorem applyEvent_valid (valid : Valid job) {event : JobEvent} (applied : job.applyEvent event = .ok next) : Valid next.job := by
  have moves := applyEvent_moves valid.sound applied
  have bound : ∀ nowMs owner, event = .rebind nowMs owner → owner.validate = .ok () :=
    fun _ _ same => rebind_owner (same ▸ applied)
  have granted : ∀ nowMs leaseMs token, event = .renew nowMs leaseMs token → nowMs < nowMs + leaseMs :=
    fun _ _ _ same => renew_positive (same ▸ applied)
  obtain ⟨next, token⟩ := next
  dsimp only at moves ⊢
  cases moves with
  | claim later positive _ queued wanted => exact claim_valid valid later positive queued wanted
  | renew later current => exact renew_valid valid later current.running (granted _ _ _ rfl)
  | @complete _ _ outcome later current =>
    apply ended_valid valid current.running later
    · cases outcome with
      | succeeded => rfl
      | failed => rfl
    · cases outcome with
      | succeeded => exact fun other => by cases other
      | failed => exact fun other => by cases other
  | cancelQueued later _ queued => exact cancel_queued_valid valid later queued
  | cancelClaimed later _ claimed => exact cancel_claimed_valid valid later claimed (.inl rfl)
  | cancelAgain later _ claimed => exact cancel_claimed_valid valid later claimed (.inr rfl)
  | confirmStopped later current asked => exact ended_valid valid current.running later rfl fun _ => asked
  | recoverExpired later running => exact recovered_valid valid later running
  | retryInterrupted later _ interrupted replays wanted left => exact retried_valid valid later interrupted replays wanted left
  | rebind later => exact rebound_valid valid later (bound _ _ rfl)

/-! ## Runs -/

theorem run_valid (valid : Valid job) (events : List JobEvent) : Valid (job.run events) := by
  apply Machine.run_invariant (fun job (_ : List (JobEvent × Option AttemptFence)) => Valid job) ?_ [] valid events
  intro job _ event next token valid moved
  have accepted := step_some.mp moved
  simp only [ExtensionJob.transition, bind_ok, pure_ok] at accepted
  obtain ⟨_, _, reached, applied, _, _, same⟩ := accepted
  have kept := applyEvent_valid valid applied
  rw [same] at kept
  exact kept

/-- The check that closes a transition rejects nothing that the event's own guards
allowed: every reachable job passes it, and every job that an arm of `transition` makes
of a reachable one does. -/
theorem closing_check_passes {id : JobId} {owner : JobOwner} {runId : RunId} {intentKey : IntentKey} {replayPolicy : ReplayPolicy}
    {nowMs : Int} {job : ExtensionJob} (made : ExtensionJob.queued id owner runId intentKey replayPolicy nowMs = .ok job)
    (events : List JobEvent) :
    (job.run events).validate = .ok () ∧
      ∀ event next, (job.run events).applyEvent event = .ok next →
        next.job.validate = .ok () ∧ (job.run events).transition event = .ok next := by
  have valid := run_valid (queued_valid made) events
  have opening := validate_of_valid valid
  refine ⟨opening, fun event next applied => ?_⟩
  have closing := validate_of_valid (applyEvent_valid valid applied)
  refine ⟨closing, ?_⟩
  simp only [ExtensionJob.transition, bind_ok, pure_ok]
  exact ⟨(), opening, next, applied, (), closing, rfl⟩

theorem closing_check_passes_review : (review.run [.claim 1001 30 review.intentKey, .recoverExpired 1031]).validate = .ok () ∧
    ∀ event next, (review.run [.claim 1001 30 review.intentKey, .recoverExpired 1031]).applyEvent event = .ok next →
      next.job.validate = .ok () ∧
        (review.run [.claim 1001 30 review.intentKey, .recoverExpired 1031]).transition event = .ok next :=
  closing_check_passes review_queued [.claim 1001 30 review.intentKey, .recoverExpired 1031]

end Oxplow.Proofs.JobChecks
