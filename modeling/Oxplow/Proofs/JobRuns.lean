import Oxplow.Proofs.JobTransition

/-! Runs of a job. The tokens issued so far are numbered by the attempts and stay at or
below the fence, so a token that is accepted is the last one, and an attempt that has
ended shuts out every token before it. -/

namespace Oxplow.Proofs.JobRuns
open Library Jobs JobTransition

variable {token : Option AttemptFence} {next : ExtensionJob} {event : JobEvent}

theorem step_some {job : ExtensionJob} : job.step event = some (next, token) ↔ job.transition event = .ok ⟨next, token⟩ := by
  simp only [ExtensionJob.step]
  cases moved : job.transition event with
  | error => simp [Except.toOption]
  | ok result => cases result; simp [Except.toOption]

theorem accepts_iff {job : ExtensionJob} : job.accepts event = true ↔ ∃ next token, job.transition event = .ok ⟨next, token⟩ := by
  simp only [ExtensionJob.accepts, Option.isSome_iff_exists, Prod.exists, step_some]

theorem accepted_moves {job : ExtensionJob} (moved : job.transition event = .ok ⟨next, token⟩) :
    Sound job ∧ Moves job event next token ∧ Sound next :=
  transition_moves moved

/-- Only a claim gives a token and counts an attempt. -/
theorem Moves.counts {job : ExtensionJob} (moves : Moves job event next token) :
    event.isClaim = true ∧ job.state = .queued ∧ next.attempt = job.attempt + 1 ∧
        token = some ⟨job.attempt + 1, job.fence + 1⟩ ∨
      event.isClaim = false ∧ next.attempt = job.attempt ∧ token = none := by
  cases moves with
  | claim _ _ _ queued => exact .inl ⟨rfl, queued, rfl, rfl⟩
  | _ => exact .inr ⟨rfl, rfl, rfl⟩

theorem Moves.open_ {job : ExtensionJob} (moves : Moves job event next token) : job.state.ended = false := by
  cases moves with
  | claim _ _ _ queued => rw [queued]; rfl
  | renew _ current => rw [current.running]; rfl
  | complete _ current => rw [current.running]; rfl
  | cancelQueued _ _ queued => rw [queued]; rfl
  | cancelClaimed _ _ claimed => rcases claimed with state | state <;> rw [state] <;> rfl
  | cancelAgain _ _ claimed => rcases claimed with state | state <;> rw [state] <;> rfl
  | confirmStopped _ current => rw [current.running]; rfl
  | recoverExpired _ running => rw [running]; rfl
  | retryInterrupted _ _ interrupted => rw [interrupted]; rfl
  | rebind _ queued => rw [queued]; rfl

/-- An attempt-bound event is accepted only under the attempt's own token. -/
theorem Moves.current {job : ExtensionJob} {given : Option AttemptFence} {token : AttemptFence}
    (moves : Moves job event next given) (bound : event.token = some token) : ∃ nowMs, Current job token nowMs := by
  cases moves with
  | renew _ current => cases bound; exact ⟨_, current⟩
  | complete _ current => cases bound; exact ⟨_, current⟩
  | confirmStopped _ current => cases bound; exact ⟨_, current⟩
  | _ => cases bound

/-! ## What no event changes -/

structure Grows (job next : ExtensionJob) : Prop where
  fence : job.fence ≤ next.fence
  id : next.id = job.id
  runId : next.runId = job.runId
  intentKey : next.intentKey = job.intentKey
  replayPolicy : next.replayPolicy = job.replayPolicy
  contribution : next.owner.contribution = job.owner.contribution
  contractVersion : next.owner.contractVersion = job.owner.contractVersion
  createdAtMs : next.createdAtMs = job.createdAtMs
  cancellation : job.cancellationRequestedAtMs.isSome = true → next.cancellationRequestedAtMs = job.cancellationRequestedAtMs

theorem Grows.refl (job : ExtensionJob) : Grows job job :=
  ⟨Nat.le_refl _, rfl, rfl, rfl, rfl, rfl, rfl, rfl, fun _ => rfl⟩

theorem Grows.trans {job middle last : ExtensionJob} (first : Grows job middle) (second : Grows middle last) : Grows job last where
  fence := Nat.le_trans first.fence second.fence
  id := second.id.trans first.id
  runId := second.runId.trans first.runId
  intentKey := second.intentKey.trans first.intentKey
  replayPolicy := second.replayPolicy.trans first.replayPolicy
  contribution := second.contribution.trans first.contribution
  contractVersion := second.contractVersion.trans first.contractVersion
  createdAtMs := second.createdAtMs.trans first.createdAtMs
  cancellation := by
    intro asked
    have kept := first.cancellation asked
    exact (second.cancellation (kept ▸ asked)).trans kept

theorem Moves.grows {job : ExtensionJob} (moves : Moves job event next token) : Grows job next := by
  cases moves with
  | claim _ _ _ _ wanted => exact ⟨Nat.le_succ _, rfl, rfl, rfl, rfl, rfl, rfl, rfl, fun _ => rfl⟩
  | cancelQueued _ first => exact ⟨Nat.le_refl _, rfl, rfl, rfl, rfl, rfl, rfl, rfl, fun asked => by simp [first] at asked⟩
  | cancelClaimed _ first => exact ⟨Nat.le_refl _, rfl, rfl, rfl, rfl, rfl, rfl, rfl, fun asked => by simp [first] at asked⟩
  | recoverExpired => exact ⟨Nat.le_succ _, rfl, rfl, rfl, rfl, rfl, rfl, rfl, fun _ => rfl⟩
  | rebind _ _ _ contribution contract => exact ⟨Nat.le_refl _, rfl, rfl, rfl, rfl, contribution, contract, rfl, fun _ => rfl⟩
  | _ => exact ⟨Nat.le_refl _, rfl, rfl, rfl, rfl, rfl, rfl, rfl, fun _ => rfl⟩

theorem run_grows {job : ExtensionJob} (sound : Sound job) (events : List JobEvent) :
    Sound (job.run events) ∧ Grows job (job.run events) := by
  apply Machine.run_related Grows Grows.refl Grows.trans Sound ?_ sound
  intro job event next token _ moved
  obtain ⟨_, moves, after⟩ := accepted_moves (step_some.mp moved)
  exact ⟨after, Moves.grows moves⟩

theorem run_append (job : ExtensionJob) (before after : List JobEvent) :
    job.run (before ++ after) = (job.run before).run after := Machine.run_append job before after

theorem run_accepted {job : ExtensionJob} {before after : List JobEvent}
    (accepted : (job.run before).transition event = .ok ⟨next, token⟩) : job.run (before ++ event :: after) = next.run after := by
  rw [run_append]
  exact congrArg (Machine.run ExtensionJob.step · after) (Machine.advance_of_some (step_some.mpr accepted))

variable {events : List JobEvent}

theorem run_prefix_grows {job : ExtensionJob} (sound : Sound job) {earlier : List JobEvent} (starts : earlier <+: events) :
    Grows (job.run earlier) (job.run events) := by
  obtain ⟨rest, rfl⟩ := starts
  rw [run_append]
  exact (run_grows (run_grows sound earlier).1 rest).2

theorem ended_rejects {job : ExtensionJob} (ended : job.state.ended = true) (event : JobEvent) : job.accepts event = false := by
  rw [← Bool.not_eq_true]
  intro accepted
  obtain ⟨next, token, moved⟩ := accepts_iff.mp accepted
  rw [Moves.open_ (accepted_moves moved).2.1] at ended
  cases ended

theorem ended_run {job : ExtensionJob} (ended : job.state.ended = true) (events : List JobEvent) : job.run events = job := by
  induction events with
  | nil => rfl
  | cons event events ih =>
    have rejects : job.step event = none := by simpa [ExtensionJob.accepts] using ended_rejects ended event
    exact (congrArg (Machine.run ExtensionJob.step · events) (Machine.advance_of_none rejects)).trans ih

/-! ## The tokens of a run -/

/-- The claims so far, numbered by the attempts. -/
structure Numbered (job : ExtensionJob) (log : List (JobEvent × Option AttemptFence)) : Prop where
  sound : Sound job
  tokens : log.filterMap (·.2) = (List.range job.attempt).map fun i => ⟨i + 1, 2 * i + 1⟩
  claims : log.countP (·.1.isClaim) = job.attempt

theorem numbered_step {job : ExtensionJob} {log : List (JobEvent × Option AttemptFence)} (numbered : Numbered job log)
    (moved : job.transition event = .ok ⟨next, token⟩) : Numbered next (log ++ [(event, token)]) := by
  obtain ⟨sound, moves, after⟩ := accepted_moves moved
  refine ⟨after, ?_, ?_⟩
  · rcases Moves.counts moves with ⟨_, queued, attempt, rfl⟩ | ⟨_, attempt, rfl⟩
    · have fence := sound.fence
      simp only [fenceOf, queued, true_or, if_true] at fence
      rw [List.filterMap_append, numbered.tokens, attempt, List.range_succ, List.map_append]
      simp [fence]
    · rw [List.filterMap_append, numbered.tokens, attempt]
      simp
  · rcases Moves.counts moves with ⟨claim, _, attempt, rfl⟩ | ⟨other, attempt, rfl⟩
    · simp [numbered.claims, attempt, claim]
    · simp [numbered.claims, attempt, other]

theorem run_numbered {job : ExtensionJob} (sound : Sound job) (unclaimed : job.attempt = 0) (events : List JobEvent) :
    Numbered (job.run events) (Machine.accepted ExtensionJob.step job events) := by
  have start : Numbered job [] := ⟨sound, by simp [unclaimed], by simp [unclaimed]⟩
  exact Machine.run_invariant Numbered (fun _ _ _ _ _ kept moved => numbered_step kept (step_some.mp moved)) [] start events

section Enqueued
variable {job : ExtensionJob} (sound : Sound job) (unclaimed : job.attempt = 0)
include sound unclaimed

theorem issued_fence {token : AttemptFence} (member : token ∈ job.issued events) :
    token.fence < 2 * (job.run events).attempt := by
  have numbered := run_numbered sound unclaimed events
  rw [ExtensionJob.issued, numbered.tokens] at member
  obtain ⟨i, inside, rfl⟩ := List.mem_map.mp member
  have small := List.mem_range.mp inside
  simp only
  omega

/-- No token is above the fence. -/
theorem issued_le {token : AttemptFence} (member : token ∈ job.issued events) : token.fence ≤ (job.run events).fence := by
  have below := issued_fence sound unclaimed member
  have fence := (run_numbered sound unclaimed events).sound.fence
  simp only [fenceOf] at fence
  split at fence <;> omega

theorem current_issued {token : AttemptFence} {nowMs : Int} (current : Current (job.run events) token nowMs) :
    (job.issued events).getLast? = some token := by
  have numbered := run_numbered sound unclaimed events
  have claimed := numbered.sound.claimed (by simp [current.running]) (by simp [current.running])
  have fence := numbered.sound.fence
  simp only [fenceOf, current.running, reduceCtorEq, or_self, if_false] at fence
  obtain ⟨attempts, same⟩ := Nat.exists_eq_succ_of_ne_zero (Nat.pos_iff_ne_zero.mp claimed)
  rw [ExtensionJob.issued, numbered.tokens, same, List.range_succ, List.map_append, List.map_singleton, List.getLast?_append,
    current.own, fence, same]
  simp
  omega

/-- After an attempt has ended, no token issued before it fits any more. -/
theorem ended_attempt {before after : List JobEvent} {ending late : JobEvent} {old : AttemptFence} (ends : ending.endsAttempt = true)
    (accepted : (job.run before).accepts ending = true) (member : old ∈ job.issued before) (bound : late.token = some old) :
    (job.run (before ++ ending :: after)).accepts late = false := by
  obtain ⟨next, token, moved⟩ := accepts_iff.mp accepted
  obtain ⟨_, moves, nextSound⟩ := accepted_moves moved
  rw [run_accepted moved]
  have shut : next.state.ended = true ∨ old.fence < next.fence := by
    have le := issued_le sound unclaimed member
    cases moves with
    | complete =>
      left
      rename_i outcome _ _
      cases outcome <;> rfl
    | confirmStopped => exact .inl rfl
    | recoverExpired => exact .inr (Nat.lt_succ_of_le le)
    | _ => cases ends
  rcases shut with ended | below
  · rw [ended_run ended]
    exact ended_rejects ended late
  · rw [← Bool.not_eq_true]
    intro again
    obtain ⟨last, given, lateMoved⟩ := accepts_iff.mp again
    obtain ⟨nowMs, current⟩ := Moves.current (accepted_moves lateMoved).2.1 bound
    have grown := (run_grows nextSound after).2.fence
    have same := congrArg AttemptFence.fence current.own
    simp only at same
    omega

end Enqueued

/-! ## The fences of a whole run -/

/-- Over every run of an enqueued job: each claim's fence is greater than every one
before it; only the last token issued is accepted, and none from before an attempt's
end; the claims are as many as the policy allows; and none follows a cancellation. -/
theorem job_fencing {id : JobId} {owner : JobOwner} {runId : RunId} {intentKey : IntentKey} {replayPolicy : ReplayPolicy}
    {nowMs : Int} {job : ExtensionJob} (made : ExtensionJob.queued id owner runId intentKey replayPolicy nowMs = .ok job) :
    (∀ before event next, event.isClaim = true → (job.run before).transition event = .ok next →
      ∃ token, next.token = some token ∧ (∀ earlier, earlier <+: before → (job.run earlier).fence < token.fence) ∧
        ∀ old ∈ job.issued before, old.fence < token.fence) ∧
    (∀ before first second token other, first.token = some token → second.token = some other →
      (job.run before).accepts first = true → (job.run before).accepts second = true →
        token = other ∧ (job.issued before).getLast? = some token) ∧
    (∀ before ending after late old, ending.endsAttempt = true → (job.run before).accepts ending = true →
      old ∈ job.issued before → late.token = some old → (job.run (before ++ ending :: after)).accepts late = false) ∧
    (∀ events, job.claims events ≤ replayPolicy.mostAttempts) ∧
    ∀ before asked after event, asked.isCancellation = true → (job.run before).accepts asked = true → event.isClaim = true →
      (job.run (before ++ asked :: after)).accepts event = false := by
  obtain ⟨sound, queued, unclaimed, policy⟩ := queued_starts made
  refine ⟨?_, ?_, fun before ending after late old ends accepted member bound =>
    ended_attempt sound unclaimed ends accepted member bound, ?_, ?_⟩
  · intro before event next claim moved
    obtain ⟨_, moves, _⟩ := transition_moves moved
    rcases Moves.counts moves with ⟨_, _, _, token⟩ | ⟨other, _⟩
    · refine ⟨_, token, ?_, ?_⟩
      · intro earlier starts
        exact Nat.lt_succ_of_le (run_prefix_grows sound starts).fence
      · intro old member
        exact Nat.lt_succ_of_le (issued_le sound unclaimed member)
    · rw [claim] at other
      cases other
  · intro before first second token other bound boundOther accepted acceptedOther
    obtain ⟨_, _, moved⟩ := accepts_iff.mp accepted
    obtain ⟨_, _, movedOther⟩ := accepts_iff.mp acceptedOther
    obtain ⟨nowMs, current⟩ := Moves.current (accepted_moves moved).2.1 bound
    obtain ⟨_, currentOther⟩ := Moves.current (accepted_moves movedOther).2.1 boundOther
    exact ⟨current.own.trans currentOther.own.symm, current_issued sound unclaimed current⟩
  · intro events
    have numbered := run_numbered sound unclaimed events
    rw [ExtensionJob.claims, numbered.claims]
    have kept := ((run_grows sound events).2.replayPolicy).trans policy
    cases replayPolicy with
    | never => exact numbered.sound.once kept
    | idempotent => exact numbered.sound.within
  · intro before asked after event cancels accepted claim
    obtain ⟨next, token, moved⟩ := accepts_iff.mp accepted
    obtain ⟨_, moves, nextSound⟩ := accepted_moves moved
    have requested : next.cancellationRequestedAtMs.isSome = true := by
      cases moves with
      | cancelQueued => rfl
      | cancelClaimed => rfl
      | cancelAgain _ again => exact again
      | _ => cases cancels
    rw [run_accepted moved, ← Bool.not_eq_true]
    intro again
    obtain ⟨last, given, claimed⟩ := accepts_iff.mp again
    have kept := (run_grows nextSound after).2.cancellation requested
    obtain ⟨_, moves, _⟩ := accepted_moves claimed
    cases moves with
    | claim _ _ _ _ wanted =>
      rw [← kept, wanted] at requested
      cases requested
    | _ => cases claim

/-- A job as a deployment enqueues it. -/
def review : ExtensionJob where
  id := ⟨"018f0000-0000-7000-8000-000000000000"⟩
  owner := ⟨⟨"acme", .job, "review"⟩, some "1.2.0", some 1, none⟩
  runId := ⟨"018f0000-0000-7000-8000-000000000001"⟩
  intentKey := ⟨"review:1"⟩
  replayPolicy := .idempotent
  state := .queued
  attempt := 0
  fence := 0
  leaseUntilMs := none
  cancellationRequestedAtMs := none
  createdAtMs := 1000
  updatedAtMs := 1000

theorem review_queued : ExtensionJob.queued review.id review.owner review.runId review.intentKey .idempotent 1000 = .ok review := by decide +kernel

theorem job_fencing_review : ExtensionJob.queued review.id review.owner review.runId review.intentKey .idempotent 1000 = .ok review ∧
    ∀ events, review.claims events ≤ 3 :=
  ⟨review_queued, (job_fencing review_queued).2.2.2.1⟩

end Oxplow.Proofs.JobRuns

/-! How a job ends. A job in flight, or with an attempt that was recovered as expired,
is not ended by a cancellation: only its own attempt's word under its lease ends it. -/

namespace Oxplow.Proofs.JobEnds
open Library Jobs JobTransition JobRuns

/-- Claimed at least once, with no attempt under way. -/
def Idle (job : ExtensionJob) : Prop := (job.state = .interrupted ∨ job.state = .queued) ∧ 0 < job.attempt

variable {job : ExtensionJob}

theorem Idle.ended (idle : Idle job) : job.state.ended = false := by
  rcases idle.1 with state | state <;> rw [state] <;> rfl

variable {token : Option AttemptFence}

/-- An idle job leaves its state only by a claim. -/
theorem Moves.idle {next : ExtensionJob} {event : JobEvent} (moves : Moves job event next token) (idle : Idle job)
    (other : event.isClaim = false) : Idle next := by
  obtain ⟨state, claimed⟩ := idle
  have unclaimed : job.attempt ≠ 0 := Nat.ne_of_gt claimed
  have paused : job.state ≠ .running := by
    rcases state with state | state <;> rw [state] <;> nofun
  cases moves with
  | claim => cases other
  | renew _ current => exact absurd current.running paused
  | complete _ current => exact absurd current.running paused
  | cancelQueued => exact ⟨.inl (if_neg unclaimed), claimed⟩
  | cancelClaimed => exact ⟨state, claimed⟩
  | cancelAgain => exact ⟨state, claimed⟩
  | confirmStopped _ current => exact absurd current.running paused
  | recoverExpired _ running => exact absurd running paused
  | retryInterrupted => exact ⟨.inr rfl, claimed⟩
  | rebind => exact ⟨state, claimed⟩

theorem idle_leaves (idle : Idle job) {events : List JobEvent} (left : ¬ Idle (job.run events)) :
    ∃ before claim after, events = before ++ claim :: after ∧ claim.isClaim = true ∧ (job.run before).accepts claim = true := by
  obtain ⟨before, event, after, next, token, split, stays, moved, leaves⟩ :=
    Machine.run_reaches (fun job => ¬ Idle job) (fun busy => busy idle) left
  refine ⟨before, event, after, split, ?_, accepts_iff.mpr ⟨next, token, step_some.mp moved⟩⟩
  rw [← Bool.not_eq_false]
  intro other
  exact leaves (Moves.idle (accepted_moves (step_some.mp moved)).2.1 (not_not.mp stays) other)

theorem recovered_idle {next : ExtensionJob} {nowMs : Int} (moved : job.transition (.recoverExpired nowMs) = .ok ⟨next, token⟩) :
    Idle next := by
  obtain ⟨sound, moves, _⟩ := accepted_moves moved
  cases moves with
  | recoverExpired _ running => exact ⟨.inl rfl, sound.claimed (by simp [running]) (by simp [running])⟩

/-- A cancellation that ends a job either finds it unclaimed or is the word of its own
attempt. -/
theorem Moves.cancelled {next : ExtensionJob} {event : JobEvent} (moves : Moves job event next token)
    (lives : job.state ≠ .cancelled) (cancelled : next.state = .cancelled) :
    next.attempt = 0 ∨ ∃ nowMs own, event = .confirmStopped nowMs own ∧ Current job own nowMs ∧ next.attempt = job.attempt := by
  cases moves with
  | claim => cases cancelled
  | renew => exact absurd cancelled lives
  | complete =>
    rename_i outcome _ _
    cases outcome <;> cases cancelled
  | cancelQueued =>
    left
    by_contra claimed
    rw [if_neg claimed] at cancelled
    cases cancelled
  | cancelClaimed => exact absurd cancelled lives
  | cancelAgain => exact absurd cancelled lives
  | confirmStopped _ current => exact .inr ⟨_, _, rfl, current, rfl⟩
  | recoverExpired => cases cancelled
  | retryInterrupted => cases cancelled
  | rebind => exact absurd cancelled lives

/-- Every run of an enqueued job ends at most once and by the word of an attempt: the
ended states are absorbing, the job's identity never changes, a cancelled job was never
claimed or its attempt confirmed the stop under its lease, and a recovered job ends only
after another claim. -/
theorem job_ends {id : JobId} {owner : JobOwner} {runId : RunId} {intentKey : IntentKey} {replayPolicy : ReplayPolicy}
    {nowMs : Int} {job : ExtensionJob} (made : ExtensionJob.queued id owner runId intentKey replayPolicy nowMs = .ok job) :
    (∀ before after late, (job.run before).state.ended = true →
      job.run (before ++ after) = job.run before ∧ (job.run (before ++ after)).accepts late = false) ∧
    (∀ events, (job.run events).id = id ∧ (job.run events).runId = runId ∧ (job.run events).intentKey = intentKey ∧
      (job.run events).replayPolicy = replayPolicy ∧ (job.run events).owner.contribution = owner.contribution ∧
      (job.run events).owner.contractVersion = owner.contractVersion ∧ (job.run events).createdAtMs = nowMs) ∧
    (∀ events, (job.run events).state = .cancelled →
      job.claims events = 0 ∨
        ∃ before stoppedAtMs token after leaseUntil, events = before ++ .confirmStopped stoppedAtMs token :: after ∧
          (job.run before).accepts (.confirmStopped stoppedAtMs token) = true ∧
          (job.issued events).getLast? = some token ∧ (job.run before).leaseUntilMs = some leaseUntil ∧
          stoppedAtMs < leaseUntil) ∧
    ∀ before recoveredAtMs after, (job.run before).accepts (.recoverExpired recoveredAtMs) = true →
      (job.run (before ++ .recoverExpired recoveredAtMs :: after)).state.ended = true →
      ∃ middle claim rest, after = middle ++ claim :: rest ∧ claim.isClaim = true ∧
        (job.run (before ++ .recoverExpired recoveredAtMs :: middle)).accepts claim = true := by
  obtain ⟨sound, queued, unclaimed, _⟩ := queued_starts made
  refine ⟨?_, ?_, ?_, ?_⟩
  · intro before after late ended
    have same : job.run (before ++ after) = job.run before := (run_append job before after).trans (ended_run ended after)
    exact ⟨same, ended_rejects (same ▸ ended) late⟩
  · intro events
    have grows := (run_grows sound events).2
    obtain ⟨id, owner, runId, intentKey, policy, created⟩ := queued_given made
    exact ⟨grows.id.trans id, grows.runId.trans runId, grows.intentKey.trans intentKey, grows.replayPolicy.trans policy,
      grows.contribution.trans (congrArg JobOwner.contribution owner),
      grows.contractVersion.trans (congrArg JobOwner.contractVersion owner), grows.createdAtMs.trans created⟩
  · intro events cancelled
    have lives : ¬ job.state = .cancelled := by simp [queued]
    obtain ⟨before, event, after, next, token, rfl, lives, moved, cancelled⟩ :=
      Machine.run_reaches (fun job : ExtensionJob => job.state = .cancelled) lives cancelled
    have accepted := step_some.mp moved
    have stays : job.run (before ++ event :: after) = next :=
      (run_accepted accepted).trans (ended_run (by rw [cancelled]; rfl) after)
    have counted := run_numbered sound unclaimed (before ++ event :: after)
    rw [stays] at counted
    rcases Moves.cancelled (accepted_moves accepted).2.1 lives cancelled with never | ⟨stoppedAtMs, own, rfl, current, attempt⟩
    · exact .inl (counted.claims.trans never)
    · obtain ⟨leaseUntil, leased, inTime⟩ := current.leased
      refine .inr ⟨before, stoppedAtMs, own, after, leaseUntil, rfl, accepts_iff.mpr ⟨next, token, accepted⟩, ?_, leased, inTime⟩
      have same : job.issued (before ++ .confirmStopped stoppedAtMs own :: after) = job.issued before := by
        rw [ExtensionJob.issued, counted.tokens, attempt]
        exact (run_numbered sound unclaimed before).tokens.symm
      rw [same]
      exact current_issued sound unclaimed current
  · intro before recoveredAtMs after accepted ended
    obtain ⟨next, token, moved⟩ := accepts_iff.mp accepted
    have idle := recovered_idle moved
    rw [run_accepted moved] at ended
    have left : ¬ Idle (next.run after) := by
      intro still
      rw [still.ended] at ended
      cases ended
    obtain ⟨middle, claim, rest, split, claims, takes⟩ := idle_leaves idle left
    exact ⟨middle, claim, rest, split, claims, by rw [run_accepted moved]; exact takes⟩

theorem job_ends_review : ExtensionJob.queued review.id review.owner review.runId review.intentKey .idempotent 1000 = .ok review ∧
    ∀ events, (review.run events).state = .cancelled → review.claims events = 0 ∨
      ∃ before stoppedAtMs token after leaseUntil, events = before ++ .confirmStopped stoppedAtMs token :: after ∧
        (review.run before).accepts (.confirmStopped stoppedAtMs token) = true ∧
        (review.issued events).getLast? = some token ∧ (review.run before).leaseUntilMs = some leaseUntil ∧
        stoppedAtMs < leaseUntil :=
  ⟨review_queued, (job_ends review_queued).2.2.1⟩

end Oxplow.Proofs.JobEnds
