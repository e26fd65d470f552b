import Oxplow.Proofs.JobRuns
import Oxplow.Jobs.JobStore

/-! The attempt rows of one job and how each event moves them: a row is open while its
attempt is under way, and the rows are numbered as the tokens are. -/

namespace Oxplow.Proofs.JobAttempts
open Library Jobs JobTransition JobRuns

/-- The time and the outcome with which an event closes the attempt under way. -/
def closes : JobEvent → Option (Int × AttemptOutcome)
  | .complete nowMs _ outcome => some (nowMs, outcome.attemptOutcome)
  | .confirmStopped nowMs _ => some (nowMs, .cancelled)
  | .recoverExpired nowMs => some (nowMs, .interrupted)
  | _ => none

/-- The event leaves every attempt as it is. -/
def keepsAttempts : JobEvent → Bool
  | .requestCancellation _ | .retryInterrupted .. | .rebind .. => true
  | _ => false

/-- The attempt rows after an accepted event. -/
inductive AttemptsMove (old new : ExtensionJob) (rows : List AttemptRow) : JobEvent → List AttemptRow → Prop
  | opened {nowMs leaseMs leaseUntilMs : Int} {intentKey : IntentKey} (granted : new.leaseUntilMs = some leaseUntilMs) :
      AttemptsMove old new rows (.claim nowMs leaseMs intentKey)
        (rows ++ [⟨old.id, ⟨new.attempt, new.fence⟩, nowMs, leaseUntilMs, none, none, none⟩])
  | renewed {nowMs leaseMs leaseUntilMs : Int} {token : AttemptFence} (granted : new.leaseUntilMs = some leaseUntilMs) :
      AttemptsMove old new rows (.renew nowMs leaseMs token)
        (updateRows old.ownsAttempt (fun row => { row with leaseUntilMs }) rows)
  | closed {event : JobEvent} {nowMs : Int} {outcome : AttemptOutcome} {resultJson : Option String}
      (ends : closes event = some (nowMs, outcome)) :
      AttemptsMove old new rows event
        (updateRows old.ownsAttempt (fun row => { row with closedAtMs := some nowMs, outcome := some outcome, resultJson }) rows)
  | kept {event : JobEvent} (keeps : keepsAttempts event = true) : AttemptsMove old new rows event rows

variable {job : ExtensionJob} {row : AttemptRow}

theorem ownsAttempt_open (owns : job.ownsAttempt row = true) :
    row.jobId = job.id ∧ row.token = ⟨job.attempt, job.fence⟩ ∧ row.closedAtMs = none ∧ job.leaseUntilMs = some row.leaseUntilMs := by
  simp only [ExtensionJob.ownsAttempt, Bool.and_eq_true, beq_iff_eq, Option.isNone_iff_eq_none] at owns
  obtain ⟨⟨⟨⟨own, attempt⟩, fence⟩, unclosed⟩, lease⟩ := owns
  refine ⟨own, ?_, unclosed, lease.symm⟩
  rw [← attempt, ← fence]

variable {rows later : List AttemptRow} {event : JobEvent} {old new : ExtensionJob}

/-- What is closed stays as it was closed. -/
theorem AttemptsMove.closed_stays (change : AttemptsMove old new rows event later) (member : row ∈ rows)
    (done : row.closedAtMs.isSome = true) : row ∈ later := by
  have spared : old.ownsAttempt row = false := by
    rw [← Bool.not_eq_true]
    intro owns
    rw [(ownsAttempt_open owns).2.2.1] at done
    cases done
  cases change with
  | opened => exact List.mem_append_left _ member
  | renewed => exact mem_updateRows.mpr (.inl ⟨member, spared⟩)
  | closed => exact mem_updateRows.mpr (.inl ⟨member, spared⟩)
  | kept => exact member

/-- The rows of another job do not move. -/
theorem AttemptsMove.others (change : AttemptsMove old new rows event later) {id : JobId} (other : id ≠ old.id) :
    later.filter (·.jobId == id) = rows.filter (·.jobId == id) := by
  have spared : ∀ row ∈ rows.filter (·.jobId == id), old.ownsAttempt row = false := by
    intro row member
    rw [← Bool.not_eq_true]
    intro owns
    have own : row.jobId = id := by simpa using (List.mem_filter.mp member).2
    exact other (own.symm.trans (ownsAttempt_open owns).1)
  cases change with
  | opened =>
    have apart : (old.id == id) = false := by simpa using Ne.symm other
    simp [apart]
  | renewed =>
    rw [filter_updateRows]
    · exact updateRows_of_none spared
    · exact fun _ => rfl
  | closed =>
    rw [filter_updateRows]
    · exact updateRows_of_none spared
    · exact fun _ => rfl
  | kept => rfl

theorem AttemptsMove.home (change : AttemptsMove old new rows event later) (member : row ∈ later) :
    row.jobId = old.id ∨ ∃ earlier ∈ rows, earlier.jobId = row.jobId := by
  cases change with
  | opened =>
    rcases List.mem_append.mp member with kept | made
    · exact .inr ⟨row, kept, rfl⟩
    · rw [List.mem_singleton.mp made]
      exact .inl rfl
  | renewed =>
    rcases mem_updateRows.mp member with ⟨kept, _⟩ | ⟨earlier, kept, _, rfl⟩
    · exact .inr ⟨row, kept, rfl⟩
    · exact .inr ⟨earlier, kept, rfl⟩
  | closed =>
    rcases mem_updateRows.mp member with ⟨kept, _⟩ | ⟨earlier, kept, _, rfl⟩
    · exact .inr ⟨row, kept, rfl⟩
    · exact .inr ⟨earlier, kept, rfl⟩
  | kept => exact .inr ⟨row, member, rfl⟩

/-- The job's own rows move by themselves. -/
theorem AttemptsMove.own (change : AttemptsMove old new rows event later) :
    AttemptsMove old new (rows.filter (·.jobId == old.id)) event (later.filter (·.jobId == old.id)) := by
  cases change with
  | opened granted =>
    rw [List.filter_append, List.filter_cons_of_pos (by simp), List.filter_nil]
    exact .opened granted
  | renewed granted =>
    rw [filter_updateRows]
    · exact .renewed granted
    · exact fun _ => rfl
  | closed ends =>
    rw [filter_updateRows]
    · exact .closed ends
    · exact fun _ => rfl
  | kept keeps => exact .kept keeps

variable {next : ExtensionJob}

theorem Moves.closes {token : Option AttemptFence} {nowMs : Int} {outcome : AttemptOutcome} (moves : Moves job event next token)
    (ends : JobAttempts.closes event = some (nowMs, outcome)) :
    job.state = .running ∧ next.attempt = job.attempt ∧ next.state ≠ .running ∧
      (outcome = .succeeded ∨ outcome = .failed → next.state.ended = true) := by
  cases moves with
  | complete _ current =>
    rename_i completion _
    refine ⟨current.running, rfl, ?_, ?_⟩
    · cases completion <;> nofun
    · cases completion <;> exact fun _ => rfl
  | confirmStopped _ current => exact ⟨current.running, rfl, nofun, fun _ => rfl⟩
  | recoverExpired _ running =>
    cases ends
    exact ⟨running, rfl, nofun, nofun⟩
  | _ => cases ends

theorem Moves.keeps {token : Option AttemptFence} (moves : Moves job event next token) (keeps : keepsAttempts event = true) :
    next.attempt = job.attempt ∧ (next.state = .running ↔ job.state = .running) ∧ next.leaseUntilMs = job.leaseUntilMs := by
  cases moves with
  | cancelQueued _ _ queued =>
    refine ⟨rfl, ?_, rfl⟩
    simp only [queued, reduceCtorEq, iff_false]
    split <;> nofun
  | cancelClaimed => exact ⟨rfl, .rfl, rfl⟩
  | cancelAgain => exact ⟨rfl, .rfl, rfl⟩
  | retryInterrupted _ _ interrupted => exact ⟨rfl, by simp [interrupted], rfl⟩
  | rebind => exact ⟨rfl, .rfl, rfl⟩
  | _ => cases keeps

/-- A job and its attempt rows. -/
structure Linked (job : ExtensionJob) (rows : List AttemptRow) : Prop where
  sound : Sound job
  own : ∀ row ∈ rows, row.jobId = job.id
  tokens : rows.map (·.token) = (List.range job.attempt).map fun i => ⟨i + 1, 2 * i + 1⟩
  unclosed : ∀ row ∈ rows, row.closedAtMs = none ↔ job.state = .running ∧ row.token.attempt = job.attempt
  lease : ∀ row ∈ rows, row.closedAtMs = none → job.leaseUntilMs = some row.leaseUntilMs
  last : ∀ row ∈ rows, row.outcome = some .succeeded ∨ row.outcome = some .failed →
    row.token.attempt = job.attempt ∧ job.state.ended = true

theorem Linked.token (linked : Linked job rows) (member : row ∈ rows) :
    ∃ i, i < job.attempt ∧ row.token = ⟨i + 1, 2 * i + 1⟩ := by
  have inside := List.mem_map_of_mem (f := AttemptRow.token) member
  rw [linked.tokens] at inside
  obtain ⟨i, small, same⟩ := List.mem_map.mp inside
  exact ⟨i, List.mem_range.mp small, same.symm⟩

/-- The open row is the one that the job's next word finds. -/
theorem Linked.owns (linked : Linked job rows) (member : row ∈ rows) (unclosed : row.closedAtMs = none) :
    job.ownsAttempt row = true := by
  obtain ⟨running, attempt⟩ := (linked.unclosed row member).mp unclosed
  obtain ⟨i, _, token⟩ := linked.token member
  have fence : row.token.fence = job.fence := by
    rw [linked.sound.fence, ← attempt, token]
    simp only [fenceOf, running, reduceCtorEq, or_self, if_false]
    omega
  simp [ExtensionJob.ownsAttempt, linked.own row member, attempt, fence, unclosed, linked.lease row member unclosed]

/-- A running job has the row of its attempt. -/
theorem Linked.current (linked : Linked job rows) (running : job.state = .running) :
    ∃ row ∈ rows, row.token.attempt = job.attempt := by
  have claimed := linked.sound.claimed (by simp [running]) (by simp [running])
  have last : (⟨job.attempt - 1 + 1, 2 * (job.attempt - 1) + 1⟩ : AttemptFence) ∈ rows.map (·.token) := by
    rw [linked.tokens]
    exact List.mem_map.mpr ⟨job.attempt - 1, List.mem_range.mpr (by omega), rfl⟩
  obtain ⟨row, member, same⟩ := List.mem_map.mp last
  refine ⟨row, member, (congrArg AttemptFence.attempt same).trans ?_⟩
  exact Nat.succ_pred_eq_of_pos claimed

theorem Linked.closing {token : Option AttemptFence} {nowMs : Int} {outcome : AttemptOutcome} {resultJson : Option String}
    (linked : Linked job rows) (moves : Moves job event next token) (after : Sound next)
    (ends : closes event = some (nowMs, outcome)) :
    Linked next (updateRows job.ownsAttempt
      (fun row => { row with closedAtMs := some nowMs, outcome := some outcome, resultJson }) rows) := by
  obtain ⟨running, attempt, stopped, ended⟩ := Moves.closes moves ends
  have closed : ∀ row ∈ rows, job.ownsAttempt row = false → row.closedAtMs ≠ none := by
    intro row member spared unclosed
    rw [linked.owns member unclosed] at spared
    cases spared
  have id := (Moves.grows moves).id
  refine ⟨after, ?_, ?_, ?_, ?_, ?_⟩
  · intro row member
    rcases mem_updateRows.mp member with ⟨kept, _⟩ | ⟨old, kept, _, rfl⟩
    · exact (linked.own row kept).trans id.symm
    · exact (linked.own old kept).trans id.symm
  · rw [attempt, ← linked.tokens]
    exact map_updateRows fun _ _ _ => rfl
  · intro row member
    rcases mem_updateRows.mp member with ⟨kept, spared⟩ | ⟨old, kept, _, rfl⟩
    · exact iff_of_false (closed row kept spared) fun open_ => stopped open_.1
    · exact iff_of_false nofun fun open_ => stopped open_.1
  · intro row member unclosed
    rcases mem_updateRows.mp member with ⟨kept, spared⟩ | ⟨old, kept, _, rfl⟩
    · exact absurd unclosed (closed row kept spared)
    · cases unclosed
  · intro row member done
    rcases mem_updateRows.mp member with ⟨kept, _⟩ | ⟨old, kept, owns, rfl⟩
    · have earlier := (linked.last row kept done).2
      rw [running] at earlier
      cases earlier
    · refine ⟨?_, ended (done.imp Option.some.inj Option.some.inj)⟩
      rw [attempt]
      exact congrArg AttemptFence.attempt (ownsAttempt_open owns).2.1

/-- An accepted event moves the job and its attempt rows together. -/
theorem Linked.step {token : Option AttemptFence} (linked : Linked job rows) (moves : Moves job event next token)
    (after : Sound next) (change : AttemptsMove job next rows event later) : Linked next later := by
  have id := (Moves.grows moves).id
  cases change with
  | opened granted =>
    cases moves with
    | claim _ _ _ queued =>
      have idle : ∀ row ∈ rows, row.closedAtMs ≠ none := by
        intro row member unclosed
        have running := ((linked.unclosed row member).mp unclosed).1
        rw [queued] at running
        cases running
      have fence := linked.sound.fence
      simp only [fenceOf, queued, true_or, if_true] at fence
      refine ⟨after, ?_, ?_, ?_, ?_, ?_⟩
      · intro row member
        rcases List.mem_append.mp member with kept | made
        · exact linked.own row kept
        · rw [List.mem_singleton.mp made]
      · rw [List.map_append, linked.tokens, List.range_succ, List.map_append]
        simp [fence]
      · intro row member
        rcases List.mem_append.mp member with kept | made
        · obtain ⟨i, small, same⟩ := linked.token kept
          refine iff_of_false (idle row kept) fun open_ => ?_
          have attempt := open_.2
          rw [same] at attempt
          simp only at attempt
          omega
        · rw [List.mem_singleton.mp made]
          exact iff_of_true rfl ⟨rfl, rfl⟩
      · intro row member unclosed
        rcases List.mem_append.mp member with kept | made
        · exact absurd unclosed (idle row kept)
        · rw [List.mem_singleton.mp made]
          exact granted
      · intro row member done
        rcases List.mem_append.mp member with kept | made
        · have earlier := (linked.last row kept done).2
          rw [queued] at earlier
          cases earlier
        · rw [List.mem_singleton.mp made] at done
          rcases done with done | done <;> cases done
  | renewed granted =>
    cases moves with
    | renew _ current =>
      refine ⟨after, ?_, ?_, ?_, ?_, ?_⟩
      · intro row member
        rcases mem_updateRows.mp member with ⟨kept, _⟩ | ⟨old, kept, _, rfl⟩
        · exact linked.own row kept
        · exact linked.own old kept
      · rw [← linked.tokens]
        exact map_updateRows fun _ _ _ => rfl
      · intro row member
        rcases mem_updateRows.mp member with ⟨kept, _⟩ | ⟨old, kept, _, rfl⟩
        · exact linked.unclosed row kept
        · exact linked.unclosed old kept
      · intro row member unclosed
        rcases mem_updateRows.mp member with ⟨kept, spared⟩ | ⟨old, kept, _, rfl⟩
        · rw [linked.owns kept unclosed] at spared
          cases spared
        · exact granted
      · intro row member done
        rcases mem_updateRows.mp member with ⟨kept, _⟩ | ⟨old, kept, _, rfl⟩
        · exact linked.last row kept done
        · exact linked.last old kept done
  | closed ends => exact linked.closing moves after ends
  | kept keeps =>
    obtain ⟨attempt, running, lease⟩ := Moves.keeps moves keeps
    refine ⟨after, fun row member => (linked.own row member).trans id.symm, by rw [attempt]; exact linked.tokens, ?_, ?_, ?_⟩
    · intro row member
      rw [attempt, running]
      exact linked.unclosed row member
    · intro row member unclosed
      rw [lease]
      exact linked.lease row member unclosed
    · intro row member done
      have ended := (linked.last row member done).2
      rw [Moves.open_ moves] at ended
      cases ended

theorem Linked.start (sound : Sound job) (unclaimed : job.attempt = 0) : Linked job [] :=
  ⟨sound, fun _ member => absurd member List.not_mem_nil, by rw [unclaimed]; rfl, fun _ member => absurd member List.not_mem_nil,
    fun _ member => absurd member List.not_mem_nil, fun _ member => absurd member List.not_mem_nil⟩

end Oxplow.Proofs.JobAttempts
