import Oxplow.Library.Machine

/-! `extension_job.rs`: the lifecycle of a durable extension job, with the identity and
owner checks a transition makes. Times are Unix milliseconds. -/

namespace Oxplow.Jobs

def i64Max : Int := 9223372036854775807

def u32Max : Nat := 4294967295

def maxPersistedCounter : Nat := 9223372036854775807

/-- How many attempts an `Idempotent` job gets in all. -/
def maxAttempts : Nat := 3

def maxIntentKeyBytes : Nat := 128

def maxOwnerIdentityBytes : Nat := 256

inductive TransitionError where
  | invalidIdentity | invalidOwner | invalidIntentKey | invalidState | invalidTime | timeWentBackwards | fenceMismatch
  | leaseExpired | leaseActive | intentKeyMismatch | invalidTransition | replayNotAllowed | counterOverflow
  deriving DecidableEq

/-! ## Identities -/

def isAsciiGraphic (c : Char) : Bool := '!' ≤ c && c ≤ '~'

def isAsciiLowercase (c : Char) : Bool := 'a' ≤ c && c ≤ 'z'

def isAsciiDigit (c : Char) : Bool := '0' ≤ c && c ≤ '9'

/-- A lower-case, hyphenated UUID of version 7 and the RFC 4122 variant. -/
def isUuidV7 (value : String) : Bool :=
  let digit (c : Char) : Bool := isAsciiDigit c || 'a' ≤ c && c ≤ 'f'
  let chars := value.toList
  chars.length == 36 && chars.zipIdx.all fun char =>
    if char.2 == 8 || char.2 == 13 || char.2 == 18 || char.2 == 23 then char.1 == '-'
    else if char.2 == 14 then char.1 == '7'
    else if char.2 == 19 then char.1 == '8' || char.1 == '9' || char.1 == 'a' || char.1 == 'b'
    else digit char.1

structure JobId where
  value : String
  deriving DecidableEq

def JobId.validate (id : JobId) : Except TransitionError Unit :=
  if isUuidV7 id.value then .ok () else .error .invalidIdentity

structure RunId where
  value : String
  deriving DecidableEq

structure IntentKey where
  value : String
  deriving DecidableEq

def IntentKey.validate (key : IntentKey) : Except TransitionError Unit :=
  if key.value.isEmpty || maxIntentKeyBytes < key.value.utf8ByteSize || !key.value.toList.all isAsciiGraphic then
    .error .invalidIntentKey
  else .ok ()

inductive ContributionKind where
  | dataset | measure | metric | dimension | collector | eventType | resource | command | job | aiProfile | effect
  | advisory | skill | implementation | provider | page | panel | slot | decorator | replacement | customComponent
  deriving DecidableEq

def ContributionKind.title : ContributionKind → String
  | .dataset => "Dataset" | .measure => "Measure" | .metric => "Metric" | .dimension => "Dimension"
  | .collector => "Collector" | .eventType => "Event type" | .resource => "Resource" | .command => "Command"
  | .job => "Job" | .aiProfile => "AI profile" | .effect => "Effect" | .advisory => "Advisory" | .skill => "Skill"
  | .implementation => "Implementation" | .provider => "Provider" | .page => "Page" | .panel => "Panel"
  | .slot => "Slot mount" | .decorator => "Decorator" | .replacement => "Replacement"
  | .customComponent => "Custom component"

/-- Whether a local id of the kind may be dotted. -/
def ContributionKind.dotted : ContributionKind → Bool
  | .measure | .metric | .dimension | .collector | .eventType | .command | .implementation | .slot | .replacement => true
  | _ => false

def ContributionKind.globalName : ContributionKind → Bool
  | .command | .measure | .metric | .dimension | .eventType => true
  | _ => false

def validExtensionName (name : String) : Bool :=
  let chars := name.toList
  chars.head?.any isAsciiLowercase && chars.getLast? != some '-' &&
    !(chars.zip chars.tail).any (fun pair => pair.1 == '-' && pair.2 == '-') &&
    chars.all fun c => isAsciiLowercase c || isAsciiDigit c || c == '-'

def validLocal (kind : ContributionKind) (name : String) : Bool :=
  let chars := name.toList
  chars.head?.any isAsciiLowercase && !chars.getLast?.any (fun c => c == '-' || c == '_' || c == '.') &&
    chars.all fun c => isAsciiLowercase c || isAsciiDigit c || c == '-' || c == '_' || kind.dotted && c == '.'

structure ContributionId where
  extension : String
  kind : ContributionKind
  localId : String
  deriving DecidableEq

def ContributionId.problem (id : ContributionId) : Option String :=
  -- An import of a global name nothing declares has no owner to name.
  let ownerless := id.extension.isEmpty && id.kind.globalName
  if !ownerless && !validExtensionName id.extension then
    some ("`" ++ id.extension ++
      "` isn't an extension name (lowercase letters, digits and single dashes, starting with a letter)")
  else if !validLocal id.kind id.localId then
    some (id.kind.title ++ " id `" ++ id.localId ++ "` must be lowercase letters, digits, `-` and `_`" ++
      (if id.kind.dotted then " (and `.`)" else "") ++ ", starting with a letter")
  else none

def validOwnerIdentity (value : String) : Bool :=
  !value.isEmpty && value.utf8ByteSize ≤ maxOwnerIdentityBytes && value.toList.all isAsciiGraphic

structure JobOwner where
  contribution : ContributionId
  packageVersion : Option String
  contractVersion : Option Nat
  /-- The deployment whose declaration owns the job. -/
  deployment : Option String
  deriving DecidableEq

def JobOwner.validate (owner : JobOwner) : Except TransitionError Unit :=
  if 128 < owner.contribution.extension.utf8ByteSize || maxOwnerIdentityBytes < owner.contribution.localId.utf8ByteSize ||
      owner.contribution.problem.isSome || owner.packageVersion.any (!validOwnerIdentity ·) ||
      owner.contractVersion == some 0 || owner.deployment.any (!validOwnerIdentity ·) then
    .error .invalidOwner
  else .ok ()

/-! ## The job -/

inductive ReplayPolicy where
  | never | idempotent
  deriving DecidableEq

inductive JobState where
  | queued | running | interrupted | succeeded | failed | cancelled
  deriving DecidableEq

inductive Completion where
  | succeeded | failed
  deriving DecidableEq

structure AttemptFence where
  attempt : Nat
  fence : Nat
  deriving DecidableEq

structure ExtensionJob where
  id : JobId
  owner : JobOwner
  runId : RunId
  intentKey : IntentKey
  replayPolicy : ReplayPolicy
  state : JobState
  /-- Zero until the first claim; one more with every dispatch. -/
  attempt : Nat
  fence : Nat
  /-- When the lease ends, while running. -/
  leaseUntilMs : Option Int
  /-- The first request, never cleared. -/
  cancellationRequestedAtMs : Option Int
  createdAtMs : Int
  updatedAtMs : Int
  deriving DecidableEq

inductive JobEvent where
  | claim (nowMs leaseMs : Int) (intentKey : IntentKey)
  | renew (nowMs leaseMs : Int) (token : AttemptFence)
  | complete (nowMs : Int) (token : AttemptFence) (outcome : Completion)
  | requestCancellation (nowMs : Int)
  | confirmStopped (nowMs : Int) (token : AttemptFence)
  | recoverExpired (nowMs : Int)
  | retryInterrupted (nowMs : Int) (intentKey : IntentKey)
  | rebind (nowMs : Int) (owner : JobOwner)
  deriving DecidableEq

structure JobTransition where
  job : ExtensionJob
  /-- Only a claim gives one. -/
  token : Option AttemptFence
  deriving DecidableEq

def require (holds : Bool) (error : TransitionError) : Except TransitionError Unit := if holds then .ok () else .error error

def okOr {α : Type} (value : Option α) (error : TransitionError) : Except TransitionError α :=
  value.elim (.error error) .ok

namespace ExtensionJob

/-- The counters and times that go with each state. -/
def fits (job : ExtensionJob) : Bool :=
  let recoveredFence := job.attempt * 2
  let claimedFence := recoveredFence - 1
  match job.state with
  | .queued => !(job.leaseUntilMs.isSome || job.cancellationRequestedAtMs.isSome || (job.attempt == 0) != (job.fence == 0) ||
      job.fence != recoveredFence || 0 < job.attempt && job.replayPolicy != .idempotent)
  | .running => !(job.attempt == 0 || job.fence == 0 || job.fence != claimedFence ||
      job.leaseUntilMs.all (· ≤ job.createdAtMs))
  | .interrupted => !(job.attempt == 0 || job.fence != recoveredFence || job.leaseUntilMs.isSome)
  | .succeeded | .failed => !(job.attempt == 0 || job.fence != claimedFence || job.leaseUntilMs.isSome)
  | .cancelled => !(job.leaseUntilMs.isSome || job.cancellationRequestedAtMs.isNone ||
      (job.attempt == 0) != (job.fence == 0) || 0 < job.attempt && job.fence != claimedFence)

def validate (job : ExtensionJob) : Except TransitionError Unit := do
  job.id.validate
  job.owner.validate
  job.intentKey.validate
  require (!(!isUuidV7 job.runId.value || job.createdAtMs < 0 || job.updatedAtMs < job.createdAtMs ||
    maxPersistedCounter < job.fence || job.fence < job.attempt ||
    job.replayPolicy == .never && 1 < job.attempt || maxAttempts < job.attempt)) .invalidState
  require (!job.cancellationRequestedAtMs.any (fun requestedAt => requestedAt < job.createdAtMs || job.updatedAtMs < requestedAt))
    .invalidState
  require job.fits .invalidState

/-- A job as it is enqueued. -/
def queued (id : JobId) (owner : JobOwner) (runId : RunId) (intentKey : IntentKey) (replayPolicy : ReplayPolicy)
    (nowMs : Int) : Except TransitionError ExtensionJob := do
  require (!(nowMs < 0)) .invalidTime
  let job : ExtensionJob :=
    { id, owner, runId, intentKey, replayPolicy, state := .queued, attempt := 0, fence := 0, leaseUntilMs := none
      cancellationRequestedAtMs := none, createdAtMs := nowMs, updatedAtMs := nowMs }
  job.validate
  return job

def checkTime (job : ExtensionJob) (nowMs : Int) : Except TransitionError Unit := do
  require (!(nowMs < 0)) .invalidTime
  require (!(nowMs < job.updatedAtMs)) .timeWentBackwards

def checkIntent (job : ExtensionJob) (intentKey : IntentKey) : Except TransitionError Unit := do
  intentKey.validate
  require (intentKey == job.intentKey) .intentKeyMismatch

def checkRunningToken (job : ExtensionJob) (token : AttemptFence) (nowMs : Int) : Except TransitionError Unit := do
  require (!(job.state != .running || token.attempt != job.attempt || token.fence != job.fence || token.attempt == 0 ||
    token.fence == 0)) .fenceMismatch
  let leaseUntil ← okOr job.leaseUntilMs .invalidState
  require (!(leaseUntil ≤ nowMs)) .leaseExpired

/-- One more, while it fits. -/
def checkedSucc (counter most : Nat) : Except TransitionError Nat :=
  if counter + 1 ≤ most then .ok (counter + 1) else .error .counterOverflow

def leaseExpiry (nowMs leaseMs : Int) : Except TransitionError Int := do
  require (!(nowMs < 0 || leaseMs ≤ 0)) .invalidTime
  require (nowMs + leaseMs ≤ i64Max) .invalidTime
  return nowMs + leaseMs

/-! ### The events -/

def claim (job : ExtensionJob) (nowMs leaseMs : Int) (intentKey : IntentKey) : Except TransitionError JobTransition := do
  job.checkTime nowMs
  job.checkIntent intentKey
  require (!(job.state != .queued || job.cancellationRequestedAtMs.isSome)) .invalidTransition
  let expiry ← leaseExpiry nowMs leaseMs
  let attempt ← checkedSucc job.attempt u32Max
  let fence ← checkedSucc job.fence maxPersistedCounter
  return ⟨{ job with attempt, fence, state := .running, leaseUntilMs := some expiry, updatedAtMs := nowMs },
    some ⟨attempt, fence⟩⟩

def renew (job : ExtensionJob) (nowMs leaseMs : Int) (token : AttemptFence) : Except TransitionError JobTransition := do
  job.checkTime nowMs
  job.checkRunningToken token nowMs
  let expiry ← leaseExpiry nowMs leaseMs
  let leaseUntil ← okOr job.leaseUntilMs .invalidState
  require (!(expiry < leaseUntil)) .invalidTime
  return ⟨{ job with leaseUntilMs := some expiry, updatedAtMs := nowMs }, none⟩

def Completion.state : Completion → JobState
  | .succeeded => .succeeded
  | .failed => .failed

def complete (job : ExtensionJob) (nowMs : Int) (token : AttemptFence) (outcome : Completion) :
    Except TransitionError JobTransition := do
  job.checkTime nowMs
  job.checkRunningToken token nowMs
  return ⟨{ job with state := Completion.state outcome, leaseUntilMs := none, updatedAtMs := nowMs }, none⟩

def requestCancellation (job : ExtensionJob) (nowMs : Int) : Except TransitionError JobTransition := do
  require (!(job.state == .succeeded || job.state == .failed || job.state == .cancelled)) .invalidTransition
  job.checkTime nowMs
  if job.cancellationRequestedAtMs.isNone then
    -- A requeued job may still have an expired attempt's effect in flight.
    let state := if job.state == .queued then (if job.attempt == 0 then .cancelled else .interrupted) else job.state
    return ⟨{ job with cancellationRequestedAtMs := some nowMs, state, updatedAtMs := nowMs }, none⟩
  else return ⟨{ job with updatedAtMs := nowMs }, none⟩

def confirmStopped (job : ExtensionJob) (nowMs : Int) (token : AttemptFence) : Except TransitionError JobTransition := do
  job.checkTime nowMs
  job.checkRunningToken token nowMs
  require job.cancellationRequestedAtMs.isSome .invalidTransition
  return ⟨{ job with state := .cancelled, leaseUntilMs := none, updatedAtMs := nowMs }, none⟩

def recoverExpired (job : ExtensionJob) (nowMs : Int) : Except TransitionError JobTransition := do
  job.checkTime nowMs
  require (job.state == .running) .invalidTransition
  let expiry ← okOr job.leaseUntilMs .invalidState
  require (!(nowMs < expiry)) .leaseActive
  let fence ← checkedSucc job.fence maxPersistedCounter
  return ⟨{ job with fence, state := .interrupted, leaseUntilMs := none, updatedAtMs := nowMs }, none⟩

def retryInterrupted (job : ExtensionJob) (nowMs : Int) (intentKey : IntentKey) : Except TransitionError JobTransition := do
  job.checkTime nowMs
  job.checkIntent intentKey
  require (!(job.state != .interrupted || job.replayPolicy != .idempotent || job.cancellationRequestedAtMs.isSome ||
    maxAttempts ≤ job.attempt)) .replayNotAllowed
  return ⟨{ job with state := .queued, updatedAtMs := nowMs }, none⟩

def rebind (job : ExtensionJob) (nowMs : Int) (owner : JobOwner) : Except TransitionError JobTransition := do
  job.checkTime nowMs
  owner.validate
  require (!(job.state != .queued || job.cancellationRequestedAtMs.isSome ||
    owner.contribution != job.owner.contribution || owner.contractVersion != job.owner.contractVersion)) .invalidTransition
  return ⟨{ job with owner, updatedAtMs := nowMs }, none⟩

/-- The arm of `transition` for an event. -/
def applyEvent (job : ExtensionJob) : JobEvent → Except TransitionError JobTransition
  | .claim nowMs leaseMs intentKey => job.claim nowMs leaseMs intentKey
  | .renew nowMs leaseMs token => job.renew nowMs leaseMs token
  | .complete nowMs token outcome => job.complete nowMs token outcome
  | .requestCancellation nowMs => job.requestCancellation nowMs
  | .confirmStopped nowMs token => job.confirmStopped nowMs token
  | .recoverExpired nowMs => job.recoverExpired nowMs
  | .retryInterrupted nowMs intentKey => job.retryInterrupted nowMs intentKey
  | .rebind nowMs owner => job.rebind nowMs owner

/-- Apply one lifecycle event. -/
def transition (job : ExtensionJob) (event : JobEvent) : Except TransitionError JobTransition := do
  job.validate
  let next ← job.applyEvent event
  next.job.validate
  return next

end ExtensionJob

/-! ## Runs of a job -/

/-- The token of an event bound to an attempt. -/
def JobEvent.token : JobEvent → Option AttemptFence
  | .renew _ _ token | .complete _ token _ | .confirmStopped _ token => some token
  | _ => none

def JobEvent.isClaim : JobEvent → Bool
  | .claim .. => true
  | _ => false

/-- The event ends the attempt under way. -/
def JobEvent.endsAttempt : JobEvent → Bool
  | .recoverExpired .. | .complete .. | .confirmStopped .. => true
  | _ => false

def JobEvent.isCancellation : JobEvent → Bool
  | .requestCancellation .. => true
  | _ => false

def JobState.ended : JobState → Bool
  | .succeeded | .failed | .cancelled => true
  | _ => false

/-- How many attempts a job gets. -/
def ReplayPolicy.mostAttempts : ReplayPolicy → Nat
  | .never => 1
  | .idempotent => maxAttempts

namespace ExtensionJob

def step (job : ExtensionJob) (event : JobEvent) : Option (ExtensionJob × Option AttemptFence) :=
  (job.transition event).toOption.map fun next => (next.job, next.token)

def accepts (job : ExtensionJob) (event : JobEvent) : Bool := (job.step event).isSome

def run (job : ExtensionJob) (events : List JobEvent) : ExtensionJob := Library.Machine.run step job events

/-- The tokens that the claims of a run issued. -/
def issued (job : ExtensionJob) (events : List JobEvent) : List AttemptFence :=
  (Library.Machine.accepted step job events).filterMap (·.2)

/-- How many claims a run accepted. -/
def claims (job : ExtensionJob) (events : List JobEvent) : Nat :=
  (Library.Machine.accepted step job events).countP (·.1.isClaim)

end ExtensionJob
end Oxplow.Jobs
