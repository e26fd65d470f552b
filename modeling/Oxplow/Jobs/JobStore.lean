import Oxplow.Library.Transaction
import Oxplow.Jobs.CanonicalJson
import Oxplow.Jobs.ExtensionJob

/-! `extension_job_store.rs`: the tables of the jobs and of their attempts, and the
transactions that enqueue a job and move it. The tables' own checks and triggers are
the schema's. -/

namespace Oxplow.Jobs
open Library

inductive JobStoreError where
  | invalidData | transactionRequired | intentConflict | conflict | notFound
  | transitionRejected (error : TransitionError)
  | storage
  deriving DecidableEq

structure NewExtensionJob where
  job : ExtensionJob
  operation : String
  invoker : String
  request : Json

structure StoredExtensionJob where
  job : ExtensionJob
  operation : String
  invoker : String
  request : Json
  revision : Nat

inductive EnqueueResult where
  | created (stored : StoredExtensionJob)
  | existing (stored : StoredExtensionJob)

inductive AttemptOutcome where
  | succeeded | failed | cancelled | interrupted
  deriving DecidableEq

/-! ## The tables -/

/-- A contribution as its column names it: a global name does not say its owner. -/
structure ContributionRef where
  kind : ContributionKind
  extension : Option String
  name : String
  deriving DecidableEq

def ContributionId.reference (id : ContributionId) : ContributionRef :=
  ⟨id.kind, if id.kind.globalName then none else some id.extension, id.localId⟩

def ContributionRef.id (ref : ContributionRef) : Option ContributionId :=
  ref.extension.map fun extension => ⟨extension, ref.kind, ref.name⟩

/-- A row of `extension_job`. -/
structure JobRow where
  job : ExtensionJob
  operation : String
  invoker : String
  requestJson : String
  revision : Nat
  deriving DecidableEq

/-- A row of `extension_job_attempt`. -/
structure AttemptRow where
  jobId : JobId
  token : AttemptFence
  startedAtMs : Int
  leaseUntilMs : Int
  closedAtMs : Option Int
  outcome : Option AttemptOutcome
  resultJson : Option String
  deriving DecidableEq

def lengthWithin (text : String) (most : Nat) : Bool := !text.isEmpty && text.utf8ByteSize ≤ most

/-- The row's `CHECK`s. -/
def JobRow.checks (row : JobRow) : Bool :=
  let job := row.job
  lengthWithin row.operation 256 && lengthWithin row.invoker 256 && lengthWithin job.intentKey.value 128 &&
    job.owner.contractVersion.all (fun version => 0 < version && version ≤ u32Max) &&
    job.owner.packageVersion.all (lengthWithin · 256) && job.owner.deployment.all (lengthWithin · 256) &&
    job.attempt ≤ u32Max && 0 ≤ job.createdAtMs && job.createdAtMs ≤ job.updatedAtMs && 0 < row.revision &&
    row.requestJson.utf8ByteSize ≤ maxJsonBytes &&
    job.cancellationRequestedAtMs.all (fun requestedAt => job.createdAtMs ≤ requestedAt && requestedAt ≤ job.updatedAtMs) &&
    (job.replayPolicy != .never || job.attempt ≤ 1) &&
    match job.state with
    | .queued => job.leaseUntilMs.isNone && job.cancellationRequestedAtMs.isNone && job.fence == 2 * job.attempt &&
        (job.attempt == 0 || job.replayPolicy == .idempotent)
    | .running => 0 < job.attempt && job.fence == 2 * job.attempt - 1 && job.leaseUntilMs.any (job.createdAtMs < ·)
    | .interrupted => 0 < job.attempt && job.fence == 2 * job.attempt && job.leaseUntilMs.isNone
    | .succeeded | .failed => 0 < job.attempt && job.fence == 2 * job.attempt - 1 && job.leaseUntilMs.isNone
    | .cancelled => job.cancellationRequestedAtMs.isSome && job.leaseUntilMs.isNone &&
        (job.attempt == 0 && job.fence == 0 || 0 < job.attempt && job.fence == 2 * job.attempt - 1)

/-- What `extension_job_immutable` lets a row become. -/
def JobRow.mayBecome (old new : JobRow) : Bool :=
  !old.job.state.ended && new.job.id == old.job.id && new.job.owner.contribution == old.job.owner.contribution &&
    (new.job.owner.packageVersion == old.job.owner.packageVersion && new.job.owner.deployment == old.job.owner.deployment ||
      old.job.state == .queued && new.job.state == .queued && new.job.attempt == old.job.attempt &&
        new.job.fence == old.job.fence) &&
    new.job.owner.contractVersion == old.job.owner.contractVersion && new.operation == old.operation &&
    new.invoker == old.invoker && new.job.runId == old.job.runId && new.job.intentKey == old.job.intentKey &&
    new.job.replayPolicy == old.job.replayPolicy && new.job.createdAtMs == old.job.createdAtMs &&
    new.requestJson == old.requestJson && old.job.updatedAtMs ≤ new.job.updatedAtMs && new.revision == old.revision + 1 &&
    (old.job.cancellationRequestedAtMs.isNone ||
      new.job.cancellationRequestedAtMs == old.job.cancellationRequestedAtMs)

def AttemptRow.checks (row : AttemptRow) : Bool :=
  0 < row.token.attempt && row.token.attempt ≤ u32Max && row.token.fence == 2 * row.token.attempt - 1 &&
    0 ≤ row.startedAtMs && row.startedAtMs < row.leaseUntilMs && row.closedAtMs.all (row.startedAtMs ≤ ·) &&
    row.closedAtMs.isNone == row.outcome.isNone &&
    (row.resultJson.isNone || row.outcome.any (· != .interrupted)) &&
    row.resultJson.all (·.utf8ByteSize ≤ maxJsonBytes)

/-- What `extension_job_attempt_immutable` lets a row become. -/
def AttemptRow.mayBecome (old new : AttemptRow) : Bool :=
  new.jobId == old.jobId && new.token == old.token && new.startedAtMs == old.startedAtMs &&
    old.leaseUntilMs ≤ new.leaseUntilMs && old.closedAtMs.isNone

structure Connection where
  /-- No transaction is open. -/
  autocommit : Bool
  jobs : List JobRow
  attempts : List AttemptRow

abbrev StoreResult := Tx Connection JobStoreError

def check (holds : Bool) (error : JobStoreError) : StoreResult Unit := Tx.lift (if holds then .ok () else .error error)

def found {α : Type} (value : Option α) (error : JobStoreError) : StoreResult α := Tx.lift (value.elim (.error error) .ok)

def failed {α : Type} (error : JobStoreError) : StoreResult α := Tx.lift (.error error)

def ensureTransaction : StoreResult Unit := do
  let conn ← Tx.read
  check (!conn.autocommit) .transactionRequired

/-- `UPDATE extension_job`, and how many rows it changed. -/
def updateJobs (selects : JobRow → Bool) (next : JobRow → JobRow) : StoreResult Nat := do
  let conn ← Tx.read
  let selected := conn.jobs.filter selects
  check (selected.all fun row => row.mayBecome (next row) && (next row).checks) .storage
  Tx.write { conn with jobs := updateRows selects next conn.jobs }
  return selected.length

def updateAttempts (selects : AttemptRow → Bool) (next : AttemptRow → AttemptRow) : StoreResult Nat := do
  let conn ← Tx.read
  let selected := conn.attempts.filter selects
  check (selected.all fun row => row.mayBecome (next row) && (next row).checks) .storage
  Tx.write { conn with attempts := updateRows selects next conn.attempts }
  return selected.length

def insertAttempt (row : AttemptRow) : StoreResult Unit := do
  let conn ← Tx.read
  check (row.checks && conn.jobs.any (·.job.id == row.jobId) &&
    !conn.attempts.any fun other => other.jobId == row.jobId &&
      (other.token.attempt == row.token.attempt || other.token.fence == row.token.fence)) .storage
  Tx.write { conn with attempts := conn.attempts ++ [row] }

/-! ## Reading -/

def isMetadata (value : String) : Bool :=
  !value.isEmpty && value.utf8ByteSize ≤ 256 && value.toList.all isAsciiGraphic

def canonicalJson (value : Json) : StoreResult String := found value.canonical .invalidData

section
-- The parser of a JSON text.
variable (fromStr : String → Option Json)

def decodeStoredJobData (row : JobRow) : StoreResult StoredExtensionJob := do
  let contribution ← found row.job.owner.contribution.reference.id .invalidData
  let job := { row.job with owner := { row.job.owner with contribution } }
  Tx.lift (job.validate.mapError fun _ => .invalidData)
  check (isMetadata row.operation) .invalidData
  check (isMetadata row.invoker) .invalidData
  check (0 < row.revision) .invalidData
  let request ← found (Json.parseBounded fromStr row.requestJson) .invalidData
  return { job, operation := row.operation, invoker := row.invoker, request, revision := row.revision }

def decodeRow : Option JobRow → StoreResult (Option StoredExtensionJob)
  | none => return none
  | some row => do
    let stored ← decodeStoredJobData fromStr row
    return some stored

def getTx (id : JobId) : StoreResult (Option StoredExtensionJob) := do
  check (isUuidV7 id.value) .invalidData
  let conn ← Tx.read
  decodeRow fromStr (conn.jobs.find? (·.job.id == id))

def getByIntentTx (contribution : ContributionRef) (intentKey : IntentKey) : StoreResult (Option StoredExtensionJob) := do
  let conn ← Tx.read
  decodeRow fromStr (conn.jobs.find? fun row =>
    row.job.owner.contribution.reference == contribution && row.job.intentKey == intentKey)

/-! ## Enqueueing -/

def validateNewJob (new : NewExtensionJob) : StoreResult Unit := do
  let job := new.job
  Tx.lift (job.validate.mapError fun _ => .invalidData)
  check (!(job.state != .queued || job.attempt != 0 || job.fence != 0 || job.leaseUntilMs.isSome ||
    job.cancellationRequestedAtMs.isSome || job.updatedAtMs != job.createdAtMs)) .invalidData
  check (isMetadata new.operation) .invalidData
  check (isMetadata new.invoker) .invalidData
  let _ ← canonicalJson new.request
  check (isUuidV7 job.id.value) .invalidData
  check (isUuidV7 job.runId.value) .invalidData

def duplicateMatches (existing : StoredExtensionJob) (incoming : NewExtensionJob) : StoreResult Bool := do
  if existing.job.owner == incoming.job.owner && existing.job.intentKey == incoming.job.intentKey &&
      existing.job.replayPolicy == incoming.job.replayPolicy && existing.operation == incoming.operation &&
      existing.invoker == incoming.invoker then do
    let kept ← canonicalJson existing.request
    let given ← canonicalJson incoming.request
    return kept == given
  else return false

/-- What a redelivery of the intent gets. -/
def answerExisting (new : NewExtensionJob) (existing : StoredExtensionJob) : StoreResult EnqueueResult := do
  let same ← duplicateMatches existing new
  check same .intentConflict
  return .existing existing

def insertJob (new : NewExtensionJob) : StoreResult EnqueueResult := do
  let requestJson ← canonicalJson new.request
  let row : JobRow := { job := new.job, operation := new.operation, invoker := new.invoker, requestJson, revision := 1 }
  let conn ← Tx.read
  check row.checks .storage
  -- A unique violation: an intent that is there by now, or an id another intent has.
  if conn.jobs.any fun other => other.job.id == row.job.id ||
      other.job.owner.contribution.reference == row.job.owner.contribution.reference &&
        other.job.intentKey == row.job.intentKey then do
    let existing ← getByIntentTx fromStr new.job.owner.contribution.reference new.job.intentKey
    existing.elim (failed .conflict) (answerExisting new)
  else do
    Tx.write { conn with jobs := conn.jobs ++ [row] }
    return .created { job := new.job, operation := new.operation, invoker := new.invoker, request := new.request, revision := 1 }

def enqueueTx (new : NewExtensionJob) : StoreResult EnqueueResult := do
  ensureTransaction
  validateNewJob new
  let existing ← getByIntentTx fromStr new.job.owner.contribution.reference new.job.intentKey
  existing.elim (insertJob fromStr new) (answerExisting new)

/-! ## Moving a job -/

/-- The row of the job's attempt under way. -/
def ExtensionJob.ownsAttempt (job : ExtensionJob) (row : AttemptRow) : Bool :=
  row.jobId == job.id && row.token.attempt == job.attempt && row.token.fence == job.fence && row.closedAtMs.isNone &&
    some row.leaseUntilMs == job.leaseUntilMs

def openAttempt (old new : ExtensionJob) (nowMs : Int) : StoreResult Unit := do
  check (new.fence ≤ maxPersistedCounter) .invalidData
  let leaseUntilMs ← found new.leaseUntilMs .storage
  insertAttempt { jobId := old.id, token := ⟨new.attempt, new.fence⟩, startedAtMs := nowMs, leaseUntilMs
                  closedAtMs := none, outcome := none, resultJson := none }

def renewAttempt (old new : ExtensionJob) : StoreResult Unit := do
  check (old.fence ≤ maxPersistedCounter) .invalidData
  let leaseUntilMs ← found new.leaseUntilMs .storage
  let changed ← updateAttempts old.ownsAttempt fun row => { row with leaseUntilMs }
  check (changed == 1) .conflict

def closeAttempt (job : ExtensionJob) (nowMs : Int) (outcome : AttemptOutcome) (resultJson : Option String) : StoreResult Unit := do
  check (job.fence ≤ maxPersistedCounter) .invalidData
  let changed ← updateAttempts job.ownsAttempt fun row => { row with closedAtMs := some nowMs, outcome := some outcome, resultJson }
  check (changed == 1) .conflict

def Completion.attemptOutcome : Completion → AttemptOutcome
  | .succeeded => .succeeded
  | .failed => .failed

def applyAttemptChange (old : ExtensionJob) (transition : JobTransition) (resultJson : Option String) : JobEvent → StoreResult Unit
  | .claim nowMs _ _ => openAttempt old transition.job nowMs
  | .renew .. => renewAttempt old transition.job
  | .complete nowMs _ outcome => closeAttempt old nowMs outcome.attemptOutcome resultJson
  | .confirmStopped nowMs _ => closeAttempt old nowMs .cancelled resultJson
  | .recoverExpired nowMs => closeAttempt old nowMs .interrupted none
  | .requestCancellation _ | .retryInterrupted .. | .rebind .. => return ()

/-- The row that a transition read, as the `UPDATE` finds it again. -/
def StoredExtensionJob.isRow (current : StoredExtensionJob) (id : JobId) (expectedRevision : Nat) (row : JobRow) : Bool :=
  row.job.id == id && row.revision == expectedRevision && row.job.state == current.job.state &&
    row.job.attempt == current.job.attempt && row.job.fence == current.job.fence &&
    row.job.leaseUntilMs == current.job.leaseUntilMs &&
    row.job.cancellationRequestedAtMs == current.job.cancellationRequestedAtMs && row.job.updatedAtMs == current.job.updatedAtMs

/-- The columns an `UPDATE` of a job sets. -/
def JobRow.set (row : JobRow) (next : ExtensionJob) (revision : Nat) : JobRow :=
  let job := row.job
  let owner := { job.owner with packageVersion := next.owner.packageVersion, deployment := next.owner.deployment }
  { row with
    job := { job with
      state := next.state, attempt := next.attempt, fence := next.fence, leaseUntilMs := next.leaseUntilMs
      cancellationRequestedAtMs := next.cancellationRequestedAtMs, updatedAtMs := next.updatedAtMs, owner }
    revision }

def writeTransition (id : JobId) (expectedRevision : Nat) (event : JobEvent) (current : StoredExtensionJob)
    (transition : JobTransition) (resultJson : Option String) : StoreResult StoredExtensionJob := do
  applyAttemptChange current.job transition resultJson event
  check (transition.job.fence ≤ maxPersistedCounter && current.job.fence ≤ maxPersistedCounter) .invalidData
  let changed ← updateJobs (current.isRow id expectedRevision) fun row => row.set transition.job (expectedRevision + 1)
  check (changed == 1) .conflict
  return { current with job := transition.job, revision := expectedRevision + 1 }

/-- Only the word of an attempt carries a result. -/
def resultText (result : Option Json) : JobEvent → StoreResult (Option String)
  | .complete .. | .confirmStopped .. => result.elim (return none) fun value => do
    let text ← canonicalJson value
    return some text
  | _ => do
    check result.isNone .invalidData
    return none

def transitionTx (id : JobId) (expectedRevision : Nat) (event : JobEvent) (result : Option Json) :
    StoreResult StoredExtensionJob := do
  ensureTransaction
  check (!(expectedRevision == 0 || maxPersistedCounter < expectedRevision)) .invalidData
  let stored ← getTx fromStr id
  let current ← found stored .notFound
  check (current.revision == expectedRevision) .conflict
  let resultJson ← resultText result event
  let transition ← Tx.lift ((current.job.transition event).mapError .transitionRejected)
  check (expectedRevision + 1 ≤ maxPersistedCounter) .invalidData
  Tx.savepoint (writeTransition id expectedRevision event current transition resultJson)

/-! ## Runs of the store -/

/-- A call of the store, in a transaction of its own. -/
inductive StoreCall where
  | enqueue (new : NewExtensionJob)
  | transition (id : JobId) (expectedRevision : Nat) (event : JobEvent) (result : Option Json)

/-- The call is a transition of the job. -/
def StoreCall.moves (id : JobId) : StoreCall → Bool
  | .transition other .. => other == id
  | .enqueue _ => false

def enqueuedJob : EnqueueResult → StoredExtensionJob
  | .created stored | .existing stored => stored

def StoreCall.body : StoreCall → StoreResult StoredExtensionJob
  | .enqueue new => do
    let result ← enqueueTx fromStr new
    return enqueuedJob result
  | .transition id expectedRevision event result => transitionTx fromStr id expectedRevision event result

namespace Connection

/-- The connection after the calls, whatever each of them returned. -/
def run (conn : Connection) (calls : List StoreCall) : Connection :=
  calls.foldl (fun conn call => (call.body fromStr conn).2) conn

def accepts (conn : Connection) (call : StoreCall) : Bool := (call.body fromStr conn).1.toOption.isSome

/-- How many of the calls moved the job. -/
def transitions (id : JobId) : Connection → List StoreCall → Nat
  | _, [] => 0
  | conn, call :: calls =>
    (if call.moves id && conn.accepts fromStr call then 1 else 0) + transitions id (conn.run fromStr [call]) calls

/-- A store with no job yet. -/
def empty (autocommit : Bool) : Connection := ⟨autocommit, [], []⟩

end Connection
end
end Oxplow.Jobs
