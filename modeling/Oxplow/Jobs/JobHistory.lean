import Oxplow.Library.Paging
import Oxplow.Jobs.JobStore

/-! `extension_job_store.rs`: the late observations of a job's outcome, and the pages of its
attempts and of its observations. -/

namespace Oxplow.Jobs
open Library

def maxPageItems : Nat := 256

def maxPageBytes : Nat := 4 * 1048576

structure AttemptRecord where
  jobId : JobId
  token : AttemptFence
  startedAtMs : Int
  leaseUntilMs : Int
  closedAtMs : Option Int
  outcome : Option AttemptOutcome
  result : Option Json

structure LateOutcomeObservation where
  id : String
  token : AttemptFence
  observedAtMs : Int
  outcome : Completion
  evidence : Option Json

structure OutcomeObservation where
  jobId : JobId
  observation : LateOutcomeObservation

structure ObservationCursor where
  observedAtMs : Int
  id : String
  deriving DecidableEq

abbrev HistoryPage (ι κ : Type) := Paging.Page ι κ

/-- A row of `extension_job_observation`. -/
structure ObservationRow where
  id : String
  jobId : JobId
  token : AttemptFence
  observedAtMs : Int
  outcome : Completion
  evidenceJson : Option String
  deriving DecidableEq

/-- The row's `CHECK`s. -/
def ObservationRow.checks (row : ObservationRow) : Bool :=
  0 ≤ row.observedAtMs && row.evidenceJson.all (·.utf8ByteSize ≤ maxJsonBytes)

def ensure (holds : Bool) (error : JobStoreError) : Except JobStoreError Unit := if holds then .ok () else .error error

def validateUuidV7 (value : String) : Except JobStoreError Unit := ensure (isUuidV7 value) .invalidData

def validatePage (limit : Nat) : Except JobStoreError Unit := ensure (1 ≤ limit && limit ≤ maxPageItems) .invalidData

def bodyBytes (body : Option String) : Nat := body.elim 0 String.utf8ByteSize

/-! ## Recording an observation -/

structure HistoryStore where
  conn : Connection
  observations : List ObservationRow

def evidenceText (evidence : Option Json) : Except JobStoreError (Option String) :=
  evidence.elim (.ok none) fun value => value.canonical.elim (.error .invalidData) fun text => .ok (some text)

def LateOutcomeObservation.row (observation : LateOutcomeObservation) (jobId : JobId) (evidenceJson : Option String) :
    ObservationRow :=
  ⟨observation.id, jobId, observation.token, observation.observedAtMs, observation.outcome, evidenceJson⟩

/-- The row is written, or is there already as it would be written. -/
def insertObservation (row : ObservationRow) : Tx HistoryStore JobStoreError Unit := do
  let store ← Tx.read
  (store.observations.find? (·.id == row.id)).elim
    (do
      Tx.lift (ensure row.checks .storage)
      Tx.write { store with observations := store.observations ++ [row] })
    fun existing => Tx.lift (ensure (existing == row) .conflict)

def recordObservationTx (jobId : JobId) (observation : LateOutcomeObservation) :
    Tx HistoryStore JobStoreError OutcomeObservation := do
  let store ← Tx.read
  Tx.lift (ensure (!store.conn.autocommit) .transactionRequired)
  Tx.lift (validateUuidV7 jobId.value)
  Tx.lift (validateUuidV7 observation.id)
  let token := observation.token
  Tx.lift (ensure (!(observation.observedAtMs < 0 || token.attempt == 0 || token.fence == 0 ||
    token.fence != 2 * token.attempt - 1)) .invalidData)
  let evidenceJson ← Tx.lift (evidenceText observation.evidence)
  Tx.lift (ensure (token.fence ≤ maxPersistedCounter) .invalidData)
  let attempt := store.conn.attempts.find? fun row => row.jobId == jobId && row.token == token
  Tx.lift (ensure (attempt.any fun row => !(observation.observedAtMs < row.startedAtMs)) .invalidData)
  insertObservation (observation.row jobId evidenceJson)
  return ⟨jobId, observation⟩

/-! ## Reading a page -/

/-- Rows go into a page until it has `limit` of them or the next body does not fit, and
whether one was left out. -/
def fillPage {ρ ι : Type} (read : ρ → Except JobStoreError ρ) (body : ρ → Option String)
    (decode : ρ → Except JobStoreError ι) (limit : Nat) : Nat → Nat → List ρ → Except JobStoreError (List ι × Bool)
  | _, _, [] => .ok ([], false)
  | count, bytes, row :: rows =>
    if count == limit then .ok ([], true)
    else do
      let raw ← read row
      let size := bodyBytes (body raw)
      if maxJsonBytes < size then .error .invalidData
      else if maxPageBytes < bytes + size then .ok ([], true)
      else do
        let item ← decode raw
        let page ← fillPage read body decode limit (count + 1) (bytes + size) rows
        return (item :: page.1, page.2)

/-- A text column that is longer than its bound is no text. -/
def readRow {ρ : Type} (id : ρ → String) (body : ρ → Option String) (row : ρ) : Except JobStoreError ρ :=
  if (id row).utf8ByteSize ≤ 36 && bodyBytes (body row) ≤ 1048576 then .ok row else .error .storage

def readAttempt (row : AttemptRow) : Except JobStoreError AttemptRow := readRow (·.jobId.value) (·.resultJson) row

def readObservation (row : ObservationRow) : Except JobStoreError ObservationRow := readRow (·.id) (·.evidenceJson) row

section
-- The parser of a JSON text.
variable (fromStr : String → Option Json)

def parseBody (body : Option String) : Except JobStoreError (Option Json) :=
  body.elim (.ok none) fun text => (Json.parseBounded fromStr text).elim (.error .invalidData) fun value => .ok (some value)

def decodeAttempt (row : AttemptRow) : Except JobStoreError AttemptRecord := do
  validateUuidV7 row.jobId.value
  ensure (0 < row.token.attempt && row.token.attempt ≤ u32Max) .invalidData
  ensure (0 < row.token.fence) .invalidData
  let result ← parseBody fromStr row.resultJson
  ensure (!(row.token.fence != 2 * row.token.attempt - 1 || row.startedAtMs < 0 || row.leaseUntilMs ≤ row.startedAtMs ||
    row.closedAtMs.any (· < row.startedAtMs) || row.closedAtMs.isSome != row.outcome.isSome ||
    result.isSome && (row.outcome.isNone || row.outcome == some .interrupted))) .invalidData
  return { jobId := row.jobId, token := row.token, startedAtMs := row.startedAtMs, leaseUntilMs := row.leaseUntilMs
           closedAtMs := row.closedAtMs, outcome := row.outcome, result }

def decodeObservation (jobId : JobId) (row : ObservationRow) : Except JobStoreError OutcomeObservation := do
  ensure (0 < row.token.attempt && row.token.attempt ≤ u32Max) .invalidData
  ensure (0 < row.token.fence) .invalidData
  validateUuidV7 row.id
  ensure (row.token.fence == 2 * row.token.attempt - 1) .invalidData
  ensure (!(row.observedAtMs < 0)) .invalidData
  let evidence ← parseBody fromStr row.evidenceJson
  return ⟨jobId, ⟨row.id, row.token, row.observedAtMs, row.outcome, evidence⟩⟩

def attemptsTx (rows : List AttemptRow) (jobId : JobId) (afterAttempt : Option Nat) (limit : Nat) :
    Except JobStoreError (HistoryPage AttemptRecord Nat) := do
  validatePage limit
  validateUuidV7 jobId.value
  let after := afterAttempt.getD 0
  let selected := (rows.filter fun row => row.jobId == jobId && after < row.token.attempt).mergeSort
    fun a b => a.token.attempt ≤ b.token.attempt
  let page ← fillPage readAttempt (·.resultJson) (decodeAttempt fromStr) limit 0 0 (selected.take (limit + 1))
  return ⟨page.1, if page.2 then page.1.getLast?.map (·.token.attempt) else none⟩

def observationLe (a b : ObservationRow) : Bool :=
  a.observedAtMs < b.observedAtMs || a.observedAtMs == b.observedAtMs && a.id ≤ b.id

def OutcomeObservation.cursor (item : OutcomeObservation) : ObservationCursor :=
  ⟨item.observation.observedAtMs, item.observation.id⟩

def observationsTx (rows : List ObservationRow) (jobId : JobId) (after : Option ObservationCursor) (limit : Nat) :
    Except JobStoreError (HistoryPage OutcomeObservation ObservationCursor) := do
  validatePage limit
  validateUuidV7 jobId.value
  let afterTime := after.elim (-1) (·.observedAtMs)
  let afterId := after.elim "" (·.id)
  ensure (!after.any fun cursor => cursor.observedAtMs < 0 || !isUuidV7 cursor.id) .invalidData
  let selected := (rows.filter fun row => row.jobId == jobId &&
    (afterTime < row.observedAtMs || row.observedAtMs == afterTime && afterId < row.id)).mergeSort observationLe
  let page ← fillPage readObservation (·.evidenceJson) (decodeObservation fromStr jobId) limit 0 0 (selected.take (limit + 1))
  return ⟨page.1, if page.2 then page.1.getLast?.map (·.cursor) else none⟩

end
end Oxplow.Jobs
