import Mathlib.Algebra.Order.Field.Basic
import Oxplow.Metrics.FactStore

/-! `fact_store.rs`: recording a test run with per-case results, of which only what says
something new is stored, and the fold that gives each subject's latest fact. -/

namespace Oxplow.Metrics
open Library

/-- One test case's result in a run. -/
structure TestCaseResult (V : Type) where
  subject : String
  /-- `passed`, `failed` or `skipped`. -/
  status : String
  timeMs : Option V
  dimsJson : Option String
  deriving DecidableEq

/-- A row of `test_case_stat`. -/
structure TestCaseStat (V : Type) where
  lastStatus : String
  lastMs : Option V
  /-- The last duration written as a fact (what the tolerance compares to). -/
  recordedMs : Option V
  maxMs : Option V
  timedRuns : Nat
  totalMs : V
  runs : Nat
  failures : Nat
  flips : Nat
  firstSeenAt : Int
  lastSeenAt : Int
  lastFailedAt : Option Int
  lastPassedAt : Option Int
  lastRunId : Nat
  deriving DecidableEq

structure TestRun (V : Type) where
  capture : NewMetricCapture
  cases : List (TestCaseResult V)
  caseMeasure : Nat
  durationMeasure : Option Nat
  deriving DecidableEq

/-- The store and its summaries, by stream, branch, producer and subject. -/
structure TestDb (V : Type) where
  store : Store V
  stats : Table (Nat × String × String × String) (TestCaseStat V)
  deriving DecidableEq

/-! ## The current facts -/

section Fold
variable {V : Type}

/-- `a` is captured later, or stored later by the same capture. -/
def outranks (a b : FactRow V) : Bool :=
  Store.laterThan a.capture b.capture ||
    a.capture.capturedAt == b.capture.capturedAt && a.capture.id == b.capture.id && decide (b.id < a.id)

namespace Store

/-- A measure's facts that finished captures stored of a subject. -/
def subjectRows (s : Store V) (m : Nat) (stream : Option Nat) : List (FactRow V) :=
  s.facts.filterMap fun f => (s.capture? f.captureId).bind fun c =>
    if f.measureId == m && f.subject.isSome && c.status == .done && stream.all (c.streamId == ·) then some (slimRow f f.line c)
    else none

/-- The current facts of a per-subject measure: the latest of each stream, producer and subject. -/
def latestSubjectFacts (s : Store V) (m : Nat) (stream : Option Nat) : List (FactRow V) :=
  let rows := s.subjectRows m stream
  (rows.filter fun row => rows.all fun other =>
    !(other.capture.origin == row.capture.origin && other.subject == row.subject && outranks other row)).insertionSort treeBefore

end Store

end Fold

/-! ## Recording a run -/

variable {V : Type} [Field V] [LinearOrder V]

/-- Which of a case's facts a run writes, given the test's summary: the status fact, the duration fact. -/
def testCaseWrites (prev : Option (TestCaseStat V)) (case : TestCaseResult V) : Bool × Bool :=
  let status := case.status == "failed" || prev.all (·.lastStatus != case.status)
  let duration := match case.timeMs, prev.bind (·.recordedMs) with
    | none, _ => false
    | some _, none => true
    | some ms, some was =>
      let moved := max (ms - was) (was - ms)
      decide (max was 1 / 2 < moved) && decide (20 ≤ moved)
  (status, duration)

/-- `NewFact::new`, with the case's subject and dimensions. -/
def TestCaseResult.fact (case : TestCaseResult V) (measureId : Nat) (value : V) : NewFact V where
  measureId
  value
  numerator := none
  denominator := none
  subject := some case.subject
  path := none
  line := none
  severity := none
  rule := none
  detail := none
  dimsJson := case.dimsJson

/-- The facts a case writes. -/
def TestRun.caseFacts (run : TestRun V) (prev : Option (TestCaseStat V)) (case : TestCaseResult V) : List (NewFact V) :=
  let (status, duration) := testCaseWrites prev case
  let timed := run.durationMeasure.bind fun measure => case.timeMs.map fun ms => case.fact measure ms
  (if status then [case.fact run.caseMeasure 1] else []) ++ if duration then timed.toList else []

/-- The row a case leaves: a new one, or the summary moved on. -/
def TestCaseStat.upsert (row : Option (TestCaseStat V)) (case : TestCaseResult V) (recorded : Option V) (time : Int)
    (captureId : Nat) : TestCaseStat V :=
  let failed := if case.status = "failed" then 1 else 0
  let timed := if case.timeMs.isSome then 1 else 0
  let failedAt := if case.status = "failed" then some time else none
  let passedAt := if case.status = "passed" then some time else none
  match row with
  | none => {
      lastStatus := case.status
      lastMs := case.timeMs
      recordedMs := recorded
      maxMs := case.timeMs
      timedRuns := timed
      totalMs := case.timeMs.getD 0
      runs := 1
      failures := failed
      flips := 0
      firstSeenAt := time
      lastSeenAt := time
      lastFailedAt := failedAt
      lastPassedAt := passedAt
      lastRunId := captureId }
  | some row => {
      lastStatus := case.status
      lastMs := case.timeMs.or row.lastMs
      recordedMs := recorded.or row.recordedMs
      maxMs := match case.timeMs with
        | none => row.maxMs
        | some ms => some (max (row.maxMs.getD ms) ms)
      timedRuns := row.timedRuns + timed
      totalMs := row.totalMs + case.timeMs.getD 0
      runs := row.runs + 1
      failures := row.failures + failed
      flips := row.flips + if row.lastStatus ≠ case.status then 1 else 0
      firstSeenAt := row.firstSeenAt
      lastSeenAt := time
      lastFailedAt := failedAt.or row.lastFailedAt
      lastPassedAt := passedAt.or row.lastPassedAt
      lastRunId := captureId }

/-- Whether the run was recorded, or had been before. -/
inductive RunOutcome where
  | recorded (id : Nat)
  | replayed (id : Nat)
  deriving DecidableEq

namespace TestDb

def start (files : List FileSnapshot) : TestDb V := ⟨{ Store.empty with fileSnapshots := files }, []⟩

/-- The key of a subject's summary on the capture's stream, branch and producer. -/
def statKey (capture : NewMetricCapture) (subject : String) : Nat × String × String × String :=
  (capture.streamId, capture.branch.getD "", capture.producer, subject)

variable (scope : Nat → Option CaptureScope) (refused : Store V → NewMetricCapture → List (NewFact V) → Bool)

/-- `record_test_run`. The summaries every case is compared with are those before the run. -/
def recordTestRun (db : TestDb V) (run : TestRun V) : Option (TestDb V × RunOutcome) :=
  match db.store.existing? run.capture with
  | some existing => some (db, .replayed existing.id)
  | none =>
    let prev (case : TestCaseResult V) := db.stats.get (statKey run.capture case.subject)
    (db.store.recordFactsTx scope refused run.capture (run.cases.flatMap fun case => run.caseFacts (prev case) case)).map
      fun (store, captureId) =>
        let upsert (stats : Table (Nat × String × String × String) (TestCaseStat V)) (case : TestCaseResult V) :=
          let key := statKey run.capture case.subject
          let recorded := if (testCaseWrites (prev case) case).2 then case.timeMs else none
          stats.insert key (.upsert (stats.get key) case recorded run.capture.capturedAt captureId)
        (⟨store, run.cases.foldl upsert db.stats⟩, .recorded captureId)

end TestDb

end Oxplow.Metrics
