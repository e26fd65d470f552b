import Mathlib.Data.List.Dedup
import Mathlib.Data.List.Sort
import Mathlib.Data.String.Basic
import Oxplow.Events.EventLog
import Oxplow.Library.Batches

/-! `event_retention.rs`: payloads and bodies of the event log expire by the windows of their
namespaces. Times are milliseconds, which their texts sort by. -/

namespace Oxplow.Events.Retention
open Library

structure RetentionWindow where
  payloadDays : Int
  contentDays : Int
  deriving DecidableEq

/-- Each of the two at most the cap's. -/
def RetentionWindow.atMost (window cap : RetentionWindow) : RetentionWindow :=
  ⟨min window.payloadDays cap.payloadDays, min window.contentDays cap.contentDays⟩

def coreNamespaces : List String :=
  ["agent", "capability", "thread", "snapshot", "vcs", "effort", "work_item", "knowledge", "handoff", "test", "code", "command",
    "effect", "collector", "config", "provider", "contribution", "ui", "file", "terminal", "ai"]

/-- Core's expiring namespaces and their default windows. -/
def coreWindows : List (String × RetentionWindow) :=
  [("agent", ⟨30, 14⟩), ("test", ⟨90, 30⟩), ("code", ⟨90, 30⟩), ("collector", ⟨90, 30⟩), ("effect", ⟨90, 30⟩), ("ui", ⟨30, 14⟩),
    ("file", ⟨30, 14⟩), ("ai", ⟨30, 30⟩)]

def extensionDefault : RetentionWindow := ⟨30, 14⟩

def maxDays : Int := 36500

def dayMs : Int := 24 * 60 * 60 * 1000

/-- How long a refused run's audit row is kept. -/
def refusedAuditDays : Int := 30

/-- How long an extension run's record is kept. -/
def extensionRunDays : Int := 90

/-- Rows one sweep transaction touches. -/
def batchSize : Nat := 5000

/-- A row of `event_log`; `rest` is its other columns. -/
structure LogRow (ρ : Type) where
  seq : Nat
  type : String
  at_ : Int
  payload : String
  payloadExpiredAt : Option Int
  rest : ρ

/-- A row of `event_content`. -/
structure ContentRow where
  hash : String
  space : String
  createdAt : Int
  deriving DecidableEq

structure AuditRow where
  id : Nat
  at_ : Int
  outcome : String
  deriving DecidableEq

structure RunRow where
  runId : String
  startedAt : Int
  deriving DecidableEq

structure RetentionStore (ρ : Type) where
  events : Keyed fun event : LogRow ρ => event.seq
  contents : Keyed ContentRow.hash
  /-- `extension_event_retention`: the days of payloads and of content. -/
  declared : Table String (Int × Int)
  letters : List DeadLetter
  audits : Keyed AuditRow.id
  runs : Keyed RunRow.runId

/-- The orders in which the tables' queries answer. -/
structure Plans (ρ : Type) where
  events : Plan (LogRow ρ)
  contents : Plan ContentRow
  audits : Plan AuditRow
  runs : Plan RunRow

variable {ρ : Type}

/-- What comes before a type's first dot. -/
def namespaceOf (type : String) : String := String.ofList (type.toList.takeWhile (· ≠ '.'))

/-- The types of the payloads that are not expired. -/
def liveTypes (store : RetentionStore ρ) : List String :=
  (store.events.rows.filter fun event => event.payloadExpiredAt.isNone).map LogRow.type

/-- The namespaces of the types after `after`, one probe each. -/
def skipThrough (live : List String) : Nat → String → List String
  | 0, _ => []
  | fuel + 1, after =>
    match (live.filter fun type => after < type).min? with
    | none => []
    -- Past every `<ns>.` type: `/` is the byte after `.`.
    | some type => namespaceOf type :: skipThrough live fuel (namespaceOf type ++ "/")

/-- The namespaces with live payloads or stored bodies that core doesn't own. -/
def extensionNamespaces (store : RetentionStore ρ) : List String :=
  let logged := skipThrough (liveTypes store) ((liveTypes store).length + 1) ""
  let stored := store.contents.rows.map ContentRow.space
  ((logged ++ stored).dedup.insertionSort (· ≤ ·)).filter fun ns => ns ∉ coreNamespaces

/-- The window of a namespace that core doesn't own: the declared one or the default, or the project's when shorter. -/
def extensionWindow (declared : Table String (Int × Int)) (project : Table String RetentionWindow) (ns : String) : RetentionWindow :=
  let own := ((declared.get ns).map fun days => (⟨days.1, days.2⟩ : RetentionWindow)).getD extensionDefault
  ((project.get ns).map fun window => window.atMost own).getD own

/-- The namespaces the sweep expires and their windows. -/
def windows (store : RetentionStore ρ) (project : Table String RetentionWindow) : List (String × RetentionWindow) :=
  coreWindows.map (fun entry => (entry.1, (project.get entry.1).getD entry.2)) ++
    (extensionNamespaces store).map fun ns => (ns, extensionWindow store.declared project ns)

/-- The time that many days before; the days are kept in range. -/
def before (now days : Int) : Int := now - max 0 (min days maxDays) * dayMs

def staleContent (cutoff : Int) (ns : String) (row : ContentRow) : Bool := decide (row.space = ns) && decide (row.createdAt < cutoff)

/-- `<ns>.` up to `<ns>/`. -/
def staleEvent (cutoff : Int) (ns : String) (event : LogRow ρ) : Bool :=
  event.payloadExpiredAt.isNone && decide (ns ++ "." ≤ event.type) && decide (event.type < ns ++ "/") && decide (event.at_ < cutoff)

def staleAudit (cutoff : Int) (row : AuditRow) : Bool := decide (row.outcome ∈ ["invalid", "denied"]) && decide (row.at_ < cutoff)

def staleRun (cutoff : Int) (row : RunRow) : Bool := decide (row.startedAt < cutoff)

def expirePayload (stamp : Int) (event : LogRow ρ) : LogRow ρ := { event with payload := "\x7b\x7d", payloadExpiredAt := some stamp }

theorem expire_keeps (stamp : Int) (event event' : LogRow ρ) (made : some (expirePayload stamp event) = some event') :
    event'.seq = event.seq := by
  rw [← Option.some.inj made]
  rfl

/-- What one sweep removed. -/
structure SweepReport where
  contentDeleted : Nat
  payloadsExpired : Nat
  refusedAuditDeleted : Nat
  extensionRunsDeleted : Nat
  /-- The project's windows that name a namespace nothing logs. -/
  unused : List String
  deriving DecidableEq

section Sweeping

variable (plans : Plans ρ) (fuel batch : Nat) (now : Int)

def sweepContents (ns : String) (window : RetentionWindow) (contents : Keyed ContentRow.hash) : Option (Keyed ContentRow.hash × Nat) :=
  inBatches batch (Keyed.batch plans.contents batch (staleContent (before now window.contentDays) ns) (fun _ => none) Keyed.drop_keeps) fuel contents

def sweepEvents (ns : String) (window : RetentionWindow) (events : Keyed fun event : LogRow ρ => event.seq) :
    Option ((Keyed fun event : LogRow ρ => event.seq) × Nat) :=
  inBatches batch (Keyed.batch plans.events batch (staleEvent (before now window.payloadDays) ns) (fun event => some (expirePayload now event))
    (expire_keeps now)) fuel events

def sweepWindow (sofar : RetentionStore ρ × SweepReport) (entry : String × RetentionWindow) : Option (RetentionStore ρ × SweepReport) := do
  let contents ← sweepContents plans fuel batch now entry.1 entry.2 sofar.1.contents
  let events ← sweepEvents plans fuel batch now entry.1 entry.2 sofar.1.events
  return ({ sofar.1 with contents := contents.1, events := events.1 },
    { sofar.2 with
      contentDeleted := sofar.2.contentDeleted + contents.2
      payloadsExpired := sofar.2.payloadsExpired + events.2 })

/-- A parked event whose payload expired can never be retried. -/
def discardExpired (events : List (LogRow ρ)) (letter : DeadLetter) : DeadLetter :=
  if letter.state = .pending ∧ (events.any fun event => decide (event.seq = letter.eventSeq) && event.payloadExpiredAt.isSome) = true then
    { letter with state := .discarded }
  else letter

/-- The windows applied as of `now`. -/
def sweepInBatches (project : Table String RetentionWindow) (store : RetentionStore ρ) : Option (RetentionStore ρ × SweepReport) := do
  let applied := windows store project
  let unused := project.keys.filter fun ns => !applied.any fun entry => entry.1 == ns
  let (swept, report) ← applied.foldlM (sweepWindow plans fuel batch now) (store, ⟨0, 0, 0, 0, unused⟩)
  let audits ← inBatches batch (Keyed.batch plans.audits batch (staleAudit (before now refusedAuditDays)) (fun _ => none) Keyed.drop_keeps) fuel swept.audits
  let runs ← inBatches batch (Keyed.batch plans.runs batch (staleRun (before now extensionRunDays)) (fun _ => none) Keyed.drop_keeps) fuel swept.runs
  return ({ swept with audits := audits.1, runs := runs.1, letters := swept.letters.map (discardExpired swept.events.rows) },
    { report with refusedAuditDeleted := audits.2, extensionRunsDeleted := runs.2 })

def sweep (project : Table String RetentionWindow) (store : RetentionStore ρ) : Option (RetentionStore ρ × SweepReport) :=
  sweepInBatches plans fuel batchSize now project store

end Sweeping

end Oxplow.Events.Retention
