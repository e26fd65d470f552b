import Oxplow.Efforts.EffortStore
import Oxplow.Metrics.Series

/-! `metric_engine.rs`: series reads through the memo of folds, beside the writers of what
they read: recordings, prunes, and the efforts that stamp captures. -/

namespace Oxplow.Metrics
open Library Efforts

/-- The finished captures of a measure's producers, how many and the newest, and the cube epoch. -/
structure FoldToken where
  count : Nat
  newest : Option Nat
  epoch : Nat
  deriving DecidableEq

/-- Series by measure and read shape, each measure's under one token. -/
structure FoldMemo (V : Type) where
  token : Table Nat FoldToken
  entries : Table (Nat × SeriesSpec V) (List (SeriesPoint V))

namespace FoldMemo

variable {V : Type} [DecidableEq V]

def get (memo : FoldMemo V) (measure : Nat) (shape : SeriesSpec V) (token : FoldToken) : Option (List (SeriesPoint V)) :=
  if memo.token.get measure = some token then memo.entries.get (measure, shape) else none

/-- A moved token drops the measure's series. -/
def put (memo : FoldMemo V) (measure : Nat) (shape : SeriesSpec V) (token : FoldToken) (points : List (SeriesPoint V)) :
    FoldMemo V :=
  let kept := if memo.token.get measure = some token then memo
    else ⟨memo.token.insert measure token, memo.entries.delete (·.1 == measure)⟩
  { kept with entries := kept.entries.insert (measure, shape) points }

end FoldMemo

namespace Store

variable {V : Type}

/-- `capture_token_for_producers`. -/
def captureToken (s : Store V) (producers : List String) : Nat × Option Nat :=
  let done := s.captures.filter fun c => c.status == .done && producers.contains c.producer
  (done.length, (done.map (·.id)).max?)

/-- An effort that opens stamps its thread's captures that have none. -/
def adopt (s : Store V) (effort thread : Nat) (since : Int) : Store V :=
  let adopted (c : Capture) := c.threadId == some thread && c.effortId.isNone && decide (since ≤ c.capturedAt)
  { s with captures := updateRows adopted (fun c => { c with effortId := some effort }) s.captures }

/-- An effort that closes lets go of the captures after its end. -/
def release (s : Store V) (effort : Nat) (time : Int) : Store V :=
  let released (c : Capture) := c.effortId == some effort && decide (time < c.capturedAt)
  { s with captures := updateRows released (fun c => { c with effortId := none }) s.captures }

end Store

/-- The fact store, the efforts, the cube's epoch and the memo of the engine. -/
structure SeriesDb (V : Type) where
  store : Store V
  efforts : EffortStore
  epoch : Nat
  memo : FoldMemo V

/-- What there is to read and how: the measures' keys and scopes, the readers of texts, what
the commits say, and what a write is refused for. -/
structure Catalog (V : Type) where
  measure : Nat → Option (String × CaptureScope)
  texts : Texts
  visibility : Visibility
  refused : Store V → NewMetricCapture → List (NewFact V) → Bool

def Catalog.scope {V : Type} (catalog : Catalog V) (m : Nat) : Option CaptureScope := (catalog.measure m).map (·.2)

inductive SeriesStep (V : Type) where
  | record (capture : NewMetricCapture) (facts : List (NewFact V))
  | pruneDominated (streamId : Nat)
  | pruneAged (cutoff : Int)
  | startEffort (start : EffortStart)
  | finishEffort (id : Nat) (end_ : EffortEnd)
  | linkEffort (id : Nat) (workItem : Option String)
  /-- A read of a measure's series, whose hash maps have the given order; `cubed` is what the
  cube answers. -/
  | read (measure : Nat) (spec : SeriesSpec V) (window : Option TimeWindow) (order : HashOrder)
      (cubed : Option (List (SeriesPoint V)))

namespace SeriesDb

variable {V : Type}

/-- Before the first write, beside the files that snapshots have. -/
def start (files : List FileSnapshot) : SeriesDb V := ⟨{ Store.empty with fileSnapshots := files }, .empty, 0, ⟨[], []⟩⟩

def token (db : SeriesDb V) (m : Nat) : FoldToken :=
  let (count, newest) := db.store.captureToken (db.store.producersOf m)
  ⟨count, newest, db.epoch⟩

/-- Captures are deleted, and the epoch fences what was computed with them. -/
def prune (db : SeriesDb V) (doomed : List Nat) : SeriesDb V :=
  if doomed.isEmpty then db else { db with store := db.store.pruneDoomed doomed, epoch := db.epoch + 1 }

def finishEffort (db : SeriesDb V) (id : Nat) (end_ : EffortEnd) : SeriesDb V :=
  let (closed, efforts) := db.efforts.finishTx id end_
  if closed then { db with efforts := efforts, store := db.store.release id end_.at_ } else db

/-- The effort the thread has open closes first. -/
def startEffort (db : SeriesDb V) (start : EffortStart) : SeriesDb V :=
  let switched := match db.efforts.openForThread start.thread with
    | some current => db.finishEffort current (.at start.at_ .switch)
    | none => db
  let since := switched.efforts.startedAt start
  { switched with
    efforts := switched.efforts.insertEffort start since
    store := switched.store.adopt switched.efforts.nextEffort start.thread since }

variable [Field V] [LinearOrder V] (catalog : Catalog V)

/-- A fresh fold of the store. -/
def fold (db : SeriesDb V) (order : HashOrder) (measure : Measure) (spec : SeriesSpec V) : List (SeriesPoint V) :=
  db.store.foldSeries catalog.texts order catalog.visibility db.efforts.workItems measure spec

/-- `series_in_stream`. Without producers the captures a fold reads are not in the token, so
its series is not kept. -/
def seriesInStream (db : SeriesDb V) (measure : Measure) (spec : SeriesSpec V) (window : Option TimeWindow)
    (order : HashOrder) (cubed : Option (List (SeriesPoint V))) : SeriesDb V × List (SeriesPoint V) :=
  match cubed with
  | some points => (db, points)
  | none =>
    let unkept := (db.store.producersOf measure.id).isEmpty
    let token := db.token measure.id
    match if unkept then none else db.memo.get measure.id spec token with
    | some hit => (db, applyWindow hit window)
    | none =>
      let points := db.fold catalog order measure spec
      let kept := if unkept then db else { db with memo := db.memo.put measure.id spec token points }
      (kept, applyWindow points window)

/-- A step, and the series a read gives. A read of an unknown measure gives none. -/
def step (db : SeriesDb V) : SeriesStep V → Option (SeriesDb V × List (SeriesPoint V))
  | .record capture facts => some ({ db with store := db.store.record catalog.scope catalog.refused capture facts }, [])
  | .pruneDominated streamId => some (db.prune (db.store.dominated catalog.scope streamId), [])
  | .pruneAged cutoff => some (db.prune (db.store.aged cutoff), [])
  | .startEffort start => some (db.startEffort start, [])
  | .finishEffort id end_ => some (db.finishEffort id end_, [])
  | .linkEffort id workItem => (db.efforts.linkTx id workItem).map fun efforts => ({ db with efforts }, [])
  | .read m spec window order cubed =>
    match catalog.measure m with
    | some (key, scope) => some (db.seriesInStream catalog ⟨m, key, scope⟩ spec window order cubed)
    | none => some (db, [])

end SeriesDb
end Oxplow.Metrics
