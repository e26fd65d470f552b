import Oxplow.Metrics.FactChain
import Oxplow.Library.Machine

/-! `fact_store.rs`: recording a capture with its facts, and the prune of the captures
a newer baseline dominates. -/

namespace Oxplow.Metrics

variable {V : Type} [DecidableEq V]

/-! ## Recording -/

/-- The row of a new capture. Without a snapshot a scan has nothing to anchor on, so
the capture is stored as an assertion. -/
def NewMetricCapture.toCapture (c : NewMetricCapture) (id : Nat) : Capture :=
  { c with id, scanKind := if c.snapshotId.isNone && c.scanKind != .asserted then .asserted else c.scanKind }

namespace Store

def insertCapture (s : Store V) (c : NewMetricCapture) : Store V × Nat :=
  ({ s with captures := s.captures ++ [c.toCapture s.nextCapture], nextCapture := s.nextCapture + 1 }, s.nextCapture)

variable (scope : Nat → Option CaptureScope) (refused : Store V → NewMetricCapture → List (NewFact V) → Bool)

/-- The capture an idempotency key was recorded with before. -/
def existing? (s : Store V) (capture : NewMetricCapture) : Option Capture :=
  capture.idempotencyKey.bind fun key => s.captures.find? (·.idempotencyKey == some key)

/-- Record a capture and its facts in one transaction. `refused` stands for the
checks of subjects and dimensions, the foreign keys and the event log: a write they
refuse is rolled back. -/
def recordFactsTx (s : Store V) (capture : NewMetricCapture) (facts : List (NewFact V)) : Option (Store V × Nat) :=
  match s.existing? capture with
  | some existing => some (s, existing.id)
  | none =>
    if refused s capture facts then none
    else
      let (inserted, captureId) := s.insertCapture capture
      some (inserted.write scope captureId capture facts, captureId)

/-- The store after a write, which is the same store when the write is refused. -/
def record (s : Store V) (capture : NewMetricCapture) (facts : List (NewFact V)) : Store V :=
  match s.recordFactsTx scope refused capture facts with
  | some (written, _) => written
  | none => s

/-- The store after a sequence of writes. -/
def recordAll (s : Store V) (writes : List (NewMetricCapture × List (NewFact V))) : Store V :=
  writes.foldl (fun s (capture, facts) => s.record scope refused capture facts) s

/-! ## Trees and baselines -/

/-- `rel`: the producers whose captures can matter to a measure. -/
def producersOf (s : Store V) (m : Nat) : List String :=
  s.facts.filterMap fun f => do
    let c ← s.capture? f.captureId
    if f.measureId == m then some c.producer else none

/-- `a` ranks no newer than `b` among a path's snapshot rows. -/
def rowNotAfter (a b : FileSnapshot) : Bool :=
  match a.snapshotId, b.snapshotId with
  | some x, some y => decide (x < y) || x == y && decide (a.id ≤ b.id)
  | _, _ => false

/-- The tree of `stream` as of snapshot `anchor`: the latest row per path, tombstones
included. -/
def anchorTree (s : Store V) (stream anchor : Nat) : List FileSnapshot :=
  let rows := s.fileSnapshots.filter fun fs => fs.streamId == stream && fs.snapshotId.any (· ≤ anchor)
  rows.filter fun fs => rows.all fun other => other.path != fs.path || rowNotAfter other fs

/-- The capture ranks first by time, then by id. -/
def laterThan (a b : Capture) : Bool := b.capturedAt < a.capturedAt || a.capturedAt == b.capturedAt && b.id < a.id

/-- No newer finished full capture of the producer in the stream. -/
def newestFull (s : Store V) (c : Capture) : Bool :=
  s.captures.all fun other => !(other.origin == c.origin && other.scanKind == .full && other.status == .done &&
    laterThan other c)

/-- `ORDER BY` the capture's time, then the fact's id. -/
def treeBefore (a b : FactRow V) : Prop :=
  a.capture.capturedAt < b.capture.capturedAt ∨ a.capture.capturedAt = b.capture.capturedAt ∧ a.id ≤ b.id

instance : DecidableRel (treeBefore (V := V)) := fun _ _ => inferInstanceAs (Decidable (_ ∨ _ ∧ _))

/-! ## Pruning -/

/-- The newest finished full capture of each producer in a stream. -/
def newestBaselines (s : Store V) (stream : Nat) : List Capture :=
  s.captures.filter fun c => c.streamId == stream && c.scanKind == .full && c.status == .done && s.newestFull c

/-- The captures a newer baseline has made dead weight. -/
def dominated (s : Store V) (stream : Nat) : List Nat :=
  (s.captures.filter fun c => (s.newestBaselines stream).any fun baseline =>
    baseline.origin == c.origin &&
    -- A baseline producer: its facts land on a per-path measure somewhere.
    (s.captures.any fun pc => pc.origin == baseline.origin &&
      s.facts.any fun f => f.captureId == pc.id && scope f.measureId == some .perPath) &&
    c.effortId.isNone && c.status == .done && c.scanKind != .asserted && laterThan baseline c &&
    !(s.facts.any fun f => f.captureId == c.id && (scope f.measureId).any (· != .perPath)) &&
    !(s.chains.keys.any (·.1 == c.id)) &&
    !(s.facts.any fun f => f.captureId == c.id && f.path.any (baseline.excluded.contains ·))).map (·.id)

/-- The write half of a prune: the doomed captures were read before, and the facts the
rest still hold of them move up before they go. -/
def pruneDoomed (s : Store V) (doomed : List Nat) : Store V := (s.rehome doomed).deleteCaptures doomed

/-- `LAST_HOLDER`: the capture that last holds a fact that `c` stored, its own where no
chain and no file's hold carries it on. -/
def lastHolder (s : Store V) (c : Capture) (f : Fact V) : Nat :=
  match s.homePart f with
  | some part => (f.lastCaptureId.or ((s.captures.filter fun hc =>
      hc.origin == c.origin && (s.link part hc.id).any (·.fromCaptureId ≤ f.captureId)).map (·.id)).max?).getD f.captureId
  | none => f.captureId

/-- `latest`: for each measure, stream, producer and key, the capture that last holds the
latest fact. -/
def latestHolders {κ : Type} [DecidableEq κ] (s : Store V) (key : Fact V → Option κ) : List Nat :=
  s.facts.filterMap fun f => do
    let c ← s.capture? f.captureId
    if c.status == .done && (key f).isSome && (s.facts.all fun g => (s.capture? g.captureId).all fun d =>
        !(d.status == .done && g.measureId == f.measureId && d.origin == c.origin && key g == key f &&
          (laterThan d c || d.id == c.id && decide (f.id < g.id)))) then
      some (s.lastHolder c f)
    else none

/-- `doomed_where`: what retention drops before `cutoff`. -/
def aged (s : Store V) (cutoff : Int) : List Nat :=
  (s.captures.filter fun c => decide (c.capturedAt < cutoff) && c.effortId.isNone &&
    -- Not the newest of its stream and producer.
    (s.captures.any fun other => other.origin == c.origin && laterThan other c) &&
    !(s.latestHolders (·.subject)).contains c.id && !(s.latestHolders (·.path)).contains c.id &&
    !(s.latestHolders fun f => if f.subject.isNone && f.path.isNone then some () else none).contains c.id).map (·.id)

/-- `prune_aged_captures`. -/
def pruneAged (s : Store V) (cutoff : Int) : Store V := s.pruneDoomed (s.aged cutoff)

end Store

/-! ## Writes and prunes -/

/-- What happens to a store. A prune finds what a stream's newest baselines dominate in
one transaction, and deletes what it found in a later one. -/
inductive Event (V : Type) where
  | record (capture : NewMetricCapture) (facts : List (NewFact V))
  | find (streamId : Nat)
  | delete (prune : Nat)

structure Pruning (V : Type) where
  store : Store V
  /-- What each prune found that has yet to delete it. -/
  found : List (List Nat)

def Pruning.step (scope : Nat → Option CaptureScope) (refused : Store V → NewMetricCapture → List (NewFact V) → Bool)
    (p : Pruning V) : Event V → Pruning V
  | .record capture facts => { p with store := p.store.record scope refused capture facts }
  | .find streamId => { p with found := p.found ++ [p.store.dominated scope streamId] }
  | .delete prune =>
    match p.found[prune]? with
    | some doomed => ⟨p.store.pruneDoomed doomed, p.found.eraseIdx prune⟩
    | none => p

def Pruning.run (scope : Nat → Option CaptureScope) (refused : Store V → NewMetricCapture → List (NewFact V) → Bool)
    (p : Pruning V) (events : List (Event V)) : Pruning V :=
  events.foldl (Pruning.step scope refused) p

end Oxplow.Metrics

/-! `database.rs`: the memo of what a measure's facts answer, with the two reads of
`fact_store.rs` that go through it and the writers that invalidate it. A read looks up, asks
the database, and puts; each of these is a step of its own, and so is each half of a lookup
and of a put, since the epoch is read outside the lock. -/

namespace Oxplow.Metrics
open Library

structure FactSliceKey where
  producer : String
  rule : Option String
  severity : Option String
  dimsJson : Option String
  deriving DecidableEq

/-! ## The queries -/

namespace Store

variable {V : Type} (s : Store V)

/-- `SELECT DISTINCT c.producer` of the captures with a fact of the measure. -/
def producersForMeasure (m : Nat) : List String :=
  ((s.captures.filter fun c => s.facts.any fun f => f.captureId == c.id && f.measureId == m).map (·.producer)).dedup

/-- `MAX(capture_id)` of the measure's facts, or 0. -/
def through (m : Nat) : Nat :=
  ((s.facts.filter (·.measureId == m)).map (·.captureId)).foldr max 0

def sliceKey (f : Fact V) : Option FactSliceKey :=
  (s.capture? f.captureId).map fun c => ⟨c.producer, f.rule, f.severity, f.dimsJson⟩

/-- The distinct slices of the measure's facts whose capture is after `since` and at or before `through`. -/
def sliceKeys (m since through : Nat) : List FactSliceKey :=
  ((s.facts.filter fun f => f.measureId == m && decide (since < f.captureId) && decide (f.captureId ≤ through)).filterMap
    s.sliceKey).dedup

end Store

/-- What a read answers, and memoizes; slice keys with the highest capture they cover. -/
inductive Answer where
  | producers (names : List String)
  | sliceKeys (keys : List FactSliceKey) (covers : Nat)
  deriving DecidableEq

/-! ## The memo -/

/-- What's memoized about one measure, and its write generation. -/
structure MeasureMemo where
  generation : Nat
  epoch : Nat
  producers : Option (List String)
  sliceKeys : Option (List FactSliceKey × Nat)
  deriving DecidableEq

/-- `MeasureMemo::default()`. -/
def MeasureMemo.fresh : MeasureMemo := ⟨0, 0, none, none⟩

def MeasureMemo.set (entry : MeasureMemo) : Answer → MeasureMemo
  | .producers names => { entry with producers := some names }
  | .sliceKeys keys covers => { entry with sliceKeys := some (keys, covers) }

/-- The generation a memoized read was taken under: the epoch and the measure's write generation. -/
abbrev MemoGeneration := Nat × Nat

structure QueryMemo where
  measures : Table Nat MeasureMemo
  /-- Bumped by a deletion of facts: everything memoized is forgotten. -/
  epoch : Nat
  deriving DecidableEq

namespace QueryMemo

def entry (memo : QueryMemo) (m : Nat) : MeasureMemo := (memo.measures.get m).getD .fresh

/-- `get` once it has the epoch. An entry from an earlier epoch reads as empty. -/
def get {α : Type} (memo : QueryMemo) (epoch m : Nat) (field : MeasureMemo → Option α) : MemoGeneration × Option α :=
  let found := memo.measures.get m
  ((epoch, (found.map (·.generation)).getD 0), (found.filter (·.epoch == epoch)).bind field)

/-- `put` once it has seen that the epoch is its own: memoize unless a write of the measure landed since. -/
def put (memo : QueryMemo) (m : Nat) (generation : MemoGeneration) (answer : Answer) : QueryMemo :=
  let entry := memo.entry m
  if entry.generation ≠ generation.2 then { memo with measures := memo.measures.insert m entry }
  else
    -- A stale epoch's fields are forgotten as the entry is reused.
    let reused := if entry.epoch ≠ generation.1 then { MeasureMemo.fresh with generation := entry.generation, epoch := generation.1 }
      else entry
    { memo with measures := memo.measures.insert m (reused.set answer) }

def invalidateMeasure (memo : QueryMemo) (m : Nat) : QueryMemo :=
  let entry := memo.entry m
  { memo with measures := memo.measures.insert m { entry with generation := entry.generation + 1, producers := none } }

def invalidateMeasures (memo : QueryMemo) (measures : List Nat) : QueryMemo := measures.foldl invalidateMeasure memo

def invalidateAll (memo : QueryMemo) : QueryMemo := { memo with epoch := memo.epoch + 1 }

end QueryMemo

/-! ## The reads -/

/-- What the database gave a reader, in the order it gave it. -/
inductive Rows where
  | none
  | producers (names : List String)
  | sliceKeys (keys : List FactSliceKey)
  deriving DecidableEq

/-- Where a read stands. -/
inductive Reader where
  /-- It has read the epoch. -/
  | findsProducers (m epoch : Nat)
  | findsSliceKeys (m epoch : Nat)
  /-- It has missed, and asks for the producers. -/
  | asksProducers (m : Nat) (generation : MemoGeneration)
  /-- It has the keys up to `since`, and asks how far the facts go. -/
  | asksThrough (m : Nat) (generation : MemoGeneration) (keys : List FactSliceKey) (since : Nat)
  | asksSliceKeys (m : Nat) (generation : MemoGeneration) (keys : List FactSliceKey) (since through : Nat)
  /-- It has its answer, and `put` is to look at the epoch. -/
  | checks (m : Nat) (generation : MemoGeneration) (answer : Answer)
  | puts (m : Nat) (generation : MemoGeneration) (answer : Answer)
  deriving DecidableEq

/-- The keys with those of later captures that they lack. -/
def extendKeys (keys fresh : List FactSliceKey) : List FactSliceKey :=
  fresh.foldl (fun keys key => if keys.contains key then keys else keys ++ [key]) keys

/-- One step of a read: the memo after it, and where the read stands, or what it answered. -/
def Reader.step {V : Type} (memo : QueryMemo) (s : Store V) : Reader → Rows → Option (QueryMemo × (Reader ⊕ Answer))
  | .findsProducers m epoch, .none =>
    match memo.get epoch m (·.producers) with
    | (_, some names) => some (memo, .inr (.producers names))
    | (generation, .none) => some (memo, .inl (.asksProducers m generation))
  | .findsSliceKeys m epoch, .none =>
    let (generation, hit) := memo.get epoch m (·.sliceKeys)
    let (keys, since) := hit.getD ([], 0)
    some (memo, .inl (.asksThrough m generation keys since))
  | .asksProducers m generation, .producers names =>
    if names.Perm (s.producersForMeasure m) then some (memo, .inl (.checks m generation (.producers names))) else none
  | .asksThrough m generation keys since, .none => some (memo, .inl (.asksSliceKeys m generation keys since (s.through m)))
  | .asksSliceKeys m generation keys since through, .sliceKeys fresh =>
    if fresh.Perm (s.sliceKeys m since through) then
      some (memo, .inl (.checks m generation (.sliceKeys (extendKeys keys fresh) (max through since))))
    else none
  | .checks m generation answer, .none =>
    some (memo, if memo.epoch ≠ generation.1 then .inr answer else .inl (.puts m generation answer))
  | .puts m generation answer, .none => some (memo.put m generation answer, .inr answer)
  | _, _ => none

/-! ## The system -/

/-- What a writer is still to invalidate. -/
inductive Invalidation where
  | measures (measures : List Nat)
  | all
  deriving DecidableEq

def QueryMemo.invalidate (memo : QueryMemo) : Invalidation → QueryMemo
  | .measures measures => memo.invalidateMeasures measures
  | .all => memo.invalidateAll

/-- The database and the memo over it, the reads under way, and the committed writes whose
invalidation has not run. -/
structure MemoDb (V : Type) where
  store : Store V
  memo : QueryMemo
  readers : List Reader
  pending : List Invalidation
  deriving DecidableEq

inductive MemoStep (V : Type) where
  | readProducers (m : Nat)
  | readSliceKeys (m : Nat)
  /-- The step of a read under way, with what the database gave it. -/
  | read (reader : Nat) (rows : Rows)
  /-- A transaction that records facts commits; the writer names the measures it is to invalidate. -/
  | record (capture : NewMetricCapture) (facts : List (NewFact V)) (measures : List Nat)
  /-- A transaction that deletes captures commits. -/
  | prune (doomed : List Nat)
  | invalidate (writer : Nat)
  /-- The process ends and starts again over the same database. -/
  | restart
  deriving DecidableEq

namespace MemoDb

variable {V : Type} [DecidableEq V] (scope : Nat → Option CaptureScope)
  (refused : Store V → NewMetricCapture → List (NewFact V) → Bool)

def start (files : List FileSnapshot) : MemoDb V := ⟨{ Store.empty with fileSnapshots := files }, ⟨[], 0⟩, [], []⟩

def step (db : MemoDb V) : MemoStep V → Option (MemoDb V × Option Answer)
  | .readProducers m => some ({ db with readers := db.readers ++ [.findsProducers m db.memo.epoch] }, none)
  | .readSliceKeys m => some ({ db with readers := db.readers ++ [.findsSliceKeys m db.memo.epoch] }, none)
  | .read i rows => do
    let reader ← db.readers[i]?
    match ← reader.step db.memo db.store rows with
    | (memo, .inl next) => some ({ db with memo, readers := db.readers.set i next }, none)
    | (memo, .inr answer) => some ({ db with memo, readers := db.readers.eraseIdx i }, some answer)
  | .record capture facts measures => do
    guard (facts.all fun f => measures.contains f.measureId)
    let (store, _) ← db.store.recordFactsTx scope refused capture facts
    some ({ db with store, pending := db.pending ++ [.measures measures] }, none)
  | .prune doomed =>
    let deleted := db.store.captures.countP fun c => doomed.contains c.id
    some ({ db with store := db.store.pruneDoomed doomed, pending := if 0 < deleted then db.pending ++ [.all] else db.pending }, none)
  | .invalidate i => do
    let invalidation ← db.pending[i]?
    some ({ db with memo := db.memo.invalidate invalidation, pending := db.pending.eraseIdx i }, none)
  | .restart => some ({ db with memo := ⟨[], 0⟩, readers := [], pending := [] }, none)

end MemoDb

end Oxplow.Metrics
