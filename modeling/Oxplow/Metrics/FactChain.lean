import Mathlib.Data.List.Dedup
import Mathlib.Data.List.Sort
import Oxplow.Library.Matching
import Oxplow.Library.Table

/-! The rows of the fact store: captures, the facts they store, and the rows that
let a capture hold facts it did not store. Texts a fact points at through a
dictionary (subject, path, dimensions) stand as the texts; a value is whatever a
`REAL` column keeps, compared bit for bit. -/

namespace Oxplow.Metrics
open Library

inductive Status where
  | running | done | failed
  deriving DecidableEq

inductive ScanKind where
  | delta | full | asserted
  deriving DecidableEq

/-- A measure's `capture_scope`: what one capture of it restates. -/
inductive CaptureScope where
  | complete | perPath | perSubject
  deriving DecidableEq

structure NewFact (V : Type) where
  measureId : Nat
  value : V
  numerator : Option V
  denominator : Option V
  subject : Option String
  path : Option String
  line : Option Int
  severity : Option String
  rule : Option String
  detail : Option String
  dimsJson : Option String
  deriving DecidableEq

/-- A row of `fact`. -/
structure Fact (V : Type) extends NewFact V where
  id : Nat
  captureId : Nat
  /-- The last capture that holds the fact; `none` while the newest one does. -/
  lastCaptureId : Option Nat
  deriving DecidableEq

structure NewMetricCapture where
  streamId : Nat
  threadId : Option Nat
  effortId : Option Nat
  producer : String
  status : Status
  basisRef : Option String
  provenance : String
  source : String
  snapshotId : Option Nat
  closestVcsRev : Option String
  vcsRevExact : Bool
  branch : Option String
  /-- When it was captured, the time of writing where the caller gave none. -/
  capturedAt : Int
  idempotencyKey : Option String
  scanKind : ScanKind
  /-- The paths the scan was not given. -/
  excluded : List String
  deriving DecidableEq

/-- The stream and producer whose captures hold facts for one another. -/
def NewMetricCapture.origin (capture : NewMetricCapture) : Nat × String := (capture.streamId, capture.producer)

/-- A row of `metric_capture`, with its exclusions. -/
structure Capture extends NewMetricCapture where
  id : Nat
  deriving DecidableEq

/-- What a capture's `fact_chain` or `fact_path_hold` row says: where the facts it
holds start, and how many captures the chain runs since it was stored whole. -/
structure Link where
  fromCaptureId : Nat
  depth : Nat
  deriving DecidableEq

/-- What is held together: a complete-scope measure's whole population, or one
file's facts of a per-path measure. -/
inductive Part where
  | measure (m : Nat)
  | file (m : Nat) (path : String)
  deriving DecidableEq

def Part.covers {V : Type} : Part → NewFact V → Bool
  | .measure m, f => f.measureId == m
  | .file m path, f => f.measureId == m && f.path == some path

/-- A row of `file_snapshot`; a deletion is stored as a tombstone. -/
structure FileSnapshot where
  id : Nat
  streamId : Nat
  snapshotId : Option Nat
  path : String
  deleted : Bool
  deriving DecidableEq

/-- The tables. `captures` and `facts` are in insertion order, their ids counted up
and never used again. -/
structure Store (V : Type) where
  captures : List Capture
  facts : List (Fact V)
  /-- `fact_chain` by capture and measure. -/
  chains : Table (Nat × Nat) Link
  /-- `fact_path_hold` by capture, measure and path. -/
  pathHolds : Table (Nat × Nat × String) Link
  /-- `fact_line` by fact and capture. -/
  lines : Table (Nat × Nat) (Option Int)
  fileSnapshots : List FileSnapshot
  nextCapture : Nat
  nextFact : Nat
  deriving DecidableEq

/-- The database before the first write. -/
def Store.empty {V : Type} : Store V := ⟨[], [], [], [], [], [], 1, 1⟩

/-- A fact as a reader sees it: its columns, its id, and the capture it is held by. -/
structure FactRow (V : Type) extends NewFact V where
  id : Nat
  capture : Capture
  deriving DecidableEq

end Oxplow.Metrics

/-! `fact_chain.rs`: captures store only what changed. A finished capture of a
complete-scope measure holds the facts it repeats through a chain, and a delta or
full scan holds a file's facts of a per-path measure the same way; a fact that
only moved stays one fact, with its line moves beside it. -/

namespace Oxplow.Metrics
open Library

/-- The most captures a chain, or a file's holds, runs before one is stored whole. -/
def maxChainDepth : Nat := 32

variable {V : Type} [DecidableEq V]

/-! ## Reading what a capture holds -/

namespace Store

def capture? (s : Store V) (id : Nat) : Option Capture := s.captures.find? (·.id == id)

/-- A capture's row for a part, in `fact_chain` or `fact_path_hold`. -/
def link (s : Store V) : Part → Nat → Option Link
  | .measure m, id => s.chains.get (id, m)
  | .file m path, id => s.pathHolds.get (id, m, path)

/-- The join with `fc`: a finished capture of the holder's stream and producer
stored the fact. -/
def storedFor (s : Store V) (c : Capture) (f : Fact V) : Bool :=
  s.captures.any fun fc => fc.id == f.captureId && fc.origin == c.origin && fc.status == .done

/-- `CHAIN_HELD` and `PATH_HELD`: holder `c`, through its row `link` of the part,
holds `f`. -/
def holds (s : Store V) (c : Capture) (part : Part) (link : Link) (f : Fact V) : Bool :=
  part.covers f.toNewFact && link.fromCaptureId ≤ f.captureId && f.captureId ≤ c.id &&
    f.lastCaptureId.all (c.id ≤ ·) && s.storedFor c f

/-- The facts of a part that `c` holds. -/
def held (s : Store V) (c : Capture) (part : Part) : List (Fact V) :=
  match s.link part c.id with
  | some link => s.facts.filter (s.holds c part link)
  | none => []

/-- `LINE_AT_HOLD`: the newest line move at or before the holder, else the fact's own line. -/
def lineAtHold (s : Store V) (holder : Nat) (f : Fact V) : Option Int :=
  match newest (fun time => s.lines.get (f.id, time)) holder with
  | some (some line) => some line
  | _ => f.line

/-- The line a holder sees: only a file's holds record moves. -/
def heldLine (s : Store V) (holder : Nat) : Part → Fact V → Option Int
  | .measure _, f => f.line
  | .file _ _, f => s.lineAtHold holder f

def factRow (f : Fact V) (line : Option Int) (c : Capture) : FactRow V :=
  { f.toNewFact with line := line, id := f.id, capture := c }

/-- A bulk read's row, without the fact's `detail`. -/
def slimRow (f : Fact V) (line : Option Int) (c : Capture) : FactRow V :=
  { factRow f line c with detail := none }

/-- `chain_held` and `path_held`: the facts of a part that capture `id` holds, at its lines. -/
def partHeld (s : Store V) (id : Nat) (part : Part) : List (FactRow V) :=
  match s.capture? id with
  | some c => (s.held c part).map fun f => factRow f (s.heldLine c.id part f) c
  | none => []

def chainHeld (s : Store V) (id m : Nat) : List (FactRow V) := s.partHeld id (.measure m)

def pathHeld (s : Store V) (id m : Nat) (path : String) : List (FactRow V) := s.partHeld id (.file m path)

/-- `c` holds `f`'s file, so its own rows of it are not its whole set. -/
def pathHolding (s : Store V) (c : Capture) (f : Fact V) : Bool :=
  match f.path with
  | some path => (s.link (.file f.measureId path) c.id).isSome
  | none => false

end Store

/-- Which captures' facts a read wants. -/
inductive Holders where
  | all
  | stream (streamId : Nat)
  | ids (ids : List Nat)
  deriving DecidableEq

def Holders.wants : Holders → Capture → Bool
  | .all, _ => true
  | .stream streamId, c => c.streamId == streamId
  | .ids wanted, c => wanted.contains c.id

namespace Store

/-- The first arm of `held_facts_sql`: facts a capture stored and neither chains nor
holds by their file. -/
def ownRows (s : Store V) (m : Nat) (holders : Holders) : List (FactRow V) :=
  s.facts.filterMap fun f => do
    let c ← s.capture? f.captureId
    if f.measureId == m && holders.wants c && (s.link (.measure m) c.id).isNone && !s.pathHolding c f then
      some (slimRow f f.line c)
    else none

def chainedRows (s : Store V) (m : Nat) (holders : Holders) : List (FactRow V) :=
  (s.captures.filter holders.wants).flatMap fun c => (s.held c (.measure m)).map fun f => slimRow f f.line c

/-- `f` comes through `c`'s hold of its file. -/
def heldByPath (s : Store V) (m : Nat) (c : Capture) (f : Fact V) : Bool :=
  match f.path with
  | some path => (s.link (.file m path) c.id).any fun link => s.holds c (.file m path) link f
  | none => false

def pathedRows (s : Store V) (m : Nat) (holders : Holders) : List (FactRow V) :=
  (s.captures.filter holders.wants).flatMap fun c =>
    (s.facts.filter (s.heldByPath m c)).map fun f => slimRow f (s.lineAtHold c.id f) c

end Store

/-- `ORDER BY` the capture's time, then its id, then the fact's id. -/
def rowBefore (a b : FactRow V) : Prop :=
  a.capture.capturedAt < b.capture.capturedAt ∨ a.capture.capturedAt = b.capture.capturedAt ∧
    (a.capture.id < b.capture.id ∨ a.capture.id = b.capture.id ∧ a.id ≤ b.id)

instance : DecidableRel (rowBefore (V := V)) := fun _ _ => inferInstanceAs (Decidable (_ ∨ _ ∧ (_ ∨ _)))

/-- `held_facts_sql`: a measure's facts as the wanted captures hold them, oldest first. -/
def Store.heldFacts (s : Store V) (m : Nat) (holders : Holders) : List (FactRow V) :=
  (s.ownRows m holders ++ s.chainedRows m holders ++ s.pathedRows m holders).insertionSort rowBefore

/-! ## Writing a capture's facts -/

/-- What makes two facts the same fact, for the diff; the line left out where a
move is not a change. -/
structure Key (V : Type) where
  subject : Option String
  path : Option String
  line : Option Int
  value : V
  numerator : Option V
  denominator : Option V
  severity : Option String
  rule : Option String
  detail : Option String
  dimsJson : Option String
  deriving DecidableEq

def newKey (f : NewFact V) (withLine : Bool) : Key V :=
  { subject := f.subject, path := f.path, line := if withLine then f.line else none, value := f.value
    numerator := f.numerator, denominator := f.denominator, severity := f.severity, rule := f.rule
    detail := f.detail, dimsJson := f.dimsJson }

def rowKey (row : FactRow V) (withLine : Bool) : Key V := newKey row.toNewFact withLine

namespace Store

def insertFact (captureId : Nat) (s : Store V) (f : NewFact V) : Store V :=
  { s with facts := s.facts ++ [{ f with id := s.nextFact, captureId, lastCaptureId := none }]
           nextFact := s.nextFact + 1 }

def insertFacts (s : Store V) (captureId : Nat) (facts : List (NewFact V)) : Store V :=
  facts.foldl (insertFact captureId) s

/-- Close `ids`: the last capture that holds them is `last`. -/
def close (s : Store V) (ids : List Nat) (last : Nat) : Store V :=
  { s with facts := s.facts.map fun f => if ids.contains f.id then { f with lastCaptureId := some last } else f }

def insertLink (s : Store V) (captureId : Nat) (part : Part) (link : Link) : Store V :=
  match part with
  | .measure m => { s with chains := s.chains.insert (captureId, m) link }
  | .file m path => { s with pathHolds := s.pathHolds.insert (captureId, m, path) link }

/-- Record that facts moved to the lines given, from `captureId` on. -/
def insertMoves (s : Store V) (captureId : Nat) (moved : List (Nat × Option Int)) : Store V :=
  { s with lines := moved.foldl (fun lines (id, line) => lines.insert (id, captureId) line) s.lines }

/-- The producer's previous finished capture in the stream. -/
def previousDone (s : Store V) (captureId : Nat) (capture : NewMetricCapture) : Option Nat :=
  ((s.captures.filter fun c => c.origin == capture.origin && c.status == .done && c.id < captureId).map (·.id)).max?

/-- The producer's newest hold of a file before `captureId`. -/
def previousHold (s : Store V) (captureId : Nat) (capture : NewMetricCapture) (part : Part) : Option Nat :=
  ((s.captures.filter fun c =>
    c.origin == capture.origin && c.id < captureId && (s.link part c.id).isSome).map (·.id)).max?

end Store

/-- More than half changed: a changed fact is one added and one dropped. -/
def mostlyChanged (found : Matching (FactRow V) (NewFact V)) (had : List (FactRow V)) (new : List (NewFact V)) : Bool :=
  decide (max new.length had.length < found.added.length + found.rest.length)

/-- A part is stored whole when there is nothing to carry on, when more than half
changed, or when its chain has run long enough. -/
def restatesWhole (found : Matching (FactRow V) (NewFact V)) (had : List (FactRow V)) (new : List (NewFact V))
    (depth : Nat) : Bool :=
  had.isEmpty || decide (maxChainDepth ≤ depth + 1) || mostlyChanged found had new

/-- How a capture restates a part: the facts it closes and the last capture that
held them, the facts that moved, the facts it stores, and its row for the part. -/
structure Restatement (V : Type) where
  closed : List Nat
  last : Nat
  moved : List (Nat × Option Int)
  stored : List (NewFact V)
  link : Option Link
  deriving DecidableEq

/-- A part stored whole: everything held before is closed. -/
def Restatement.whole (had : List (FactRow V)) (last captureId : Nat) (new : List (NewFact V)) : Restatement V :=
  ⟨had.map (·.id), last, [], new, some ⟨captureId, 0⟩⟩

namespace Store

def restate (s : Store V) (captureId : Nat) (part : Part) (r : Restatement V) : Store V :=
  let s := ((s.insertMoves captureId r.moved).close r.closed r.last).insertFacts captureId r.stored
  match r.link with
  | some link => s.insertLink captureId part link
  | none => s

/-- Chain facts match on every column. -/
def matchChain (new : List (NewFact V)) (had : List (FactRow V)) : Matching (FactRow V) (NewFact V) :=
  matchAll (fun f => takeLast (fun row => rowKey row true = newKey f true)) new had

/-- A file's facts match on everything but the line, the same line first. -/
def matchPath (new : List (NewFact V)) (had : List (FactRow V)) : Matching (FactRow V) (NewFact V) :=
  matchAll (fun f held =>
    (takeFirst (fun row => decide (rowKey row false = newKey f false) && row.line == f.line) held).or
      (takeFirst (fun row => rowKey row false = newKey f false) held)) new had

/-- The loop of `write_chains`: extend a measure's chain from the base capture's, or
store it whole. -/
def chainRestatement (s : Store V) (captureId : Nat) (base : Option Nat) (m : Nat) (new : List (NewFact V)) :
    Restatement V :=
  let link := base.bind (s.link (.measure m))
  let had := match base, link with
    | some b, some _ => s.chainHeld b m
    | _, _ => []
  let found := matchChain new had
  -- Nothing is held without a base, so nothing is closed then.
  let last := base.getD 0
  match link with
  | some link =>
    if new.isEmpty || restatesWhole found had new link.depth then
      -- A whole capture that stores nothing holds nothing.
      if new.isEmpty then ⟨had.map (·.id), last, [], [], none⟩ else .whole had last captureId new
    else ⟨found.rest.map (·.id), last, [], found.added, some ⟨link.fromCaptureId, link.depth + 1⟩⟩
  | none => if new.isEmpty then ⟨[], last, [], [], none⟩ else .whole had last captureId new

/-- `write_path`: hold a file's facts from its last hold on, or store them whole. -/
def pathRestatement (s : Store V) (captureId : Nat) (capture : NewMetricCapture) (m : Nat) (path : String)
    (new : List (NewFact V)) : Restatement V :=
  let base := s.previousHold captureId capture (.file m path)
  let had := match base with
    | some b => s.pathHeld b m path
    | none => []
  let found := matchPath new had
  let moved := found.pairs.filterMap fun (row, f) => if row.line = f.line then none else some (row.id, f.line)
  -- Nothing between the base and this capture holds the file, so a dropped fact was last held just before it.
  match base.bind (s.link (.file m path)) with
  | some link =>
    if restatesWhole found had new link.depth then .whole had (captureId - 1) captureId new
    else ⟨found.rest.map (·.id), captureId - 1, moved, found.added, some ⟨link.fromCaptureId, link.depth + 1⟩⟩
  | none => .whole had (captureId - 1) captureId new

def writeChain (s : Store V) (captureId : Nat) (base : Option Nat) (m : Nat) (new : List (NewFact V)) : Store V :=
  s.restate captureId (.measure m) (s.chainRestatement captureId base m new)

def writePath (s : Store V) (captureId : Nat) (capture : NewMetricCapture) (m : Nat) (path : String)
    (new : List (NewFact V)) : Store V :=
  s.restate captureId (.file m path) (s.pathRestatement captureId capture m path new)

end Store

/-- Where `write` puts a fact: into its measure's chain, its file's hold, or, for
`none`, as is. -/
def route (scope : Nat → Option CaptureScope) (capture : NewMetricCapture) (f : NewFact V) : Option Part :=
  if capture.status = .done then
    match scope f.measureId, f.path with
    | some .complete, _ => some (.measure f.measureId)
    | some .perPath, some path => if capture.scanKind = .asserted then none else some (.file f.measureId path)
    | _, _ => none
  else none

def fileBefore (a b : Nat × String) : Prop := a.1 < b.1 ∨ a.1 = b.1 ∧ a.2 ≤ b.2

instance : DecidableRel fileBefore := fun _ _ => inferInstanceAs (Decidable (_ ∨ _))

def chainedMeasure : Option Part → Option Nat
  | some (.measure m) => some m
  | _ => none

def pathedFile : Option Part → Option (Nat × String)
  | some (.file m path) => some (m, path)
  | _ => none

/-- The measures and files a capture's facts are routed to, each once, in the order
of the `BTreeMap`s. -/
def chainedMeasures (routed : List (Option Part)) (links : List Nat) : List Nat :=
  (routed.filterMap chainedMeasure ++ links).insertionSort (· ≤ ·) |>.dedup

def pathedFiles (routed : List (Option Part)) : List (Nat × String) :=
  (routed.filterMap pathedFile).insertionSort fileBefore |>.dedup

namespace Store

variable (scope : Nat → Option CaptureScope)

/-- Write `facts` for the capture just inserted. -/
def write (s : Store V) (captureId : Nat) (capture : NewMetricCapture) (facts : List (NewFact V)) : Store V :=
  let routed (part : Option Part) := facts.filter fun f => decide (route scope capture f = part)
  let s := s.insertFacts captureId (routed none)
  if capture.status ≠ .done then s
  else
    let base := s.previousDone captureId capture
    -- The base's chains too: a scan that found none of a measure's population restates it as empty.
    let links := match base with
      | some b => (s.chains.keys.filter (·.1 = b)).map (·.2)
      | none => []
    let parts := facts.map (route scope capture)
    let s := (chainedMeasures parts links).foldl (fun s m => s.writeChain captureId base m (routed (some (.measure m)))) s
    (pathedFiles parts).foldl (fun s (m, path) =>
      s.writePath captureId capture m path (routed (some (.file m path)))) s

/-! ## Deleting captures -/

/-- The part a fact's own capture holds it by. -/
def homePart (s : Store V) (f : Fact V) : Option Part :=
  if (s.link (.measure f.measureId) f.captureId).isSome then some (.measure f.measureId)
  else f.path.bind fun path =>
    if (s.link (.file f.measureId path) f.captureId).isSome then some (.file f.measureId path) else none

/-- The first surviving capture that still holds a fact a doomed capture stored. -/
def home (s : Store V) (doomed : List Nat) (f : Fact V) : Option Nat := do
  let bc ← s.capture? f.captureId
  if doomed.contains f.captureId && f.lastCaptureId.all (f.captureId < ·) then
    let part ← s.homePart f
    ((s.captures.filter fun hc => hc.origin == bc.origin && f.captureId < hc.id &&
      (s.link part hc.id).any (·.fromCaptureId ≤ f.captureId) && f.lastCaptureId.all (hc.id ≤ ·) &&
      !doomed.contains hc.id).map (·.id)).min?
  else none

/-- Before `doomed` captures are deleted: each fact one of them stored that a
surviving capture still holds moves up to the first such capture, at the line it
has there, and the line moves before it go. -/
def rehome (s : Store V) (doomed : List Nat) : Store V :=
  { s with
    facts := s.facts.map fun f =>
      match s.home doomed f with
      | some home => { f with captureId := home, line := s.lineAtHold home f }
      | none => f
    lines := s.lines.delete fun (id, time) =>
      s.facts.any fun f => f.id == id && (s.home doomed f).any (time ≤ ·) }

/-- `DELETE FROM metric_capture`, with what the foreign keys cascade to. -/
def deleteCaptures (s : Store V) (doomed : List Nat) : Store V :=
  let facts := s.facts.filter fun f => !doomed.contains f.captureId
  { s with
    captures := s.captures.filter fun c => !doomed.contains c.id
    facts := facts
    chains := s.chains.delete fun (id, _) => doomed.contains id
    pathHolds := s.pathHolds.delete fun (id, _, _) => doomed.contains id
    lines := s.lines.delete fun (id, _) => !facts.any (·.id == id) }

end Store
end Oxplow.Metrics
