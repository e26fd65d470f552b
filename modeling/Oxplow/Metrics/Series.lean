import Mathlib.Algebra.Order.Field.Basic
import Mathlib.Data.String.Basic
import Oxplow.Jobs.CanonicalJson
import Oxplow.Library.Buckets
import Oxplow.Metrics.FactStore

/-! `metric_engine.rs`: a metric's series, computed from the facts of its measure. Values
are exact: an ordered field stands for `f64`. -/

namespace Oxplow.Metrics
open Library Jobs

/-- A fact as `fact_row_mapper` gives it: with the work item its capture's effort is
linked to. -/
structure MappedRow (V : Type) extends FactRow V where
  workItem : Option String
  deriving DecidableEq

/-- `items` is the work item of each linked effort. -/
def FactRow.mapped {V : Type} (items : Nat → Option String) (row : FactRow V) : MappedRow V :=
  { row with workItem := row.capture.effortId.bind items }

/-! ## Dimensions and filters -/

/-- How the texts a fact carries are read: by serde_json, and by the parser of resource URIs. -/
structure Texts where
  /-- `serde_json::from_str`. -/
  fromStr : String → Option Json
  /-- `Value::to_string`. -/
  print : Json → String
  /-- `resource_of`, which gives a subject's kind. -/
  resourceOf : String → Option String
  /-- `id_of` an `AI_MODEL`. -/
  modelOf : String → Option String

/-- The parent directory of a path; root files are in `"."`. -/
def packageOf (path : String) : String :=
  let dir := ((path.toList.reverse.dropWhile (· ≠ '/')).drop 1).reverse
  if dir.isEmpty then "." else String.ofList dir

def dimFromMap (texts : Texts) (map : List (String × Json)) (key : String) : Option String :=
  match map.lookup key with
  | some (.string text) => some text
  | some .null => none
  | some other => some (texts.print other)
  | none => none

def parseDims (texts : Texts) (dimsJson : Option String) : Option (List (String × Json)) :=
  match dimsJson.bind texts.fromStr with
  | some (.object map) => some map
  | _ => none

variable {V : Type}

/-- A dimension's value on a fact: a column, the capture spine, or the entry of its `dims_json`. -/
def dimValue (texts : Texts) (f : MappedRow V) (dimension : String) : Option String :=
  let inDims := (parseDims texts f.dimsJson).bind (dimFromMap texts · dimension)
  match dimension with
  | "oxplow.severity" => f.severity
  | "oxplow.rule" => f.rule
  | "oxplow.package" => (f.path.or f.subject).map packageOf
  | "oxplow.branch" => f.capture.branch
  | "subject" => f.subject
  | "oxplow.model" =>
    match f.subject with
    | some s => if texts.resourceOf s = some "oxplow/ai_model" then some ((texts.modelOf s).getD s) else inDims
    | none => inDims
  | "oxplow.stream" => some (toString f.capture.streamId)
  | "oxplow.thread" => f.capture.threadId.map toString
  | "oxplow.effort" => f.capture.effortId.map toString
  | "oxplow.work_item" => f.workItem
  | "oxplow.vcs_rev" => f.capture.closestVcsRev
  | _ => inDims

structure FactFilter (V : Type) where
  minValue : Option V
  maxValue : Option V
  severity : Option String
  dimEq : Option (String × String)
  deriving DecidableEq

def FactFilter.matches [LinearOrder V] (texts : Texts) (filter : FactFilter V) (f : MappedRow V) : Bool :=
  !filter.minValue.any (f.value < ·) && !filter.maxValue.any (· < f.value) &&
    filter.severity.all (f.severity == some ·) && filter.dimEq.all fun (key, val) => dimValue texts f key == some val

/-! ## Aggregates -/

inductive Aggregation where
  | count | sum | avg | min | max | last | ratio
  deriving DecidableEq

/-- A point's value. The folds of `min` and `max` start from the infinities. -/
inductive Reading (V : Type) where
  | finite (v : V)
  | infinity
  | negInfinity
  deriving DecidableEq

structure Aggregate (V : Type) where
  value : Reading V
  numerator : Option V
  denominator : Option V
  deriving DecidableEq

def Reading.lower [LinearOrder V] : Reading V → V → Reading V
  | .finite a, v => .finite (min a v)
  | .infinity, v => .finite v
  | .negInfinity, _ => .negInfinity

def Reading.raise [LinearOrder V] : Reading V → V → Reading V
  | .finite a, v => .finite (max a v)
  | .infinity, _ => .infinity
  | .negInfinity, v => .finite v

/-- A fact's ratio components, where it carries both. -/
def components (f : MappedRow V) : Option (V × V) := f.numerator.bind fun n => f.denominator.map fun d => (n, d)

/-- The facts measured in one capture, as one value. -/
def aggregateFacts [Field V] [LinearOrder V] (facts : List (MappedRow V)) : Aggregation → Aggregate V
  | .count => ⟨.finite facts.length, none, none⟩
  | .sum => ⟨.finite (facts.map (·.value)).sum, none, none⟩
  | .avg =>
    let total := (facts.map (·.value)).sum
    ⟨.finite (total / facts.length), some total, some (facts.length : V)⟩
  | .min => ⟨(facts.map (·.value)).foldl Reading.lower .infinity, none, none⟩
  | .max => ⟨(facts.map (·.value)).foldl Reading.raise .negInfinity, none, none⟩
  | .last => ⟨.finite ((facts.getLast?.map (·.value)).getD 0), none, none⟩
  | .ratio =>
    let num := ((facts.filterMap components).map (·.1)).sum
    let den := ((facts.filterMap components).map (·.2)).sum
    ⟨.finite (if den ≠ 0 then num / den else 0), some num, some den⟩

/-- A ratio over nothing has no value. -/
def ratioEmpty [Field V] [LinearOrder V] (agg : Aggregation) (total : Aggregate V) : Bool :=
  agg == .ratio && total.denominator == some 0 && total.numerator.getD 0 == 0

/-! ## Points -/

structure SeriesPoint (V : Type) where
  captureId : Nat
  capturedAt : Int
  value : Reading V
  numerator : Option V
  denominator : Option V
  group : Option String
  branch : Option String
  provenance : Option String
  vcsRev : Option String
  source : Option String
  deriving DecidableEq

/-- A capture's point. -/
def Capture.point (c : Capture) (total : Aggregate V) (group : Option String) : SeriesPoint V where
  captureId := c.id
  capturedAt := c.capturedAt
  value := total.value
  numerator := total.numerator
  denominator := total.denominator
  group := group
  branch := c.branch
  provenance := some c.provenance
  vcsRev := c.closestVcsRev
  source := some c.source

/-- An inclusive window of time, either end open. -/
structure TimeWindow where
  earliest : Option Int
  latest : Option Int
  deriving DecidableEq

def TimeWindow.contains (window : TimeWindow) (time : Int) : Bool :=
  window.earliest.all (· ≤ time) && window.latest.all (time ≤ ·)

/-- The points inside the window. -/
def applyWindow (points : List (SeriesPoint V)) (window : Option TimeWindow) : List (SeriesPoint V) :=
  points.filter fun p => window.all (·.contains p.capturedAt)

/-- The facts by the slice dimension, those without it left out, or all of them as one group. -/
def grouped (texts : Texts) (groupBy : Option String) (facts : List (MappedRow V)) :
    List (Option String × List (MappedRow V)) :=
  match groupBy with
  | none => if facts.isEmpty then [] else [(none, facts)]
  | some dim => (buckets (dimValue texts · dim) facts).map fun (value, fs) => (some value, fs)

section
variable [Field V] [LinearOrder V] (texts : Texts)

/-! ## One point per capture -/

/-- A bucket's point, at the capture of its first fact. -/
def bucketPoint (agg : Aggregation) (group : Option String) (facts : List (MappedRow V)) : Option (SeriesPoint V) :=
  facts.head?.bind fun first =>
    let total := aggregateFacts facts agg
    if ratioEmpty agg total then none else some (first.capture.point total group)

/-- One point per capture, or per capture and group. `facts` are oldest first. -/
def aggregateSeries (facts : List (MappedRow V)) (agg : Aggregation) (filter : FactFilter V) (groupBy : Option String) :
    List (SeriesPoint V) :=
  let kept := facts.filter fun f => filter.matches texts f && groupBy.all fun dim => (dimValue texts f dim).isSome
  (firstSeen (kept.map (·.capture.id))).flatMap fun id =>
    (grouped texts groupBy (kept.filter (·.capture.id == id))).filterMap fun (group, fs) => bucketPoint agg group fs

/-- `ORDER BY` the point's time, then its capture. -/
def pointBefore (a b : SeriesPoint V) : Prop :=
  a.capturedAt < b.capturedAt ∨ a.capturedAt = b.capturedAt ∧ a.captureId ≤ b.captureId

instance : DecidableRel (pointBefore (V := V)) := fun _ _ => inferInstanceAs (Decidable (_ ∨ _ ∧ _))

/-- Whether a series has a zero for a capture that found nothing. -/
def fills (agg : Aggregation) (groupBy : Option String) : Bool := groupBy.isNone && (agg == .count || agg == .sum)

/-- A zero for every capture of `caps` that has no point. -/
def spliceZeroPoints (points : List (SeriesPoint V)) (caps : List Capture) (agg : Aggregation) (groupBy : Option String)
    (stream : Option Nat) : List (SeriesPoint V) :=
  if fills agg groupBy then
    let zeros := (caps.filter fun c => stream.all (c.streamId == ·) && !(points.map (·.captureId)).contains c.id).map
      fun c => c.point ⟨.finite 0, none, none⟩ none
    (points ++ zeros).insertionSort pointBefore
  else points

/-! ## The replay of a partial measure -/

/-- Which earlier captures a capture folds in. -/
structure Visibility where
  /-- The first commit that has a capture's code, and when it was made. -/
  effective : Nat → Option (String × Int)
  base : Nat → Option String
  ancestry : String → String → Option Bool

def Visibility.sees (visibility : Visibility) (c r : Capture) : Bool :=
  if c.branch = r.branch then true
  else match visibility.effective c.id, visibility.base r.id with
    | some (commit, absorbedAt), some base =>
      if r.capturedAt < absorbedAt then true
      else if commit = base then true
      -- A pair the resolver cannot answer is visible.
      else (visibility.ancestry commit base).getD true
    | _, _ => true

/-- The key of a fact without a path and a subject. -/
def scalarSubject : String := "\x00repo-scalar"

/-- The key a fact folds under; `none` for a scalar of the whole repository. -/
def foldKey (scope : CaptureScope) (f : MappedRow V) : Option String :=
  match scope with
  | .perSubject => f.subject.or f.path
  | .perPath | .complete => f.path.or f.subject

/-- A live fact, with the producer and the key it stands under. -/
structure LiveFact (V : Type) where
  producer : String
  key : String
  fact : MappedRow V
  deriving DecidableEq

/-- The live tree: the facts each key of a producer contributes. -/
abbrev LiveTree (V : Type) := List (LiveFact V)

/-- Apply a capture: take out the keys it restates, put in the facts it has. -/
def LiveTree.apply (scope : CaptureScope) (producer : String) (restated : List String) (own : List (MappedRow V)) (tree : LiveTree V) :
    LiveTree V :=
  (tree.filter fun live => !(live.producer == producer && restated.contains live.key)) ++
    own.map fun f => ⟨producer, (foldKey scope f).getD scalarSubject, f⟩

/-- The place of a producer and key in the order of a tree's hash map, which is any order,
at each capture. -/
abbrev HashOrder := Nat → String × String → Nat

/-- The live facts at a capture, in the order the map gives them. -/
def LiveTree.live (order : HashOrder) (id : Nat) (tree : LiveTree V) : List (MappedRow V) :=
  (tree.insertionSort fun a b => order id (a.producer, a.key) ≤ order id (b.producer, b.key)).map (·.fact)

structure FoldRead (V : Type) where
  agg : Aggregation
  filter : FactFilter V
  groupBy : Option String
  visibility : Visibility
  scope : CaptureScope

/-- `ORDER BY captured_at, id`. -/
def captureBefore (a b : Capture) : Prop := a.capturedAt < b.capturedAt ∨ a.capturedAt = b.capturedAt ∧ a.id ≤ b.id

instance : DecidableRel captureBefore := fun _ _ => inferInstanceAs (Decidable (_ ∨ _ ∧ _))

section
variable (read : FoldRead V) (captures : List Capture) (facts : List (MappedRow V)) (scanned : Nat → List String)

/-- Fold one capture into a tree. What it takes out does not depend on the filter: a scalar it
asserts counts also when the filter drops it. -/
def applyCapture (tree : LiveTree V) (c : Capture) : LiveTree V :=
  let own := facts.filter (·.capture.id == c.id)
  let scalar := if own.any fun f => (foldKey read.scope f).isNone then [scalarSubject] else []
  tree.apply read.scope c.producer (scanned c.id ++ scalar) (own.filter (read.filter.matches texts))

/-- What a branch starts from at its first capture: everything visible before it. -/
def seedTree (c : Capture) : LiveTree V :=
  let earlier := captures.takeWhile fun e => e.id == c.id || !decide (captureBefore c e)
  (earlier.filter fun e => e.id != c.id && e.streamId == c.streamId && read.visibility.sees e c).foldl
    (applyCapture texts read facts scanned) []

/-- The points of a capture whose tree is live. -/
def livePoints (c : Capture) (live : List (MappedRow V)) : List (SeriesPoint V) :=
  match read.groupBy with
  | none =>
    let total := if live.isEmpty then ⟨.finite 0, none, none⟩ else aggregateFacts live read.agg
    if live.isEmpty || !ratioEmpty read.agg total then [c.point total none] else []
  | some dim => (buckets (dimValue texts · dim) live).filterMap fun (value, fs) =>
      let total := aggregateFacts fs read.agg
      if ratioEmpty read.agg total then none else some (c.point total (some value))

/-- The live tree of each stream and branch, and the points so far. -/
structure Folding (V : Type) where
  state : Table (Nat × Option String) (LiveTree V)
  out : List (SeriesPoint V)

def foldCapture (order : HashOrder) (folding : Folding V) (c : Capture) : Folding V :=
  let tree := match folding.state.get (c.streamId, c.branch) with
    | some tree => tree
    | none => seedTree texts read captures facts scanned c
  let tree := applyCapture texts read facts scanned tree c
  { state := folding.state.insert (c.streamId, c.branch) tree
    out := folding.out ++ livePoints texts read c (tree.live order c.id) }

/-- The series of a partial measure: at each capture the value of its whole worktree on
its branch. `captures` are oldest first, those without facts included. -/
def treeStateSeries (order : HashOrder) : List (SeriesPoint V) :=
  (captures.foldl (foldCapture texts read captures facts scanned order) ⟨[], []⟩).out

end
end

/-! ## Reading the store -/

structure Measure where
  id : Nat
  key : String
  captureScope : CaptureScope
  deriving DecidableEq

/-- What a series is asked for. -/
structure SeriesSpec (V : Type) where
  agg : Aggregation
  filter : FactFilter V
  groupBy : Option String
  stream : Option Nat
  deriving DecidableEq

namespace Store

/-- The finished captures of the producers, oldest first. -/
def capturesForProducers (s : Store V) (producers : List String) : List Capture :=
  (s.captures.filter fun c => producers.contains c.producer && c.status == .done).insertionSort captureBefore

def producersForCaptureSource (s : Store V) (source : String) : List String :=
  (s.captures.filter fun c => c.source == source && c.status == .done).map (·.producer)

/-- The paths a capture scanned, deletions included. -/
def scannedPaths (s : Store V) (c : Capture) : List String :=
  if c.status ≠ .done then []
  else match c.scanKind with
    | .delta => (s.fileSnapshots.filter fun fs => c.snapshotId.isSome && fs.snapshotId == c.snapshotId &&
        fs.streamId == c.streamId && !c.excluded.contains fs.path).map (·.path)
    | .full =>
      match c.snapshotId with
      | some anchor => ((s.anchorTree c.streamId anchor).filter fun fs => !c.excluded.contains fs.path).map (·.path)
      | none => []
    | .asserted => s.facts.filterMap fun f => if f.captureId == c.id then f.path else none

/-- `facts_for_measure`, or `facts_for_measure_in_stream`. -/
def factsForMeasure (s : Store V) (items : Nat → Option String) (m : Nat) (stream : Option Nat) : List (MappedRow V) :=
  (s.heldFacts m ((stream.map Holders.stream).getD .all)).map (·.mapped items)

section
variable [Field V] [LinearOrder V] (texts : Texts)

/-- The producers of a measure's slice. An analyzer that never found anything has no fact:
lint hits are looked for among the analysis reports. -/
def sliceProducers (s : Store V) (facts : List (MappedRow V)) (measure : Measure) (filter : FactFilter V) : List String :=
  let producers := (facts.filter (filter.matches texts)).map (·.capture.producer)
  if producers.isEmpty && measure.key == "oxplow.lint_hit" then s.producersForCaptureSource "analysis-report" else producers

/-- What each capture takes out of the tree. -/
def restatedBy (s : Store V) (scope : CaptureScope) (captures : List Capture) (facts : List (MappedRow V)) (id : Nat) :
    List String :=
  match scope with
  | .perPath => (captures.filter (·.id == id)).flatMap s.scannedPaths
  | .perSubject => (facts.filter (·.capture.id == id)).filterMap (foldKey scope)
  | .complete => []

/-- The series from the facts, before the window. -/
def foldSeries (order : HashOrder) (visibility : Visibility) (items : Nat → Option String) (s : Store V)
    (measure : Measure) (spec : SeriesSpec V) : List (SeriesPoint V) :=
  let facts := s.factsForMeasure items measure.id spec.stream
  let producers := s.sliceProducers texts facts measure spec.filter
  match measure.captureScope with
  | .complete =>
    spliceZeroPoints (aggregateSeries texts facts spec.agg spec.filter spec.groupBy) (s.capturesForProducers producers)
      spec.agg spec.groupBy spec.stream
  | scope =>
    let captures := (s.capturesForProducers producers).filter fun c => spec.stream.all (c.streamId == ·)
    treeStateSeries texts ⟨spec.agg, spec.filter, spec.groupBy, visibility, scope⟩ captures facts
      (s.restatedBy scope captures facts) order

end
end Store
end Oxplow.Metrics
