import Oxplow.Metrics.Series

/-! What a series does not read: the efforts that stamp captures, unless it is sliced or
filtered by them, and the order in which a hash map gives the live facts. -/

namespace Oxplow.Proofs.SeriesFrame
open Library Metrics

variable {V : Type}

/-- A capture without the effort it is stamped with. -/
def bare (c : Capture) : Capture := { c with effortId := none }

/-- The dimensions a read filters or slices by. -/
def readDims (filter : FactFilter V) (groupBy : Option String) : List String :=
  (filter.dimEq.map (·.1)).toList ++ groupBy.toList

/-- Facts with the stamps changed, the dimensions read left as they are. -/
structure Restamps (texts : Texts) (dims : List String) (restamp : MappedRow V → MappedRow V) : Prop where
  columns : ∀ f, (restamp f).toNewFact = f.toNewFact
  capture : ∀ f, bare (restamp f).capture = bare f.capture
  dims : ∀ f, ∀ dim ∈ dims, dimValue texts (restamp f) dim = dimValue texts f dim

variable {c d : Capture}

theorem id_of_bare (same : bare c = bare d) : c.id = d.id := by
  simpa [bare] using congrArg (fun e : Capture => e.id) same

theorem origin_of_bare (same : bare c = bare d) : c.streamId = d.streamId ∧ c.producer = d.producer := by
  have stream := congrArg (fun e : Capture => e.streamId) same
  have producer := congrArg (fun e : Capture => e.producer) same
  exact ⟨by simpa [bare] using stream, by simpa [bare] using producer⟩

theorem time_of_bare (same : bare c = bare d) : c.capturedAt = d.capturedAt := by
  simpa [bare] using congrArg (fun e : Capture => e.capturedAt) same

theorem branch_of_bare (same : bare c = bare d) : c.branch = d.branch := by
  simpa [bare] using congrArg (fun e : Capture => e.branch) same

theorem status_of_bare (same : bare c = bare d) : c.status = d.status ∧ c.source = d.source := by
  have status := congrArg (fun e : Capture => e.status) same
  have source := congrArg (fun e : Capture => e.source) same
  exact ⟨by simpa [bare] using status, by simpa [bare] using source⟩

/-- A point carries nothing of the effort. -/
theorem point_bare (c : Capture) (total : Aggregate V) (group : Option String) : (bare c).point total group = c.point total group :=
  rfl

theorem point_of_bare (same : bare c = bare d) (total : Aggregate V) (group : Option String) :
    c.point total group = d.point total group := by
  rw [← point_bare c, same, point_bare]

variable {c' : Capture}

theorem sees_of_bare {visibility : Visibility} {r r' : Capture} (earlier : bare c = bare c') (reader : bare r = bare r') :
    visibility.sees c r = visibility.sees c' r' := by
  unfold Visibility.sees
  rw [branch_of_bare earlier, branch_of_bare reader, id_of_bare earlier, id_of_bare reader, time_of_bare reader]

theorem before_of_bare {d' : Capture} (first : bare c = bare c') (second : bare d = bare d') :
    captureBefore c d ↔ captureBefore c' d' := by
  unfold captureBefore
  rw [time_of_bare first, time_of_bare second, id_of_bare first, id_of_bare second]

section Rows
variable {texts : Texts} {filter : FactFilter V} {groupBy : Option String}
  {restamp : MappedRow V → MappedRow V} (stamps : Restamps texts (readDims filter groupBy) restamp)
include stamps

theorem Restamps.group (f : MappedRow V) : ∀ dim, groupBy = some dim → dimValue texts (restamp f) dim = dimValue texts f dim := by
  rintro dim rfl
  exact stamps.dims f dim (by simp [readDims])

theorem Restamps.foldKey (scope : CaptureScope) (f : MappedRow V) : foldKey scope (restamp f) = foldKey scope f := by
  unfold Metrics.foldKey
  rw [stamps.columns f]

theorem Restamps.buckets (dim : String) (sliced : groupBy = some dim) (facts : List (MappedRow V)) :
    buckets (dimValue texts · dim) (facts.map restamp) =
      (buckets (dimValue texts · dim) facts).map fun bucket => (bucket.1, bucket.2.map restamp) := by
  rw [buckets_map]
  congr 1
  exact buckets_congr fun f _ => stamps.group f dim sliced

theorem Restamps.grouped (facts : List (MappedRow V)) : grouped texts groupBy (facts.map restamp) =
    (grouped texts groupBy facts).map fun bucket => (bucket.1, bucket.2.map restamp) := by
  unfold Metrics.grouped
  cases sliced : groupBy with
  | none =>
    cases facts with
    | nil => rfl
    | cons => rfl
  | some dim =>
    simp only
    rw [stamps.buckets dim sliced, List.map_map, List.map_map]
    rfl

variable [LinearOrder V]

theorem Restamps.matches (f : MappedRow V) : filter.matches texts (restamp f) = filter.matches texts f := by
  unfold FactFilter.matches
  rw [stamps.columns f]
  cases wanted : filter.dimEq with
  | none => rfl
  | some pair =>
    have read : pair.1 ∈ readDims filter groupBy := by simp [readDims, wanted]
    simp only [Option.all_some, stamps.dims f pair.1 read]

variable [Field V]

theorem Restamps.aggregateFacts (facts : List (MappedRow V)) (agg : Aggregation) :
    aggregateFacts (facts.map restamp) agg = aggregateFacts facts agg := by
  have values : (facts.map restamp).map (·.value) = facts.map (·.value) := by
    rw [List.map_map]
    exact List.map_congr_left fun f _ => congrArg (fun g : NewFact V => g.value) (stamps.columns f)
  have parts : (facts.map restamp).filterMap components = facts.filterMap components := by
    rw [List.filterMap_map]
    apply List.filterMap_congr
    intro f _
    simp only [Function.comp_apply, components, stamps.columns f]
  have last : ((facts.map restamp).getLast?.map (·.value)) = facts.getLast?.map (·.value) := by
    rw [← List.getLast?_map, values, List.getLast?_map]
  unfold Metrics.aggregateFacts
  cases agg <;> simp only [values, parts, last, List.length_map]

theorem Restamps.bucketPoint (agg : Aggregation) (group : Option String) (facts : List (MappedRow V)) :
    bucketPoint agg group (facts.map restamp) = bucketPoint agg group facts := by
  unfold Metrics.bucketPoint
  cases facts with
  | nil => rfl
  | cons first rest =>
    rw [stamps.aggregateFacts]
    simp only [List.map_cons, List.head?_cons, Option.bind_some]
    rw [point_of_bare (stamps.capture first)]

theorem Restamps.aggregateSeries (facts : List (MappedRow V)) (agg : Aggregation) :
    aggregateSeries texts (facts.map restamp) agg filter groupBy = aggregateSeries texts facts agg filter groupBy := by
  unfold Metrics.aggregateSeries
  have kept : ∀ f, (filter.matches texts (restamp f) && groupBy.all fun dim => (dimValue texts (restamp f) dim).isSome) =
      (filter.matches texts f && groupBy.all fun dim => (dimValue texts f dim).isSome) := by
    intro f
    rw [stamps.matches f]
    cases sliced : groupBy with
    | none => rfl
    | some dim => simp only [Option.all_some, stamps.group f dim sliced]
  have ids : ∀ f, (restamp f).capture.id = f.capture.id := fun f => id_of_bare (stamps.capture f)
  simp only [List.filter_map, List.map_map, Function.comp_def, kept, ids]
  apply List.flatMap_congr
  intro id _
  rw [stamps.grouped, List.filterMap_map]
  exact List.filterMap_congr fun bucket _ => stamps.bucketPoint agg bucket.1 bucket.2

end Rows

/-! ## The replay -/

/-- Live facts with the stamps changed. -/
def restampedTree (restamp : MappedRow V → MappedRow V) (tree : LiveTree V) : LiveTree V :=
  tree.map fun live => { live with fact := restamp live.fact }

theorem restampedTree_live (restamp : MappedRow V → MappedRow V) (order : HashOrder) (id : Nat) (tree : LiveTree V) :
    (restampedTree restamp tree).live order id = (tree.live order id).map restamp := by
  let place : LiveFact V → LiveFact V → Prop := fun a b => order id (a.producer, a.key) ≤ order id (b.producer, b.key)
  have sorted := List.map_insertionSort (r := place) (s := place) (fun live => { live with fact := restamp live.fact }) tree
    (fun _ _ _ _ => Iff.rfl)
  unfold LiveTree.live restampedTree
  rw [← sorted, List.map_map, List.map_map]
  rfl

section Replay
variable [LinearOrder V] {texts : Texts} {read : FoldRead V} {restamp : MappedRow V → MappedRow V}
  (stamps : Restamps texts (readDims read.filter read.groupBy) restamp)
include stamps

theorem Restamps.applyCapture (facts : List (MappedRow V)) (scanned : Nat → List String) (tree : LiveTree V)
    (same : bare c' = bare c) :
    applyCapture texts read (facts.map restamp) scanned (restampedTree restamp tree) c' =
      restampedTree restamp (applyCapture texts read facts scanned tree c) := by
  have ids : ∀ f, (restamp f).capture.id = f.capture.id := fun f => id_of_bare (stamps.capture f)
  have matching : ∀ f, read.filter.matches texts (restamp f) = read.filter.matches texts f := stamps.matches
  have keys : ∀ f, Metrics.foldKey read.scope (restamp f) = Metrics.foldKey read.scope f := stamps.foldKey read.scope
  unfold Metrics.applyCapture LiveTree.apply restampedTree
  simp only [id_of_bare same, (origin_of_bare same).2, List.filter_map, List.map_map, List.any_map, Function.comp_def, ids,
    keys, matching, List.map_append]

variable {restampCapture : Capture → Capture} (captured : ∀ c, bare (restampCapture c) = bare c)
include captured

theorem Restamps.seedTree (captures : List Capture) (facts : List (MappedRow V)) (scanned : Nat → List String) (c : Capture) :
    seedTree texts read (captures.map restampCapture) (facts.map restamp) scanned (restampCapture c) =
      restampedTree restamp (seedTree texts read captures facts scanned c) := by
  have ids : ∀ e, (restampCapture e).id = e.id := fun e => id_of_bare (captured e)
  have streams : ∀ e, (restampCapture e).streamId = e.streamId := fun e => (origin_of_bare (captured e)).1
  have seen : ∀ e, read.visibility.sees (restampCapture e) (restampCapture c) = read.visibility.sees e c :=
    fun e => sees_of_bare (captured e) (captured c)
  have order : ∀ e, decide (captureBefore (restampCapture c) (restampCapture e)) = decide (captureBefore c e) :=
    fun e => decide_eq_decide.mpr (before_of_bare (captured c) (captured e))
  unfold Metrics.seedTree
  simp only [List.takeWhile_map, List.filter_map, List.foldl_map, Function.comp_def, ids, streams, seen, order]
  generalize List.filter _ _ = earlier
  have fold : ∀ tree, earlier.foldl (fun tree e => Metrics.applyCapture texts read (facts.map restamp) scanned tree (restampCapture e))
      (restampedTree restamp tree) =
        restampedTree restamp (earlier.foldl (Metrics.applyCapture texts read facts scanned) tree) := by
    induction earlier with
    | nil => exact fun _ => rfl
    | cons e earlier ih =>
      intro tree
      rw [List.foldl_cons, List.foldl_cons, stamps.applyCapture facts scanned tree (captured e), ih]
  exact fold []

variable [Field V]

omit captured in
theorem Restamps.livePoints (same : bare c' = bare c) (live : List (MappedRow V)) :
    livePoints texts read c' (live.map restamp) = livePoints texts read c live := by
  have points : ∀ total group, c'.point total group = c.point (V := V) total group := point_of_bare same
  unfold Metrics.livePoints
  cases sliced : read.groupBy with
  | none => simp only [List.isEmpty_map, stamps.aggregateFacts, points]
  | some dim =>
    simp only
    rw [stamps.buckets dim sliced, List.filterMap_map]
    apply List.filterMap_congr
    intro bucket _
    simp only [Function.comp_apply, stamps.aggregateFacts, points]

/-- The replay reads nothing of the stamps. -/
theorem Restamps.treeStateSeries (captures : List Capture) (facts : List (MappedRow V)) (scanned : Nat → List String)
    (order : HashOrder) : treeStateSeries texts read (captures.map restampCapture) (facts.map restamp) scanned order =
      treeStateSeries texts read captures facts scanned order := by
  have fold : ∀ (rest : List Capture) (state : Table (Nat × Option String) (LiveTree V)) (out : List (SeriesPoint V)),
      (rest.map restampCapture).foldl
        (foldCapture texts read (captures.map restampCapture) (facts.map restamp) scanned order)
          ⟨state.map fun entry => (entry.1, restampedTree restamp entry.2), out⟩ =
        let plain := rest.foldl (foldCapture texts read captures facts scanned order) ⟨state, out⟩
        ⟨plain.state.map fun entry => (entry.1, restampedTree restamp entry.2), plain.out⟩ := by
    intro rest
    induction rest with
    | nil => exact fun _ _ => rfl
    | cons c rest ih =>
      intro state out
      have partition : ((restampCapture c).streamId, (restampCapture c).branch) = (c.streamId, c.branch) :=
        Prod.ext (origin_of_bare (captured c)).1 (branch_of_bare (captured c))
      have step : foldCapture texts read (captures.map restampCapture) (facts.map restamp) scanned order
          ⟨state.map fun entry => (entry.1, restampedTree restamp entry.2), out⟩ (restampCapture c) =
            let plain := foldCapture texts read captures facts scanned order ⟨state, out⟩ c
            ⟨plain.state.map fun entry => (entry.1, restampedTree restamp entry.2), plain.out⟩ := by
        unfold foldCapture
        simp only [partition, Table.get_map]
        cases state.get (c.streamId, c.branch) with
        | none =>
          simp only [Option.map_none]
          rw [stamps.seedTree captured, stamps.applyCapture facts scanned _ (captured c), restampedTree_live,
            stamps.livePoints (captured c), id_of_bare (captured c)]
          rfl
        | some tree =>
          simp only [Option.map_some]
          rw [stamps.applyCapture facts scanned _ (captured c), restampedTree_live, stamps.livePoints (captured c),
            id_of_bare (captured c)]
          rfl
      rw [List.map_cons, List.foldl_cons, List.foldl_cons, step]
      exact ih _ _
  unfold Metrics.treeStateSeries
  exact congrArg (·.out) (fold captures [] [])

end Replay
/-! ## The order of the live facts -/

section Order
variable [LinearOrder V]

theorem lower_comm (total : Reading V) (a b : V) : (total.lower a).lower b = (total.lower b).lower a := by
  cases total with
  | finite v => exact congrArg Reading.finite (min_right_comm v a b)
  | infinity => exact congrArg Reading.finite (min_comm a b)
  | negInfinity => rfl

theorem raise_comm (total : Reading V) (a b : V) : (total.raise a).raise b = (total.raise b).raise a := by
  cases total with
  | finite v => exact congrArg Reading.finite (max_right_comm v a b)
  | infinity => rfl
  | negInfinity => exact congrArg Reading.finite (max_comm a b)

variable [Field V]

/-- All aggregates but the last value are those of the facts in any order. -/
theorem aggregateFacts_perm {facts facts' : List (MappedRow V)} (perm : facts.Perm facts') {agg : Aggregation}
    (unordered : agg ≠ .last) : aggregateFacts facts agg = aggregateFacts facts' agg := by
  have values := perm.map fun f => f.value
  have parts := perm.filterMap components
  have lowest : (facts.map (·.value)).foldl Reading.lower .infinity = (facts'.map (·.value)).foldl Reading.lower .infinity :=
    values.foldl_eq' (fun a _ b _ total => lower_comm total a b) _
  have highest : (facts.map (·.value)).foldl Reading.raise .negInfinity = (facts'.map (·.value)).foldl Reading.raise .negInfinity :=
    values.foldl_eq' (fun a _ b _ total => raise_comm total a b) _
  unfold aggregateFacts
  cases agg with
  | last => exact absurd rfl unordered
  | count => simp only [perm.length_eq]
  | sum => simp only [values.sum_eq]
  | avg => simp only [values.sum_eq, perm.length_eq]
  | min => simp only [lowest]
  | max => simp only [highest]
  | ratio => simp only [(parts.map Prod.fst).sum_eq, (parts.map Prod.snd).sum_eq]

variable {texts : Texts} {read : FoldRead V} (unordered : read.agg ≠ .last)
include unordered

theorem livePoints_perm (c : Capture) {live live' : List (MappedRow V)} (perm : live.Perm live') :
    livePoints texts read c live = livePoints texts read c live' := by
  unfold livePoints
  cases read.groupBy with
  | none =>
    have empty : live.isEmpty = live'.isEmpty := by
      rw [Bool.eq_iff_iff, List.isEmpty_iff, List.isEmpty_iff]
      exact ⟨fun nil => (nil ▸ perm).nil_eq.symm, fun nil => (nil ▸ perm).eq_nil⟩
    simp only [empty, aggregateFacts_perm perm unordered]
  | some dim =>
    refine buckets_filterMap_perm _ _ ?_ perm
    intro value entries entries' same
    simp only [aggregateFacts_perm same unordered]

/-- The series does not depend on the order of the hash maps. -/
theorem treeStateSeries_order (captures : List Capture) (facts : List (MappedRow V)) (scanned : Nat → List String)
    (order order' : HashOrder) :
    treeStateSeries texts read captures facts scanned order = treeStateSeries texts read captures facts scanned order' := by
  have step : foldCapture texts read captures facts scanned order = foldCapture texts read captures facts scanned order' := by
    funext folding c
    have live : ∀ tree : LiveTree V, livePoints texts read c (tree.live order c.id) = livePoints texts read c (tree.live order' c.id) := by
      intro tree
      apply livePoints_perm unordered
      exact ((List.perm_insertionSort _ tree).trans (List.perm_insertionSort _ tree).symm).map _
    unfold foldCapture
    simp only [live]
  unfold treeStateSeries
  rw [step]

end Order

/-! ## The store -/

/-- The store with its captures stamped anew. -/
def restampStore (restampCapture : Capture → Capture) (s : Store V) : Store V :=
  { s with captures := s.captures.map restampCapture }

section Stamped
variable {restampCapture : Capture → Capture} (captured : ∀ c, bare (restampCapture c) = bare c) (s : Store V)
include captured

theorem restamp_capture? (id : Nat) : (restampStore restampCapture s).capture? id = (s.capture? id).map restampCapture := by
  unfold Store.capture? restampStore
  have ids : ((fun c : Capture => c.id == id) ∘ restampCapture) = fun c => c.id == id := by
    funext c
    simp only [Function.comp_apply, id_of_bare (captured c)]
  rw [List.find?_map, ids]

theorem restamp_storedFor (c : Capture) (f : Fact V) :
    (restampStore restampCapture s).storedFor (restampCapture c) f = s.storedFor c f := by
  unfold Store.storedFor restampStore
  rw [List.any_map]
  congr 1
  funext fc
  simp only [Function.comp_apply, NewMetricCapture.origin, id_of_bare (captured fc), origin_of_bare (captured fc),
    origin_of_bare (captured c), (status_of_bare (captured fc)).1]

theorem restamp_holds (c : Capture) (part : Part) (link : Link) :
    (restampStore restampCapture s).holds (restampCapture c) part link = s.holds c part link := by
  funext f
  unfold Store.holds
  rw [restamp_storedFor captured, id_of_bare (captured c)]

theorem restamp_wants (holders : Holders) (c : Capture) : holders.wants (restampCapture c) = holders.wants c := by
  cases holders with
  | all => rfl
  | stream => simp only [Holders.wants, (origin_of_bare (captured c)).1]
  | ids => simp only [Holders.wants, id_of_bare (captured c)]

theorem restamp_heldFacts (m : Nat) (holders : Holders) : (restampStore restampCapture s).heldFacts m holders =
    (s.heldFacts m holders).map fun row => { row with capture := restampCapture row.capture } := by
  have links : ∀ part id, (restampStore restampCapture s).link part id = s.link part id := by
    intro part id
    cases part <;> rfl
  have own : (restampStore restampCapture s).ownRows m holders =
      (s.ownRows m holders).map fun row => { row with capture := restampCapture row.capture } := by
    unfold Store.ownRows
    rw [List.map_filterMap]
    apply List.filterMap_congr
    intro f _
    rw [restamp_capture? captured]
    cases s.capture? f.captureId with
    | none => rfl
    | some c =>
      have holding : (restampStore restampCapture s).pathHolding (restampCapture c) f = s.pathHolding c f := by
        unfold Store.pathHolding
        simp only [id_of_bare (captured c), links]
      simp only [Option.map_some, Option.bind_eq_bind, Option.bind_some, restamp_wants captured, id_of_bare (captured c), links,
        holding]
      split
      · rfl
      · rfl
  have wanted : (restampStore restampCapture s).captures.filter holders.wants =
      (s.captures.filter holders.wants).map restampCapture := by
    unfold restampStore
    rw [List.filter_map]
    congr 1
    exact List.filter_congr fun c _ => restamp_wants captured holders c
  have chained : (restampStore restampCapture s).chainedRows m holders =
      (s.chainedRows m holders).map fun row => { row with capture := restampCapture row.capture } := by
    unfold Store.chainedRows
    rw [wanted, List.flatMap_map, List.map_flatMap]
    apply List.flatMap_congr
    intro c _
    unfold Store.held
    rw [id_of_bare (captured c), links]
    cases s.link (.measure m) c.id with
    | none => rfl
    | some link =>
      simp only
      rw [restamp_holds captured, List.map_map]
      rfl
  have pathed : (restampStore restampCapture s).pathedRows m holders =
      (s.pathedRows m holders).map fun row => { row with capture := restampCapture row.capture } := by
    unfold Store.pathedRows
    rw [wanted, List.flatMap_map, List.map_flatMap]
    apply List.flatMap_congr
    intro c _
    have holding : (restampStore restampCapture s).heldByPath m (restampCapture c) = s.heldByPath m c := by
      funext f
      unfold Store.heldByPath
      simp only [id_of_bare (captured c), links, restamp_holds captured]
    rw [holding, id_of_bare (captured c), List.map_map]
    rfl
  unfold Store.heldFacts
  rw [own, chained, pathed, ← List.map_append, ← List.map_append]
  refine (List.map_insertionSort (r := rowBefore) (s := rowBefore) _ _ ?_).symm
  intro a _ b _
  unfold rowBefore
  simp only [time_of_bare (captured a.capture), time_of_bare (captured b.capture), id_of_bare (captured a.capture),
    id_of_bare (captured b.capture)]

theorem restamp_capturesForProducers (producers : List String) :
    (restampStore restampCapture s).capturesForProducers producers = (s.capturesForProducers producers).map restampCapture := by
  unfold Store.capturesForProducers restampStore
  rw [List.filter_map]
  have kept : ((fun c : Capture => producers.contains c.producer && c.status == .done) ∘ restampCapture) =
      fun c => producers.contains c.producer && c.status == .done := by
    funext c
    simp only [Function.comp_apply, (origin_of_bare (captured c)).2, (status_of_bare (captured c)).1]
  rw [kept]
  exact (List.map_insertionSort (r := captureBefore) (s := captureBefore) _ _
    (fun a _ b _ => (before_of_bare (captured a) (captured b)).symm)).symm

theorem restamp_producersForCaptureSource (source : String) :
    (restampStore restampCapture s).producersForCaptureSource source = s.producersForCaptureSource source := by
  unfold Store.producersForCaptureSource restampStore
  rw [List.filter_map, List.map_map]
  have kept : ((fun c : Capture => c.source == source && c.status == .done) ∘ restampCapture) =
      fun c => c.source == source && c.status == .done := by
    funext c
    simp only [Function.comp_apply, status_of_bare (captured c)]
  rw [kept]
  exact List.map_congr_left fun c _ => (origin_of_bare (captured c)).2

theorem restamp_scannedPaths (c : Capture) : (restampStore restampCapture s).scannedPaths (restampCapture c) = s.scannedPaths c := by
  have plain : ∀ (t : Store V) d, t.scannedPaths d = t.scannedPaths (bare d) := fun _ _ => rfl
  rw [plain, captured c, ← plain]
  rfl

variable [Field V] [LinearOrder V]

/-- A series whose dimensions the new stamps leave as they are stays. -/
theorem restamp_foldSeries (texts : Texts) (order : HashOrder) (visibility : Visibility) (items items' : Nat → Option String)
    (measure : Measure) (spec : SeriesSpec V)
    (kept : ((restampStore restampCapture s).factsForMeasure items' measure.id spec.stream).map
        (fun f => (readDims spec.filter spec.groupBy).map (dimValue texts f)) =
      (s.factsForMeasure items measure.id spec.stream).map fun f => (readDims spec.filter spec.groupBy).map (dimValue texts f)) :
    (restampStore restampCapture s).foldSeries texts order visibility items' measure spec =
      s.foldSeries texts order visibility items measure spec := by
  let dims := readDims spec.filter spec.groupBy
  let stamped (f : MappedRow V) : MappedRow V :=
    { f with capture := restampCapture f.capture, workItem := (restampCapture f.capture).effortId.bind items' }
  -- Where the new stamps change a dimension that is read, there is no fact.
  let restamp (f : MappedRow V) : MappedRow V := if dims.map (dimValue texts (stamped f)) = dims.map (dimValue texts f) then stamped f else f
  have rows : (restampStore restampCapture s).factsForMeasure items' measure.id spec.stream =
      (s.factsForMeasure items measure.id spec.stream).map stamped := by
    unfold Store.factsForMeasure
    rw [restamp_heldFacts captured, List.map_map, List.map_map]
    rfl
  have facts : (s.factsForMeasure items measure.id spec.stream).map stamped =
      (s.factsForMeasure items measure.id spec.stream).map restamp := by
    rw [rows, List.map_map] at kept
    apply List.map_congr_left
    intro f member
    exact (if_pos (List.map_inj_left.mp kept f member)).symm
  have stamps : Restamps texts dims restamp := by
    refine ⟨?_, ?_, ?_⟩
    · intro f
      unfold restamp
      split <;> rfl
    · intro f
      unfold restamp
      split
      · exact captured f.capture
      · rfl
    · intro f dim read
      unfold restamp
      split
      next same => exact List.map_inj_left.mp same dim read
      next => rfl
  have producers : ((s.factsForMeasure items measure.id spec.stream).map restamp).filter (spec.filter.matches texts) =
      ((s.factsForMeasure items measure.id spec.stream).filter (spec.filter.matches texts)).map restamp := by
    rw [List.filter_map]
    congr 1
    exact List.filter_congr fun f _ => stamps.matches f
  have slice : (restampStore restampCapture s).sliceProducers texts ((s.factsForMeasure items measure.id spec.stream).map restamp)
      measure spec.filter = s.sliceProducers texts (s.factsForMeasure items measure.id spec.stream) measure spec.filter := by
    unfold Store.sliceProducers
    rw [producers, restamp_producersForCaptureSource captured, List.map_map]
    have same : ((fun f : MappedRow V => f.capture.producer) ∘ restamp) = fun f => f.capture.producer :=
      funext fun f => (origin_of_bare (stamps.capture f)).2
    rw [same]
  unfold Store.foldSeries
  simp only [rows, facts, slice, restamp_capturesForProducers captured]
  generalize s.factsForMeasure items measure.id spec.stream = facts
  generalize s.sliceProducers texts facts measure spec.filter = producers
  have streamed : ((fun c : Capture => spec.stream.all (c.streamId == ·)) ∘ restampCapture) =
      fun c => spec.stream.all (c.streamId == ·) := by
    funext c
    simp only [Function.comp_apply, (origin_of_bare (captured c)).1]
  have restated : ∀ scope (captures : List Capture), (restampStore restampCapture s).restatedBy scope (captures.map restampCapture)
      (facts.map restamp) = s.restatedBy scope captures facts := by
    intro scope captures
    funext id
    unfold Store.restatedBy
    cases scope with
    | complete => rfl
    | perPath =>
      simp only [List.filter_map, List.flatMap_map, Function.comp_def, id_of_bare (captured _)]
      exact List.flatMap_congr fun c _ => restamp_scannedPaths captured s c
    | perSubject =>
      simp only [List.filter_map, List.filterMap_map, Function.comp_def, id_of_bare (stamps.capture _), stamps.foldKey]
  cases measure.captureScope with
  | complete =>
    simp only
    rw [stamps.aggregateSeries]
    unfold spliceZeroPoints
    simp only [List.filter_map, List.map_map, Function.comp_def, (origin_of_bare (captured _)).1, id_of_bare (captured _),
      point_of_bare (captured _)]
  | perPath =>
    let read : FoldRead V := ⟨spec.agg, spec.filter, spec.groupBy, visibility, .perPath⟩
    have stamps : Restamps texts (readDims read.filter read.groupBy) restamp := stamps
    simp only
    rw [List.filter_map, streamed, restated, stamps.treeStateSeries captured]
  | perSubject =>
    let read : FoldRead V := ⟨spec.agg, spec.filter, spec.groupBy, visibility, .perSubject⟩
    have stamps : Restamps texts (readDims read.filter read.groupBy) restamp := stamps
    simp only
    rw [List.filter_map, streamed, restated, stamps.treeStateSeries captured]

end Stamped

/-- A series depends on the order of the hash maps only where it shows the last fact of a tree. -/
theorem foldSeries_order [Field V] [LinearOrder V] (texts : Texts) (visibility : Visibility) (items : Nat → Option String)
    (s : Store V) (measure : Measure) (spec : SeriesSpec V) (unordered : measure.captureScope = .complete ∨ spec.agg ≠ .last)
    (order order' : HashOrder) : s.foldSeries texts order visibility items measure spec =
      s.foldSeries texts order' visibility items measure spec := by
  unfold Store.foldSeries
  cases scope : measure.captureScope with
  | complete => rfl
  | perPath =>
    let read : FoldRead V := ⟨spec.agg, spec.filter, spec.groupBy, visibility, .perPath⟩
    have unordered : read.agg ≠ .last := unordered.resolve_left (by simp [scope])
    exact treeStateSeries_order unordered _ _ _ order order'
  | perSubject =>
    let read : FoldRead V := ⟨spec.agg, spec.filter, spec.groupBy, visibility, .perSubject⟩
    have unordered : read.agg ≠ .last := unordered.resolve_left (by simp [scope])
    exact treeStateSeries_order unordered _ _ _ order order'

end Oxplow.Proofs.SeriesFrame
