import Oxplow.Proofs.PruneReads
import Oxplow.Proofs.SeriesFrame

/-! A recorded capture of a producer that a measure knows nothing of leaves the measure's
series as they were. -/

namespace Oxplow.Proofs.SeriesWrites
open Metrics FactChain Restatement RecordRuns PruneReads

variable {V : Type} {scope : Nat → Option CaptureScope}

/-- Reads of the measure get nothing from the capture. -/
structure Silent (s : Store V) (m : Nat) (c : Capture) : Prop where
  own : ∀ f ∈ s.facts, f.measureId = m → f.captureId ≠ c.id
  chained : s.held c (.measure m) = []
  pathed : s.facts.filter (s.heldByPath m c) = []

theorem flatMap_filter_congr {α β : Type} {p q : α → Bool} {g : α → List β} {items : List α}
    (same : ∀ a ∈ items, g a = [] ∨ p a = q a) : (items.filter p).flatMap g = (items.filter q).flatMap g := by
  induction items with
  | nil => rfl
  | cons a items ih =>
    have rest := ih fun b member => same b (List.mem_cons_of_mem a member)
    rcases same a List.mem_cons_self with nothing | equal
    · rw [List.filter_cons, List.filter_cons]
      split <;> split <;> simp [nothing, rest]
    · rw [List.filter_cons, List.filter_cons, equal]
      split <;> simp [rest]

variable {s : Store V} {m : Nat}

/-- It does not matter whether a read wants a silent capture. -/
theorem heldFacts_congr {holders holders' : Holders} (same : ∀ c ∈ s.captures, Silent s m c ∨ holders.wants c = holders'.wants c) :
    s.heldFacts m holders = s.heldFacts m holders' := by
  have own : s.ownRows m holders = s.ownRows m holders' := by
    unfold Store.ownRows
    apply List.filterMap_congr
    intro f inside
    cases found : s.capture? f.captureId with
    | none => rfl
    | some c =>
      obtain ⟨member, sameId⟩ := capture?_eq_some found
      simp only [Option.bind_eq_bind, Option.bind_some]
      rcases same c member with silent | equal
      · have other : (f.measureId == m) = false := by
          rw [beq_eq_false_iff_ne]
          exact fun measure => silent.own f inside measure sameId.symm
        simp only [other, Bool.false_and]
      · rw [equal]
  have chained : s.chainedRows m holders = s.chainedRows m holders' := by
    apply flatMap_filter_congr
    intro c member
    exact (same c member).imp_left fun silent => by rw [silent.chained, List.map_nil]
  have pathed : s.pathedRows m holders = s.pathedRows m holders' := by
    apply flatMap_filter_congr
    intro c member
    exact (same c member).imp_left fun silent => by rw [silent.pathed, List.map_nil]
  unfold Store.heldFacts
  rw [own, chained, pathed]

theorem mem_producersOf (unique : (s.captures.map (·.id)).Nodup) {producer : String} :
    producer ∈ s.producersOf m ↔ ∃ f ∈ s.facts, f.measureId = m ∧ ∃ c ∈ s.captures, c.id = f.captureId ∧ c.producer = producer := by
  unfold Store.producersOf
  simp only [List.mem_filterMap]
  constructor
  · rintro ⟨f, inside, read⟩
    obtain ⟨c, found, read⟩ := Option.bind_eq_some_iff.mp read
    obtain ⟨member, sameId⟩ := capture?_eq_some found
    split at read
    next measure => exact ⟨f, inside, by simpa using measure, c, member, sameId, Option.some.inj read⟩
    next => cases read
  · rintro ⟨f, inside, measure, c, member, sameId, rfl⟩
    refine ⟨f, inside, ?_⟩
    rw [← sameId, capture?_of_mem unique member]
    simp [measure]

variable {c : Capture}

/-- What a capture holds was stored by its producer. -/
theorem producer_of_stored (unique : (s.captures.map (·.id)).Nodup) {f : Fact V} (inside : f ∈ s.facts)
    (measure : f.measureId = m) (stored : s.storedFor c f = true) : c.producer ∈ s.producersOf m := by
  obtain ⟨fc, member, sameId, origin, _⟩ := storedFor_iff.mp stored
  refine (mem_producersOf unique).mpr ⟨f, inside, measure, fc, member, sameId, ?_⟩
  exact congrArg Prod.snd origin

theorem silent_of_producer (unique : (s.captures.map (·.id)).Nodup) (member : c ∈ s.captures)
    (unknown : c.producer ∉ s.producersOf m) :
    Silent s m c where
  own := fun f inside measure captured => unknown ((mem_producersOf unique).mpr ⟨f, inside, measure, c, member, captured.symm, rfl⟩)
  chained := by
    apply List.eq_nil_iff_forall_not_mem.mpr
    intro f held
    obtain ⟨_, _, inside, holding⟩ := mem_held.mp held
    exact unknown (producer_of_stored unique inside (by simpa [Part.covers] using holding.covered) holding.stored)
  pathed := by
    apply List.filter_eq_nil_iff.mpr
    intro f inside held
    obtain ⟨path, link, _, _, holds⟩ := heldByPath_iff.mp held
    have holding := holds_iff.mp holds
    have covered : f.measureId = m ∧ f.path = some path := by simpa [Part.covers] using holding.covered
    exact unknown (producer_of_stored unique inside covered.1 holding.stored)

theorem heldFacts_producer (unique : (s.captures.map (·.id)).Nodup) {holders : Holders} {row : FactRow V}
    (member : row ∈ s.heldFacts m holders) : row.capture.producer ∈ s.producersOf m := by
  rcases mem_heldFacts.mp member with own | chained | pathed
  · obtain ⟨f, inside, read⟩ := List.mem_filterMap.mp own
    obtain ⟨c, found, read⟩ := Option.bind_eq_some_iff.mp read
    obtain ⟨captured, sameId⟩ := capture?_eq_some found
    split at read
    next wanted =>
      cases read
      simp only [Bool.and_eq_true, beq_iff_eq] at wanted
      exact (mem_producersOf unique).mpr ⟨f, inside, wanted.1.1.1, c, captured, sameId, rfl⟩
    next => cases read
  · obtain ⟨c, _, inRows⟩ := List.mem_flatMap.mp chained
    obtain ⟨f, inHeld, rfl⟩ := List.mem_map.mp inRows
    obtain ⟨_, _, inside, holding⟩ := mem_held.mp inHeld
    exact producer_of_stored unique inside (by simpa [Part.covers] using holding.covered) holding.stored
  · obtain ⟨c, _, inRows⟩ := List.mem_flatMap.mp pathed
    obtain ⟨f, inHeld, rfl⟩ := List.mem_map.mp inRows
    obtain ⟨inside, held⟩ := List.mem_filter.mp inHeld
    obtain ⟨path, link, _, _, holds⟩ := heldByPath_iff.mp held
    have holding := holds_iff.mp holds
    have covered : f.measureId = m ∧ f.path = some path := by simpa [Part.covers] using holding.covered
    exact producer_of_stored unique inside covered.1 holding.stored

section Written
variable [DecidableEq V] {s : Store V} (valid : Valid scope s) (capture : NewMetricCapture) (facts : List (NewFact V))
include valid

theorem written_producers {producer : String} (known : producer ∈ s.producersOf m) :
    producer ∈ (written scope s capture facts).producersOf m := by
  obtain ⟨validNext, frame, captures⟩ := written_spec valid capture facts
  obtain ⟨f, inside, measure, c, member, sameId, same⟩ := (mem_producersOf valid.captureIds).mp known
  obtain ⟨change, news, whole, keeps, _, _, _⟩ := frame.facts
  obtain ⟨columns, _, captureId⟩ := keeps f
  refine (mem_producersOf validNext.captureIds).mpr ⟨change f, ?_, ?_, c, ?_, ?_, same⟩
  · rw [whole]
    exact List.mem_append_left _ (List.mem_map_of_mem inside)
  · rw [columns]
    exact measure
  · rw [captures]
    exact List.mem_append_left _ member
  · rw [captureId]
    exact sameId

/-- An unfinished capture without facts of a measure is nothing to it. -/
theorem written_silent_unfinished (unfinished : capture.status ≠ .done) (none : ∀ f ∈ facts, f.measureId ≠ m) :
    Silent (written scope s capture facts) m (capture.toCapture s.nextCapture) := by
  have validNext := (written_spec valid capture facts).1
  have member : capture.toCapture s.nextCapture ∈ (written scope s capture facts).captures := by
    rw [(written_spec valid capture facts).2.2]
    exact List.mem_append_right _ (List.mem_singleton_self _)
  have unlinked : ∀ part, (written scope s capture facts).link part s.nextCapture = .none := by
    intro part
    by_contra linked
    obtain ⟨link, found⟩ := Option.ne_none_iff_exists'.mp linked
    obtain ⟨c, inside, sameId, done⟩ := validNext.linkCaptured part _ link found
    have same : c = capture.toCapture s.nextCapture := List.inj_on_of_nodup_map validNext.captureIds inside member sameId
    rw [same] at done
    exact unfinished done
  refine ⟨?_, ?_, ?_⟩
  · intro f inside measure captured
    rw [written_unfinished capture facts unfinished] at inside
    unfold bareStore at inside
    rw [insertFacts_eq] at inside
    rcases List.mem_append.mp inside with old | new
    · obtain ⟨c, before, sameId⟩ := valid.factCaptured f old
      have early := valid.captureOld c before
      rw [sameId, captured] at early
      exact absurd early (Nat.lt_irrefl _)
    · obtain ⟨_, _, source, _⟩ := mem_numbered new
      exact none _ (List.mem_filter.mp source).1 measure
  · unfold Store.held
    rw [toCapture_id, unlinked]
  · apply List.filter_eq_nil_iff.mpr
    intro f _ held
    obtain ⟨path, link, _, linked, _⟩ := heldByPath_iff.mp held
    rw [toCapture_id, unlinked] at linked
    cases linked

/-- A silent capture changes no read of the measure. -/
theorem written_heldFacts (silent : Silent (written scope s capture facts) m (capture.toCapture s.nextCapture))
    (holders : Holders) : (written scope s capture facts).heldFacts m holders = s.heldFacts m holders := by
  obtain ⟨validNext, frame, captures⟩ := written_spec valid capture facts
  let ids := (s.captures.filter holders.wants).map (·.id)
  have wanted : ∀ c ∈ s.captures, holders.wants c = (Holders.ids ids).wants c := by
    intro c member
    have among : (Holders.ids ids).wants c = true ↔ c.id ∈ ids := by simp [Holders.wants]
    rw [Bool.eq_iff_iff, among]
    constructor
    · exact fun wants => List.mem_map_of_mem (List.mem_filter.mpr ⟨member, wants⟩)
    · intro inside
      obtain ⟨d, kept, sameId⟩ := List.mem_map.mp inside
      obtain ⟨inStore, wants⟩ := List.mem_filter.mp kept
      have same : d = c := List.inj_on_of_nodup_map valid.captureIds inStore member sameId
      exact same ▸ wants
  have older : ∀ c, (Holders.ids ids).wants c = true → c.id < s.nextCapture := by
    intro c wants
    obtain ⟨d, kept, sameId⟩ := List.mem_map.mp (show c.id ∈ ids by simpa [Holders.wants] using wants)
    exact sameId ▸ valid.captureOld d (List.mem_filter.mp kept).1
  calc (written scope s capture facts).heldFacts m holders
      = (written scope s capture facts).heldFacts m (.ids ids) := by
        apply heldFacts_congr
        intro c member
        rw [captures] at member
        rcases List.mem_append.mp member with old | new
        · exact .inr (wanted c old)
        · exact .inl (List.mem_singleton.mp new ▸ silent)
    _ = s.heldFacts m (.ids ids) := frame.heldFacts older m
    _ = s.heldFacts m holders := heldFacts_congr fun c member => .inr (wanted c member).symm

theorem written_capturesForProducers {producers : List String} (apart : capture.status = .done → capture.producer ∉ producers) :
    (written scope s capture facts).capturesForProducers producers = s.capturesForProducers producers := by
  unfold Store.capturesForProducers
  rw [(written_spec valid capture facts).2.2, List.filter_append]
  have dropped : [capture.toCapture s.nextCapture].filter (fun c => producers.contains c.producer && c.status == .done) = [] := by
    apply List.filter_eq_nil_iff.mpr
    intro c member
    rw [List.mem_singleton.mp member]
    simp only [List.contains_eq_mem, Bool.and_eq_true, decide_eq_true_eq, beq_iff_eq, not_and]
    exact fun inside done => apart done inside
  rw [dropped, List.append_nil]

omit valid in
theorem written_fileSnapshots : (written scope s capture facts).fileSnapshots = s.fileSnapshots := by
  have bare : (bareStore scope s capture facts).fileSnapshots = s.fileSnapshots := by
    unfold bareStore
    rw [insertFacts_eq]
    rfl
  by_cases done : capture.status = .done
  · unfold written
    rw [WriteParts.write_eq done, (WriteParts.writeParts_rows _ _ _ _ _).2.2]
    exact bare
  · rw [written_unfinished capture facts done]
    exact bare

theorem written_scannedPaths (member : c ∈ s.captures) : (written scope s capture facts).scannedPaths c = s.scannedPaths c := by
  have older := valid.captureOld c member
  have asserted : ((written scope s capture facts).facts.filterMap fun f => if f.captureId == c.id then f.path else none) =
      s.facts.filterMap fun f => if f.captureId == c.id then f.path else none := by
    refine (written_spec valid capture facts).2.1.filterMap_facts ?_ ?_
    · intro change keeps _ f _
      obtain ⟨columns, _, captureId⟩ := keeps f
      rw [columns, captureId]
    · intro f own
      have other : (f.captureId == c.id) = false := by
        rw [beq_eq_false_iff_ne, own, toCapture_id]
        exact (Nat.ne_of_lt older).symm
      rw [other]
      rfl
  unfold Store.scannedPaths Store.anchorTree
  rw [written_fileSnapshots, asserted]

end Written

section Series
variable [Field V] [LinearOrder V] {s : Store V} (valid : Valid scope s) (capture : NewMetricCapture) (facts : List (NewFact V))
include valid

/-- A capture that is nothing to a measure, and whose producer is none of those its series
is replayed over, leaves the series as it was. -/
theorem written_foldSeries (texts : Texts) (order : HashOrder) (visibility : Visibility) (items : Nat → Option String)
    (measure : Measure) (spec : SeriesSpec V)
    (silent : Silent (written scope s capture facts) measure.id (capture.toCapture s.nextCapture))
    (unknown : capture.status = .done → capture.producer ∉ s.producersOf measure.id)
    (reports : capture.status = .done → measure.key = "oxplow.lint_hit" →
      (s.factsForMeasure items measure.id spec.stream).filter (spec.filter.matches texts) = [] →
        capture.producer ∉ (written scope s capture facts).producersForCaptureSource "analysis-report") :
    (written scope s capture facts).foldSeries texts order visibility items measure spec =
      s.foldSeries texts order visibility items measure spec := by
  have captures := (written_spec valid capture facts).2.2
  have rows : (written scope s capture facts).factsForMeasure items measure.id spec.stream =
      s.factsForMeasure items measure.id spec.stream := by
    unfold Store.factsForMeasure
    rw [written_heldFacts valid capture facts silent]
  have sources : (written scope s capture facts).producersForCaptureSource "analysis-report" =
      s.producersForCaptureSource "analysis-report" ++ (if capture.source = "analysis-report" ∧ capture.status = .done
        then [capture.producer] else []) := by
    unfold Store.producersForCaptureSource
    rw [captures, List.filter_append, List.map_append]
    congr 1
    by_cases reported : capture.source = "analysis-report" ∧ capture.status = .done
    · simp [reported, NewMetricCapture.toCapture]
    · rw [if_neg reported, List.filter_eq_nil_iff.mpr, List.map_nil]
      intro c member
      rw [List.mem_singleton.mp member]
      simpa [NewMetricCapture.toCapture] using reported
  obtain ⟨slice, apart⟩ : (written scope s capture facts).sliceProducers texts (s.factsForMeasure items measure.id spec.stream)
      measure spec.filter = s.sliceProducers texts (s.factsForMeasure items measure.id spec.stream) measure spec.filter ∧
      (capture.status = .done → capture.producer ∉
        s.sliceProducers texts (s.factsForMeasure items measure.id spec.stream) measure spec.filter) := by
    unfold Store.sliceProducers
    simp only
    by_cases seeded : (((s.factsForMeasure items measure.id spec.stream).filter (spec.filter.matches texts)).map
        (·.capture.producer)).isEmpty = true ∧ (measure.key == "oxplow.lint_hit") = true
    · have seed : ((((s.factsForMeasure items measure.id spec.stream).filter (spec.filter.matches texts)).map
          (·.capture.producer)).isEmpty && measure.key == "oxplow.lint_hit") = true := Bool.and_eq_true_iff.mpr seeded
      have none : (s.factsForMeasure items measure.id spec.stream).filter (spec.filter.matches texts) = [] := by
        simpa using seeded.1
      rw [if_pos seed, if_pos seed]
      by_cases done : capture.status = .done
      · have outside := reports done (by simpa using seeded.2) none
        rw [sources] at outside ⊢
        rw [List.mem_append, not_or] at outside
        by_cases reported : capture.source = "analysis-report" ∧ capture.status = .done
        · rw [if_pos reported] at outside
          exact absurd (List.mem_singleton_self _) outside.2
        · rw [if_neg reported, List.append_nil]
          exact ⟨rfl, fun _ => outside.1⟩
      · rw [sources, if_neg (fun both => done both.2), List.append_nil]
        exact ⟨rfl, fun finished => absurd finished done⟩
    · have plain : ¬ ((((s.factsForMeasure items measure.id spec.stream).filter (spec.filter.matches texts)).map
          (·.capture.producer)).isEmpty && measure.key == "oxplow.lint_hit") = true :=
        fun both => seeded (Bool.and_eq_true_iff.mp both)
      rw [if_neg plain, if_neg plain]
      refine ⟨rfl, fun done member => ?_⟩
      obtain ⟨row, inSlice, same⟩ := List.mem_map.mp member
      have inRows := (List.mem_filter.mp inSlice).1
      unfold Store.factsForMeasure at inRows
      obtain ⟨held, inHeld, rfl⟩ := List.mem_map.mp inRows
      exact unknown done (same ▸ heldFacts_producer valid.captureIds inHeld)
  unfold Store.foldSeries
  simp only [rows, slice, written_capturesForProducers valid capture facts apart]
  have restated : ∀ scope' (listed : List Capture), (∀ c ∈ listed, c ∈ s.captures) →
      (written scope s capture facts).restatedBy scope' listed (s.factsForMeasure items measure.id spec.stream) =
        s.restatedBy scope' listed (s.factsForMeasure items measure.id spec.stream) := by
    intro scope' listed known
    funext id
    unfold Store.restatedBy
    cases scope' with
    | complete => rfl
    | perSubject => rfl
    | perPath =>
      apply List.flatMap_congr
      intro c member
      exact written_scannedPaths valid capture facts (known c (List.mem_filter.mp member).1)
  have listed : ∀ producers, ∀ c ∈ (s.capturesForProducers producers).filter (fun c => spec.stream.all (c.streamId == ·)),
      c ∈ s.captures := by
    intro producers c member
    exact (List.mem_filter.mp ((List.mem_insertionSort _).mp (List.mem_filter.mp member).1)).1
  cases measure.captureScope with
  | complete => rfl
  | perPath => simp only [restated _ _ (listed _)]
  | perSubject => simp only [restated _ _ (listed _)]

end Series
end Oxplow.Proofs.SeriesWrites
