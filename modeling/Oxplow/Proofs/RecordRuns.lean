import Oxplow.Proofs.Readback

/-! One recorded capture, and sequences of them: the store stays valid, what older
captures read stays, and each part the capture restates is restated once. -/

namespace Oxplow.Proofs.RecordRuns
open Library Metrics FactChain Restatement StoreFrame StoreInvariant WriteParts

variable {V : Type} {scope : Nat → Option CaptureScope}

variable {capture : NewMetricCapture} {part : Part}

theorem route_some {f : NewFact V} (routed : route scope capture f = some part) :
    part.covers f = true ∧ Scoped scope part ∧ capture.status = .done := by
  unfold route at routed
  split at routed
  next done =>
    split at routed
    next complete =>
      cases routed
      exact ⟨by simp [Part.covers], complete, done⟩
    next path perPath found =>
      split at routed
      next => cases routed
      next =>
        cases routed
        exact ⟨by simp [Part.covers, found], perPath, done⟩
    next => cases routed
  next => cases routed

/-- A finished capture stores no fact of a complete-scope measure as is, and a finished
scan none of a file. -/
theorem route_of_covered (done : capture.status = .done) (fits : Scoped scope part)
    (scanned : (∃ m, part = .measure m) ∨ capture.scanKind ≠ .asserted) {f : NewFact V} (covered : part.covers f = true) :
    route scope capture f = some part := by
  unfold route
  rw [if_pos done]
  cases part with
  | measure m =>
    have measure : f.measureId = m := by simpa [Part.covers] using covered
    have complete : scope f.measureId = some .complete := measure ▸ fits
    rw [complete, measure]
  | file m path =>
    obtain ⟨measure, found⟩ : f.measureId = m ∧ f.path = some path := by simpa [Part.covers] using covered
    have perPath : scope f.measureId = some .perPath := measure ▸ fits
    have kind : capture.scanKind ≠ .asserted := by
      rcases scanned with ⟨_, same⟩ | kind
      · cases same
      · exact kind
    rw [perPath, found, measure]
    exact if_neg kind

theorem routedTo_eq (done : capture.status = .done) (fits : Scoped scope part)
    (scanned : (∃ m, part = .measure m) ∨ capture.scanKind ≠ .asserted) (facts : List (NewFact V)) :
    routedTo scope capture facts (some part) = facts.filter part.covers := by
  apply List.filter_congr
  intro f _
  rw [Bool.eq_iff_iff, decide_eq_true_eq]
  exact ⟨fun routed => (route_some routed).1, route_of_covered done fits scanned⟩

variable {m : Nat}

theorem chainedMeasure_eq {part : Option Part} : chainedMeasure part = some m ↔ part = some (.measure m) := by
  cases part with
  | none => simp [chainedMeasure]
  | some part => cases part <;> simp [chainedMeasure]

theorem pathedFile_eq {part : Option Part} {path : String} : pathedFile part = some (m, path) ↔ part = some (.file m path) := by
  cases part with
  | none => simp [pathedFile]
  | some part => cases part <;> simp [pathedFile]

variable {facts : List (NewFact V)}

theorem routedTo_covered : ∀ f ∈ routedTo scope capture facts (some part), part.covers f = true := by
  intro f member
  have routed : route scope capture f = some part := by simpa using (List.mem_filter.mp member).2
  exact (route_some routed).1

variable {s : Store V} {K : Capture}

theorem mem_restatedParts_measure :
    Part.measure m ∈ restatedParts scope s K capture facts ↔
      (∃ f ∈ facts, route scope capture f = some (.measure m)) ∨
        ∃ b, s.previousDone K.id K.toNewMetricCapture = some b ∧ (s.link (.measure m) b).isSome = true := by
  have routed : m ∈ (facts.map (route scope capture)).filterMap chainedMeasure ↔
      ∃ f ∈ facts, route scope capture f = some (.measure m) := by
    simp only [List.mem_filterMap, List.mem_map, exists_exists_and_eq_and, chainedMeasure_eq]
  unfold restatedParts chainedMeasures
  simp only [List.mem_append, List.mem_map, Part.measure.injEq, exists_eq_right, reduceCtorEq, and_false, exists_false,
    or_false, List.mem_dedup, List.mem_insertionSort, routed]
  refine or_congr Iff.rfl ?_
  cases s.previousDone K.id K.toNewMetricCapture with
  | none => simp
  | some b =>
    simp only [List.mem_map, List.mem_filter, decide_eq_true_eq, Option.some.injEq, exists_eq_left']
    constructor
    · rintro ⟨key, ⟨member, rfl⟩, rfl⟩
      exact (Table.mem_keys_iff s.chains key).mp member
    · intro linked
      exact ⟨(b, m), ⟨(Table.mem_keys_iff s.chains (b, m)).mpr linked, rfl⟩, rfl⟩

theorem mem_restatedParts_file {path : String} :
    Part.file m path ∈ restatedParts scope s K capture facts ↔ ∃ f ∈ facts, route scope capture f = some (.file m path) := by
  unfold restatedParts pathedFiles
  simp only [List.mem_append, List.mem_map, reduceCtorEq, and_false, exists_false, false_or, Part.file.injEq,
    List.mem_dedup, List.mem_insertionSort, List.mem_filterMap]
  constructor
  · rintro ⟨⟨_, _⟩, ⟨part, ⟨f, inside, rfl⟩, found⟩, rfl, rfl⟩
    exact ⟨f, inside, pathedFile_eq.mp found⟩
  · rintro ⟨f, inside, found⟩
    exact ⟨(m, path), ⟨_, ⟨f, inside, rfl⟩, pathedFile_eq.mpr found⟩, rfl, rfl⟩

theorem restatedParts_distinct (s : Store V) (K : Capture) (capture : NewMetricCapture) (facts : List (NewFact V)) :
    (restatedParts scope s K capture facts).Nodup := by
  unfold restatedParts
  refine List.Nodup.append ((List.nodup_dedup _).map ?_) ((List.nodup_dedup _).map ?_) ?_
  · intro a b same
    simpa using same
  · rintro ⟨m, path⟩ ⟨m', path'⟩ same
    simpa using same
  · intro part inChains inFiles
    obtain ⟨m, _, rfl⟩ := List.mem_map.mp inChains
    obtain ⟨file, _, same⟩ := List.mem_map.mp inFiles
    cases same

theorem restatedParts_scoped (valid : Valid scope s) : ∀ part ∈ restatedParts scope s K capture facts, Scoped scope part := by
  intro part member
  cases part with
  | measure m =>
    rcases mem_restatedParts_measure.mp member with ⟨f, _, routed⟩ | ⟨b, _, linked⟩
    · exact (route_some routed).2.1
    · obtain ⟨link, found⟩ := Option.isSome_iff_exists.mp linked
      exact valid.linkScoped _ _ _ found
  | file m path =>
    obtain ⟨f, _, routed⟩ := mem_restatedParts_file.mp member
    exact (route_some routed).2.1

/-! ## One recorded capture -/

/-- The store with the capture's row and the facts it stores as they are. -/
def bareStore (scope : Nat → Option CaptureScope) (s : Store V) (capture : NewMetricCapture) (facts : List (NewFact V)) :
    Store V :=
  (s.insertCapture capture).1.insertFacts s.nextCapture (routedTo scope capture facts none)

/-- The store once the capture and all its facts are written. -/
def written [DecidableEq V] (scope : Nat → Option CaptureScope) (s : Store V) (capture : NewMetricCapture) (facts : List (NewFact V)) :
    Store V :=
  (s.insertCapture capture).1.write scope s.nextCapture capture facts

variable {f : Fact V}

/-- What stored an older fact is an older capture. -/
theorem storedFor_older {s' : Store V} (valid : Valid scope s) (inside : f ∈ s.facts) {c : Capture}
    (captures : s'.captures = s.captures ++ [capture.toCapture s.nextCapture]) (stored : s'.storedFor c f = true) :
    s.storedFor c f = true := by
  obtain ⟨fc, captured, id, origin, finished⟩ := storedFor_iff.mp stored
  rw [captures] at captured
  rcases List.mem_append.mp captured with captured | captured
  · exact storedFor_iff.mpr ⟨fc, captured, id, origin, finished⟩
  · obtain ⟨c, member, same⟩ := valid.factCaptured f inside
    have old := valid.captureOld c member
    rw [List.mem_singleton.mp captured, toCapture_id] at id
    omega

section Written
variable [DecidableEq V] {s : Store V} (valid : Valid scope s) (capture : NewMetricCapture) (facts : List (NewFact V))
include valid

omit [DecidableEq V] in
theorem bareStore_spec : Valid scope (bareStore scope s capture facts) ∧
    Frame s (bareStore scope s capture facts) (capture.toCapture s.nextCapture) ∧
    (bareStore scope s capture facts).captures = s.captures ++ [capture.toCapture s.nextCapture] := by
  have inserted := insertCapture_valid valid capture
  have member : capture.toCapture s.nextCapture ∈ (s.insertCapture capture).1.captures := by simp [Store.insertCapture]
  refine ⟨insertFacts_valid inserted member _,
    (insertCapture_frame valid capture).trans (insertFacts_frame _ (capture.toCapture s.nextCapture) _), ?_⟩
  unfold bareStore
  rw [insertFacts_eq]
  rfl

omit [DecidableEq V] in
theorem bareStore_writing (done : capture.status = .done) :
    Writing (bareStore scope s capture facts) (capture.toCapture s.nextCapture) := by
  have captures := (bareStore_spec valid capture facts).2.2
  refine ⟨by simp [captures], ?_, done⟩
  intro c member
  rw [captures] at member
  rcases List.mem_append.mp member with member | member
  · exact (valid.captureOld c member).le
  · rw [List.mem_singleton.mp member]

/-- A finished capture's write: the bare facts, then each part once. -/
theorem written_parts (done : capture.status = .done) :
    let K := capture.toCapture s.nextCapture
    let bare := bareStore scope s capture facts
    let s' := written scope s capture facts
    (Valid scope s' ∧ Writing s' K ∧ Frame bare s' K) ∧
      (∀ part, Scoped scope part → part ∉ restatedParts scope bare K capture facts → Untouched part bare s') ∧
      ∀ part ∈ restatedParts scope bare K capture facts, ∃ before,
        RestatedOnce scope K (bare.previousDone K.id K.toNewMetricCapture)
          (fun part => routedTo scope capture facts (some part)) part bare s' before := by
  intro K bare s'
  have spec := bareStore_spec valid capture facts
  have covered : ∀ part ∈ restatedParts scope bare K capture facts, ∀ f ∈ routedTo scope capture facts (some part),
      part.covers f = true := fun part _ => routedTo_covered
  have loop := writeParts_spec (restatedParts_distinct bare K capture facts) (restatedParts_scoped spec.1) covered spec.1
    (bareStore_writing valid capture facts done) rfl
  have equal : s' = (restatedParts scope bare K capture facts).foldl
      (writePart K (bare.previousDone K.id K.toNewMetricCapture) fun part => routedTo scope capture facts (some part)) bare :=
    write_eq done
  rw [equal]
  exact loop

omit valid in
theorem written_unfinished (unfinished : capture.status ≠ .done) :
    written scope s capture facts = bareStore scope s capture facts := by
  unfold written bareStore Store.write
  rw [if_pos unfinished]
  rfl

theorem written_spec : Valid scope (written scope s capture facts) ∧
    Frame s (written scope s capture facts) (capture.toCapture s.nextCapture) ∧
    (written scope s capture facts).captures = s.captures ++ [capture.toCapture s.nextCapture] := by
  have bare := bareStore_spec valid capture facts
  by_cases done : capture.status = .done
  · obtain ⟨⟨lastValid, _, frame⟩, _, _⟩ := written_parts valid capture facts done
    refine ⟨lastValid, bare.2.1.trans frame, ?_⟩
    unfold written
    rw [write_eq done, (writeParts_rows _ _ _ _ _).1]
    exact bare.2.2
  · rw [written_unfinished capture facts done]
    exact bare

omit valid [DecidableEq V] in
/-- The facts a finished capture stores as they are leave the parts it holds alone. -/
theorem bareStore_untouched (done : capture.status = .done) (fits : Scoped scope part)
    (scanned : (∃ m, part = .measure m) ∨ capture.scanKind ≠ .asserted) :
    Untouched part (s.insertCapture capture).1 (bareStore scope s capture facts) := by
  refine insertFacts_untouched _ ?_
  intro f member
  have bare : route scope capture f = none := by simpa using (List.mem_filter.mp member).2
  rw [← Bool.not_eq_true]
  intro covered
  rw [route_of_covered done fits scanned covered] at bare
  cases bare

/-- How a recorded capture restates a part: once, from `before`, by `r`. -/
structure RestatedAs (scope : Nat → Option CaptureScope) (s : Store V) (capture : NewMetricCapture) (facts : List (NewFact V))
    (part : Part) (before : Store V) (r : Restatement V) : Prop where
  valid : Valid scope before
  writing : Writing before (capture.toCapture s.nextCapture)
  unchanged : Untouched part (s.insertCapture capture).1 before
  step : Restates before (capture.toCapture s.nextCapture) part (partBase before (capture.toCapture s.nextCapture) part)
    (facts.filter part.covers) r
  source : r = partRestatement before (capture.toCapture s.nextCapture)
    (before.previousDone s.nextCapture capture) (fun part => facts.filter part.covers) part
  kept : Untouched part (before.restate s.nextCapture part r) (written scope s capture facts)

theorem written_restated (done : capture.status = .done) (fits : Scoped scope part)
    (scanned : (∃ m, part = .measure m) ∨ capture.scanKind ≠ .asserted)
    (restated : part ∈ restatedParts scope (bareStore scope s capture facts) (capture.toCapture s.nextCapture) capture facts) :
    ∃ before r, RestatedAs scope s capture facts part before r := by
  obtain ⟨before, once⟩ := (written_parts valid capture facts done).2.2 part restated
  have step := partRestatement_restates once.valid (capture.toCapture s.nextCapture)
    (fun part => routedTo scope capture facts (some part)) (show ∀ f ∈ routedTo scope capture facts (some part), part.covers f = true from routedTo_covered)
  have routed := routedTo_eq done fits scanned facts
  have source : partRestatement before (capture.toCapture s.nextCapture)
      (before.previousDone (capture.toCapture s.nextCapture).id (capture.toCapture s.nextCapture).toNewMetricCapture)
      (fun part => routedTo scope capture facts (some part)) part =
      partRestatement before (capture.toCapture s.nextCapture) (before.previousDone s.nextCapture capture)
        (fun part => facts.filter part.covers) part := by
    cases part with
    | measure =>
      simp only [partRestatement, routed]
      rfl
    | file => simp only [partRestatement, routed]
  have kept := once.kept
  unfold writePart at kept
  rw [once.based, source] at kept
  rw [source, routed] at step
  exact ⟨before, _, once.valid, once.writing, (bareStore_untouched capture facts done fits scanned).trans once.unchanged,
    step, rfl, kept⟩

/-- A part holds no fact of a new capture until it is restated. -/
theorem RestatedAs.fresh {before : Store V} {r : Restatement V} (as_ : RestatedAs scope s capture facts part before r)
    (inside : f ∈ before.facts) (covered : part.covers f.toNewFact = true) : f ∈ s.facts ∧ f.captureId < s.nextCapture := by
  have old : f ∈ s.facts := (as_.unchanged.mem_iff covered).mp inside
  obtain ⟨c, member, same⟩ := valid.factCaptured f old
  exact ⟨old, same ▸ valid.captureOld c member⟩

/-- A part that is not restated stays as it was, and no fact of it was given. -/
theorem written_unrestated (done : capture.status = .done) (fits : Scoped scope part)
    (scanned : (∃ m, part = .measure m) ∨ capture.scanKind ≠ .asserted)
    (absent : part ∉ restatedParts scope (bareStore scope s capture facts) (capture.toCapture s.nextCapture) capture facts) :
    Untouched part (s.insertCapture capture).1 (written scope s capture facts) ∧ facts.filter part.covers = [] := by
  refine ⟨(bareStore_untouched capture facts done fits scanned).trans
    ((written_parts valid capture facts done).2.1 part fits absent), ?_⟩
  apply List.filter_eq_nil_iff.mpr
  intro f member covered
  have routed := route_of_covered done fits scanned covered
  cases part with
  | measure m => exact absent (mem_restatedParts_measure.mpr (.inl ⟨f, member, routed⟩))
  | file m path => exact absent (mem_restatedParts_file.mpr ⟨f, member, routed⟩)

/-- A finished capture has a row for every part it stores a fact of. -/
theorem written_stored_linked (done : capture.status = .done) (fits : Scoped scope part)
    (scanned : (∃ m, part = .measure m) ∨ capture.scanKind ≠ .asserted) (inside : f ∈ (written scope s capture facts).facts)
    (covered : part.covers f.toNewFact = true) (own : f.captureId = s.nextCapture) :
    ((written scope s capture facts).link part s.nextCapture).isSome = true := by
  have old : f ∉ s.facts := by
    intro old
    obtain ⟨c, member, same⟩ := valid.factCaptured f old
    have before := valid.captureOld c member
    omega
  by_cases restated : part ∈
      restatedParts scope (bareStore scope s capture facts) (capture.toCapture s.nextCapture) capture facts
  · obtain ⟨before, r, as_⟩ := written_restated valid capture facts done fits scanned restated
    have present := (as_.kept.mem_iff covered).mp inside
    rw [restate_facts] at present
    rcases List.mem_append.mp present with present | present
    · obtain ⟨g, wasThere, rfl⟩ := List.mem_map.mp present
      rw [closing_columns] at covered
      have early := (as_.fresh valid capture facts wasThere covered).2
      rw [closing_captureId] at own
      omega
    · obtain ⟨_, _, source, _, _⟩ := mem_numbered present
      obtain ⟨link, linked, _⟩ := as_.step.stored_linked as_.valid.linkStart (fun none => by simp [none] at source)
      have same := restate_link before s.nextCapture part r part s.nextCapture
      rw [if_pos ⟨rfl, rfl⟩, linked, Option.some_or] at same
      rw [as_.kept.links, same]
      rfl
  · have untouched := (written_unrestated valid capture facts done fits scanned restated).1
    exact absurd ((untouched.mem_iff covered).mp inside) old

omit valid in
theorem written_nextCapture : (written scope s capture facts).nextCapture = s.nextCapture + 1 := by
  have bare : (bareStore scope s capture facts).nextCapture = s.nextCapture + 1 := by
    unfold bareStore
    rw [insertFacts_eq]
    rfl
  by_cases done : capture.status = .done
  · unfold written
    rw [write_eq done, (writeParts_rows _ _ _ _ _).2.1]
    exact bare
  · rw [written_unfinished capture facts done]
    exact bare

/-- A write changes no fact of another stream and producer, and an unfinished capture's
changes none at all. -/
theorem written_fact_old (inside : f ∈ (written scope s capture facts).facts) (notOwn : f.captureId ≠ s.nextCapture)
    (foreign : capture.status = .done → ∀ fc ∈ s.captures, fc.id = f.captureId → fc.origin ≠ capture.origin) : f ∈ s.facts := by
  by_cases done : capture.status = .done
  · obtain ⟨change, news, whole, keeps, born, others, _⟩ := (written_spec valid capture facts).2.1.facts
    rw [whole] at inside
    rcases List.mem_append.mp inside with inside | inside
    · obtain ⟨g, old, rfl⟩ := List.mem_map.mp inside
      have captureId := (keeps g).2.2
      rw [captureId] at notOwn foreign
      rw [others g old ⟨notOwn, foreign done⟩]
      exact old
    · exact absurd (born f inside) notOwn
  · rw [written_unfinished capture facts done] at inside
    unfold bareStore at inside
    rw [insertFacts_eq] at inside
    rcases List.mem_append.mp inside with inside | inside
    · exact inside
    · exact absurd (mem_numbered inside).1 notOwn

end Written

/-! ## Sequences of writes -/

section Runs
variable [DecidableEq V] {refused : Store V → NewMetricCapture → List (NewFact V) → Bool}

/-- A write that records a capture: it is neither a repeat nor refused. -/
def Accepted (refused : Store V → NewMetricCapture → List (NewFact V) → Bool) (s : Store V) (capture : NewMetricCapture)
    (facts : List (NewFact V)) : Prop :=
  s.existing? capture = none ∧ refused s capture facts = false

instance (s : Store V) (capture : NewMetricCapture) (facts : List (NewFact V)) :
    Decidable (Accepted refused s capture facts) := inferInstanceAs (Decidable (_ ∧ _))

theorem record_eq (s : Store V) (capture : NewMetricCapture) (facts : List (NewFact V)) :
    s.record scope refused capture facts = if Accepted refused s capture facts then written scope s capture facts else s := by
  unfold Store.record Store.recordFactsTx
  split
  next accepted =>
    split at accepted
    next repeated =>
      obtain ⟨rfl, rfl⟩ := Prod.mk.inj (Option.some.inj accepted)
      rw [if_neg (fun fresh => by simp [fresh.1] at repeated)]
    next new =>
      split at accepted
      next => cases accepted
      next passed =>
        obtain ⟨rfl, rfl⟩ := Prod.mk.inj (Option.some.inj accepted)
        rw [if_pos ⟨new, by simpa using passed⟩]
        rfl
  next rejected =>
    split at rejected
    next => cases rejected
    next =>
      split at rejected
      next stops => rw [if_neg (fun fresh => by simp [fresh.2] at stops)]
      next => cases rejected

/-- A property that every recorded capture preserves holds after any sequence of writes. -/
theorem recordAll_invariant {P : Store V → Prop}
    (step : ∀ s capture facts, Valid scope s → P s → P (written scope s capture facts)) (valid : Valid scope s) (start : P s)
    (writes : List (NewMetricCapture × List (NewFact V))) :
    Valid scope (s.recordAll scope refused writes) ∧ P (s.recordAll scope refused writes) := by
  induction writes generalizing s with
  | nil => exact ⟨valid, start⟩
  | cons write writes ih =>
    obtain ⟨capture, facts⟩ := write
    change Valid scope ((s.record scope refused capture facts).recordAll scope refused writes) ∧
      P ((s.record scope refused capture facts).recordAll scope refused writes)
    rw [record_eq]
    split
    · exact ih (written_spec valid capture facts).1 (step s capture facts valid start)
    · exact ih valid start

theorem recordAll_valid (valid : Valid scope s) (writes : List (NewMetricCapture × List (NewFact V))) :
    Valid scope (s.recordAll scope refused writes) :=
  (recordAll_invariant (P := fun _ => True) (fun _ _ _ _ _ => trivial) valid trivial writes).1

/-- What captures of the store hold is not changed by later writes. -/
theorem recordAll_heldFacts (valid : Valid scope s) {holders : Holders} (old : ∀ c, holders.wants c = true → c.id < s.nextCapture)
    (writes : List (NewMetricCapture × List (NewFact V))) (m : Nat) :
    (s.recordAll scope refused writes).heldFacts m holders = s.heldFacts m holders := by
  refine (recordAll_invariant (P := fun t => s.nextCapture ≤ t.nextCapture ∧ t.heldFacts m holders = s.heldFacts m holders)
    ?_ valid ⟨le_rfl, rfl⟩ writes).2.2
  intro t capture facts tValid later
  have frame := (written_spec tValid capture facts).2.1
  refine ⟨by rw [written_nextCapture]; omega, (frame.heldFacts ?_ m).trans later.2⟩
  intro c wanted
  exact Nat.lt_of_lt_of_le (old c wanted) later.1

theorem recordAll_partHeld (valid : Valid scope s) {id : Nat} (old : id < s.nextCapture) (part : Part)
    (writes : List (NewMetricCapture × List (NewFact V))) :
    (s.recordAll scope refused writes).partHeld id part = s.partHeld id part := by
  refine (recordAll_invariant (P := fun t => id < t.nextCapture ∧ t.partHeld id part = s.partHeld id part)
    ?_ valid ⟨old, rfl⟩ writes).2.2
  intro t capture facts tValid later
  refine ⟨by rw [written_nextCapture]; omega, ?_⟩
  exact ((written_spec tValid capture facts).2.1.partHeld later.1 part).trans later.2

/-- A capture recorded under an id, with the facts it was given. -/
structure Recorded (V : Type) where
  id : Nat
  capture : NewMetricCapture
  facts : List (NewFact V)
  deriving DecidableEq

/-- The captures a sequence of writes records. -/
def recorded (scope : Nat → Option CaptureScope) (refused : Store V → NewMetricCapture → List (NewFact V) → Bool) :
    Store V → List (NewMetricCapture × List (NewFact V)) → List (Recorded V)
  | _, [] => []
  | s, (capture, facts) :: writes =>
    if Accepted refused s capture facts then
      ⟨s.nextCapture, capture, facts⟩ :: recorded scope refused (written scope s capture facts) writes
    else recorded scope refused s writes

/-- The store's captures are the ones recorded. -/
theorem recordAll_captures (valid : Valid scope s) (writes : List (NewMetricCapture × List (NewFact V))) :
    (s.recordAll scope refused writes).captures =
      s.captures ++ (recorded scope refused s writes).map fun entry => entry.capture.toCapture entry.id := by
  induction writes generalizing s with
  | nil => simp [Store.recordAll, recorded]
  | cons write writes ih =>
    obtain ⟨capture, facts⟩ := write
    change ((s.record scope refused capture facts).recordAll scope refused writes).captures = _
    unfold recorded
    rw [record_eq]
    split
    · rw [ih (written_spec valid capture facts).1, (written_spec valid capture facts).2.2]
      simp
    · exact ih valid

/-- A recorded capture was written at one point of the sequence. -/
theorem recorded_split {writes : List (NewMetricCapture × List (NewFact V))} {entry : Recorded V}
    (member : entry ∈ recorded scope refused s writes) :
    ∃ earlier later,
      entry.id = (s.recordAll scope refused earlier).nextCapture ∧
      s.recordAll scope refused writes =
        (written scope (s.recordAll scope refused earlier) entry.capture entry.facts).recordAll scope refused later := by
  induction writes generalizing s with
  | nil => simp [recorded] at member
  | cons write writes ih =>
    obtain ⟨capture, facts⟩ := write
    have first : ∀ rest, s.recordAll scope refused ((capture, facts) :: rest) =
        (s.record scope refused capture facts).recordAll scope refused rest := fun _ => rfl
    unfold recorded at member
    split at member
    next accepted =>
      rcases List.mem_cons.mp member with rfl | member
      · refine ⟨[], writes, rfl, ?_⟩
        rw [first, record_eq, if_pos accepted]
        rfl
      · obtain ⟨earlier, later, id, same⟩ := ih member
        refine ⟨(capture, facts) :: earlier, later, ?_, ?_⟩
        · rw [first, record_eq, if_pos accepted]
          exact id
        · rw [first, first, record_eq, if_pos accepted]
          exact same
    next rejected =>
      obtain ⟨earlier, later, id, same⟩ := ih member
      refine ⟨(capture, facts) :: earlier, later, ?_, ?_⟩
      · rw [first, record_eq, if_neg rejected]
        exact id
      · rw [first, first, record_eq, if_neg rejected]
        exact same

end Runs

/-! ## Plain rows, for concrete runs -/

/-- One producer's finished capture in stream 1. -/
def plainCapture (kind : ScanKind) (capturedAt : Int) : NewMetricCapture where
  streamId := 1
  threadId := none
  effortId := none
  producer := "gate"
  status := .done
  basisRef := none
  provenance := "observed"
  source := "scan"
  snapshotId := some 1
  closestVcsRev := none
  vcsRevExact := false
  branch := none
  capturedAt
  idempotencyKey := none
  scanKind := kind
  excluded := []

def plainFact (measureId value : Nat) (path : Option String) (line : Option Int) : NewFact Nat where
  measureId
  value
  numerator := none
  denominator := none
  subject := none
  path
  line
  severity := none
  rule := none
  detail := none
  dimsJson := none

/-- Measure 0 is complete-scope, measure 1 per-path. -/
def plainScope : Nat → Option CaptureScope
  | 0 => some .complete
  | 1 => some .perPath
  | _ => none

/-- Every write passes the checks. -/
def nothingRefused : Store Nat → NewMetricCapture → List (NewFact Nat) → Bool := fun _ _ _ => false

end Oxplow.Proofs.RecordRuns
