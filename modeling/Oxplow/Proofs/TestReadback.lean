import Mathlib.Algebra.Field.Rat
import Mathlib.Algebra.Order.Ring.Rat
import Oxplow.Metrics.TestRuns
import Oxplow.Proofs.PruneReads

/-! A subject's latest stored fact has the status of its last case, as long as each run's
skipped cases say what the fold already gives. -/

namespace Oxplow.Proofs.TestReadback
open Library Metrics FactChain Restatement StoreInvariant WriteParts RecordRuns

/-! ## The fold -/

section Fold
variable {V : Type}

theorem not_outranks_self (row : FactRow V) : outranks row row = false := by
  simp [outranks, Store.laterThan]

theorem not_outranks_of_outranks {a b : FactRow V} (before : outranks b a = true) : outranks a b = false := by
  unfold outranks Store.laterThan at before ⊢
  rw [← Bool.not_eq_true]
  simp only [Bool.or_eq_true, Bool.and_eq_true, decide_eq_true_eq, beq_iff_eq] at before ⊢
  omega

/-- The stored rows of a subject. -/
def rowsOf (s : Store V) (m : Nat) (x : String) : List (FactRow V) := (s.subjectRows m none).filter (·.subject == some x)

/-- Stored in the order they rank in, a subject's last row is the one the fold gives. -/
theorem mem_latestSubjectFacts {s : Store V} {m : Nat} {x : String}
    (ordered : (s.subjectRows m none).Pairwise fun a b => outranks b a = true)
    (origin : ∀ a ∈ s.subjectRows m none, ∀ b ∈ s.subjectRows m none, a.capture.origin = b.capture.origin) {row : FactRow V} :
    row ∈ s.latestSubjectFacts m none ∧ row.subject = some x ↔ (rowsOf s m x).getLast? = some row := by
  have sorted : (rowsOf s m x).Pairwise fun a b => outranks b a = true := ordered.filter _
  unfold Store.latestSubjectFacts
  rw [List.mem_insertionSort, List.mem_filter, List.all_eq_true]
  constructor
  · rintro ⟨⟨member, first⟩, subject⟩
    have inRows : row ∈ rowsOf s m x := List.mem_filter.mpr ⟨member, by simp [subject]⟩
    obtain ⟨earlier, last, whole⟩ := List.eq_nil_or_concat' _ |>.resolve_left (List.ne_nil_of_mem inRows)
    rw [whole, List.getLast?_append]
    rw [whole] at inRows sorted
    rcases List.mem_append.mp inRows with before | same
    · have later := (List.pairwise_append.mp sorted).2.2 row before last (List.mem_singleton_self _)
      have lastRow : last ∈ rowsOf s m x := by
        rw [whole]
        exact List.mem_append_right _ (List.mem_singleton_self _)
      obtain ⟨lastMember, lastSubject⟩ := List.mem_filter.mp lastRow
      have unranked := first last lastMember
      rw [origin last lastMember row member, later] at unranked
      simp [subject, beq_iff_eq.mp lastSubject] at unranked
    · rw [List.mem_singleton.mp same]
      rfl
  · intro last
    obtain ⟨earlier, whole⟩ := List.getLast?_eq_some_iff.mp last
    have inRows : row ∈ rowsOf s m x := by
      rw [whole]
      exact List.mem_append_right _ (List.mem_singleton_self _)
    obtain ⟨member, subject⟩ := List.mem_filter.mp inRows
    refine ⟨⟨member, fun other inside => ?_⟩, beq_iff_eq.mp subject⟩
    by_cases sameSubject : other.subject = row.subject
    · have inOther : other ∈ rowsOf s m x := List.mem_filter.mpr ⟨inside, by rw [sameSubject]; exact subject⟩
      rw [whole] at inOther sorted
      have unranked : outranks other row = false := by
        rcases List.mem_append.mp inOther with before | same
        · exact not_outranks_of_outranks ((List.pairwise_append.mp sorted).2.2 other before row (List.mem_singleton_self _))
        · rw [List.mem_singleton.mp same]
          exact not_outranks_self row
      simp [unranked]
    · simp [sameSubject]

end Fold

/-! ## Writing facts that nothing holds -/

section Written
variable {V : Type} [DecidableEq V] {scope : Nat → Option CaptureScope}

/-- Facts of no part are stored as they are, when no chain is to be carried on. -/
theorem written_bare {s : Store V} (chains : s.chains = []) {capture : NewMetricCapture} {facts : List (NewFact V)}
    (plain : ∀ f ∈ facts, route scope capture f = none) :
    written scope s capture facts = (s.insertCapture capture).1.insertFacts s.nextCapture facts := by
  have all : routedTo scope capture facts none = facts := by
    unfold routedTo
    rw [List.filter_eq_self]
    intro f member
    simp [plain f member]
  have bare : bareStore scope s capture facts = (s.insertCapture capture).1.insertFacts s.nextCapture facts := by
    unfold bareStore
    rw [all]
  by_cases done : capture.status = .done
  · have unchained : (bareStore scope s capture facts).chains = [] := by
      rw [bare, insertFacts_eq]
      exact chains
    have routes : facts.map (route scope capture) = List.replicate facts.length none := by
      apply List.eq_replicate_iff.mpr
      refine ⟨List.length_map _, ?_⟩
      intro part member
      obtain ⟨f, given, rfl⟩ := List.mem_map.mp member
      exact plain f given
    have parts : restatedParts scope (bareStore scope s capture facts) (capture.toCapture s.nextCapture) capture facts = [] := by
      unfold restatedParts
      rw [routes, unchained]
      cases (bareStore scope s capture facts).previousDone (capture.toCapture s.nextCapture).id
        (capture.toCapture s.nextCapture).toNewMetricCapture <;>
        simp [chainedMeasures, pathedFiles, chainedMeasure, pathedFile, Table.keys, List.filterMap_replicate]
    unfold written
    rw [write_eq done]
    change (restatedParts scope (bareStore scope s capture facts) (capture.toCapture s.nextCapture) capture facts).foldl _ _ = _
    rw [parts]
    exact bare
  · rw [written_unfinished capture facts done, bare]

end Written

section Rows
variable {V : Type} {scope : Nat → Option CaptureScope}

/-- The rows that a new capture's facts add to a measure's. -/
def newRows (K : Capture) (start m : Nat) (facts : List (NewFact V)) : List (FactRow V) :=
  (numbered K.id start facts).filterMap fun f =>
    if f.measureId == m && f.subject.isSome && K.status == .done then some (Store.slimRow f f.line K) else none

theorem insertFacts_subjectRows {s : Store V} (valid : Valid scope s) (capture : NewMetricCapture) (facts : List (NewFact V))
    (m : Nat) :
    ((s.insertCapture capture).1.insertFacts s.nextCapture facts).subjectRows m none =
      s.subjectRows m none ++ newRows (capture.toCapture s.nextCapture) s.nextFact m facts := by
  have captures : ((s.insertCapture capture).1.insertFacts s.nextCapture facts).captures =
      s.captures ++ [capture.toCapture s.nextCapture] := by
    rw [insertFacts_eq]
    rfl
  have stored : ((s.insertCapture capture).1.insertFacts s.nextCapture facts).facts =
      s.facts ++ numbered s.nextCapture s.nextFact facts := by
    rw [insertFacts_eq]
    rfl
  have found : ∀ f : Fact V, ((s.insertCapture capture).1.insertFacts s.nextCapture facts).capture? f.captureId =
      (s.capture? f.captureId).or (if s.nextCapture = f.captureId then some (capture.toCapture s.nextCapture) else none) := by
    intro f
    unfold Store.capture?
    rw [captures, List.find?_append, List.find?_singleton]
    simp
  unfold Store.subjectRows newRows
  rw [stored, List.filterMap_append]
  congr 1
  · apply List.filterMap_congr
    intro f member
    obtain ⟨c, captured, same⟩ := valid.factCaptured f member
    rw [found, ← same, capture?_of_mem valid.captureIds captured]
    rfl
  · apply List.filterMap_congr
    intro f member
    have own := (mem_numbered member).1
    have missing : s.capture? s.nextCapture = none := by
      apply List.find?_eq_none.mpr
      intro c captured
      have old := valid.captureOld c captured
      simp
      omega
    rw [found, own, missing, if_pos rfl]
    simp

theorem mem_newRows {K : Capture} {start m : Nat} {facts : List (NewFact V)} {row : FactRow V}
    (member : row ∈ newRows K start m facts) : row.capture = K ∧ start ≤ row.id := by
  obtain ⟨f, inside, read⟩ := List.mem_filterMap.mp member
  split at read
  next =>
    cases read
    exact ⟨rfl, (mem_numbered inside).2.2.2.1⟩
  next => cases read

theorem newRows_cons (K : Capture) (start m : Nat) (f : NewFact V) (facts : List (NewFact V)) : newRows K start m (f :: facts) =
    (if f.measureId == m && f.subject.isSome && K.status == .done then
      [Store.slimRow { f with id := start, captureId := K.id, lastCaptureId := none } f.line K]
    else []) ++ newRows K (start + 1) m facts := by
  unfold newRows
  rw [numbered, List.filterMap_cons]
  split
  next none =>
    split at none
    next => cases none
    next other => rw [if_neg other, List.nil_append]
  next row found =>
    split at found
    next given =>
      cases found
      rw [if_pos given]
      rfl
    next => cases found

/-- A capture's rows rank in the order they are stored. -/
theorem newRows_ordered (K : Capture) (start m : Nat) (facts : List (NewFact V)) :
    (newRows K start m facts).Pairwise fun a b => outranks b a = true := by
  induction facts generalizing start with
  | nil => exact .nil
  | cons f facts ih =>
    rw [newRows_cons]
    split
    next =>
      apply List.pairwise_cons.mpr
      refine ⟨fun later member => ?_, ih (start + 1)⟩
      obtain ⟨capture, after⟩ := mem_newRows member
      have increasing : start < later.id := after
      unfold outranks
      rw [capture]
      simp [Store.slimRow, Store.factRow, increasing]
    next => exact ih (start + 1)

/-- The columns of the rows a finished capture adds of a subject. -/
theorem newRows_of_subject {K : Capture} (done : K.status = .done) (start m : Nat) (x : String) (facts : List (NewFact V)) :
    ((newRows K start m facts).filter (·.subject == some x)).map (·.dimsJson) =
      (facts.filter fun f => f.measureId == m && f.subject == some x).map (·.dimsJson) := by
  induction facts generalizing start with
  | nil => rfl
  | cons f facts ih =>
    rw [newRows_cons, List.filter_append, List.map_append, ih, List.filter_cons]
    by_cases measure : f.measureId = m
    · by_cases subject : f.subject = some x
      · simp [measure, subject, done, Store.slimRow, Store.factRow]
      · by_cases named : f.subject.isSome <;> simp [measure, subject, named, done, Store.slimRow, Store.factRow]
    · simp [measure]

end Rows

/-! ## The facts of a run -/

/-- The cases of a subject. -/
def casesOf {V : Type} (run : TestRun V) (x : String) : List (TestCaseResult V) := run.cases.filter (·.subject == x)

section Cases
variable {V : Type} [Field V] [LinearOrder V]

variable {prev : Option (TestCaseStat V)} {case : TestCaseResult V}

theorem mem_caseFacts {run : TestRun V} {f : NewFact V} (member : f ∈ run.caseFacts prev case) :
    f = case.fact run.caseMeasure 1 ∨ ∃ d ∈ run.durationMeasure, ∃ ms, f = case.fact d ms := by
  unfold TestRun.caseFacts at member
  generalize testCaseWrites prev case = writes at member
  obtain ⟨status, duration⟩ := writes
  rcases List.mem_append.mp member with stated | timed
  · cases status with
    | true => exact .inl (List.mem_singleton.mp stated)
    | false => cases stated
  · cases duration with
    | true =>
      obtain ⟨d, given, rest⟩ := Option.bind_eq_some_iff.mp (Option.mem_toList.mp timed)
      obtain ⟨ms, _, rfl⟩ := Option.map_eq_some_iff.mp rest
      exact .inr ⟨d, given, ms, rfl⟩
    | false => cases timed

/-- The status facts a run writes of its cases. -/
theorem caseFacts_status (run : TestRun V) (apart : ∀ d ∈ run.durationMeasure, d ≠ run.caseMeasure) (prev : Option (TestCaseStat V))
    (case : TestCaseResult V) (x : String) :
    (run.caseFacts prev case).filter (fun f => f.measureId == run.caseMeasure && f.subject == some x) =
      if case.subject = x ∧ (testCaseWrites prev case).1 = true then [case.fact run.caseMeasure 1] else [] := by
  have timed : ∀ f ∈ (run.durationMeasure.bind fun measure => case.timeMs.map fun ms => case.fact measure ms).toList,
      f.measureId ≠ run.caseMeasure := by
    intro f member
    rw [Option.mem_toList] at member
    obtain ⟨d, given, rest⟩ := Option.bind_eq_some_iff.mp member
    obtain ⟨ms, _, rfl⟩ := Option.map_eq_some_iff.mp rest
    exact apart d given
  have none : (if (testCaseWrites prev case).2 = true then
      (run.durationMeasure.bind fun measure => case.timeMs.map fun ms => case.fact measure ms).toList else []).filter
        (fun f => f.measureId == run.caseMeasure && f.subject == some x) = [] := by
    apply List.filter_eq_nil_iff.mpr
    intro f member
    split at member
    · simp [timed f member]
    · cases member
  unfold TestRun.caseFacts
  rw [List.filter_append, none, List.append_nil]
  by_cases writes : (testCaseWrites prev case).1 = true
  · by_cases subject : case.subject = x <;> simp [writes, subject, TestCaseResult.fact]
  · simp [writes]

/-- A case that writes no status has the status of its summary, and has not failed. -/
theorem unwritten (skipped : (testCaseWrites prev case).1 = false) :
    case.status ≠ "failed" ∧ prev.map (·.lastStatus) = some case.status := by
  simp only [testCaseWrites, Bool.or_eq_false_iff, beq_eq_false_iff_ne] at skipped
  refine ⟨skipped.1, ?_⟩
  cases prev with
  | none => simp at skipped
  | some row => simpa using skipped.2

theorem unwritten_of_same (unfailed : case.status ≠ "failed") (same : prev.map (·.lastStatus) = some case.status) :
    (testCaseWrites prev case).1 = false := by
  obtain ⟨row, rfl, last⟩ := Option.map_eq_some_iff.mp same
  simp [testCaseWrites, unfailed, last]

/-- What a run stores of a subject's statuses. -/
theorem run_status_facts (run : TestRun V) (apart : ∀ d ∈ run.durationMeasure, d ≠ run.caseMeasure)
    (prev : TestCaseResult V → Option (TestCaseStat V)) (x : String) :
    (run.cases.flatMap fun case => run.caseFacts (prev case) case).filter
        (fun f => f.measureId == run.caseMeasure && f.subject == some x) =
      ((casesOf run x).filter fun case => (testCaseWrites (prev case) case).1).map (·.fact run.caseMeasure 1) := by
  unfold casesOf
  rw [List.filter_flatMap, List.filter_filter]
  induction run.cases with
  | nil => rfl
  | cons case cases ih =>
    rw [List.flatMap_cons, ih, caseFacts_status run apart, List.filter_cons]
    by_cases subject : case.subject = x <;> by_cases writes : (testCaseWrites (prev case) case).1 = true <;> simp [subject, writes]

theorem upsert_status (row : Option (TestCaseStat V)) (case : TestCaseResult V) (recorded : Option V) (time : Int) (id : Nat) :
    (TestCaseStat.upsert row case recorded time id).lastStatus = case.status := by
  cases row <;> rfl

/-- After a run a subject's summary has the status of its last case. -/
theorem upserted_status {key : TestCaseResult V → Nat × String × String × String} {recorded : TestCaseResult V → Option V} {time : Int}
    {id : Nat} {x : String} {target : Nat × String × String × String} (keyed : ∀ case, key case = target ↔ case.subject = x)
    (cases : List (TestCaseResult V)) (stats : Table (Nat × String × String × String) (TestCaseStat V)) :
    ((cases.foldl (fun stats case => stats.insert (key case) (.upsert (stats.get (key case)) case (recorded case) time id)) stats).get
        target).map (·.lastStatus) =
      (((cases.filter (·.subject == x)).getLast?).map (·.status)).or ((stats.get target).map (·.lastStatus)) := by
  induction cases generalizing stats with
  | nil => rfl
  | cons case cases ih =>
    rw [List.foldl_cons, ih, Table.get_insert, List.filter_cons]
    by_cases subject : case.subject = x
    · rw [if_pos ((keyed case).mpr subject).symm, if_pos (by simpa using subject), List.getLast?_cons, Option.map_some, upsert_status]
      cases (cases.filter (·.subject == x)).getLast? <;> rfl
    · rw [if_neg (fun same => subject ((keyed case).mp same.symm)), if_neg (by simpa using subject)]

end Cases

/-! ## Sequences of runs -/

section History
variable {V : Type}

/-- The runs that were recorded, each with its capture. -/
def recordedRuns (accepted : List (TestRun V × RunOutcome)) : List (TestRun V × Nat) :=
  accepted.filterMap fun
    | (run, .recorded id) => some (run, id)
    | (_, .replayed _) => none

/-- The status of a subject's last case in the latest run that executed it. -/
def lastStatus (history : List (TestRun V × Nat)) (x : String) : Option String :=
  ((history.flatMap fun entry => casesOf entry.1 x).getLast?).map (·.status)

theorem lastStatus_snoc (history : List (TestRun V × Nat)) (entry : TestRun V × Nat) (x : String) :
    lastStatus (history ++ [entry]) x = ((casesOf entry.1 x).getLast?.map (·.status)).or (lastStatus history x) := by
  unfold lastStatus
  rw [List.flatMap_append, List.flatMap_singleton, List.getLast?_append]
  cases (casesOf entry.1 x).getLast? <;> rfl

/-- Cases that all have the subject's status leave it. -/
theorem lastStatus_append {first later : List (TestRun V × Nat)} {x status : String} (known : lastStatus first x = some status)
    (same : ∀ entry ∈ later, ∀ case ∈ casesOf entry.1 x, case.status = status) : lastStatus (first ++ later) x = some status := by
  unfold lastStatus at known ⊢
  rw [List.flatMap_append, List.getLast?_append]
  cases found : (later.flatMap fun entry => casesOf entry.1 x).getLast? with
  | none => exact known
  | some case =>
    obtain ⟨entry, member, inside⟩ := List.mem_flatMap.mp (List.mem_of_getLast? found)
    exact congrArg some (same entry member case inside)

/-- One stream, branch and producer, and the catalog's per-subject measures. -/
structure Series where
  stream : Nat
  branch : String
  producer : String
  measure : Nat

/-- The run is recorded in the series. -/
structure InSeries (scope : Nat → Option CaptureScope) (series : Series) (run : TestRun V) : Prop where
  stream : run.capture.streamId = series.stream
  branch : run.capture.branch.getD "" = series.branch
  producer : run.capture.producer = series.producer
  measure : run.caseMeasure = series.measure
  perSubject : scope run.caseMeasure = some .perSubject
  duration : ∀ d ∈ run.durationMeasure, scope d = some .perSubject ∧ d ≠ run.caseMeasure

/-- The run is finished, no earlier than the captures before it, and where the last case of a
subject says what its summary says, so do its other cases. -/
def Told (db : TestDb V) (run : TestRun V) : Prop :=
  db.store.existing? run.capture = none → run.capture.status = .done ∧
    (∀ c ∈ db.store.captures, c.capturedAt ≤ run.capture.capturedAt) ∧
    ∀ case ∈ run.cases, ∀ last ∈ (casesOf run case.subject).getLast?, last.status ≠ "failed" →
      (db.stats.get (TestDb.statKey run.capture case.subject)).map (·.lastStatus) = some last.status → case.status = last.status

instance (db : TestDb V) (run : TestRun V) : Decidable (Told db run) :=
  inferInstanceAs (Decidable (_ → _ ∧ (∀ c ∈ db.store.captures, _) ∧
    ∀ case ∈ run.cases, ∀ last ∈ (casesOf run case.subject).getLast?, _ → _ → _))

/-- The row is of a case with the subject's status, and of no later run than the status is from. -/
structure ReadsBack (history : List (TestRun V × Nat)) (x status : String) (row : FactRow V) : Prop where
  told : ∃ entry ∈ history, ∃ case ∈ casesOf entry.1 x, case.status = status ∧ row.dimsJson = case.dimsJson ∧
    row.capture = entry.1.capture.toCapture entry.2
  unchanged : ∀ first later, history = first ++ later → lastStatus first x = some status → status ≠ "failed" →
    (∀ entry ∈ later, ∀ case ∈ casesOf entry.1 x, case.status = status) →
      ∃ entry ∈ first, row.capture = entry.1.capture.toCapture entry.2

structure Sound (scope : Nat → Option CaptureScope) (series : Series) (db : TestDb V) (history : List (TestRun V × Nat)) : Prop where
  valid : Valid scope db.store
  chains : db.store.chains = []
  finished : ∀ c ∈ db.store.captures, c.status = .done ∧ c.origin = (series.stream, series.producer)
  stored : ∀ row ∈ db.store.subjectRows series.measure none, row.capture ∈ db.store.captures
  ordered : (db.store.subjectRows series.measure none).Pairwise fun a b => outranks b a = true
  summaries : ∀ x, (db.stats.get (series.stream, series.branch, series.producer, x)).map (·.lastStatus) = lastStatus history x
  reads : ∀ x status, lastStatus history x = some status →
    ∃ row, (rowsOf db.store series.measure x).getLast? = some row ∧ ReadsBack history x status row

end History

/-! ## A run -/

section Runs
variable {V : Type} [Field V] [LinearOrder V] {scope : Nat → Option CaptureScope} {series : Series} {db : TestDb V}
  {history : List (TestRun V × Nat)} {run : TestRun V}

/-- The facts a run stores. -/
def runFacts (db : TestDb V) (run : TestRun V) : List (NewFact V) :=
  run.cases.flatMap fun case => run.caseFacts (db.stats.get (TestDb.statKey run.capture case.subject)) case

theorem runFacts_plain (inSeries : InSeries scope series run) : ∀ f ∈ runFacts db run, route scope run.capture f = none := by
  intro f member
  obtain ⟨case, _, inside⟩ := List.mem_flatMap.mp member
  have perSubject : scope f.measureId = some .perSubject := by
    rcases mem_caseFacts inside with rfl | ⟨d, given, ms, rfl⟩
    · exact inSeries.perSubject
    · exact (inSeries.duration d given).1
  unfold route
  rw [perSubject]
  split <;> rfl

omit [Field V] [LinearOrder V] in
variable {x : String}

theorem statKey_iff (inSeries : InSeries scope series run) {subject : String} :
    TestDb.statKey run.capture subject = (series.stream, series.branch, series.producer, x) ↔ subject = x := by
  simp [TestDb.statKey, inSeries.stream, inSeries.branch, inSeries.producer]

/-- A subject's rows after a run. -/
theorem rowsOf_recorded (sound : Sound scope series db history) (inSeries : InSeries scope series run) (x : String) :
    rowsOf (written scope db.store run.capture (runFacts db run)) series.measure x = rowsOf db.store series.measure x ++
      (newRows (run.capture.toCapture db.store.nextCapture) db.store.nextFact series.measure (runFacts db run)).filter
        (·.subject == some x) := by
  unfold rowsOf
  rw [written_bare sound.chains (runFacts_plain inSeries), insertFacts_subjectRows sound.valid, List.filter_append]

/-- The cases of the subject that the run writes. -/
def writtenCases (db : TestDb V) (run : TestRun V) (x : String) : List (TestCaseResult V) :=
  (casesOf run x).filter fun case => (testCaseWrites (db.stats.get (TestDb.statKey run.capture case.subject)) case).1

theorem newRows_cases (inSeries : InSeries scope series run) (done : run.capture.status = .done) (x : String) :
    ((newRows (run.capture.toCapture db.store.nextCapture) db.store.nextFact series.measure (runFacts db run)).filter
        (·.subject == some x)).map (·.dimsJson) = (writtenCases db run x).map (·.dimsJson) := by
  rw [newRows_of_subject done, ← inSeries.measure]
  unfold runFacts
  rw [run_status_facts run (fun d given => (inSeries.duration d given).2), List.map_map]
  rfl

omit [Field V] [LinearOrder V] in
theorem subject_of_mem {run : TestRun V} {case : TestCaseResult V} (member : case ∈ casesOf run x) : case.subject = x := by
  simpa using (List.mem_filter.mp member).2

/-- A run that changes no status of a subject writes none. -/
theorem writtenCases_of_same (sound : Sound scope series db history) (inSeries : InSeries scope series run) {status : String}
    (unfailed : status ≠ "failed") (known : lastStatus history x = some status)
    (same : ∀ case ∈ casesOf run x, case.status = status) : writtenCases db run x = [] := by
  apply List.filter_eq_nil_iff.mpr
  intro case member
  rw [Bool.not_eq_true]
  apply unwritten_of_same
  · rw [same case member]
    exact unfailed
  · rw [(statKey_iff inSeries).mpr (subject_of_mem member), sound.summaries, known, same case member]

/-- What a run writes last of a subject is its last case; it writes none if its cases say what is known. -/
theorem writtenCases_last (sound : Sound scope series db history) (inSeries : InSeries scope series run) (told : Told db run)
    (fresh : db.store.existing? run.capture = none) {last : TestCaseResult V} (lastCase : (casesOf run x).getLast? = some last) :
    (writtenCases db run x).getLast? = some last ∨ writtenCases db run x = [] ∧ lastStatus history x = some last.status := by
  have member : last ∈ casesOf run x := List.mem_of_getLast? lastCase
  cases writes : (testCaseWrites (db.stats.get (TestDb.statKey run.capture last.subject)) last).1 with
  | true =>
    obtain ⟨earlier, whole⟩ := List.getLast?_eq_some_iff.mp lastCase
    refine .inl ?_
    unfold writtenCases
    rw [whole, List.filter_append, List.filter_singleton, writes, List.getLast?_append]
    rfl
  | false =>
    obtain ⟨unfailed, summary⟩ := unwritten writes
    have known : lastStatus history x = some last.status := by
      rw [← sound.summaries, ← (statKey_iff inSeries).mpr (subject_of_mem member)]
      exact summary
    refine .inr ⟨writtenCases_of_same sound inSeries unfailed known fun case inside => ?_, known⟩
    have subject := subject_of_mem inside
    refine (told fresh).2.2 case (List.mem_filter.mp inside).1 last (by rw [subject]; exact lastCase) unfailed ?_
    rw [subject, ← subject_of_mem member]
    exact summary

/-- The database after a run that was not recorded before. -/
def recordedDb (scope : Nat → Option CaptureScope) (db : TestDb V) (run : TestRun V) : TestDb V where
  store := written scope db.store run.capture (runFacts db run)
  stats := run.cases.foldl (fun stats case => stats.insert (TestDb.statKey run.capture case.subject)
    (.upsert (stats.get (TestDb.statKey run.capture case.subject)) case
      (if (testCaseWrites (db.stats.get (TestDb.statKey run.capture case.subject)) case).2 then case.timeMs else none)
      run.capture.capturedAt db.store.nextCapture)) db.stats

theorem recordTestRun_cases {refused : Store V → NewMetricCapture → List (NewFact V) → Bool} {next : TestDb V} {outcome : RunOutcome}
    (steps : db.recordTestRun scope refused run = some (next, outcome)) :
    (∃ id, next = db ∧ outcome = .replayed id) ∨
      db.store.existing? run.capture = none ∧ next = recordedDb scope db run ∧ outcome = .recorded db.store.nextCapture := by
  unfold TestDb.recordTestRun at steps
  split at steps
  next existing found =>
    obtain ⟨rfl, rfl⟩ := Prod.mk.inj (Option.some.inj steps)
    exact .inl ⟨existing.id, rfl, rfl⟩
  next fresh =>
    obtain ⟨⟨store, id⟩, recorded, same⟩ := Option.map_eq_some_iff.mp steps
    obtain ⟨rfl, rfl⟩ := Prod.mk.inj same
    simp only [Store.recordFactsTx, fresh] at recorded
    split at recorded
    next => cases recorded
    next =>
      obtain ⟨rfl, rfl⟩ := Prod.mk.inj (Option.some.inj recorded)
      exact .inr ⟨fresh, rfl, rfl⟩

section Step
variable (sound : Sound scope series db history) (inSeries : InSeries scope series run) (told : Told db run)
  (fresh : db.store.existing? run.capture = none)
include sound inSeries told fresh

theorem recorded_ordered :
    ((recordedDb scope db run).store.subjectRows series.measure none).Pairwise fun a b => outranks b a = true := by
  change ((written scope db.store run.capture (runFacts db run)).subjectRows series.measure none).Pairwise _
  rw [written_bare sound.chains (runFacts_plain inSeries), insertFacts_subjectRows sound.valid]
  apply List.pairwise_append.mpr
  refine ⟨sound.ordered, newRows_ordered _ _ _ _, fun old member new inside => ?_⟩
  have captured := sound.stored old member
  have earlier := (told fresh).2.1 old.capture captured
  have smaller := sound.valid.captureOld old.capture captured
  unfold outranks Store.laterThan
  rw [(mem_newRows inside).1]
  simp only [Bool.or_eq_true, Bool.and_eq_true, decide_eq_true_eq, beq_iff_eq]
  change (old.capture.capturedAt < run.capture.capturedAt ∨
    run.capture.capturedAt = old.capture.capturedAt ∧ old.capture.id < db.store.nextCapture) ∨ _
  omega

/-- The subject's row after a run. -/
theorem recorded_reads {status : String} (last : lastStatus (history ++ [(run, db.store.nextCapture)]) x = some status) :
    ∃ row, (rowsOf (recordedDb scope db run).store series.measure x).getLast? = some row ∧
      ReadsBack (history ++ [(run, db.store.nextCapture)]) x status row := by
  have rows := rowsOf_recorded sound inSeries x
  have columns := @newRows_cases V _ _ scope series db run inSeries (told fresh).1 x
  have own : ∀ row ∈ (newRows (run.capture.toCapture db.store.nextCapture) db.store.nextFact series.measure (runFacts db run)).filter
      (·.subject == some x), row.capture = run.capture.toCapture db.store.nextCapture :=
    fun row member => (mem_newRows (List.mem_filter.mp member).1).1
  change ∃ row, (rowsOf (written scope db.store run.capture (runFacts db run)) series.measure x).getLast? = some row ∧ _
  rw [rows, List.getLast?_append]
  generalize (newRows (run.capture.toCapture db.store.nextCapture) db.store.nextFact series.measure (runFacts db run)).filter
    (·.subject == some x) = new at columns own
  -- A subject whose status is known keeps its row when the run writes nothing of it.
  have kept : writtenCases db run x = [] → lastStatus history x = some status →
      ∃ row, new.getLast?.or (rowsOf db.store series.measure x).getLast? = some row ∧
        ReadsBack (history ++ [(run, db.store.nextCapture)]) x status row := by
    intro unwritten known
    rw [unwritten] at columns
    obtain rfl := List.map_eq_nil_iff.mp columns
    obtain ⟨row, found, reads⟩ := sound.reads x status known
    refine ⟨row, found, ?_, ?_⟩
    · obtain ⟨entry, member, case, inside, rest⟩ := reads.told
      exact ⟨entry, List.mem_append_left _ member, case, inside, rest⟩
    · intro first later split known unfailed same
      rcases List.eq_nil_or_concat' later with rfl | ⟨later, final, rfl⟩
      · obtain ⟨entry, member, case, inside, _, _, captured⟩ := reads.told
        rw [List.append_nil] at split
        exact ⟨entry, split ▸ List.mem_append_left _ member, captured⟩
      · rw [← List.append_assoc] at split
        obtain ⟨before, _⟩ := List.append_inj' split rfl
        exact reads.unchanged first later before known unfailed fun entry member => same entry (List.mem_append_left _ member)
  rw [lastStatus_snoc] at last
  cases executed : (casesOf run x).getLast? with
  | none =>
    rw [executed] at last
    have none : casesOf run x = [] := List.getLast?_eq_none_iff.mp executed
    refine kept ?_ last
    unfold writtenCases
    rw [none]
    rfl
  | some case =>
    rw [executed] at last
    obtain rfl := Option.some.inj last
    rcases writtenCases_last sound inSeries told fresh executed with wrote | ⟨unwritten, known⟩
    · have column : (new.map (·.dimsJson)).getLast? = some case.dimsJson := by
        rw [columns, List.getLast?_map, wrote]
        rfl
      rw [List.getLast?_map] at column
      obtain ⟨row, found, dims⟩ := Option.map_eq_some_iff.mp column
      have member := List.mem_of_getLast? executed
      have captured := own row (List.mem_of_getLast? found)
      refine ⟨row, by rw [found]; rfl, ⟨(run, _), by simp, case, member, rfl, dims, captured⟩, ?_⟩
      intro first later split known unfailed same
      rcases List.eq_nil_or_concat' later with rfl | ⟨later, final, rfl⟩
      · rw [List.append_nil] at split
        exact ⟨(run, db.store.nextCapture), split ▸ by simp, captured⟩
      · -- Unchanged cases write nothing, but this run wrote.
        rw [← List.append_assoc] at split
        obtain ⟨before, final⟩ := List.append_inj' split rfl
        obtain rfl := (List.cons.inj final).1
        have status : lastStatus history x = some case.status := by
          rw [before]
          exact lastStatus_append known fun entry inside => same entry (List.mem_append_left _ inside)
        have unwritten := writtenCases_of_same sound inSeries unfailed status (same (run, db.store.nextCapture) (by simp))
        rw [unwritten] at wrote
        cases wrote
    · exact kept unwritten known

theorem recorded_sound : Sound scope series (recordedDb scope db run) (history ++ [(run, db.store.nextCapture)]) := by
  have spec := written_spec sound.valid run.capture (runFacts db run)
  have done := (told fresh).1
  refine ⟨spec.1, ?_, ?_, ?_, recorded_ordered sound inSeries told fresh, ?_, fun x status => recorded_reads sound inSeries told fresh⟩
  · change (written scope db.store run.capture (runFacts db run)).chains = []
    rw [written_bare sound.chains (runFacts_plain inSeries), insertFacts_eq]
    exact sound.chains
  · intro c member
    change c ∈ (written scope db.store run.capture (runFacts db run)).captures at member
    rw [spec.2.2] at member
    rcases List.mem_append.mp member with before | new
    · exact sound.finished c before
    · rw [List.mem_singleton.mp new]
      exact ⟨done, Prod.ext inSeries.stream inSeries.producer⟩
  · intro row member
    change row ∈ (written scope db.store run.capture (runFacts db run)).subjectRows series.measure none at member
    change row.capture ∈ (written scope db.store run.capture (runFacts db run)).captures
    rw [spec.2.2]
    rw [written_bare sound.chains (runFacts_plain inSeries), insertFacts_subjectRows sound.valid] at member
    rcases List.mem_append.mp member with before | new
    · exact List.mem_append_left _ (sound.stored row before)
    · rw [(mem_newRows new).1]
      exact List.mem_append_right _ (List.mem_singleton_self _)
  · intro x
    rw [lastStatus_snoc, ← sound.summaries x]
    exact upserted_status (fun case => statKey_iff inSeries) run.cases db.stats

end Step

omit [Field V] [LinearOrder V] in
theorem start_sound (files : List FileSnapshot) : Sound scope series (TestDb.start files : TestDb V) [] where
  valid := withFiles_valid empty_valid files
  chains := rfl
  finished c member := by cases member
  stored row member := by cases member
  ordered := .nil
  summaries x := rfl
  reads x status known := by cases known

variable {refused : Store V → NewMetricCapture → List (NewFact V) → Bool}

theorem run_sound (files : List FileSnapshot) {runs : List (TestRun V)} (inSeries : ∀ run ∈ runs, InSeries scope series run)
    (told : Machine.Admits (TestDb.recordTestRun scope refused) Told (.start files) runs) :
    Sound scope series (Machine.run (TestDb.recordTestRun scope refused) (.start files) runs)
      (recordedRuns (Machine.accepted (TestDb.recordTestRun scope refused) (.start files) runs)) := by
  have keeps : ∀ (db : TestDb V) log run next outcome, Sound scope series db (recordedRuns log) →
      Told db run ∧ InSeries scope series run → db.recordTestRun scope refused run = some (next, outcome) →
        Sound scope series next (recordedRuns (log ++ [(run, outcome)])) := by
    intro db log run next outcome sound allowed steps
    unfold recordedRuns at sound ⊢
    rw [List.filterMap_append]
    rcases recordTestRun_cases steps with ⟨id, rfl, rfl⟩ | ⟨fresh, rfl, rfl⟩
    · simpa using sound
    · exact recorded_sound sound allowed.2 allowed.1 fresh
  have allowed := Machine.admits_and told (Machine.admits_of_forall fun run member (_ : TestDb V) => inSeries run member)
  simpa using Machine.run_admitted (fun db log => Sound scope series db (recordedRuns log)) keeps [] (start_sound files) allowed

/-- What the per-subject fold gives after runs of one stream, branch and producer: each subject
that was executed has one current fact. It is that of a case with the status the subject's last
case has in the latest run that executed it; and a subject that has not failed, and whose status
has not changed since an earlier run, reads a fact of that run or of one before it. -/
theorem test_runs_read_back (files : List FileSnapshot) {runs : List (TestRun V)} (inSeries : ∀ run ∈ runs, InSeries scope series run)
    (told : Machine.Admits (TestDb.recordTestRun scope refused) Told (.start files) runs) {x status : String} :
    let db := Machine.run (TestDb.recordTestRun scope refused) (.start files) runs
    let history := recordedRuns (Machine.accepted (TestDb.recordTestRun scope refused) (.start files) runs)
    lastStatus history x = some status →
      ∃ row, (∀ other, other ∈ db.store.latestSubjectFacts series.measure none ∧ other.subject = some x ↔ other = row) ∧
        ReadsBack history x status row := by
  intro db history last
  have sound : Sound scope series db history := run_sound files inSeries told
  obtain ⟨row, found, reads⟩ := sound.reads x status last
  refine ⟨row, fun other => ?_, reads⟩
  have origin : ∀ a ∈ db.store.subjectRows series.measure none, ∀ b ∈ db.store.subjectRows series.measure none,
      a.capture.origin = b.capture.origin := by
    intro a inA b inB
    rw [(sound.finished _ (sound.stored a inA)).2, (sound.finished _ (sound.stored b inB)).2]
  rw [mem_latestSubjectFacts sound.ordered origin, found]
  exact ⟨fun same => (Option.some.inj same).symm, fun same => congrArg some same.symm⟩

end Runs

/-! ## Concrete runs -/

/-- A case whose dimensions are its status. -/
def plainCase (subject status : String) : TestCaseResult Rat := ⟨subject, status, none, some status⟩

def plainRun (capturedAt : Int) (cases : List (TestCaseResult Rat)) : TestRun Rat :=
  ⟨plainCapture .asserted capturedAt, cases, 2, none⟩

def subjectScope : Nat → Option CaptureScope
  | 2 => some .perSubject
  | _ => none

theorem plainRun_inSeries (capturedAt : Int) (cases : List (TestCaseResult Rat)) :
    InSeries subjectScope ⟨1, "", "gate", 2⟩ (plainRun capturedAt cases) :=
  ⟨rfl, rfl, rfl, rfl, rfl, fun d given => by cases given⟩

def acceptAll : Store Rat → NewMetricCapture → List (NewFact Rat) → Bool := fun _ _ _ => false

def plainDb (runs : List (TestRun Rat)) : TestDb Rat := Machine.run (TestDb.recordTestRun subjectScope acceptAll) (.start []) runs

def plainHistory (runs : List (TestRun Rat)) : List (TestRun Rat × Nat) :=
  recordedRuns (Machine.accepted (TestDb.recordTestRun subjectScope acceptAll) (.start []) runs)

/-- A whole run, and one of a single test. -/
def partialRuns : List (TestRun Rat) :=
  [plainRun 10 [plainCase "a" "passed", plainCase "b" "failed"], plainRun 20 [plainCase "a" "passed"]]

theorem test_runs_read_back_partial : ∃ row,
    (∀ other, other ∈ (plainDb partialRuns).store.latestSubjectFacts 2 none ∧ other.subject = some "a" ↔ other = row) ∧
      ReadsBack (plainHistory partialRuns) "a" "passed" row :=
  @test_runs_read_back Rat _ _ subjectScope ⟨1, "", "gate", 2⟩ acceptAll [] partialRuns
    (List.forall_mem_cons.mpr ⟨plainRun_inSeries _ _, List.forall_mem_singleton.mpr (plainRun_inSeries _ _)⟩)
    (by decide) "a" "passed" (by decide)

/-- A test that fails again reads the later run's fact; and one that fails and then passes in a
run, when it passed before, reads the failure. -/
theorem unchanged_failure_moves :
    let failing := [plainRun 10 [plainCase "a" "failed"], plainRun 20 [plainCase "a" "failed"]]
    let retried := [plainRun 10 [plainCase "a" "passed"], plainRun 20 [plainCase "a" "failed", plainCase "a" "passed"]]
    ((plainDb failing).store.latestSubjectFacts 2 none).map (·.capture.id) = [2] ∧
      lastStatus (plainHistory retried) "a" = some "passed" ∧
      ((plainDb retried).store.latestSubjectFacts 2 none).map (·.dimsJson) = [some "failed"] := by
  decide

end Oxplow.Proofs.TestReadback
