import Mathlib.Data.Prod.Lex
import Mathlib.Data.String.Basic
import Oxplow.Jobs.JobHistory
import Oxplow.Proofs.JobTransition

/-! Pages of a job's history. A page is cut where the row limit or the bytes of the bodies
say, but never before its first row, so the cursors lead through every row. -/

namespace Oxplow.Proofs.JobPages
open Library Library.Paging Jobs JobTransition

@[simp] theorem ensure_ok {holds : Bool} {error : JobStoreError} {done : Unit} :
    ensure holds error = .ok done ↔ holds = true := by
  cases holds <;> simp [ensure]

/-! ## One page -/

section
variable {ρ ι : Type} {read : ρ → Except JobStoreError ρ} {body : ρ → Option String} {decode : ρ → Except JobStoreError ι}
  {value : ρ → ι} {limit : Nat}

/-- A row that a page can read, and what it becomes there. -/
structure Readable (read : ρ → Except JobStoreError ρ) (body : ρ → Option String) (decode : ρ → Except JobStoreError ι)
    (value : ρ → ι) (row : ρ) : Prop where
  reads : read row = .ok row
  within : bodyBytes (body row) ≤ maxJsonBytes
  decodes : decode row = .ok (value row)

theorem fillPage_cut {rows : List ρ} (readable : ∀ row ∈ rows, Readable read body decode value row) {count bytes : Nat}
    (room : count ≤ limit) : ∃ taken left, rows = taken ++ left ∧ count + taken.length ≤ limit ∧
      (left ≠ [] → count < limit → bytes + maxJsonBytes ≤ maxPageBytes → taken ≠ []) ∧
      fillPage read body decode limit count bytes rows = .ok (taken.map value, !left.isEmpty) := by
  induction rows generalizing count bytes with
  | nil => exact ⟨[], [], rfl, room, fun some_ => absurd rfl some_, rfl⟩
  | cons row rows ih =>
    by_cases full : count = limit
    · refine ⟨[], row :: rows, rfl, room, ?_, ?_⟩
      · intro _ open_
        omega
      · rw [fillPage, if_pos (beq_iff_eq.mpr full)]
        rfl
    have own := readable row List.mem_cons_self
    have small : ¬ maxJsonBytes < bodyBytes (body row) := Nat.not_lt.mpr own.within
    by_cases past : maxPageBytes < bytes + bodyBytes (body row)
    · refine ⟨[], row :: rows, rfl, room, ?_, ?_⟩
      · intro _ _ fits
        have within := own.within
        omega
      · rw [fillPage, if_neg (by simpa using full), own.reads]
        change (if _ then _ else if _ then _ else _) = _
        rw [if_neg small, if_pos past]
        rfl
    · obtain ⟨taken, left, split, fits, _, answer⟩ := @ih (fun other member => readable other (List.mem_cons_of_mem _ member))
        (count + 1) (bytes + bodyBytes (body row)) (by omega)
      refine ⟨row :: taken, left, congrArg (row :: ·) split, ?_, fun _ _ _ => List.cons_ne_nil _ _, ?_⟩
      · rw [List.length_cons]
        omega
      · rw [fillPage, if_neg (by simpa using full), own.reads]
        change (if _ then _ else if _ then _ else _) = _
        rw [if_neg small, if_neg past, own.decodes]
        change (fillPage read body decode limit (count + 1) _ rows >>= _) = _
        rw [answer]
        rfl

/-- The query looks one row past the limit, so the page knows of a row it leaves out. -/
theorem fillPage_take {rest : List ρ} (readable : ∀ row ∈ rest, Readable read body decode value row) (positive : 1 ≤ limit) :
    ∃ taken left, rest = taken ++ left ∧ (left ≠ [] → taken ≠ []) ∧
      fillPage read body decode limit 0 0 (rest.take (limit + 1)) = .ok (taken.map value, !left.isEmpty) := by
  obtain ⟨taken, left, split, fits, progress, answer⟩ := @fillPage_cut ρ ι read body decode value limit (rest.take (limit + 1))
    (fun row member => readable row (List.mem_of_mem_take member)) 0 0 (Nat.zero_le _)
  have whole : rest = taken ++ (left ++ rest.drop (limit + 1)) := by
    rw [← List.append_assoc, ← split, List.take_append_drop]
  have lengths := congrArg List.length split
  rw [List.length_take, List.length_append] at lengths
  have budget : 0 + maxJsonBytes ≤ maxPageBytes := by decide
  cases left with
  | nil =>
    have none_ : rest.drop (limit + 1) = [] := by
      rw [List.drop_eq_nil_iff]
      rw [List.length_nil] at lengths
      omega
    rw [none_] at whole
    exact ⟨taken, [], whole, fun some_ => absurd rfl some_, answer⟩
  | cons row left =>
    exact ⟨taken, row :: left ++ rest.drop (limit + 1), whole,
      fun _ => progress (List.cons_ne_nil _ _) positive budget, answer⟩

end

/-! ## What is stored -/

/-- A body the store wrote: the canonical text of a value, which the parser reads back. -/
def Written (fromStr : String → Option Json) (body : Option String) : Prop :=
  ∀ text, body = some text → ∃ value : Json, value.canonical = some text ∧ fromStr text = some value

structure StoredAttempts (fromStr : String → Option Json) (rows : List AttemptRow) : Prop where
  checked : ∀ row ∈ rows, row.checks = true
  /-- `PRIMARY KEY (job_id, attempt)`. -/
  keyed : rows.Pairwise fun a b => a.jobId = b.jobId → a.token.attempt ≠ b.token.attempt
  written : ∀ row ∈ rows, Written fromStr row.resultJson

/-- What `record_observation_tx` asks of an observation. -/
structure Observed (row : ObservationRow) : Prop where
  id : isUuidV7 row.id = true
  later : 0 ≤ row.observedAtMs
  claimed : 0 < row.token.attempt
  counted : row.token.attempt ≤ u32Max
  fence : row.token.fence = 2 * row.token.attempt - 1

structure StoredObservations (fromStr : String → Option Json) (rows : List ObservationRow) : Prop where
  checked : ∀ row ∈ rows, row.checks = true
  observed : ∀ row ∈ rows, Observed row
  /-- `PRIMARY KEY (id)`. -/
  keyed : (rows.map ObservationRow.id).Nodup
  written : ∀ row ∈ rows, Written fromStr row.evidenceJson

variable {fromStr : String → Option Json}

theorem parseBounded_written {value : Json} {text : String} (canonical : value.canonical = some text)
    (reads : fromStr text = some value) : Json.parseBounded fromStr text = some value := by
  have small : text.utf8ByteSize ≤ maxJsonBytes := by
    simp only [Json.canonical, Option.bind_eq_some_iff] at canonical
    obtain ⟨_, _, kept⟩ := canonical
    exact of_decide_eq_true (Option.filter_eq_some_iff.mp kept).2
  rw [Json.parseBounded, if_neg (Nat.not_lt.mpr small), reads]
  simp [canonical]

theorem parseBody_written {body : Option String} (written : Written fromStr body) :
    parseBody fromStr body = .ok (body.bind (Json.parseBounded fromStr)) := by
  cases found : body with
  | none => rfl
  | some text =>
    obtain ⟨value, canonical, reads⟩ := written text found
    have parsed := parseBounded_written canonical reads
    simp [parseBody, parsed]

theorem ofList_bytes {chars : List Char} (ascii : ∀ c ∈ chars, c.val ≤ 127) :
    (String.ofList chars).utf8ByteSize = chars.length := by
  induction chars with
  | nil => rfl
  | cons c chars ih =>
    have size : c.utf8Size = 1 := Char.utf8Size_eq_one_iff.mpr (ascii c List.mem_cons_self)
    have cut : String.ofList (c :: chars) = String.singleton c ++ String.ofList chars := String.ext (by simp)
    rw [cut, String.utf8ByteSize_append, String.utf8ByteSize_singleton, size, List.length_cons,
      ih fun other member => ascii other (List.mem_cons_of_mem _ member), Nat.add_comm]

/-- What a UUID is written with is ASCII. -/
theorem isUuidV7_bytes {value : String} (known : isUuidV7 value = true) : value.utf8ByteSize ≤ 36 := by
  simp only [isUuidV7, Bool.and_eq_true, beq_iff_eq, List.all_eq_true] at known
  obtain ⟨length, written⟩ := known
  have ascii : ∀ c ∈ value.toList, c.val ≤ 127 := by
    intro c member
    obtain ⟨i, found⟩ := List.mem_iff_getElem?.mp member
    have place := written (c, i) (List.mk_mem_zipIdx_iff_getElem?.mpr found)
    dsimp only at place
    have below : ∀ top : Char, top.val ≤ 127 → c ≤ top → c.val ≤ 127 := fun top small low => UInt32.le_trans low small
    have equal : ∀ other : Char, other.val ≤ 127 → c = other → c.val ≤ 127 := by
      rintro other small rfl
      exact small
    split at place
    · exact equal '-' (by decide) (beq_iff_eq.mp place)
    split at place
    · exact equal '7' (by decide) (beq_iff_eq.mp place)
    split at place
    · simp only [Bool.or_eq_true, beq_iff_eq] at place
      rcases place with ((eight | nine) | a) | b
      · exact equal '8' (by decide) eight
      · exact equal '9' (by decide) nine
      · exact equal 'a' (by decide) a
      · exact equal 'b' (by decide) b
    · simp only [isAsciiDigit, Bool.or_eq_true, Bool.and_eq_true, decide_eq_true_eq] at place
      rcases place with digit | letter
      · exact below '9' (by decide) digit.2
      · exact below 'f' (by decide) letter.2
  rw [← String.ofList_toList (s := value), ofList_bytes ascii, length]

/-! ## Attempts -/

section
variable {fromStr : String → Option Json}

/-- What a stored row says. -/
def attemptRecord (fromStr : String → Option Json) (row : AttemptRow) : AttemptRecord where
  jobId := row.jobId
  token := row.token
  startedAtMs := row.startedAtMs
  leaseUntilMs := row.leaseUntilMs
  closedAtMs := row.closedAtMs
  outcome := row.outcome
  result := row.resultJson.bind (Json.parseBounded fromStr)

theorem readable_attempt {row : AttemptRow} (checked : row.checks = true) (known : isUuidV7 row.jobId.value = true)
    (written : Written fromStr row.resultJson) :
    Readable readAttempt (·.resultJson) (decodeAttempt fromStr) (attemptRecord fromStr) row := by
  simp only [AttemptRow.checks, Bool.and_eq_true, decide_eq_true_eq, beq_iff_eq] at checked
  obtain ⟨⟨⟨⟨⟨⟨⟨⟨claimed, counted⟩, fence⟩, started⟩, leased⟩, closed⟩, both⟩, resulted⟩, small⟩ := checked
  have within : bodyBytes row.resultJson ≤ maxJsonBytes := by
    cases body : row.resultJson with
    | none => exact Nat.zero_le _
    | some text =>
      rw [body] at small
      exact of_decide_eq_true small
  have unless_ : (row.resultJson.bind (Json.parseBounded fromStr)).isSome = true → row.outcome.isNone = false ∧
      (row.outcome == some .interrupted) = false := by
    intro parsed
    cases body : row.resultJson with
    | none =>
      rw [body] at parsed
      cases parsed
    | some text =>
      rw [body] at resulted
      cases outcome : row.outcome with
      | none =>
        rw [outcome] at resulted
        cases resulted
      | some outcome' =>
        rw [outcome] at resulted
        refine ⟨rfl, ?_⟩
        simpa using resulted
  refine ⟨?_, within, ?_⟩
  · exact if_pos (by simpa using ⟨isUuidV7_bytes known, within⟩)
  · have ends : (row.closedAtMs.any fun closedAt => closedAt < row.startedAtMs) = false := by
      cases time : row.closedAtMs with
      | none => rfl
      | some closedAt =>
        rw [time] at closed
        have after : row.startedAtMs ≤ closedAt := of_decide_eq_true closed
        exact decide_eq_false (by omega)
    have paired : (row.closedAtMs.isSome != row.outcome.isSome) = false := by
      rw [bne_eq_false_iff_eq, ← Option.not_isNone, ← Option.not_isNone, both]
    have last : ((row.resultJson.bind (Json.parseBounded fromStr)).isSome &&
        (row.outcome.isNone || row.outcome == some .interrupted)) = false := by
      cases parsed : (row.resultJson.bind (Json.parseBounded fromStr)).isSome with
      | false => rfl
      | true =>
        obtain ⟨given, other⟩ := unless_ parsed
        rw [given, other]
        rfl
    simp only [decodeAttempt, bind_ok, exists_const, ensure_ok, validateUuidV7, parseBody_written written, Except.ok.injEq,
      exists_eq_left', pure_ok, ends, paired, last, Bool.not_eq_true', Bool.or_eq_false_iff, bne_eq_false_iff_eq,
      decide_eq_false_iff_not, Bool.and_eq_true, decide_eq_true_eq]
    exact ⟨known, ⟨claimed, counted⟩, by omega, ⟨⟨⟨⟨⟨fence, by omega⟩, by omega⟩, trivial⟩, trivial⟩, trivial⟩, rfl⟩

variable {rows : List AttemptRow}

theorem own_distinct (stored : StoredAttempts fromStr rows) (job : JobId) :
    ((rows.filter (·.jobId == job)).map fun row => row.token.attempt).Nodup := by
  rw [List.Nodup, List.pairwise_map]
  apply (stored.keyed.filter (·.jobId == job)).imp_of_mem
  intro a b first second keyed
  have own := beq_iff_eq.mp (List.mem_filter.mp first).2
  have own' := beq_iff_eq.mp (List.mem_filter.mp second).2
  exact keyed (own.trans own'.symm)

variable {job : JobId}

theorem own_readable (stored : StoredAttempts fromStr rows) (known : isUuidV7 job.value = true) :
    ∀ row ∈ rows.filter (·.jobId == job), Readable readAttempt (·.resultJson) (decodeAttempt fromStr) (attemptRecord fromStr) row := by
  intro row member
  obtain ⟨listed, own⟩ := List.mem_filter.mp member
  exact readable_attempt (stored.checked row listed) (beq_iff_eq.mp own ▸ known) (stored.written row listed)

/-- The job's rows in the order of their attempts. -/
def attemptsOf (rows : List AttemptRow) (job : JobId) : List AttemptRow :=
  (rows.filter (·.jobId == job)).mergeSort fun a b => a.token.attempt ≤ b.token.attempt

theorem attempts_selected (stored : StoredAttempts fromStr rows) {done rest : List AttemptRow}
    (split : attemptsOf rows job = done ++ rest) :
    ((rows.filter fun row => row.jobId == job && (done.getLast?.map (·.token.attempt)).getD 0 < row.token.attempt).mergeSort
      fun a b => a.token.attempt ≤ b.token.attempt) = rest := by
  cases ends : done.getLast? with
  | none =>
    rw [List.getLast?_eq_none_iff] at ends
    subst ends
    rw [List.nil_append] at split
    rw [← split, attemptsOf]
    congr 1
    apply List.filter_congr
    intro row member
    have checked := stored.checked row member
    simp only [AttemptRow.checks, Bool.and_eq_true, decide_eq_true_eq] at checked
    have claimed : decide (0 < row.token.attempt) = true := decide_eq_true checked.1.1.1.1.1.1.1.1
    simpa using fun _ => of_decide_eq_true claimed
  | some last => exact sorted_after (own_distinct stored job) split ends

theorem attempts_cut (stored : StoredAttempts fromStr rows) (known : isUuidV7 job.value = true) {limit : Nat}
    (accepted : validatePage limit = .ok ()) :
    Cuts (fun record : AttemptRecord => record.token.attempt) ((attemptsOf rows job).map (attemptRecord fromStr))
      fun after => attemptsTx fromStr rows job after limit := by
  intro doneRecords restRecords split
  obtain ⟨done, rest, cut, rfl, rfl⟩ := List.map_eq_append_iff.mp split
  have readable : ∀ row ∈ rest, Readable readAttempt (·.resultJson) (decodeAttempt fromStr) (attemptRecord fromStr) row := by
    intro row member
    have listed : row ∈ attemptsOf rows job := by
      rw [cut]
      exact List.mem_append_right _ member
    exact own_readable stored known row (List.mem_mergeSort.mp listed)
  have bounds := accepted
  simp only [validatePage, ensure_ok, Bool.and_eq_true, decide_eq_true_eq] at bounds
  obtain ⟨taken, left, rfl, progress, page⟩ := fillPage_take readable bounds.1
  refine ⟨taken.map (attemptRecord fromStr), left.map (attemptRecord fromStr), List.map_append, ?_, ?_⟩
  · intro some_
    simpa using progress (by simpa using some_)
  · have cursor : ((done.map (attemptRecord fromStr)).getLast?.map fun record => record.token.attempt) =
        done.getLast?.map (·.token.attempt) := by
      rw [List.getLast?_map, Option.map_map]
      rfl
    have selected := attempts_selected stored cut
    rw [← cursor] at selected
    simp only [attemptsTx, accepted, validateUuidV7, known, ensure, if_true]
    change (fillPage readAttempt _ (decodeAttempt fromStr) limit 0 0 _ >>= _) = _
    rw [selected, page]
    cases left with
    | nil => rfl
    | cons row left => rfl

/-! ## Observations -/

def observationOf (fromStr : String → Option Json) (job : JobId) (row : ObservationRow) : OutcomeObservation :=
  ⟨job, row.id, row.token, row.observedAtMs, row.outcome, row.evidenceJson.bind (Json.parseBounded fromStr)⟩

/-- The order of an observation: its time, then its id. -/
def keyOf (row : ObservationRow) : Lex (Int × String) := toLex (row.observedAtMs, row.id)

theorem readable_observation {row : ObservationRow} (checked : row.checks = true) (observed : Observed row)
    (written : Written fromStr row.evidenceJson) (job : JobId) :
    Readable readObservation (·.evidenceJson) (decodeObservation fromStr job) (observationOf fromStr job) row := by
  simp only [ObservationRow.checks, Bool.and_eq_true, decide_eq_true_eq] at checked
  have within : bodyBytes row.evidenceJson ≤ maxJsonBytes := by
    cases body : row.evidenceJson with
    | none => exact Nat.zero_le _
    | some text =>
      rw [body] at checked
      exact of_decide_eq_true checked.2
  have fence := observed.fence
  have claimed := observed.claimed
  refine ⟨if_pos (by simpa using ⟨isUuidV7_bytes observed.id, within⟩), within, ?_⟩
  simp only [decodeObservation, bind_ok, exists_const, ensure_ok, validateUuidV7, parseBody_written written, Except.ok.injEq,
    exists_eq_left', pure_ok, Bool.not_eq_true', decide_eq_false_iff_not, Bool.and_eq_true, decide_eq_true_eq, beq_iff_eq]
  exact ⟨⟨claimed, observed.counted⟩, by omega, observed.id, fence, Int.not_lt.mpr checked.1, rfl⟩

theorem observationLe_key : observationLe = fun a b => decide (keyOf a ≤ keyOf b) := by
  funext a b
  rw [Bool.eq_iff_iff, decide_eq_true_eq, keyOf, keyOf, Prod.Lex.toLex_le_toLex]
  simp [observationLe]

variable {rows : List ObservationRow}

theorem key_distinct (stored : StoredObservations fromStr rows) (job : JobId) :
    ((rows.filter (·.jobId == job)).map keyOf).Nodup := by
  have ids : ((rows.filter (·.jobId == job)).map ObservationRow.id).Nodup := stored.keyed.sublist (List.filter_sublist.map _)
  rw [List.Nodup, List.pairwise_map] at ids ⊢
  apply ids.imp
  intro a b differ same
  exact differ (congrArg (fun key => (ofLex key).2) same)

/-- The job's observations in order. -/
def observationsOf (rows : List ObservationRow) (job : JobId) : List ObservationRow :=
  (rows.filter (·.jobId == job)).mergeSort observationLe

theorem observations_selected (stored : StoredObservations fromStr rows) {done rest : List ObservationRow}
    (split : observationsOf rows job = done ++ rest) {after : Option ObservationCursor}
    (cursor : after = done.getLast?.map fun row => ⟨row.observedAtMs, row.id⟩) :
    (rows.filter fun row => row.jobId == job && (after.elim (-1) (·.observedAtMs) < row.observedAtMs ||
      row.observedAtMs == after.elim (-1) (·.observedAtMs) && after.elim "" (·.id) < row.id)).mergeSort observationLe = rest := by
  subst cursor
  cases ends : done.getLast? with
  | none =>
    rw [List.getLast?_eq_none_iff] at ends
    subst ends
    rw [List.nil_append] at split
    rw [← split, observationsOf]
    congr 1
    apply List.filter_congr
    intro row member
    have later := (stored.observed row member).later
    have past : decide ((-1 : Int) < row.observedAtMs) = true := decide_eq_true (by omega)
    change (_ && (decide ((-1 : Int) < row.observedAtMs) || _)) = _
    rw [past, Bool.true_or, Bool.and_true]
  | some last =>
    rw [observationsOf, observationLe_key] at split
    rw [observationLe_key]
    have rest_ := sorted_after (key_distinct stored job) split ends
    rw [← rest_]
    congr 1
    apply List.filter_congr
    intro row _
    congr 1
    rw [Bool.eq_iff_iff, decide_eq_true_eq, keyOf, keyOf, Prod.Lex.toLex_lt_toLex]
    have turned : row.observedAtMs = last.observedAtMs ↔ last.observedAtMs = row.observedAtMs := eq_comm
    simp only [Bool.or_eq_true, Bool.and_eq_true, decide_eq_true_eq, beq_iff_eq]
    exact or_congr Iff.rfl (and_congr turned Iff.rfl)

theorem observations_cut (stored : StoredObservations fromStr rows) (known : isUuidV7 job.value = true) {limit : Nat}
    (accepted : validatePage limit = .ok ()) :
    Cuts OutcomeObservation.cursor ((observationsOf rows job).map (observationOf fromStr job))
      fun after => observationsTx fromStr rows job after limit := by
  intro doneItems restItems split
  obtain ⟨done, rest, cut, rfl, rfl⟩ := List.map_eq_append_iff.mp split
  have listed : ∀ row ∈ observationsOf rows job, row ∈ rows :=
    fun row member => (List.mem_filter.mp (List.mem_mergeSort.mp member)).1
  have readable : ∀ row ∈ rest,
      Readable readObservation (·.evidenceJson) (decodeObservation fromStr job) (observationOf fromStr job) row := by
    intro row member
    have inside := listed row (cut ▸ List.mem_append_right _ member)
    exact readable_observation (stored.checked row inside) (stored.observed row inside) (stored.written row inside) job
  have bounds := accepted
  simp only [validatePage, ensure_ok, Bool.and_eq_true, decide_eq_true_eq] at bounds
  obtain ⟨taken, left, rfl, progress, page⟩ := fillPage_take readable bounds.1
  refine ⟨taken.map (observationOf fromStr job), left.map (observationOf fromStr job), List.map_append, ?_, ?_⟩
  · intro some_
    simpa using progress (by simpa using some_)
  · have cursor : (done.map (observationOf fromStr job)).getLast?.map OutcomeObservation.cursor =
        done.getLast?.map fun row => ⟨row.observedAtMs, row.id⟩ := by
      rw [List.getLast?_map, Option.map_map]
      rfl
    have selected := observations_selected stored cut cursor
    -- The cursor is a stored row's, so it is one the next call takes.
    have taken_ : (!((done.map (observationOf fromStr job)).getLast?.map OutcomeObservation.cursor).any fun cursor =>
        cursor.observedAtMs < 0 || !isUuidV7 cursor.id) = true := by
      rw [cursor]
      cases ends : done.getLast? with
      | none => rfl
      | some last =>
        have inside := listed last (cut ▸ List.mem_append_left _ (List.mem_of_getLast? ends))
        have observed := stored.observed last inside
        simpa [observed.id] using observed.later
    simp only [observationsTx, accepted, validateUuidV7, known, taken_, ensure, if_true]
    change (fillPage readObservation _ (decodeObservation fromStr job) limit 0 0 _ >>= _) = _
    rw [selected, page]
    cases left with
    | nil => rfl
    | cons row left => rfl

end

/-! ## The whole history -/

/-- What the tables hold of a job's history. -/
structure StoredHistory (fromStr : String → Option Json) (store : HistoryStore) : Prop where
  attempts : StoredAttempts fromStr store.conn.attempts
  observations : StoredObservations fromStr store.observations

/-- A job with one attempt, and a word of its outcome that came late. -/
def reviewed : HistoryStore where
  conn :=
    { autocommit := false, jobs := []
      attempts := [{ jobId := ⟨"018f0000-0000-7000-8000-000000000000"⟩, token := ⟨1, 1⟩, startedAtMs := 1000, leaseUntilMs := 1030
                     closedAtMs := some 1010, outcome := some .succeeded, resultJson := some "null" }] }
  observations := [{ id := "018f0000-0000-7000-8000-000000000002", jobId := ⟨"018f0000-0000-7000-8000-000000000000"⟩
                     token := ⟨1, 1⟩, observedAtMs := 1020, outcome := .succeeded, evidenceJson := none }]

def parseNull (text : String) : Option Json := if text = "null" then some .null else none

theorem reviewed_stored : StoredHistory parseNull reviewed where
  attempts := by
    refine ⟨by decide +kernel, List.pairwise_singleton _ _, ?_⟩
    intro row member text body
    rw [List.mem_singleton.mp member] at body
    cases body
    exact ⟨.null, by decide +kernel, rfl⟩
  observations := by
    refine ⟨by decide +kernel, ?_, List.nodup_singleton _, ?_⟩
    · intro row member
      rw [List.mem_singleton.mp member]
      exact ⟨by decide +kernel, by decide +kernel, by decide +kernel, by decide +kernel, rfl⟩
    · intro row member text body
      rw [List.mem_singleton.mp member] at body
      cases body

/-- The parser reads the text that an observation's evidence is stored as. -/
def ReadsEvidence (fromStr : String → Option Json) (observation : LateOutcomeObservation) : Prop :=
  ∀ text, observation.evidence.bind Json.canonical = some text → ∃ read : Json, read.canonical = some text ∧ fromStr text = some read

theorem evidenceText_written {observation : LateOutcomeObservation} (reads : ReadsEvidence fromStr observation)
    {evidenceJson : Option String} (text : evidenceText observation.evidence = .ok evidenceJson) : Written fromStr evidenceJson := by
  rintro body rfl
  apply reads
  cases given : observation.evidence with
  | none =>
    rw [given] at text
    cases text
  | some value => cases canonical : value.canonical <;> simp_all [evidenceText]

theorem insertObservation_ok {row : ObservationRow} {store last : HistoryStore} {done : Unit}
    (inserted : insertObservation row store = (.ok done, last)) :
    last = store ∨ row.checks = true ∧ row.id ∉ store.observations.map ObservationRow.id ∧
      last = { store with observations := store.observations ++ [row] } := by
  rw [insertObservation, Tx.bind_ok] at inserted
  obtain ⟨_, _, read, answer⟩ := inserted
  obtain ⟨rfl, rfl⟩ := Tx.read_ok.mp read
  cases found : store.observations.find? (·.id == row.id) with
  | none =>
    rw [found, Option.elim_none, Tx.bind_ok] at answer
    obtain ⟨_, _, checked, written⟩ := answer
    obtain ⟨checks, rfl⟩ := Tx.lift_ok.mp checked
    refine .inr ⟨ensure_ok.mp checks, ?_, (Tx.write_ok.mp written).symm⟩
    rintro member
    obtain ⟨other, inside, same⟩ := List.mem_map.mp member
    exact absurd (beq_iff_eq.mpr same) (List.find?_eq_none.mp found other inside)
  | some existing =>
    rw [found, Option.elim_some] at answer
    exact .inl (Tx.lift_ok.mp answer).2.symm

/-- Recording an observation keeps the tables as a history is read from. -/
theorem recorded_stored {store last : HistoryStore} (stored : StoredHistory fromStr store) {job : JobId} {observation : LateOutcomeObservation}
    (reads : ReadsEvidence fromStr observation) {result : OutcomeObservation}
    (recorded : recordObservationTx job observation store = (.ok result, last)) :
    StoredHistory fromStr last ∧ store.observations <+: last.observations := by
  simp only [recordObservationTx, Tx.bind_ok, Tx.read_ok, Tx.lift_ok, Tx.pure_ok, ensure_ok, validateUuidV7, Bool.not_eq_true',
    Bool.or_eq_false_iff, decide_eq_false_iff_not, beq_eq_false_iff_ne, bne_eq_false_iff_eq, ne_eq, decide_eq_true_eq] at recorded
  obtain ⟨_, _, ⟨rfl, rfl⟩, _, _, ⟨_, rfl⟩, _, _, ⟨_, rfl⟩, _, _, ⟨known, rfl⟩, _, _, ⟨⟨⟨⟨later, claimed⟩, _⟩, fence⟩, rfl⟩,
    evidenceJson, _, ⟨text, rfl⟩, _, _, ⟨_, rfl⟩, _, _, ⟨owned, rfl⟩, _, _, inserted, _, rfl⟩ := recorded
  rcases insertObservation_ok inserted with rfl | ⟨checked, fresh, rfl⟩
  · exact ⟨stored, List.prefix_rfl⟩
  obtain ⟨attempt, found, _⟩ := (Option.any_eq_true _ _).mp owned
  have member := List.mem_of_find?_eq_some found
  have own := List.find?_some found
  simp only [Bool.and_eq_true, beq_iff_eq] at own
  have attemptChecked := stored.attempts.checked attempt member
  simp only [AttemptRow.checks, Bool.and_eq_true, decide_eq_true_eq] at attemptChecked
  have counted : observation.token.attempt ≤ u32Max := own.2 ▸ attemptChecked.1.1.1.1.1.1.1.2
  refine ⟨⟨stored.attempts, ?_, ?_, ?_, ?_⟩, List.prefix_append _ _⟩
  · exact List.forall_mem_append.mpr ⟨stored.observations.checked, List.forall_mem_singleton.mpr checked⟩
  · exact List.forall_mem_append.mpr ⟨stored.observations.observed, List.forall_mem_singleton.mpr
      ⟨known, Int.not_lt.mp later, Nat.pos_of_ne_zero claimed, counted, fence⟩⟩
  · rw [List.map_append, List.nodup_append_comm]
    exact List.nodup_cons.mpr ⟨fresh, stored.observations.keyed⟩
  · exact List.forall_mem_append.mpr ⟨stored.observations.written, List.forall_mem_singleton.mpr (evidenceText_written reads text)⟩

/-- Recordings, each its own transaction: one that fails leaves the tables as they were. -/
def recordAll (store : HistoryStore) (recordings : List (JobId × LateOutcomeObservation)) : HistoryStore :=
  recordings.foldl (fun store r => (Tx.savepoint (recordObservationTx r.1 r.2) store).2) store

/-- However observations are recorded, the tables stay as a history is read from, and no
observation is changed or lost. -/
theorem recordings_kept {fromStr : String → Option Json} {store : HistoryStore} (stored : StoredHistory fromStr store)
    (recordings : List (JobId × LateOutcomeObservation)) (reads : ∀ r ∈ recordings, ReadsEvidence fromStr r.2) :
    StoredHistory fromStr (recordAll store recordings) ∧ store.observations <+: (recordAll store recordings).observations := by
  induction recordings generalizing store with
  | nil => exact ⟨stored, List.prefix_rfl⟩
  | cons r recordings ih =>
    have later := fun other member => reads other (List.mem_cons_of_mem _ member)
    rw [recordAll, List.foldl_cons, ← recordAll]
    cases recorded : recordObservationTx r.1 r.2 store with
    | mk outcome last =>
      cases outcome with
      | error error => simpa only [Tx.savepoint, recorded, Tx.restored] using ih stored later
      | ok result =>
        obtain ⟨still, kept⟩ := recorded_stored stored (reads r List.mem_cons_self) recorded
        obtain ⟨whole, more⟩ := ih still later
        simp only [Tx.savepoint, recorded, Tx.restored]
        exact ⟨whole, kept.trans more⟩

theorem recordings_kept_reviewed : StoredHistory parseNull (recordAll reviewed [(⟨"018f0000-0000-7000-8000-000000000000"⟩,
    ⟨"018f0000-0000-7000-8000-000000000003", ⟨1, 1⟩, 1030, .succeeded, some .null⟩)]) := by
  refine (recordings_kept reviewed_stored _ ?_).1
  intro r member text canonical
  rw [List.mem_singleton.mp member] at canonical
  cases canonical
  exact ⟨.null, by decide +kernel, rfl⟩

end Oxplow.Proofs.JobPages
