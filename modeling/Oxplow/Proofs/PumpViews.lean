import Oxplow.Proofs.Deliveries

/-! What is kept of one consumer, said of its own part of the pump's state. -/

namespace Oxplow.Proofs.PumpViews
open Events Deliveries

/-- A consumer's part of the state. -/
structure View where
  log : EventLog
  checkpoint : Nat
  rows : Nat → List HandlerRow
  letters : Nat → List DeadLetter
  history : History

def view (state : PumpState) (name : String) : View where
  log := state.store.log
  checkpoint := state.store.checkpoint name
  rows := state.store.rowsFor name
  letters := state.store.lettersFor name
  history := state.history name

variable {consumers : Consumers} {name : String} {v : View}

/-! ## A sync consumer -/

/-- The deliveries of one event. -/
def View.deliveriesOf (v : View) (seq : Nat) : List Delivered := v.history.delivered.filter (·.event.seq == seq)

/-- Every event up to the checkpoint was delivered once, and the rows and the letters are
those of the deliveries. -/
structure SyncKept (consumers : Consumers) (name : String) (v : View) : Prop where
  bound : v.checkpoint ≤ v.log.last
  reached : ∀ d ∈ v.history.delivered, d.event.seq ≤ v.checkpoint
  once : ∀ event ∈ v.log.events, event.seq ≤ v.checkpoint →
    ∃ d, v.deliveriesOf event.seq = [d] ∧ d.event.eventType = event.eventType
  rows : ∀ seq, v.rows seq = (v.deliveriesOf seq).flatMap (written consumers name)
  letters : ∀ seq, (v.letters seq).length = (v.deliveriesOf seq).countP (parks consumers name)

theorem SyncKept.undelivered (kept : SyncKept consumers name v) {seq : Nat} (beyond : v.checkpoint < seq) : v.deliveriesOf seq = [] := by
  rw [View.deliveriesOf, List.filter_eq_nil_iff]
  intro d member same
  have reached := kept.reached d member
  have own : d.event.seq = seq := by simpa using same
  omega

/-- The rows and letters of a sync consumer's event that was delivered. -/
theorem SyncKept.outcome (kept : SyncKept consumers name v) {d : Delivered} {seq : Nat} (one : v.deliveriesOf seq = [d]) :
    v.rows seq = written consumers name d ∧ (v.letters seq).length = if parks consumers name d then 1 else 0 := by
  rw [kept.rows, kept.letters, one, List.countP_singleton]
  exact ⟨by simp, rfl⟩

variable {later : EventLog}

theorem SyncKept.grow (kept : SyncKept consumers name v) (grows : LogGrows v.log later) :
    SyncKept consumers name { v with log := later } := by
  refine ⟨Nat.le_trans kept.bound grows.last, kept.reached, ?_, kept.rows, kept.letters⟩
  intro event member inside
  rcases grows.fresh event member with ⟨a, old, same, type, _⟩ | new
  · obtain ⟨d, one, typed⟩ := kept.once a old (same ▸ inside)
    exact ⟨d, same ▸ one, typed.trans type⟩
  · exact absurd (Nat.le_trans inside kept.bound) (Nat.not_le.mpr new)

variable {rest : List StoredEvent}

/-- The delivery of the next event. -/
theorem SyncKept.deliver {state : PumpState} {later : EventStore} {delivered : Delivered}
    (kept : SyncKept consumers name (view state name))
    (reading : Reading state.store.log (state.store.checkpoint name) (delivered.event :: rest))
    (delivers : Delivers consumers name delivered state.store later) :
    SyncKept consumers name
      (view ((state.setStore later).record name fun history => { history with delivered := history.delivered ++ [delivered] }) name) := by
  have beyond : state.store.checkpoint name < delivered.event.seq := reading.ahead.above _ (by simp)
  have fresh := kept.undelivered beyond
  have grown (seq : Nat) :
      (view ((state.setStore later).record name fun history => { history with delivered := history.delivered ++ [delivered] })
        name).deliveriesOf seq = (view state name).deliveriesOf seq ++ if delivered.event.seq = seq then [delivered] else [] := by
    simp only [View.deliveriesOf, view, PumpState.record, PumpState.setStore, if_true, List.filter_append]
    by_cases same : delivered.event.seq = seq <;> simp [same]
  have log : later.log = state.store.log := delivers.only.log
  refine ⟨?_, ?_, ?_, ?_, ?_⟩
  · change later.checkpoint name ≤ later.log.last
    rw [delivers.checkpoint, log]
    exact reading.below (by simp)
  · intro d member
    have listed : d ∈ (state.history name).delivered ++ [delivered] := by
      simpa [view, PumpState.record, PumpState.setStore] using member
    change d.event.seq ≤ later.checkpoint name
    rw [delivers.checkpoint]
    rcases List.mem_append.mp listed with old | made
    · exact Nat.le_trans (kept.reached d old) (Nat.le_of_lt beyond)
    · exact Nat.le_of_eq (congrArg (·.event.seq) (List.mem_singleton.mp made))
  · intro event member inside
    change event ∈ later.log.events at member
    change event.seq ≤ later.checkpoint name at inside
    rw [delivers.checkpoint] at inside
    rw [log] at member
    rw [grown]
    by_cases passed : event.seq ≤ state.store.checkpoint name
    · rw [if_neg (by omega), List.append_nil]
      exact kept.once event member passed
    · by_cases here : delivered.event.seq = event.seq
      · rw [if_pos here, ← here, fresh]
        exact ⟨delivered, rfl, (reading.copies _ (by simp) event member here.symm).1.symm⟩
      · exact (reading.ahead.no_gap member (by omega) (by omega)).elim
  · intro seq
    rw [grown, List.flatMap_append, ← kept.rows]
    change later.rowsFor name seq = state.store.rowsFor name seq ++ _
    rw [EventStore.rowsFor, delivers.rows, List.filter_append]
    congr 1
    by_cases here : delivered.event.seq = seq
    · rw [if_pos here, ← here, written_own]
      simp
    · rw [if_neg here, written_other]
      · rfl
      · exact fun same => here same.2.symm
  · intro seq
    rw [grown, List.countP_append, ← kept.letters]
    change (later.lettersFor name seq).length = (state.store.lettersFor name seq).length + _
    rw [delivers.letters]
    by_cases here : delivered.event.seq = seq
    · have none : (state.store.lettersFor name seq).length = 0 := by
        have counted := kept.letters seq
        rw [← here, fresh] at counted
        rw [← here]
        exact counted
      rw [if_pos here, none]
      cases failed : parks consumers name delivered <;> simp [here, failed]
    · rw [if_neg here, if_neg fun same => here same.1.symm]
      rfl

/-! ## An async consumer -/

def View.Passed (v : View) (event : StoredEvent) : Prop :=
  ∃ e ∈ v.history.passed, e.seq = event.seq ∧ e.eventType = event.eventType

/-- Handled, or parked. -/
def View.Settled (v : View) (seq : Nat) : Prop := seq ∈ v.history.handled ∨ v.letters seq ≠ []

structure AsyncKept (consumers : Consumers) (name : String) (v : View) : Prop where
  bound : v.checkpoint ≤ v.log.last
  passed : ∀ event ∈ v.log.events, event.seq ≤ v.checkpoint → v.Passed event
  settled : ∀ e ∈ v.history.passed, consumers.wants name e = true → v.Settled e.seq
  ordered : v.history.handled.Pairwise (· ≤ ·)
  logged : ∀ seq ∈ v.history.handled, seq ≤ v.log.last
  /-- A crash takes no event back that is before one already handled. -/
  frontier : ∀ event ∈ v.log.events, v.checkpoint < event.seq → consumers.wants name event = true →
    ∀ seq ∈ v.history.handled, seq ≤ event.seq

/-- A run has passed every event up to `reach`; those after the checkpoint were skipped. -/
structure Skimming (consumers : Consumers) (name : String) (v : View) (reach : Nat) (rest : List StoredEvent) : Prop where
  reading : Reading v.log reach rest
  low : v.checkpoint ≤ reach
  bound : reach ≤ v.log.last
  skipped : ∀ event ∈ v.log.events, v.checkpoint < event.seq → event.seq ≤ reach →
    consumers.wants name event = false ∧ v.Passed event
  next : ∀ e ∈ rest, consumers.wants name e = true → ∀ seq ∈ v.history.handled, seq ≤ e.seq

/-- Where the run of an async consumer is. -/
def SlotKept (consumers : Consumers) (name : String) (v : View) : SlotRun → Prop
  | .start => True
  | .read checkpoint => checkpoint = v.checkpoint
  | .events rest skippedTo => Skimming consumers name v (skippedTo.getD v.checkpoint) rest
  | .waiting event rest skippedTo | .handling event rest skippedTo =>
    Skimming consumers name v (skippedTo.getD v.checkpoint) (event :: rest) ∧ consumers.wants name event = true
  | .handled event rest =>
    (∃ reach, Skimming consumers name v reach (event :: rest)) ∧ event.seq ∈ v.history.handled
  | .parking event rest _ => ∃ reach, Skimming consumers name v reach (event :: rest)
  | .deferring event skippedTo => ∃ rest, Skimming consumers name v (skippedTo.getD v.checkpoint) (event :: rest)

variable {reach : Nat} {e : StoredEvent}

/-- What the log's copy of an event is still wanted for, the copy read was too. -/
theorem wants_of_copy {log : EventLog} (reading : Reading log reach rest) {event : StoredEvent} (inside : e ∈ rest)
    (member : event ∈ log.events) (same : event.seq = e.seq) (unwanted : consumers.wants name e = false) :
    consumers.wants name event = false := by
  obtain ⟨type, expires⟩ := reading.copies e inside event member same
  simp only [Consumers.wants, delivers, type, Bool.and_eq_false_iff, Bool.not_eq_false'] at unwanted ⊢
  exact unwanted.imp_right expires

theorem wants_of_grown {a b : StoredEvent} (type : a.eventType = b.eventType)
    (expires : a.payloadExpired = true → b.payloadExpired = true) (wanted : consumers.wants name b = true) :
    consumers.wants name a = true := by
  simp only [Consumers.wants, delivers, type, Bool.and_eq_true, Bool.not_eq_true'] at wanted ⊢
  refine ⟨wanted.1, ?_⟩
  rw [← Bool.not_eq_true]
  intro expired
  rw [expires expired] at wanted
  cases wanted.2

namespace AsyncKept

theorem grow (kept : AsyncKept consumers name v) (grows : LogGrows v.log later) :
    AsyncKept consumers name { v with log := later } := by
  refine ⟨Nat.le_trans kept.bound grows.last, ?_, kept.settled, kept.ordered, fun seq member => Nat.le_trans (kept.logged seq member) grows.last, ?_⟩
  · intro event member inside
    rcases grows.fresh event member with ⟨a, old, same, type, _⟩ | new
    · obtain ⟨e, listed, seq, typed⟩ := kept.passed a old (same ▸ inside)
      exact ⟨e, listed, seq.trans same, typed.trans type⟩
    · exact absurd (Nat.le_trans inside kept.bound) (Nat.not_le.mpr new)
  · intro event member beyond wanted seq listed
    rcases grows.fresh event member with ⟨a, old, same, type, expires⟩ | new
    · rw [← same]
      exact kept.frontier a old (same ▸ beyond) (wants_of_grown type expires wanted) seq listed
    · exact Nat.le_trans (kept.logged seq listed) (Nat.le_of_lt new)

/-- A skip is noted. -/
theorem skip (kept : AsyncKept consumers name v) (unwanted : consumers.wants name e = false) :
    AsyncKept consumers name { v with history := { v.history with passed := v.history.passed ++ [e] } } := by
  refine ⟨kept.bound, ?_, ?_, kept.ordered, kept.logged, kept.frontier⟩
  · intro event member inside
    obtain ⟨a, listed, found⟩ := kept.passed event member inside
    exact ⟨a, List.mem_append_left _ listed, found⟩
  · intro a listed wanted
    rcases List.mem_append.mp listed with old | made
    · exact kept.settled a old wanted
    · rw [List.mem_singleton.mp made, unwanted] at wanted
      cases wanted

/-- The handler succeeds on the next event. -/
theorem handle (kept : AsyncKept consumers name v) (skimming : Skimming consumers name v reach (e :: rest))
    (wanted : consumers.wants name e = true) :
    AsyncKept consumers name { v with history := { v.history with handled := v.history.handled ++ [e.seq] } } := by
  refine ⟨kept.bound, kept.passed, fun a listed wants => (kept.settled a listed wants).imp_left (List.mem_append_left _), ?_, ?_, ?_⟩
  · refine List.pairwise_append.mpr ⟨kept.ordered, List.pairwise_singleton _ _, ?_⟩
    intro seq listed last same
    rw [List.mem_singleton.mp same]
    exact skimming.next e (by simp) wanted seq listed
  · intro seq listed
    rcases List.mem_append.mp listed with old | made
    · exact kept.logged seq old
    · rw [List.mem_singleton.mp made]
      exact skimming.reading.below (by simp)
  · intro event member beyond wants seq listed
    rcases List.mem_append.mp listed with old | made
    · exact kept.frontier event member beyond wants seq old
    · rw [List.mem_singleton.mp made]
      by_contra before
      by_cases passed : event.seq ≤ reach
      · rw [(skimming.skipped event member beyond passed).1] at wants
        cases wants
      · exact skimming.reading.ahead.no_gap member (by omega) (by omega)

/-- The checkpoint moves past the next event, which is settled. -/
theorem advance {rows : Nat → List HandlerRow} {letters : Nat → List DeadLetter} (kept : AsyncKept consumers name v)
    (skimming : Skimming consumers name v reach (e :: rest)) (keeps : ∀ seq, v.letters seq ≠ [] → letters seq ≠ [])
    (done : e.seq ∈ v.history.handled ∨ letters e.seq ≠ []) :
    AsyncKept consumers name
      { v with checkpoint := e.seq, rows, letters, history := { v.history with passed := v.history.passed ++ [e] } } := by
  refine ⟨skimming.reading.below (by simp), ?_, ?_, kept.ordered, kept.logged, ?_⟩
  · intro event member inside
    by_cases before : event.seq ≤ reach
    · by_cases old : event.seq ≤ v.checkpoint
      · obtain ⟨a, listed, found⟩ := kept.passed event member old
        exact ⟨a, List.mem_append_left _ listed, found⟩
      · obtain ⟨a, listed, found⟩ := (skimming.skipped event member (by omega) before).2
        exact ⟨a, List.mem_append_left _ listed, found⟩
    · by_cases here : event.seq = e.seq
      · exact ⟨e, by simp, here.symm, (skimming.reading.copies e (by simp) event member here).1.symm⟩
      · have within : event.seq ≤ e.seq := inside
        exact (skimming.reading.ahead.no_gap member (by omega) (by omega)).elim
  · intro a listed wants
    rcases List.mem_append.mp listed with old | made
    · exact (kept.settled a old wants).imp_right (keeps a.seq)
    · rw [List.mem_singleton.mp made]
      exact done
  · intro event member beyond wants
    have above := skimming.reading.ahead.above e (by simp)
    have low := skimming.low
    have further : e.seq < event.seq := beyond
    exact kept.frontier event member (by omega) wants

/-- The checkpoint moves over what was skipped. -/
theorem skipTo (kept : AsyncKept consumers name v) (skimming : Skimming consumers name v reach rest) :
    AsyncKept consumers name { v with checkpoint := reach } := by
  refine ⟨skimming.bound, ?_, kept.settled, kept.ordered, kept.logged, ?_⟩
  · intro event member inside
    by_cases old : event.seq ≤ v.checkpoint
    · exact kept.passed event member old
    · exact (skimming.skipped event member (by omega) inside).2
  · intro event member beyond
    exact kept.frontier event member (Nat.lt_of_le_of_lt skimming.low beyond)

end AsyncKept

namespace Skimming
variable {reach : Nat} {rest : List StoredEvent}

theorem grow (skimming : Skimming consumers name v reach rest) (grows : LogGrows v.log later) :
    Skimming consumers name { v with log := later } reach rest := by
  refine ⟨skimming.reading.grow grows, skimming.low, Nat.le_trans skimming.bound grows.last, ?_, skimming.next⟩
  intro event member beyond within
  rcases grows.fresh event member with ⟨a, old, same, type, expires⟩ | new
  · obtain ⟨unwanted, e, listed, seq, typed⟩ := skimming.skipped a old (same ▸ beyond) (same ▸ within)
    refine ⟨?_, e, listed, seq.trans same, typed.trans type⟩
    rw [← Bool.not_eq_true]
    intro wanted
    rw [wants_of_grown type expires wanted] at unwanted
    cases unwanted
  · exact absurd (Nat.le_trans within skimming.bound) (Nat.not_le.mpr new)

/-- What was just read. -/
theorem read (kept : AsyncKept consumers name v) (reading : Reading v.log v.checkpoint rest)
    (listed : ∀ e ∈ rest, e ∈ v.log.events) : Skimming consumers name v v.checkpoint rest := by
  refine ⟨reading, Nat.le_refl _, kept.bound, fun event _ beyond within => absurd beyond (Nat.not_lt.mpr within), ?_⟩
  intro e inside
  exact kept.frontier e (listed e inside) (reading.ahead.above e inside)

theorem skip (skimming : Skimming consumers name v reach (e :: rest)) (unwanted : consumers.wants name e = false) :
    Skimming consumers name { v with history := { v.history with passed := v.history.passed ++ [e] } } e.seq rest := by
  have above := skimming.reading.ahead.above e (by simp)
  refine ⟨skimming.reading.pass, Nat.le_trans skimming.low (Nat.le_of_lt above), skimming.reading.below (by simp), ?_,
    fun a inside => skimming.next a (by simp [inside])⟩
  intro event member beyond within
  by_cases before : event.seq ≤ reach
  · obtain ⟨skipped, a, listed, found⟩ := skimming.skipped event member beyond before
    exact ⟨skipped, a, List.mem_append_left _ listed, found⟩
  · by_cases here : event.seq = e.seq
    · exact ⟨wants_of_copy skimming.reading (by simp) member here unwanted, e, by simp, here.symm,
        (skimming.reading.copies e (by simp) event member here).1.symm⟩
    · exact (skimming.reading.ahead.no_gap member (by omega) (by omega)).elim

theorem handle (skimming : Skimming consumers name v reach (e :: rest)) :
    Skimming consumers name { v with history := { v.history with handled := v.history.handled ++ [e.seq] } } reach (e :: rest) := by
  refine ⟨skimming.reading, skimming.low, skimming.bound, skimming.skipped, ?_⟩
  intro a inside wanted seq listed
  rcases List.mem_append.mp listed with old | made
  · exact skimming.next a inside wanted seq old
  · rw [List.mem_singleton.mp made]
    rcases List.mem_cons.mp inside with rfl | later
    · exact Nat.le_refl _
    · exact Nat.le_of_lt ((List.pairwise_cons.mp skimming.reading.ahead.ordered).1 a later)

/-- After the checkpoint of the next event. -/
theorem advance {rows : Nat → List HandlerRow} {letters : Nat → List DeadLetter}
    (skimming : Skimming consumers name v reach (e :: rest)) :
    Skimming consumers name
      { v with checkpoint := e.seq, rows, letters, history := { v.history with passed := v.history.passed ++ [e] } } e.seq rest :=
  ⟨skimming.reading.pass, Nat.le_refl _, skimming.reading.below (by simp), fun _ _ beyond within => absurd beyond (Nat.not_lt.mpr within),
    fun a inside => skimming.next a (by simp [inside])⟩

/-- Every event before the next one was passed. -/
theorem before (skimming : Skimming consumers name v reach (e :: rest)) :
    reach < e.seq ∧ ∀ event ∈ v.log.events, event.seq < e.seq → event.seq ≤ reach := by
  refine ⟨skimming.reading.ahead.above e (by simp), ?_⟩
  intro event member earlier
  by_contra beyond
  exact skimming.reading.ahead.no_gap member (by omega) earlier

end Skimming

theorem SlotKept.grow {run : SlotRun} (kept : SlotKept consumers name v run) (grows : LogGrows v.log later) :
    SlotKept consumers name { v with log := later } run := by
  cases run with
  | start => trivial
  | read => exact kept
  | events => exact Skimming.grow kept grows
  | waiting => exact ⟨kept.1.grow grows, kept.2⟩
  | handling => exact ⟨kept.1.grow grows, kept.2⟩
  | handled =>
    obtain ⟨⟨reach, skimming⟩, done⟩ := kept
    exact ⟨⟨reach, skimming.grow grows⟩, done⟩
  | parking =>
    obtain ⟨reach, skimming⟩ := kept
    exact ⟨reach, skimming.grow grows⟩
  | deferring =>
    obtain ⟨rest, skimming⟩ := kept
    exact ⟨rest, skimming.grow grows⟩

end Oxplow.Proofs.PumpViews
