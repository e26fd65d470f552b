import Oxplow.Library.Machine
import Oxplow.Proofs.PumpViews

/-! Runs of the pump: a step of one consumer keeps its own part of the state, and touches
no other's. -/

namespace Oxplow.Proofs.PumpRuns
open Library Events Deliveries PumpViews

variable {consumers : Consumers} {name : String}

/-- Where the run of a sync consumer is. -/
def PhaseKept (v : View) : SyncPhase → Prop
  | .start => True
  | .read checkpoint => checkpoint = v.checkpoint
  | .events rest => Reading v.log v.checkpoint rest

structure PumpKept (consumers : Consumers) (state : PumpState) : Prop where
  sync : ∀ name ∈ consumers.sync, SyncKept consumers name (view state name)
  async : ∀ name ∈ consumers.async, AsyncKept consumers name (view state name)
  running : ∀ run, state.syncRun = some run →
    (∀ name ∈ run.waiting, name ∈ consumers.sync) ∧ ∀ name ∈ run.waiting.head?, PhaseKept (view state name) run.phase
  slots : ∀ name run, state.slots name = some run → name ∈ consumers.async ∧ SlotKept consumers name (view state name) run

theorem empty_kept (consumers : Consumers) : PumpKept consumers .empty where
  sync name _ := ⟨Nat.le_refl _, nofun, nofun, fun _ => rfl, fun _ => rfl⟩
  async name _ := ⟨Nat.le_refl _, nofun, nofun, .nil, nofun, nofun⟩
  running _ same := by cases same
  slots _ _ same := by cases same

variable {state : PumpState} {later : EventStore}

theorem view_setStore (only : OnlyFor name state.store later) {other : String} (apart : other ≠ name) :
    view (state.setStore later) other = view state other := by
  simp only [view, PumpState.setStore, View.mk.injEq]
  exact ⟨only.log, only.checkpoint other apart, funext fun seq => only.rows other seq apart,
    funext fun seq => only.letters other seq apart, trivial⟩

theorem view_record (state : PumpState) (update : History → History) {other : String} (apart : other ≠ name) :
    view (state.record name update) other = view state other := by
  simp [view, PumpState.record, apart]

variable {next : PumpState}

/-- A step of the sync consumers' run. -/
theorem PumpKept.syncMoves (kept : PumpKept consumers state) (member : name ∈ consumers.sync)
    (others : ∀ other, other ≠ name → view next other = view state other) (slots : next.slots = state.slots)
    (own : SyncKept consumers name (view next name)) (running : ∀ run, next.syncRun = some run →
      (∀ other ∈ run.waiting, other ∈ consumers.sync) ∧ ∀ other ∈ run.waiting.head?, PhaseKept (view next other) run.phase) :
    PumpKept consumers next := by
  have asyncSame : ∀ other ∈ consumers.async, view next other = view state other := by
    intro other listed
    apply others
    rintro rfl
    exact consumers.apart other member listed
  refine ⟨?_, ?_, running, ?_⟩
  · intro other listed
    by_cases same : other = name
    · exact same ▸ own
    · exact others other same ▸ kept.sync other listed
  · intro other listed
    exact asyncSame other listed ▸ kept.async other listed
  · intro other run taken
    rw [slots] at taken
    obtain ⟨listed, at_⟩ := kept.slots other run taken
    exact ⟨listed, asyncSame other listed ▸ at_⟩

/-- A step of an async consumer's run. -/
theorem PumpKept.slotMoves (kept : PumpKept consumers state) (member : name ∈ consumers.async)
    (others : ∀ other, other ≠ name → view next other = view state other)
    (slots : ∀ other, other ≠ name → next.slots other = state.slots other) (syncRun : next.syncRun = state.syncRun)
    (own : AsyncKept consumers name (view next name))
    (slot : ∀ run, next.slots name = some run → SlotKept consumers name (view next name) run) : PumpKept consumers next := by
  have syncSame : ∀ other ∈ consumers.sync, view next other = view state other := by
    intro other listed
    apply others
    rintro rfl
    exact consumers.apart other listed member
  refine ⟨?_, ?_, ?_, ?_⟩
  · intro other listed
    exact syncSame other listed ▸ kept.sync other listed
  · intro other listed
    by_cases same : other = name
    · exact same ▸ own
    · exact others other same ▸ kept.async other listed
  · intro run taken
    rw [syncRun] at taken
    obtain ⟨listed, phase⟩ := kept.running run taken
    refine ⟨listed, ?_⟩
    intro other head
    rw [syncSame other (listed other (List.mem_of_mem_head? head))]
    exact phase other head
  · intro other run taken
    by_cases same : other = name
    · subst same
      exact ⟨member, slot run taken⟩
    · rw [slots other same] at taken
      rw [others other same]
      exact kept.slots other run taken

/-- The log grows under the runs. -/
theorem PumpKept.grow {later : EventLog} (kept : PumpKept consumers state) (grows : LogGrows state.store.log later) :
    PumpKept consumers (state.setStore { state.store with log := later }) where
  sync name listed := (kept.sync name listed).grow grows
  async name listed := (kept.async name listed).grow grows
  running run taken := by
    obtain ⟨listed, phase⟩ := kept.running run taken
    refine ⟨listed, ?_⟩
    intro name head
    have here := phase name head
    cases at_ : run.phase with
    | start => trivial
    | read checkpoint =>
      rw [at_] at here
      exact here
    | events rest =>
      rw [at_] at here
      exact Reading.grow here grows
  slots name run taken := ⟨(kept.slots name run taken).1, (kept.slots name run taken).2.grow grows⟩

/-! ## Steps -/

/-- No checkpoint moves back. -/
def Forward (state next : PumpState) : Prop := ∀ name, state.store.checkpoint name ≤ next.store.checkpoint name

theorem forward_same (same : next.store = state.store) : Forward state next :=
  fun _ => same ▸ Nat.le_refl _

theorem forward_only (store : next.store = later) (only : OnlyFor name state.store later)
    (own : state.store.checkpoint name ≤ later.checkpoint name) : Forward state next := by
  intro other
  rw [store]
  by_cases same : other = name
  · exact same ▸ own
  · exact Nat.le_of_eq (only.checkpoint other same).symm

/-- A step of the run that changes nothing but the run. -/
theorem PumpKept.setSync (kept : PumpKept consumers state) {run : Option SyncRun}
    (running : ∀ next ∈ run, (∀ name ∈ next.waiting, name ∈ consumers.sync) ∧
      ∀ name ∈ next.waiting.head?, PhaseKept (view state name) next.phase) : PumpKept consumers (state.setSync run) :=
  ⟨kept.sync, kept.async, running, kept.slots⟩

theorem PumpKept.setSlot (kept : PumpKept consumers state) {run : Option SlotRun} (member : name ∈ consumers.async)
    (at_ : ∀ next ∈ run, SlotKept consumers name (view state name) next) : PumpKept consumers (state.setSlot name run) := by
  refine ⟨kept.sync, kept.async, kept.running, ?_⟩
  intro other next taken
  by_cases same : other = name
  · subst same
    exact ⟨member, at_ next (by simpa [PumpState.setSlot] using taken)⟩
  · have there : state.slots other = some next := by simpa [PumpState.setSlot, same] using taken
    exact kept.slots other next there

variable {rest : List StoredEvent}

theorem afterDeliver_kept (kept : PumpKept consumers state) {waiting : List String} {event : StoredEvent} {handler : HandlerRun}
    {result : Except DomainError Delivery} (listed : ∀ other ∈ name :: waiting, other ∈ consumers.sync)
    (reading : Reading state.store.log (state.store.checkpoint name) (event :: rest))
    (done : deliver consumers name event handler state.store = (result, later)) :
    PumpKept consumers (state.afterDeliver name waiting rest ⟨event, handler⟩ result later) ∧
      Forward state (state.afterDeliver name waiting rest ⟨event, handler⟩ result later) := by
  have member := listed name (by simp)
  cases result with
  | error error =>
    rw [deliver_failed done]
    exact ⟨kept.setSync nofun, forward_same rfl⟩
  | ok delivery =>
    have delivers := deliver_ok done
    have beyond : state.store.checkpoint name < event.seq := reading.ahead.above event (by simp)
    have own := (kept.sync name member).deliver reading delivers
    constructor
    · refine kept.syncMoves member ?_ rfl own ?_
      · intro other apart
        have recorded := view_record (state.setStore later)
          (fun history => { history with delivered := history.delivered ++ [⟨event, handler⟩] }) apart
        exact recorded.trans (view_setStore delivers.only apart)
      · rintro _ ⟨⟩
        refine ⟨listed, ?_⟩
        rintro _ ⟨⟩
        change Reading later.log (later.checkpoint name) rest
        rw [delivers.checkpoint, delivers.only.log]
        exact reading.pass
    · have moved : state.store.checkpoint name ≤ later.checkpoint name :=
        Nat.le_trans (Nat.le_of_lt beyond) (Nat.le_of_eq delivers.checkpoint.symm)
      exact forward_only rfl delivers.only moved

theorem syncStep_kept (kept : PumpKept consumers state) {run : SyncRun} (taken : state.syncRun = some run) (handler : HandlerRun) :
    PumpKept consumers (state.syncStep consumers handler run) ∧ Forward state (state.syncStep consumers handler run) := by
  obtain ⟨waiting, phase⟩ := run
  obtain ⟨listed, here⟩ := kept.running _ taken
  cases waiting with
  | nil => exact ⟨kept.setSync nofun, forward_same rfl⟩
  | cons name waiting =>
    have later : ∀ other ∈ waiting, other ∈ consumers.sync := fun other inside => listed other (by simp [inside])
    cases phase with
    | start =>
      refine ⟨kept.setSync ?_, forward_same rfl⟩
      rintro _ ⟨⟩
      refine ⟨listed, ?_⟩
      rintro _ ⟨⟩
      rfl
    | read checkpoint =>
      refine ⟨kept.setSync ?_, forward_same rfl⟩
      rintro _ ⟨⟩
      split
      · exact ⟨later, fun _ _ => trivial⟩
      · refine ⟨listed, ?_⟩
        rintro _ ⟨⟩
        have at_ : checkpoint = state.store.checkpoint name := here name rfl
        rw [at_]
        exact reading_of_read state.store (state.store.checkpoint name)
    | events events =>
      cases events with
      | nil =>
        refine ⟨kept.setSync ?_, forward_same rfl⟩
        rintro _ ⟨⟩
        exact ⟨listed, fun _ _ => trivial⟩
      | cons event rest => exact afterDeliver_kept kept listed (here name rfl) rfl

/-- A checkpoint is written over the events skipped. -/
theorem settle_kept (kept : PumpKept consumers state) (member : name ∈ consumers.async) {skippedTo : Option Nat}
    (skimming : Skimming consumers name (view state name) (skippedTo.getD (state.store.checkpoint name)) rest)
    {run : Option SlotRun} (at_ : ∀ next ∈ run, next = .start) :
    PumpKept consumers ((state.setStore (checkpointSkipped name skippedTo state.store).2).setSlot name run) ∧
      Forward state ((state.setStore (checkpointSkipped name skippedTo state.store).2).setSlot name run) := by
  have started (v : View) : ∀ next ∈ run, SlotKept consumers name v next := by
    intro next listed
    rw [at_ next listed]
    trivial
  rw [checkpointSkipped_eq]
  cases skippedTo with
  | none => exact ⟨kept.setSlot member (started _), forward_same rfl⟩
  | some seq =>
    have only := checkpointed_only state.store name seq
    have own := (kept.async name member).skipTo skimming
    have moved : state.store.checkpoint name ≤ (checkpointed state.store name seq).checkpoint name :=
      Nat.le_trans skimming.low (Nat.le_of_eq (checkpointed_own state.store name seq).symm)
    have same : view (state.setStore (checkpointed state.store name seq)) name = { view state name with checkpoint := seq } := by
      simp only [view, PumpState.setStore, checkpointed_own]
      rfl
    refine ⟨?_, forward_only rfl only moved⟩
    refine kept.slotMoves member ?_ ?_ rfl ?_ ?_
    · exact fun other apart => view_setStore only apart
    · intro other apart
      simp [PumpState.setSlot, PumpState.setStore, apart]
    · exact same ▸ own
    · intro next taken
      refine started _ next ?_
      simpa [PumpState.setSlot] using taken

/-- The checkpoint moves past an event that is settled. -/
theorem passEvent_kept (kept : PumpKept consumers state) (member : name ∈ consumers.async) {event : StoredEvent} {reach : Nat}
    (skimming : Skimming consumers name (view state name) reach (event :: rest)) (only : OnlyFor name state.store later)
    (checkpoint : later.checkpoint name = event.seq)
    (keeps : ∀ seq, state.store.lettersFor name seq ≠ [] → later.lettersFor name seq ≠ [])
    (done : event.seq ∈ (state.history name).handled ∨ later.lettersFor name event.seq ≠ []) :
    PumpKept consumers (state.passEvent name event rest (.ok ()) later) ∧
      Forward state (state.passEvent name event rest (.ok ()) later) := by
  have above : reach < event.seq := skimming.reading.ahead.above event (by simp)
  have moved : state.store.checkpoint name ≤ later.checkpoint name :=
    Nat.le_trans (Nat.le_trans skimming.low (Nat.le_of_lt above)) (Nat.le_of_eq checkpoint.symm)
  have same : view (state.passEvent name event rest (.ok ()) later) name =
      { view state name with
        checkpoint := event.seq, rows := later.rowsFor name, letters := later.lettersFor name,
        history := { state.history name with passed := (state.history name).passed ++ [event] } } := by
    simp only [view, PumpState.passEvent, PumpState.setSlot, PumpState.record, PumpState.setStore, if_true, checkpoint, only.log]
  refine ⟨?_, forward_only rfl only moved⟩
  refine kept.slotMoves member ?_ ?_ rfl ?_ ?_
  · intro other apart
    have recorded := view_record (state.setStore later)
      (fun history => { history with passed := history.passed ++ [event] }) apart
    exact recorded.trans (view_setStore only apart)
  · intro other apart
    simp [PumpState.passEvent, PumpState.setSlot, PumpState.setStore, PumpState.record, apart]
  · rw [same]
    exact (kept.async name member).advance skimming keeps done
  · intro next taken
    rw [same]
    have here : next = .events rest none := by
      simpa [PumpState.passEvent, PumpState.setSlot, PumpState.setStore, PumpState.record, eq_comm] using taken
    rw [here]
    exact skimming.advance

/-- What the run notes of its own consumer, and where it goes on. -/
theorem record_kept (kept : PumpKept consumers state) (member : name ∈ consumers.async) (update : History → History)
    {run : SlotRun} (own : AsyncKept consumers name { view state name with history := update (state.history name) })
    (at_ : SlotKept consumers name { view state name with history := update (state.history name) } run) :
    PumpKept consumers ((state.record name update).setSlot name (some run)) := by
  have same : view ((state.record name update).setSlot name (some run)) name =
      { view state name with history := update (state.history name) } := by
    simp only [view, PumpState.setSlot, PumpState.record, if_true]
  refine kept.slotMoves member ?_ ?_ rfl ?_ ?_
  · exact fun other apart => view_record state update apart
  · intro other apart
    simp [PumpState.setSlot, PumpState.record, apart]
  · rw [same]
    exact own
  · intro next taken
    have here : next = run := by simpa [PumpState.setSlot, eq_comm] using taken
    rw [same, here]
    exact at_

theorem slotStep_kept (kept : PumpKept consumers state) {run : SlotRun} (taken : state.slots name = some run)
    (handler : HandlerRun) :
    PumpKept consumers (state.slotStep consumers name handler run) ∧ Forward state (state.slotStep consumers name handler run) := by
  obtain ⟨member, here⟩ := kept.slots name run taken
  cases run with
  | start =>
    refine ⟨kept.setSlot member ?_, forward_same rfl⟩
    rintro _ ⟨⟩
    rfl
  | read checkpoint =>
    refine ⟨kept.setSlot member ?_, forward_same rfl⟩
    have at_ : checkpoint = state.store.checkpoint name := here
    intro next listed
    split at listed
    · cases listed
    · cases listed
      rw [at_]
      refine Skimming.read (kept.async name member) (reading_of_read state.store _) ?_
      intro e inside
      exact (List.mem_filter.mp (List.mem_of_mem_take inside)).1
  | events events skippedTo =>
    cases events with
    | nil => exact settle_kept kept member here (by rintro _ ⟨⟩; rfl)
    | cons event rest =>
      simp only [PumpState.slotStep]
      split
      next wanted =>
        refine ⟨kept.setSlot member ?_, forward_same rfl⟩
        rintro _ ⟨⟩
        exact ⟨here, wanted⟩
      next unwanted =>
        have passed : consumers.wants name event = false := by simpa using unwanted
        exact ⟨record_kept kept member _ ((kept.async name member).skip passed) (Skimming.skip here passed), forward_same rfl⟩
  | waiting event rest skippedTo =>
    refine ⟨kept.setSlot member ?_, forward_same rfl⟩
    rintro _ ⟨⟩
    split
    · exact here
    · exact ⟨rest, here.1⟩
  | handling event rest skippedTo =>
    obtain ⟨skimming, wanted⟩ := here
    simp only [PumpState.slotStep]
    cases handler.ending.result with
    | ok =>
      refine ⟨record_kept kept member _ ((kept.async name member).handle skimming wanted) ?_, forward_same rfl⟩
      exact ⟨⟨_, skimming.handle⟩, by simp⟩
    | error error =>
      refine ⟨kept.setSlot member ?_, forward_same rfl⟩
      rintro _ ⟨⟩
      split
      · exact ⟨rest, skimming⟩
      · exact ⟨_, skimming⟩
  | handled event rest =>
    obtain ⟨⟨reach, skimming⟩, done⟩ := here
    have only := checkpointed_only state.store name event.seq
    exact passEvent_kept kept member skimming only (checkpointed_own _ _ _) (fun _ => id) (.inl done)
  | parking event rest message =>
    obtain ⟨reach, skimming⟩ := here
    simp only [PumpState.slotStep]
    rcases parked : parkAsync name event message state.store with ⟨result, later⟩
    cases result with
    | ok =>
      obtain ⟨only, checkpoint, keeps, lettered⟩ := parkAsync_ok parked
      exact passEvent_kept kept member skimming only checkpoint keeps (.inr lettered)
    | error error =>
      rw [parkAsync_failed parked]
      exact ⟨kept.setSlot member nofun, forward_same rfl⟩
  | deferring event skippedTo =>
    obtain ⟨rest, skimming⟩ := here
    exact settle_kept kept member skimming nofun

theorem step_kept (kept : PumpKept consumers state) {step : PumpStep} (moved : state.step consumers step = some next) :
    PumpKept consumers next ∧ Forward state next := by
  cases step with
  | append eventType =>
    cases moved
    exact ⟨kept.grow (append_grows _ _), fun _ => Nat.le_refl _⟩
  | expire seq =>
    cases moved
    exact ⟨kept.grow (expire_grows _ _), fun _ => Nat.le_refl _⟩
  | startSync =>
    simp only [PumpState.step] at moved
    split at moved
    · cases moved
    · cases moved
      refine ⟨kept.setSync ?_, forward_same rfl⟩
      rintro _ ⟨⟩
      exact ⟨fun _ => id, fun _ _ => trivial⟩
  | sync handler =>
    obtain ⟨run, taken, rfl⟩ := Option.map_eq_some_iff.mp moved
    exact syncStep_kept kept taken handler
  | stopSync =>
    cases moved
    exact ⟨kept.setSync nofun, forward_same rfl⟩
  | startSlot name =>
    simp only [PumpState.step] at moved
    split at moved
    next allowed =>
      cases moved
      have member : name ∈ consumers.async := by simpa using (Bool.and_eq_true_iff.mp allowed).1
      refine ⟨kept.setSlot member ?_, forward_same rfl⟩
      rintro _ ⟨⟩
      trivial
    · cases moved
  | slot name handler =>
    obtain ⟨run, taken, rfl⟩ := Option.map_eq_some_iff.mp moved
    exact slotStep_kept kept taken handler
  | stopSlot name =>
    cases moved
    refine ⟨⟨kept.sync, kept.async, kept.running, ?_⟩, forward_same rfl⟩
    intro other run taken
    by_cases same : other = name
    · simp [PumpState.setSlot, same] at taken
    · have there : state.slots other = some run := by simpa [PumpState.setSlot, same] using taken
      exact kept.slots other run there
  | crash =>
    cases moved
    exact ⟨⟨kept.sync, kept.async, nofun, nofun⟩, forward_same rfl⟩

/-! ## Runs -/

/-- The pump as a machine. -/
def stepOut (consumers : Consumers) (state : PumpState) (step : PumpStep) : Option (PumpState × Unit) :=
  (state.step consumers step).map (·, ())

theorem run_eq (consumers : Consumers) (state : PumpState) (steps : List PumpStep) :
    state.run consumers steps = Machine.run (stepOut consumers) state steps := by
  have same : (fun (state : PumpState) step => (state.step consumers step).getD state) = Machine.advance (stepOut consumers) := by
    funext state step
    cases moved : state.step consumers step <;> simp [Machine.advance, stepOut, moved]
  rw [PumpState.run, Machine.run, same]

theorem run_kept (kept : PumpKept consumers state) (steps : List PumpStep) :
    PumpKept consumers (state.run consumers steps) ∧ Forward state (state.run consumers steps) := by
  rw [run_eq]
  refine Machine.run_related Forward (fun _ _ => Nat.le_refl _) ?_ (PumpKept consumers) ?_ kept steps
  · exact fun first second name => Nat.le_trans (first name) (second name)
  · intro s step next _ kept moved
    obtain ⟨_, taken, same⟩ := Option.map_eq_some_iff.mp moved
    cases same
    exact step_kept kept taken

/-- After every run of the pump: no checkpoint ever moves back. Each event up to a sync
consumer's checkpoint was delivered once: a handler that succeeded left its rows and no
letter, one that failed a letter and no rows, and an event it does not want neither; no
event after the checkpoint has either. Each event up to an async consumer's checkpoint
that it wanted was handled or is parked, and its handler took them in order. A deferred
event stays after the checkpoint, with every event before it passed. -/
theorem pump_delivers (consumers : Consumers) :
    (∀ before after name, (PumpState.empty.run consumers before).store.checkpoint name ≤
      (PumpState.empty.run consumers (before ++ after)).store.checkpoint name) ∧
    ∀ steps state, PumpState.empty.run consumers steps = state →
      (∀ name ∈ consumers.sync,
        (∀ event ∈ state.store.log.events, event.seq ≤ state.store.checkpoint name →
          ∃ d, (state.history name).delivered.filter (·.event.seq == event.seq) = [d] ∧ d.event.eventType = event.eventType ∧
            (consumers.wants name d.event = true → d.run.ending.result.toBool = true →
              state.store.rowsFor name event.seq = d.run.rows.map (fun row => ⟨name, event.seq, row⟩) ∧
                state.store.lettersFor name event.seq = []) ∧
            (consumers.wants name d.event = true → d.run.ending.result.toBool = false →
              state.store.rowsFor name event.seq = [] ∧ (state.store.lettersFor name event.seq).length = 1) ∧
            (consumers.wants name d.event = false →
              state.store.rowsFor name event.seq = [] ∧ state.store.lettersFor name event.seq = [])) ∧
        ∀ seq, state.store.checkpoint name < seq →
          state.store.rowsFor name seq = [] ∧ state.store.lettersFor name seq = []) ∧
      (∀ name ∈ consumers.async,
        (∀ event ∈ state.store.log.events, event.seq ≤ state.store.checkpoint name →
          ∃ e ∈ (state.history name).passed, e.seq = event.seq ∧ e.eventType = event.eventType ∧
            (consumers.wants name e = true →
              event.seq ∈ (state.history name).handled ∨ state.store.lettersFor name event.seq ≠ [])) ∧
        (state.history name).handled.Pairwise (· ≤ ·)) ∧
      ∀ name event skippedTo handler next, state.slots name = some (.deferring event skippedTo) →
        state.step consumers (.slot name handler) = some next →
        next.store.checkpoint name < event.seq ∧
          ∀ e ∈ next.store.log.events, e.seq < event.seq → e.seq ≤ next.store.checkpoint name := by
  refine ⟨?_, ?_⟩
  · intro before after name
    have runs : PumpState.empty.run consumers (before ++ after) = (PumpState.empty.run consumers before).run consumers after :=
      List.foldl_append
    rw [runs]
    exact (run_kept (run_kept (empty_kept consumers) before).1 after).2 name
  rintro steps state rfl
  have kept := (run_kept (empty_kept consumers) steps).1
  refine ⟨?_, ?_, ?_⟩
  · intro name listed
    have own := kept.sync name listed
    refine ⟨?_, ?_⟩
    · intro event member inside
      obtain ⟨d, one, typed⟩ := own.once event member inside
      obtain ⟨rows, letters⟩ := own.outcome one
      have seq : d.event.seq = event.seq := by
        have listed : d ∈ (view (PumpState.empty.run consumers steps) name).deliveriesOf event.seq := by simp [one]
        simpa using (List.mem_filter.mp listed).2
      refine ⟨d, one, typed, ?_, ?_, ?_⟩
      · intro wanted succeeded
        refine ⟨rows.trans ?_, List.length_eq_zero_iff.mp (letters.trans ?_)⟩
        · simp [written, commits, wanted, succeeded, seq]
        · simp [parks, succeeded]
      · intro wanted failed
        refine ⟨rows.trans ?_, letters.trans ?_⟩
        · simp [written, commits, failed]
        · simp [parks, wanted, failed]
      · intro unwanted
        refine ⟨rows.trans ?_, List.length_eq_zero_iff.mp (letters.trans ?_)⟩
        · simp [written, commits, unwanted]
        · simp [parks, unwanted]
    · intro seq beyond
      have fresh := own.undelivered beyond
      have rows := own.rows seq
      have letters := own.letters seq
      rw [fresh] at rows letters
      exact ⟨rows, List.length_eq_zero_iff.mp letters⟩
  · intro name listed
    have own := kept.async name listed
    refine ⟨?_, own.ordered⟩
    intro event member inside
    obtain ⟨e, passed, seq, typed⟩ := own.passed event member inside
    refine ⟨e, passed, seq, typed, ?_⟩
    intro wanted
    exact seq ▸ own.settled e passed wanted
  · intro name event skippedTo handler next taken moved
    obtain ⟨rest, skimming⟩ := (kept.slots name _ taken).2
    have settled : next = ((PumpState.empty.run consumers steps).setStore
        (checkpointSkipped name skippedTo (PumpState.empty.run consumers steps).store).2).setSlot name none := by
      simp only [PumpState.step, taken, Option.map_some, PumpState.slotStep, Option.some.injEq] at moved
      exact moved.symm
    obtain ⟨above, before⟩ := skimming.before
    have log : next.store.log = (PumpState.empty.run consumers steps).store.log := by
      rw [settled]
      cases skippedTo <;> rfl
    have reach : next.store.checkpoint name = skippedTo.getD ((PumpState.empty.run consumers steps).store.checkpoint name) := by
      rw [settled]
      cases skippedTo with
      | none => rfl
      | some seq => exact checkpointed_own _ name seq
    rw [log, reach]
    exact ⟨above, before⟩

end Oxplow.Proofs.PumpRuns
