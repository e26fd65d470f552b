import Oxplow.Library.Layers
import Oxplow.Proofs.PumpRuns

/-! The order of the async consumers: a handler starts behind those it runs after, and a settle
runs them level by level. -/

namespace Oxplow.Proofs.PumpOrder
open Library Events PumpRuns

variable {consumers : Consumers}

/-! ## Handlers -/

/-- Every consumer that an event waits on has checkpointed at or past it. -/
def Behind (consumers : Consumers) (state : PumpState) (name : String) (event : StoredEvent) : Prop :=
  ∀ dep ∈ consumers.afterFor name event.eventType, event.seq ≤ state.store.checkpoint dep

variable {state : PumpState} {name : String} {event : StoredEvent}

theorem Behind.forward {next : PumpState} (behind : Behind consumers state name event) (forward : Forward state next) :
    Behind consumers next name event :=
  fun dep member => Nat.le_trans (behind dep member) (forward dep)

theorem behind_of_past (past : predecessorsPast state.store (consumers.afterFor name event.eventType) event.seq = true) :
    Behind consumers state name event := by
  intro dep member
  have reached := List.all_eq_true.mp past dep member
  simpa using reached

/-- A handler runs for the event. -/
def Handles (state : PumpState) (name : String) (event : StoredEvent) : Prop :=
  ∃ rest skippedTo, state.slots name = some (.handling event rest skippedTo)

theorem setSlot_own (state : PumpState) (name : String) (run : Option SlotRun) : (state.setSlot name run).slots name = run := if_pos rfl

theorem setSlot_other (state : PumpState) {other : String} (apart : other ≠ name) (run : Option SlotRun) :
    (state.setSlot name run).slots other = state.slots other := if_neg apart

/-- A consumer's step leaves the others' runs alone. -/
theorem slotStep_other (state : PumpState) {other : String} (apart : other ≠ name) (handler : HandlerRun) (run : SlotRun) :
    (state.slotStep consumers name handler run).slots other = state.slots other := by
  cases run with
  | start => exact setSlot_other _ apart _
  | read checkpoint => exact setSlot_other _ apart _
  | events events skippedTo =>
    cases events with
    | nil => exact setSlot_other _ apart _
    | cons event rest =>
      rw [PumpState.slotStep]
      split
      · exact setSlot_other _ apart _
      · exact setSlot_other _ apart _
  | waiting event rest skippedTo => exact setSlot_other _ apart _
  | handling event rest skippedTo =>
    rw [PumpState.slotStep]
    cases handler.ending.result with
    | ok => exact setSlot_other _ apart _
    | error => exact setSlot_other _ apart _
  | handled event rest =>
    rw [PumpState.slotStep]
    generalize transaction (setCheckpointTx name event.seq) state.store = result
    cases result.1 with
    | ok => exact setSlot_other _ apart _
    | error => exact setSlot_other _ apart _
  | parking event rest message =>
    rw [PumpState.slotStep]
    generalize parkAsync name event message state.store = result
    cases result.1 with
    | ok => exact setSlot_other _ apart _
    | error => exact setSlot_other _ apart _
  | deferring event skippedTo => exact setSlot_other _ apart _

/-- A consumer's own step starts a handler only after the read of its predecessors. -/
theorem slotStep_handling {handler : HandlerRun} {run : SlotRun} {rest : List StoredEvent} {skippedTo : Option Nat}
    (started : (state.slotStep consumers name handler run).slots name = some (.handling event rest skippedTo)) :
    predecessorsPast state.store (consumers.afterFor name event.eventType) event.seq = true ∧
      (state.slotStep consumers name handler run).store = state.store := by
  cases run with
  | start =>
    rw [PumpState.slotStep, setSlot_own] at started
    cases started
  | read checkpoint =>
    rw [PumpState.slotStep, setSlot_own] at started
    split at started
    · cases started
    · cases started
  | events events skippedTo =>
    cases events with
    | nil =>
      rw [PumpState.slotStep, setSlot_own] at started
      cases started
    | cons first rest =>
      rw [PumpState.slotStep] at started
      split at started
      · rw [setSlot_own] at started
        cases started
      · rw [setSlot_own] at started
        cases started
  | waiting first rest skippedTo =>
    rw [PumpState.slotStep, setSlot_own] at started
    split at started
    · rename_i past
      obtain ⟨rfl, -, -⟩ := SlotRun.handling.inj (Option.some.inj started)
      exact ⟨past, rfl⟩
    · cases started
  | handling first rest skippedTo =>
    rw [PumpState.slotStep] at started
    cases ended : handler.ending.result with
    | ok =>
      rw [ended, PumpState.afterHandling, setSlot_own] at started
      cases started
    | error =>
      rw [ended, PumpState.afterHandling, setSlot_own] at started
      split at started
      · cases started
      · cases started
  | handled first rest =>
    rw [PumpState.slotStep] at started
    generalize transaction (setCheckpointTx name first.seq) state.store = result at started
    cases ended : result.1 with
    | ok =>
      rw [ended, PumpState.passEvent, setSlot_own] at started
      cases started
    | error =>
      rw [ended, PumpState.passEvent, setSlot_own] at started
      cases started
  | parking first rest message =>
    rw [PumpState.slotStep] at started
    generalize parkAsync name first message state.store = result at started
    cases ended : result.1 with
    | ok =>
      rw [ended, PumpState.passEvent, setSlot_own] at started
      cases started
    | error =>
      rw [ended, PumpState.passEvent, setSlot_own] at started
      cases started
  | deferring first skippedTo =>
    rw [PumpState.slotStep, setSlot_own] at started
    cases started

theorem syncStep_slots (state : PumpState) (handler : HandlerRun) (run : SyncRun) :
    (state.syncStep consumers handler run).slots = state.slots := by
  obtain ⟨waiting, phase⟩ := run
  cases waiting with
  | nil => rfl
  | cons name waiting =>
    cases phase with
    | start => rfl
    | read checkpoint => rfl
    | events events =>
      cases events with
      | nil => rfl
      | cons event rest =>
        change (state.afterDeliver name waiting rest ⟨event, handler⟩ _ _).slots = state.slots
        cases (deliver consumers name event handler state.store).1 with
        | ok => rfl
        | error => rfl

/-- A handler that runs after a step ran before it, or was started behind its predecessors. -/
theorem handles_step {next : PumpState} {step : PumpStep} (moved : state.step consumers step = some next)
    (runs : Handles next name event) : Handles state name event ∨ Behind consumers next name event := by
  obtain ⟨rest, skippedTo, started⟩ := runs
  have same (slots : next.slots name = state.slots name) : Handles state name event := ⟨rest, skippedTo, slots ▸ started⟩
  cases step with
  | append | expire | stopSync =>
    obtain rfl := Option.some.inj moved
    exact .inl (same rfl)
  | startSync =>
    rw [PumpState.step] at moved
    split at moved
    · cases moved
    · obtain rfl := Option.some.inj moved
      exact .inl (same rfl)
  | sync handler =>
    obtain ⟨run, -, rfl⟩ := Option.map_eq_some_iff.mp moved
    exact .inl (same (congrFun (syncStep_slots state handler run) name))
  | startSlot other =>
    rw [PumpState.step] at moved
    split at moved
    swap
    · cases moved
    obtain rfl := Option.some.inj moved
    by_cases own : name = other
    · rw [own, setSlot_own] at started
      cases started
    · exact .inl (same (setSlot_other _ own _))
  | slot other handler =>
    obtain ⟨run, taken, rfl⟩ := Option.map_eq_some_iff.mp moved
    by_cases own : name = other
    · subst own
      obtain ⟨past, store⟩ := slotStep_handling started
      exact .inr (behind_of_past (store ▸ past))
    · exact .inl (same (slotStep_other state own handler run))
  | stopSlot other =>
    obtain rfl := Option.some.inj moved
    by_cases own : name = other
    · rw [own, setSlot_own] at started
      cases started
    · exact .inl (same (setSlot_other _ own _))
  | crash =>
    obtain rfl := Option.some.inj moved
    cases started

/-- While a handler runs, those it runs after have checkpointed at or past its event. -/
theorem behind_run (consumers : Consumers) (steps : List PumpStep)
    (runs : Handles (PumpState.empty.run consumers steps) name event) :
    Behind consumers (PumpState.empty.run consumers steps) name event := by
  have kept : PumpKept consumers (PumpState.empty.run consumers steps) ∧
      ∀ name event, Handles (PumpState.empty.run consumers steps) name event → Behind consumers (PumpState.empty.run consumers steps) name event := by
    rw [run_eq]
    refine Machine.run_invariant (fun state (_ : List (PumpStep × Unit)) =>
      PumpKept consumers state ∧ ∀ name event, Handles state name event → Behind consumers state name event) ?_ [] ?_ steps
    · intro state _ step next _ ⟨kept, behind⟩ moves
      obtain ⟨_, moved, same⟩ := Option.map_eq_some_iff.mp moves
      obtain ⟨rfl, -⟩ := Prod.mk.inj same
      obtain ⟨keptNext, forward⟩ := step_kept kept moved
      refine ⟨keptNext, fun name event runs => ?_⟩
      rcases handles_step moved runs with before | started
      · exact (behind name event before).forward forward
      · exact started
    · refine ⟨empty_kept consumers, fun name event runs => ?_⟩
      obtain ⟨_, _, idle⟩ := runs
      cases idle
  exact kept.2 name event runs

/-! ## Levels -/

variable {after : String → List String}

variable {slots : List String}

theorem settleReady_iff {placed : List String} (placedOut : ∀ name ∈ placed, name ∉ slots) :
    settleReady after placed slots name = true ↔ ∀ dep ∈ after name, dep ∉ slots := by
  simp only [settleReady, List.all_eq_true, Bool.or_eq_true, Bool.not_eq_true', List.contains_eq_mem,
    decide_eq_false_iff_not, decide_eq_true_eq]
  constructor
  · intro ready dep member
    rcases ready dep member with before | out
    · exact placedOut dep before
    · exact out
  · exact fun out dep member => .inr (out dep member)

theorem partition_eq (takes : String → Bool) (slots : List String) :
    slots.partition takes = (slots.filter takes, slots.filter fun name => !takes name) := List.partition_eq_filter_filter ..

/-- An acyclic order's levels are layers of it. -/
theorem settleLevelsFrom_layered {placed : List String} (placedOut : ∀ name ∈ placed, name ∉ slots)
    (acyclic : Acyclic after slots) : Layered after slots (settleLevelsFrom after placed slots) := by
  induction placed, slots using settleLevelsFrom.induct after with
  | case1 placed =>
    rw [settleLevelsFrom]
    exact .nil
  | case2 placed slots some split stuck =>
    -- some slot waits on none of the others
    obtain ⟨name, member, free⟩ := acyclic.exists_free some
    have taken : name ∈ slots.filter (settleReady after placed slots) :=
      List.mem_filter.mpr ⟨member, (settleReady_iff placedOut).mpr free⟩
    have none : slots.filter (settleReady after placed slots) = [] := (congrArg Prod.fst (partition_eq _ slots)).symm.trans stuck
    rw [none] at taken
    cases taken
  | case3 placed slots some split ready ih =>
    have parts : split = (slots.filter (settleReady after placed slots), slots.filter fun name => !settleReady after placed slots name) :=
      partition_eq _ slots
    rw [settleLevelsFrom, if_neg some]
    change Layered after slots (if split.1 = [] then [split.2] else split.1 :: settleLevelsFrom after (placed ++ split.1) split.2)
    rw [if_neg ready]
    rw [parts] at ih ⊢
    have fewer : Acyclic after (slots.filter fun name => !settleReady after placed slots name) := acyclic.mono (List.filter_subset_self _)
    refine .cons (settleReady after placed slots) ?_ (ih ?_ fewer)
    · exact fun name taken => (settleReady_iff placedOut).mp (List.mem_filter.mp taken).2
    · intro name out left
      obtain ⟨member, waits⟩ := List.mem_filter.mp left
      rcases List.mem_append.mp out with before | taken
      · exact placedOut name before member
      · rw [(List.mem_filter.mp taken).2] at waits
        cases waits

theorem settleLevels_layered (acyclic : Acyclic after slots) : Layered after slots (settleLevels after slots) :=
  settleLevelsFrom_layered (fun _ none => absurd none List.not_mem_nil) acyclic

/-- A handler runs only while each consumer it runs after for the event's type has checkpointed
at or past the event. A settle's levels hold each slot given once, each in a later level than
those it runs after. -/
theorem after_kept (consumers : Consumers) (after : String → List String) :
    (∀ steps name event, Handles (PumpState.empty.run consumers steps) name event →
      ∀ dep ∈ consumers.afterFor name event.eventType, event.seq ≤ (PumpState.empty.run consumers steps).store.checkpoint dep) ∧
    ∀ slots, Acyclic after slots →
      (settleLevels after slots).flatten.Perm slots ∧
        (∀ name ∈ slots, ∃! i : Nat, ∃ level, (settleLevels after slots)[i]? = some level ∧ name ∈ level) ∧
        ∀ (i j : Nat) (level earlier : List String), (settleLevels after slots)[i]? = some level → (settleLevels after slots)[j]? = some earlier →
          ∀ name ∈ level, ∀ dep ∈ earlier, dep ∈ after name → j < i := by
  constructor
  · exact fun steps name event runs => behind_run consumers steps runs
  · intro slots acyclic
    have layered := settleLevels_layered acyclic
    refine ⟨layered.perm, fun name member => layered.exists_unique member, ?_⟩
    exact fun i j level earlier found found' name inside dep inside' needed => layered.lt_of_needs found found' inside inside' needed

/-- Two async consumers, the second after the first. -/
def pair : Consumers where
  sync := []
  async := ["effort.observe", "effort.policy"]
  handles _ _ := true
  afterFor name _ := if name = "effort.policy" then ["effort.observe"] else []
  apart _ none := absurd none List.not_mem_nil

/-- One event, handled by the first, and then by the second. -/
def handledTwice : List PumpStep :=
  let ends : HandlerRun := ⟨[], .returned (.ok ())⟩
  .append "effort.finished" :: .startSlot "effort.observe" :: List.replicate 6 (.slot "effort.observe" ends) ++
    .startSlot "effort.policy" :: List.replicate 4 (.slot "effort.policy" ends)

theorem after_kept_pair :
    Handles (PumpState.empty.run pair handledTwice) "effort.policy" ⟨1, "effort.finished", false⟩ ∧
      1 ≤ (PumpState.empty.run pair handledTwice).store.checkpoint "effort.observe" ∧
      Acyclic (pair.afterFor · "effort.finished") pair.async ∧
      (settleLevels (pair.afterFor · "effort.finished") pair.async).flatten.Perm pair.async := by
  have runs : Handles (PumpState.empty.run pair handledTwice) "effort.policy" ⟨1, "effort.finished", false⟩ := ⟨[], none, rfl⟩
  have acyclic : Acyclic (pair.afterFor · "effort.finished") pair.async := by
    apply acyclic_of_rank fun name => if name = "effort.policy" then 1 else 0
    decide
  have kept := after_kept pair (pair.afterFor · "effort.finished")
  exact ⟨runs, kept.1 _ _ _ runs "effort.observe" (by decide), acyclic, (kept.2 _ acyclic).1⟩

end Oxplow.Proofs.PumpOrder
