import Mathlib.Data.List.Nodup
import Oxplow.Changes.ChangeReactor

/-! Which file lists a sequence of events leaves refreshed. The last of a burst refreshes the
stream's working change, but only its own thread's effort. -/

namespace Oxplow.Proofs.ChangeRefreshes
open Changes

variable {stream : Nat} {handlings : List Handling}

/-! ## One handling -/

/-- A stream-moving event logged on the stream. -/
def Moves (stream : Nat) (event : Event) : Prop := event.stream = some stream ∧ event.movesTheStream = true

variable {event : Event}

theorem moves_of_supersedes (supersedes : event.supersedes stream = true) : Moves stream event := by
  simp only [Event.supersedes, Bool.and_eq_true, Bool.or_eq_true, decide_eq_true_eq, beq_iff_eq, Option.any_eq_true] at supersedes
  obtain ⟨⟨logged, -⟩, head | ⟨⟨taken, changed⟩, count, recorded, some⟩⟩ := supersedes
  · refine ⟨logged, ?_⟩
    rw [Event.movesTheStream, head, if_neg (by decide)]
    rfl
  · refine ⟨logged, ?_⟩
    simpa [Event.movesTheStream, taken, changed, recorded] using some

theorem not_finished_of_moves (moves : event.movesTheStream = true) : event.eventType ≠ effortFinished := by
  intro finished
  rw [Event.movesTheStream, finished, if_neg (by decide)] at moves
  exact absurd moves (by decide)

variable {services : Services} {later : List Event}

theorem files_mem_handle (moves : Moves stream event) (target : ChangeTarget) :
    .files target ∈ services.handle event later ↔ superseded later stream = false ∧ target ∈ services.targets stream event.thread := by
  rw [Services.handle, if_neg (not_finished_of_moves moves.2), moves.1]
  simp only [moves.2, Bool.not_true, Bool.false_or]
  cases superseded later stream with
  | true => simp
  | false => cases event.forces <;> simp

/-- An event that moves another stream, or none, lists no file. -/
theorem moves_of_files {target : ChangeTarget} (listed : .files target ∈ services.handle event later) :
    ∃ stream, Moves stream event := by
  rw [Services.handle] at listed
  split at listed
  · split at listed
    · split at listed <;> simp at listed
    · cases listed
  · split at listed
    · cases listed
    · rename_i stream logged
      split at listed
      · cases listed
      · rename_i moves
        refine ⟨stream, logged, ?_⟩
        simp only [Bool.or_eq_true, Bool.not_eq_true', not_or, Bool.not_eq_false] at moves
        exact moves.1

/-- An open effort of the stream with a start snapshot. -/
def Open (stream : Nat) (effort : Effort) : Prop :=
  effort.stream = stream ∧ effort.ended = false ∧ effort.startSnapshot.isSome = true

/-- The effort is of the event's thread, or the event has none. -/
def MayMove (event : Event) (effort : Effort) : Prop := ∀ thread ∈ event.thread, effort.thread = thread

theorem working_mem_targets (services : Services) (stream : Nat) (thread : Option Nat) :
    .working stream ∈ services.targets stream thread := List.mem_append_left _ List.mem_cons_self

theorem effort_mem_targets {effort : Effort} (kept : effort ∈ services.efforts) :
    .effort effort.id ∈ services.targets stream event.thread ↔ Open stream effort ∧ MayMove event effort := by
  simp only [Services.targets, Services.workingTargets, Services.listOpenForStream, List.mem_append, List.mem_cons, List.mem_map,
    List.mem_filter, Bool.and_eq_true, Option.all_eq_true, decide_eq_true_eq, Bool.not_eq_true']
  constructor
  · rintro ((same | ⟨range, -, same⟩) | ⟨other, ⟨⟨listed, here, running⟩, moved, started⟩, same⟩)
    · cases same
    · cases same
    · have own : other = effort := List.inj_on_of_nodup_map services.distinct listed kept (ChangeTarget.effort.inj same)
      subst own
      exact ⟨⟨here, running, started⟩, moved⟩
  · intro ⟨open_, moved⟩
    exact .inr ⟨effort, ⟨⟨kept, open_.1, open_.2.1⟩, moved, open_.2.2⟩, rfl⟩

/-! ## A sequence -/

/-- The later events that are logged when one is handled. -/
def laterOf (handlings : List Handling) (i : Nat) (handling : Handling) : List Event :=
  ((handlings.drop (i + 1)).take handling.ahead).map (·.event)

theorem getElem?_handleAll (handlings : List Handling) (i : Nat) :
    (handleAll handlings)[i]? = handlings[i]?.map fun handling => handling.services.handle handling.event (laterOf handlings i handling) := by
  induction handlings generalizing i with
  | nil => rfl
  | cons first rest ih =>
    cases i with
    | zero => rfl
    | succ i => exact ih i

/-- A handling from some point on lists the target's files. -/
def RefreshedFrom (handlings : List Handling) (i : Nat) (target : ChangeTarget) : Prop :=
  ∃ j work, i ≤ j ∧ (handleAll handlings)[j]? = some work ∧ .files target ∈ work

/-- An event of the stream that is handled with nothing newer logged that supersedes it. -/
def Latest (stream : Nat) (handlings : List Handling) (j : Nat) (handling : Handling) : Prop :=
  handlings[j]? = some handling ∧ Moves stream handling.event ∧ ∀ event ∈ laterOf handlings j handling, event.supersedes stream = false

theorem superseded_eq_false : superseded later stream = false ↔ ∀ event ∈ later, event.supersedes stream = false := by
  simp only [superseded, List.any_eq_false, Bool.not_eq_true]

theorem Latest.refreshes {j : Nat} {handling : Handling} (latest : Latest stream handlings j handling) {target : ChangeTarget}
    (moved : target ∈ handling.services.targets stream handling.event.thread) {i : Nat} (from_ : i ≤ j) : RefreshedFrom handlings i target := by
  obtain ⟨found, moves, newest⟩ := latest
  refine ⟨j, _, from_, ?_, (files_mem_handle moves target).mpr ⟨superseded_eq_false.mpr newest, moved⟩⟩
  rw [getElem?_handleAll, found]
  rfl

/-- An event that is superseded has one after it; the last of them is the latest. -/
theorem exists_latest {i : Nat} {handling : Handling} (found : handlings[i]? = some handling) (moves : Moves stream handling.event) :
    ∃ j latest, i ≤ j ∧ Latest stream handlings j latest := by
  induction left : handlings.length - i using Nat.strongRecOn generalizing i handling with
  | _ left ih =>
    have bound := (List.getElem?_eq_some_iff.mp found).1
    cases newer : superseded (laterOf handlings i handling) stream with
    | false => exact ⟨i, handling, Nat.le_refl i, found, moves, superseded_eq_false.mp newer⟩
    | true =>
      obtain ⟨event, member, supersedes⟩ := List.any_eq_true.mp newer
      obtain ⟨next, inside, rfl⟩ := List.mem_map.mp member
      obtain ⟨k, at_⟩ := List.mem_iff_getElem?.mp (List.mem_of_mem_take inside)
      rw [List.getElem?_drop] at at_
      obtain ⟨j, latest, after, holds⟩ := ih (handlings.length - (i + 1 + k)) (by omega) at_ (moves_of_supersedes supersedes) rfl
      exact ⟨j, latest, by omega, holds⟩

/-- The effort is there, unchanged, at each handling from some point on. -/
def Stays (handlings : List Handling) (i : Nat) (effort : Effort) : Prop :=
  ∀ j handling, i ≤ j → handlings[j]? = some handling → effort ∈ handling.services.efforts

/-- Each change that an event of the sequence may have moved has its files listed by the event's
handling, or a later one's. -/
def NothingLost (stream : Nat) (handlings : List Handling) : Prop :=
  ∀ i handling, handlings[i]? = some handling → Moves stream handling.event →
    RefreshedFrom handlings i (.working stream) ∧
      ∀ effort, Open stream effort → MayMove handling.event effort → Stays handlings i effort → RefreshedFrom handlings i (.effort effort.id)

/-- Behind each superseded event comes a latest one that may move as much: one of no thread, or of
the same effort's. -/
def Covered (stream : Nat) (handlings : List Handling) : Prop :=
  ∀ i handling, handlings[i]? = some handling → Moves stream handling.event → superseded (laterOf handlings i handling) stream = true →
    ∀ effort, Open stream effort → MayMove handling.event effort → Stays handlings i effort →
      ∃ j latest, i < j ∧ Latest stream handlings j latest ∧ MayMove latest.event effort

/-- A sequence of events on a stream loses no refresh just when it is covered. Its working change
is never lost. -/
theorem nothingLost_iff (stream : Nat) (handlings : List Handling) :
    (∀ i handling, handlings[i]? = some handling → Moves stream handling.event → RefreshedFrom handlings i (.working stream)) ∧
      (NothingLost stream handlings ↔ Covered stream handlings) := by
  have working : ∀ i handling, handlings[i]? = some handling → Moves stream handling.event → RefreshedFrom handlings i (.working stream) := by
    intro i handling found moves
    obtain ⟨j, latest, after, holds⟩ := exists_latest found moves
    exact holds.refreshes (working_mem_targets ..) after
  refine ⟨working, ?_, ?_⟩
  · intro nothing i handling found moves newer effort open_ moved stays
    obtain ⟨j, work, after, handled, listed⟩ := (nothing i handling found moves).2 effort open_ moved stays
    rw [getElem?_handleAll] at handled
    obtain ⟨latest, found', rfl⟩ := Option.map_eq_some_iff.mp handled
    obtain ⟨stream', moves'⟩ := moves_of_files listed
    obtain ⟨newest, target⟩ := (files_mem_handle moves' _).mp listed
    obtain ⟨open', moved'⟩ := (effort_mem_targets (stays j latest after found')).mp target
    obtain rfl : stream' = stream := open'.1.symm.trans open_.1
    refine ⟨j, latest, ?_, ⟨found', moves', superseded_eq_false.mp newest⟩, moved'⟩
    rcases Nat.eq_or_lt_of_le after with same | later
    · subst same
      obtain rfl := Option.some.inj (found.symm.trans found')
      rw [newer] at newest
      cases newest
    · exact later
  · intro covered i handling found moves
    refine ⟨working i handling found moves, fun effort open_ moved stays => ?_⟩
    cases newer : superseded (laterOf handlings i handling) stream with
    | false =>
      have latest : Latest stream handlings i handling := ⟨found, moves, superseded_eq_false.mp newer⟩
      exact latest.refreshes ((effort_mem_targets (stays i handling (Nat.le_refl i) found)).mpr ⟨open_, moved⟩) (Nat.le_refl i)
    | true =>
      obtain ⟨j, latest, after, holds, moved'⟩ := covered i handling found moves newer effort open_ moved stays
      have from_ := Nat.le_of_lt after
      exact holds.refreshes ((effort_mem_targets (stays j latest from_ holds.1)).mpr ⟨open_, moved'⟩) from_

/-- A take of one thread's. -/
def takeBy (thread : Nat) : Event := ⟨snapshotTaken, some 1, some thread, some false, some 1, none, none, false⟩

/-- Two threads of a stream, each with an open effort. -/
def twoEfforts : Services where
  efforts := [⟨1, 1, 1, some 1, false⟩, ⟨2, 2, 1, some 1, false⟩]
  ranges := []
  distinct := by decide

/-- Thread 2's take is logged before thread 1's is handled, which is then skipped; the handling of
thread 2's lists only its own effort's files. -/
theorem refresh_lost : ¬ ∀ stream handlings, NothingLost stream handlings := by
  intro nothing
  have effort : Open 1 ⟨1, 1, 1, some 1, false⟩ := ⟨rfl, rfl, rfl⟩
  have moved : MayMove (takeBy 1) ⟨1, 1, 1, some 1, false⟩ := fun thread own => Option.some.inj own
  have stays : Stays [⟨takeBy 1, 1, twoEfforts⟩, ⟨takeBy 2, 0, twoEfforts⟩] 0 ⟨1, 1, 1, some 1, false⟩ := by
    intro j handling _ found
    have same : handling.services = twoEfforts := by
      rcases List.mem_cons.mp (List.mem_of_getElem? found) with rfl | second
      · rfl
      · rw [List.mem_singleton.mp second]
    rw [same]
    exact List.mem_cons_self
  obtain ⟨j, work, -, handled, listed⟩ := (nothing 1 [⟨takeBy 1, 1, twoEfforts⟩, ⟨takeBy 2, 0, twoEfforts⟩] 0 _ rfl ⟨rfl, by decide⟩).2 _ effort moved stays
  have works : handleAll [⟨takeBy 1, 1, twoEfforts⟩, ⟨takeBy 2, 0, twoEfforts⟩] =
      [[], [.files (.working 1), .files (.effort 2), .paced (.working 1), .paced (.effort 2)]] := by decide
  rw [works] at handled
  rcases List.mem_cons.mp (List.mem_of_getElem? handled) with rfl | second
  · cases listed
  · rw [List.mem_singleton.mp second] at listed
    exact absurd listed (by decide)

end Oxplow.Proofs.ChangeRefreshes
