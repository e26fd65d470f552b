import Mathlib.Data.List.Nodup
import Mathlib.Data.List.Pairwise
import Oxplow.Library.Machine
import Oxplow.Efforts.EffortStore

/-! The spans of a thread's efforts, and the rows stamped with them, over every sequence of
starts, finishes and recordings. -/

namespace Oxplow.Proofs.EffortSpans
open Library Efforts

/-- An earlier effort of the same thread ended before a later one started. -/
def Before (earlier later : Effort) : Prop :=
  earlier.threadId = later.threadId → ∃ ended, earlier.endedAt = some ended ∧ ended ≤ later.startedAt

/-- A time that is in an effort's span. -/
def Inside (effort : Effort) (time : Nat) : Prop := effort.startedAt ≤ time ∧ ∀ ended, effort.endedAt = some ended → time ≤ ended

/-- A time before it started, or not before it ended. -/
def Outside (effort : Effort) (time : Nat) : Prop := time < effort.startedAt ∨ ∃ ended, effort.endedAt = some ended ∧ ended ≤ time

/-- A row belongs to an effort of its thread that it is inside of, or lies outside of all. -/
def Stamped (efforts : List Effort) (row : StampedRow) : Prop :=
  (∀ id, row.effortId = some id → ∃ effort ∈ efforts, effort.id = id ∧ row.threadId = some effort.threadId ∧ Inside effort row.time) ∧
  (row.effortId = none → ∀ effort ∈ efforts, row.threadId = some effort.threadId → Outside effort row.time)

/-- What holds of the store, and of the last time on each thread. -/
structure SpansKept (store : EffortStore) (clock : Nat → Nat) : Prop where
  fresh : ∀ effort ∈ store.efforts, effort.id < store.nextEffort
  ids : (store.efforts.map (·.id)).Nodup
  ordered : store.efforts.Pairwise Before
  started : ∀ effort ∈ store.efforts, effort.startedAt ≤ clock effort.threadId
  ended : ∀ effort ∈ store.efforts, ∀ ended, effort.endedAt = some ended → effort.startedAt ≤ ended ∧ ended ≤ clock effort.threadId
  times : ∀ table, ∀ row ∈ store.rows table, ∀ thread, row.threadId = some thread → row.time ≤ clock thread
  rows : ∀ table, ∀ row ∈ store.rows table, Stamped store.efforts row

variable {store : EffortStore} {clock later : Nat → Nat}

theorem empty_kept (clock : Nat → Nat) : SpansKept .empty clock where
  fresh _ member := absurd member List.not_mem_nil
  ids := .nil
  ordered := .nil
  started _ member := absurd member List.not_mem_nil
  ended _ member := absurd member List.not_mem_nil
  times _ _ member := absurd member List.not_mem_nil
  rows _ _ member := absurd member List.not_mem_nil

namespace SpansKept

theorem same_effort (kept : SpansKept store clock) {a b : Effort} (first : a ∈ store.efforts) (second : b ∈ store.efforts)
    (same : a.id = b.id) : a = b :=
  List.inj_on_of_nodup_map kept.ids first second same

/-- Two efforts of a thread are in order, one way or the other. -/
theorem apart (kept : SpansKept store clock) {a b : Effort} (first : a ∈ store.efforts) (second : b ∈ store.efforts) (differ : a ≠ b) :
    Before a b ∨ Before b a := by
  have pairs : store.efforts.Pairwise fun a b => Before a b ∨ Before b a := kept.ordered.imp Or.inl
  have symmetric : Std.Symm fun a b => Before a b ∨ Before b a := ⟨fun _ _ => Or.symm⟩
  exact pairs.forall first second differ

/-- The open effort is the last one of its thread. -/
theorem last (kept : SpansKept store clock) {current other : Effort} (first : current ∈ store.efforts) (open_ : current.endedAt = none)
    (second : other ∈ store.efforts) (differ : other ≠ current) (thread : other.threadId = current.threadId) :
    ∃ ended, other.endedAt = some ended ∧ ended ≤ current.startedAt := by
  rcases kept.apart second first differ with before | after
  · exact before thread
  · obtain ⟨ended, same, _⟩ := after thread.symm
    rw [open_] at same
    cases same

theorem one_open (kept : SpansKept store clock) {a b : Effort} (first : a ∈ store.efforts) (second : b ∈ store.efforts)
    (openA : a.endedAt = none) (openB : b.endedAt = none) (thread : a.threadId = b.threadId) : a = b := by
  by_contra differ
  obtain ⟨ended, same, _⟩ := kept.last second openB first differ thread
  rw [openA] at same
  cases same

/-- The clocks go on. -/
theorem tick (kept : SpansKept store clock) (grows : ∀ thread, clock thread ≤ later thread) : SpansKept store later where
  fresh := kept.fresh
  ids := kept.ids
  ordered := kept.ordered
  started effort member := Nat.le_trans (kept.started effort member) (grows _)
  ended effort member time same := (kept.ended effort member time same).imp_right fun bound => Nat.le_trans bound (grows _)
  times table row member thread own := Nat.le_trans (kept.times table row member thread own) (grows _)
  rows := kept.rows

end SpansKept

/-- The open effort that a thread has. -/
theorem openForThread_some {thread id : Nat} (found : store.openForThread thread = some id) :
    ∃ effort ∈ store.efforts, effort.id = id ∧ effort.threadId = thread ∧ effort.endedAt = none := by
  obtain ⟨effort, here, rfl⟩ := Option.map_eq_some_iff.mp found
  have holds := List.find?_some here
  simp only [Effort.isOpen, Bool.and_eq_true, beq_iff_eq, Option.isNone_iff_eq_none] at holds
  exact ⟨effort, List.mem_of_find?_eq_some here, rfl, holds.1, holds.2⟩

theorem openForThread_none {thread : Nat} (none_ : store.openForThread thread = none) {effort : Effort}
    (member : effort ∈ store.efforts) (own : effort.threadId = thread) : ∃ ended, effort.endedAt = some ended := by
  have closed := List.find?_eq_none.mp (Option.map_eq_none_iff.mp none_) effort member
  simp only [Effort.isOpen, own, beq_self_eq_true, Bool.true_and, Option.isNone_iff_eq_none] at closed
  exact Option.ne_none_iff_exists'.mp closed

/-! ## A finish -/

/-- The store once the effort found was closed. -/
theorem finishTx_some {id : Nat} {end_ : EffortEnd} {effort : Effort}
    (found : (store.efforts.find? fun effort => effort.id == id && effort.isOpen) = some effort) :
    (store.finishTx id end_).2.efforts = updateRows (fun effort => effort.id == id && effort.isOpen) (Effort.close end_) store.efforts ∧
      (store.finishTx id end_).2.nextEffort = store.nextEffort ∧
      ∀ table, (store.finishTx id end_).2.rows table = updateRows (fun row => row.effortId == some id && end_.at_ < row.time)
        (fun row => { row with effortId := none }) (store.rows table) := by
  simp only [EffortStore.finishTx, found]
  exact ⟨trivial, trivial, fun _ => trivial⟩

/-- What stays of an effort when one is closed. -/
structure Closes (closed time : Nat) (effort later : Effort) : Prop where
  id : later.id = effort.id
  thread : later.threadId = effort.threadId
  started : later.startedAt = effort.startedAt
  ended : later.endedAt = if effort.id = closed then some time else effort.endedAt

/-- A finish closes the open effort of that id only, and releases its later rows. -/
structure Finishes (closed time : Nat) (store later : EffortStore) : Prop where
  next : later.nextEffort = store.nextEffort
  efforts : ∃ update : Effort → Effort, later.efforts = store.efforts.map update ∧
    ∀ effort ∈ store.efforts, Closes closed time effort (update effort)
  rows : ∀ table, later.rows table =
    updateRows (fun row => row.effortId == some closed && time < row.time) (fun row => { row with effortId := none }) (store.rows table)

theorem finishTx_open (kept : SpansKept store clock) {current : Effort} (end_ : EffortEnd) (member : current ∈ store.efforts)
    (open_ : current.endedAt = none) : Finishes current.id end_.at_ store (store.finishTx current.id end_).2 := by
  have isOpen : current.isOpen = true := by
    rw [Effort.isOpen, open_]
    rfl
  have there : (store.efforts.find? fun effort => effort.id == current.id && effort.isOpen).isSome = true :=
    List.find?_isSome.mpr ⟨current, member, by simp [isOpen]⟩
  obtain ⟨effort, found⟩ := Option.isSome_iff_exists.mp there
  obtain ⟨efforts, next, rows⟩ := finishTx_some found
  refine ⟨next, ⟨_, efforts, ?_⟩, rows⟩
  intro effort listed
  by_cases own : effort.id = current.id
  · rw [if_pos (by rw [kept.same_effort listed member own]; simp [isOpen])]
    exact ⟨rfl, rfl, rfl, (if_pos own).symm⟩
  · rw [if_neg (by simp [own])]
    exact ⟨rfl, rfl, rfl, (if_neg own).symm⟩

variable {table : StampedTable} {finished : EffortStore}

/-- The rows once those after a time were released. -/
theorem Finishes.row {closed time : Nat} (finishes : Finishes closed time store finished) {row : StampedRow}
    (member : row ∈ finished.rows table) :
    ∃ old ∈ store.rows table, row.threadId = old.threadId ∧ row.time = old.time ∧
      ((row.effortId = old.effortId ∧ (old.effortId = some closed → old.time ≤ time)) ∨
        (row.effortId = none ∧ old.effortId = some closed ∧ time < old.time)) := by
  rw [finishes.rows, mem_updateRows] at member
  rcases member with ⟨listed, spared⟩ | ⟨old, listed, released, rfl⟩
  · refine ⟨row, listed, rfl, rfl, .inl ⟨rfl, ?_⟩⟩
    intro own
    simpa [own] using spared
  · simp only [Bool.and_eq_true, beq_iff_eq, decide_eq_true_eq] at released
    exact ⟨old, listed, rfl, rfl, .inr ⟨rfl, released⟩⟩

/-- The open effort is closed, not before it started. -/
theorem SpansKept.finish (kept : SpansKept store clock) {current : Effort} {time : Nat} (member : current ∈ store.efforts)
    (open_ : current.endedAt = none) (started : current.startedAt ≤ time) (bound : time ≤ clock current.threadId)
    (finishes : Finishes current.id time store finished) : SpansKept finished clock := by
  obtain ⟨update, efforts, closes⟩ := finishes.efforts
  have came : ∀ later ∈ finished.efforts, ∃ effort ∈ store.efforts, Closes current.id time effort later := by
    intro later listed
    rw [efforts] at listed
    obtain ⟨effort, inside, rfl⟩ := List.mem_map.mp listed
    exact ⟨effort, inside, closes effort inside⟩
  -- The effort that is closed, and those that ended before.
  have spans : ∀ later ∈ finished.efforts, ∃ effort ∈ store.efforts, Closes current.id time effort later ∧
      (effort = current ∨ effort ≠ current ∧ later.endedAt = effort.endedAt) := by
    intro later listed
    obtain ⟨effort, inside, same⟩ := came later listed
    refine ⟨effort, inside, same, ?_⟩
    by_cases own : effort = current
    · exact .inl own
    · refine .inr ⟨own, ?_⟩
      rw [same.ended, if_neg fun id => own (kept.same_effort inside member id)]
  refine ⟨?_, ?_, ?_, ?_, ?_, ?_, ?_⟩
  · intro later listed
    obtain ⟨effort, inside, same⟩ := came later listed
    rw [same.id, finishes.next]
    exact kept.fresh effort inside
  · have ids : finished.efforts.map (·.id) = store.efforts.map (·.id) := by
      rw [efforts, List.map_map]
      exact List.map_congr_left fun effort inside => (closes effort inside).id
    rw [ids]
    exact kept.ids
  · rw [efforts, List.pairwise_map]
    refine kept.ordered.imp_of_mem ?_
    intro a b inA inB before thread
    obtain ⟨ended, same, order⟩ := before ((closes a inA).thread.symm.trans (thread.trans (closes b inB).thread))
    refine ⟨ended, ?_, (closes b inB).started ▸ order⟩
    rw [(closes a inA).ended, if_neg]
    · exact same
    · intro id
      rw [kept.same_effort inA member id, open_] at same
      cases same
  · intro later listed
    obtain ⟨effort, inside, same⟩ := came later listed
    rw [same.started, same.thread]
    exact kept.started effort inside
  · intro later listed ended at_
    obtain ⟨effort, inside, same, own | ⟨_, kept'⟩⟩ := spans later listed
    · rw [same.ended, own, if_pos rfl] at at_
      cases at_
      rw [same.started, same.thread, own]
      exact ⟨started, bound⟩
    · rw [same.started, same.thread]
      exact kept.ended effort inside ended (kept'.symm.trans at_)
  · intro table row listed thread own
    obtain ⟨old, inside, sameThread, sameTime, _⟩ := finishes.row listed
    rw [sameTime]
    exact kept.times table old inside thread (sameThread.symm.trans own)
  · intro table row listed
    obtain ⟨old, inside, sameThread, sameTime, moved⟩ := finishes.row listed
    obtain ⟨stamped, unstamped⟩ := kept.rows table old inside
    rw [Stamped, sameThread, sameTime]
    constructor
    · intro id own
      rcases moved with ⟨sameEffort, within⟩ | ⟨none_, _⟩
      · obtain ⟨effort, listed, rfl, thread, span⟩ := stamped id (sameEffort.symm.trans own)
        have same := closes effort listed
        refine ⟨update effort, efforts ▸ List.mem_map_of_mem listed, same.id, same.thread ▸ thread, same.started ▸ span.1, ?_⟩
        intro ended at_
        rw [same.ended] at at_
        split at at_
        next closed =>
          cases at_
          exact within (sameEffort.symm.trans (own.trans (congrArg some closed)))
        · exact span.2 ended at_
      · rw [none_] at own
        cases own
    · intro none_ later listed thread
      obtain ⟨effort, inside, same, which⟩ := spans later listed
      rw [same.thread] at thread
      rw [Outside, same.started]
      rcases moved with ⟨sameEffort, _⟩ | ⟨_, released, after⟩
      · rcases unstamped (sameEffort.symm.trans none_) effort inside thread with before | ⟨ended, at_, past⟩
        · exact .inl before
        · rcases which with own | ⟨_, kept'⟩
          · rw [own, open_] at at_
            cases at_
          · exact .inr ⟨ended, kept'.trans at_, past⟩
      · rcases which with own | ⟨differ, kept'⟩
        · refine .inr ⟨time, ?_, Nat.le_of_lt after⟩
          rw [same.ended, own, if_pos rfl]
        · obtain ⟨owner, owned, id, ownThread, span⟩ := stamped current.id released
          have one : owner = current := kept.same_effort owned member id
          subst one
          have threads : effort.threadId = owner.threadId := Option.some.inj (thread.symm.trans ownThread)
          obtain ⟨ended, at_, before⟩ := kept.last member open_ inside differ threads
          exact .inr ⟨ended, kept'.trans at_, Nat.le_trans before span.1⟩

/-- After it, every effort of the thread has ended. -/
theorem Finishes.all_ended (kept : SpansKept store clock) {current : Effort} {time : Nat} (member : current ∈ store.efforts)
    (open_ : current.endedAt = none) (finishes : Finishes current.id time store finished) :
    ∀ effort ∈ finished.efforts, effort.threadId = current.threadId → ∃ ended, effort.endedAt = some ended := by
  obtain ⟨update, efforts, closes⟩ := finishes.efforts
  intro later listed thread
  rw [efforts] at listed
  obtain ⟨effort, inside, rfl⟩ := List.mem_map.mp listed
  have same := closes effort inside
  by_cases own : effort = current
  · exact ⟨time, by rw [same.ended, own, if_pos rfl]⟩
  · obtain ⟨ended, at_, _⟩ := kept.last member open_ inside own (same.thread.symm.trans thread)
    refine ⟨ended, ?_⟩
    rw [same.ended, if_neg fun id => own (kept.same_effort inside member id)]
    exact at_

/-- It leaves no row after its time. -/
theorem Finishes.released {closed time : Nat} (finishes : Finishes closed time store finished) {row : StampedRow}
    (member : row ∈ finished.rows table) (own : row.effortId = some closed) : row.time ≤ time := by
  obtain ⟨old, _, _, sameTime, ⟨sameEffort, within⟩ | ⟨none_, _⟩⟩ := finishes.row member
  · rw [sameTime]
    exact within (sameEffort.symm.trans own)
  · rw [none_] at own
    cases own

/-! ## A start -/

theorem switch_kept {thread now : Nat} (kept : SpansKept store clock) (current : clock thread = now) :
    SpansKept (store.switch thread now) clock ∧
      ∀ effort ∈ (store.switch thread now).efforts, effort.threadId = thread → ∃ ended, effort.endedAt = some ended := by
  simp only [EffortStore.switch]
  cases found : store.openForThread thread with
  | none => exact ⟨kept, fun effort member own => openForThread_none found member own⟩
  | some id =>
    obtain ⟨effort, member, rfl, rfl, open_⟩ := openForThread_some found
    have finishes := finishTx_open kept (.at now .switch) member open_
    have started : effort.startedAt ≤ now := current ▸ kept.started effort member
    exact ⟨kept.finish member open_ started (Nat.le_of_eq current.symm) finishes, finishes.all_ended kept member open_⟩

variable {start : EffortStart}

/-- An effort starts after the ends of the thread's efforts, and not after now. -/
theorem startedAt_bounds
    (ended : ∀ effort ∈ store.efforts, effort.threadId = start.thread → ∀ ended, effort.endedAt = some ended → ended ≤ start.at_) :
    store.startedAt start ≤ start.at_ ∧
      ∀ effort ∈ store.efforts, effort.threadId = start.thread → ∀ ended, effort.endedAt = some ended → ended ≤ store.startedAt start := by
  simp only [EffortStore.startedAt]
  cases start.adoptSince with
  | none => exact ⟨Nat.le_refl _, ended⟩
  | some since =>
    refine ⟨Nat.min_le_right _ _, ?_⟩
    intro effort member own time at_
    refine Nat.le_min.mpr ⟨?_, ended effort member own time at_⟩
    have listed : time ∈ (store.efforts.filter (·.threadId == start.thread)).filterMap (·.endedAt) :=
      List.mem_filterMap.mpr ⟨effort, List.mem_filter.mpr ⟨member, by simp [own]⟩, at_⟩
    simp only [EffortStore.previousEnd]
    cases last : ((store.efforts.filter (·.threadId == start.thread)).filterMap (·.endedAt)).max? with
    | none =>
      rw [List.max?_eq_none_iff] at last
      rw [last] at listed
      cases listed
    | some latest =>
      have bound : time ≤ latest := (List.max?_eq_some_iff.mp last).2 time listed
      exact Nat.le_trans bound (Nat.le_max_right _ _)

/-- The rows once a new effort adopted the thread's. -/
theorem insertEffort_row {startedAt : Nat} {row : StampedRow} (member : row ∈ (store.insertEffort start startedAt).rows table) :
    ∃ old ∈ store.rows table,
      row.threadId = old.threadId ∧ row.time = old.time ∧
      ((row.effortId = old.effortId ∧ (old.threadId = some start.thread → old.effortId = none → old.time < startedAt)) ∨
        (row.effortId = some store.nextEffort ∧ old.threadId = some start.thread ∧ startedAt ≤ old.time)) := by
  rcases mem_updateRows.mp member with ⟨listed, spared⟩ | ⟨old, listed, adopted, rfl⟩
  · refine ⟨row, listed, rfl, rfl, .inl ⟨rfl, ?_⟩⟩
    intro own none_
    simpa [own, none_] using spared
  · simp only [Bool.and_eq_true, beq_iff_eq, Option.isNone_iff_eq_none, decide_eq_true_eq] at adopted
    exact ⟨old, listed, rfl, rfl, .inr ⟨rfl, adopted.1.1, adopted.2⟩⟩

theorem insertEffort_kept (kept : SpansKept store clock) {startedAt : Nat} (bound : startedAt ≤ clock start.thread)
    (after : ∀ effort ∈ store.efforts, effort.threadId = start.thread → ∃ ended, effort.endedAt = some ended ∧ ended ≤ startedAt) :
    SpansKept (store.insertEffort start startedAt) clock := by
  have split {effort : Effort} (member : effort ∈ (store.insertEffort start startedAt).efforts) : effort ∈ store.efforts ∨
      effort = ⟨store.nextEffort, start.workItem, none, start.thread, startedAt, none, start.startSnapshotId, none, none⟩ :=
    (List.mem_append.mp member).imp_right List.mem_singleton.mp
  refine ⟨?_, ?_, ?_, ?_, ?_, ?_, ?_⟩
  · intro effort member
    rcases split member with old | rfl
    · exact Nat.lt_succ_of_lt (kept.fresh effort old)
    · exact Nat.lt_succ_self _
  · simp only [EffortStore.insertEffort, List.map_append, List.map_cons, List.map_nil]
    refine List.nodup_append.mpr ⟨kept.ids, List.nodup_singleton _, ?_⟩
    intro id listed other made
    obtain ⟨effort, member, rfl⟩ := List.mem_map.mp listed
    rw [List.mem_singleton.mp made]
    exact Nat.ne_of_lt (kept.fresh effort member)
  · refine List.pairwise_append.mpr ⟨kept.ordered, List.pairwise_singleton _ _, ?_⟩
    intro effort member made inside thread
    rw [List.mem_singleton.mp inside] at thread ⊢
    exact after effort member thread
  · intro effort member
    rcases split member with old | rfl
    · exact kept.started effort old
    · exact bound
  · intro effort member ended at_
    rcases split member with old | rfl
    · exact kept.ended effort old ended at_
    · cases at_
  · intro table row member thread own
    obtain ⟨old, inside, sameThread, sameTime, _⟩ := insertEffort_row member
    rw [sameTime]
    exact kept.times table old inside thread (sameThread.symm.trans own)
  · intro table row member
    obtain ⟨old, inside, sameThread, sameTime, moved⟩ := insertEffort_row member
    obtain ⟨stamped, unstamped⟩ := kept.rows table old inside
    rw [Stamped, sameThread, sameTime]
    constructor
    · intro id own
      rcases moved with ⟨sameEffort, _⟩ | ⟨adopted, thread, from_⟩
      · obtain ⟨effort, listed, found⟩ := stamped id (sameEffort.symm.trans own)
        exact ⟨effort, List.mem_append_left _ listed, found⟩
      · cases adopted.symm.trans own
        exact ⟨_, List.mem_append_right _ (List.mem_singleton_self _), rfl, thread, from_, nofun⟩
    · intro none_ effort listed thread
      rcases moved with ⟨sameEffort, spared⟩ | ⟨adopted, _⟩
      · have unowned := sameEffort.symm.trans none_
        rcases split listed with old' | rfl
        · exact unstamped unowned effort old' thread
        · exact .inl (spared thread unowned)
      · rw [adopted] at none_
        cases none_

theorem startTx_kept (kept : SpansKept store clock) (now : clock start.thread = start.at_) :
    SpansKept (store.startTx start) clock := by
  obtain ⟨switched, closed⟩ := switch_kept kept now
  obtain ⟨bound, after⟩ := startedAt_bounds fun effort member own ended at_ => by
    have late := (switched.ended effort member ended at_).2
    rwa [own, now] at late
  refine insertEffort_kept switched (now ▸ bound) ?_
  intro effort member own
  obtain ⟨ended, at_⟩ := closed effort member own
  exact ⟨ended, at_, after effort member own ended at_⟩

/-! ## A recording -/

theorem record_row {other : StampedTable} {thread : Option Nat} {now : Nat} {row : StampedRow}
    (member : row ∈ (store.record table thread now).rows other) :
    row ∈ store.rows other ∨ row = ⟨thread, thread.bind store.openForThread, now⟩ := by
  simp only [EffortStore.record] at member
  split at member
  next same =>
    subst same
    exact (List.mem_append.mp member).imp_right List.mem_singleton.mp
  · exact .inl member

/-- A row recorded now lies in its thread's open effort, or after every one. -/
theorem record_kept (kept : SpansKept store clock) {thread : Option Nat} {now : Nat}
    (current : ∀ own, thread = some own → clock own = now) : SpansKept (store.record table thread now) clock := by
  refine ⟨kept.fresh, kept.ids, kept.ordered, kept.started, kept.ended, ?_, ?_⟩
  · intro other row member own same
    rcases record_row member with old | rfl
    · exact kept.times other row old own same
    · exact Nat.le_of_eq (current own same).symm
  · intro other row member
    rcases record_row member with old | rfl
    · exact kept.rows other row old
    · constructor
      · intro id own
        obtain ⟨thread', rfl, found⟩ := Option.bind_eq_some_iff.mp own
        obtain ⟨effort, listed, same, thread, open_⟩ := openForThread_some found
        refine ⟨effort, listed, same, congrArg some thread.symm, ?_, ?_⟩
        · have started := kept.started effort listed
          rwa [thread, current thread' rfl] at started
        · intro ended at_
          rw [open_] at at_
          cases at_
      · intro none_ effort listed own
        have own' : thread = some effort.threadId := own
        subst own'
        obtain ⟨ended, at_⟩ := openForThread_none none_ listed rfl
        have bound := (kept.ended effort listed ended at_).2
        rw [current _ rfl] at bound
        exact .inr ⟨ended, at_, bound⟩

/-! ## Runs -/

def Kept (state : EffortClock) : Prop := SpansKept state.store state.clock

theorem tick_grows (state : EffortClock) (thread now : Nat) (store : EffortStore) (other : Nat) :
    state.clock other ≤ (state.tick thread now store).clock other := by
  simp only [EffortClock.tick]
  split
  next same => exact same ▸ Nat.le_max_left _ _
  · exact Nat.le_refl _

theorem tick_own (state : EffortClock) (thread now : Nat) (store : EffortStore) :
    (state.tick thread now store).clock thread = max (state.clock thread) now := if_pos rfl

/-- The effort that a finish finds. -/
theorem found_open {id : Nat} {effort : Effort} (found : (store.efforts.find? fun effort => effort.id == id && effort.isOpen) = some effort) :
    effort ∈ store.efforts ∧ effort.id = id ∧ effort.endedAt = none := by
  have holds := List.find?_some found
  simp only [Effort.isOpen, Bool.and_eq_true, beq_iff_eq, Option.isNone_iff_eq_none] at holds
  exact ⟨List.mem_of_find?_eq_some found, holds⟩

theorem step_kept {state next : EffortClock} (kept : Kept state) {step : EffortStep} (moved : state.step step = some next) : Kept next := by
  cases step with
  | start start =>
    simp only [EffortClock.step] at moved
    split at moved
    next onward =>
      cases moved
      refine startTx_kept (kept.tick (tick_grows state _ _ _)) ?_
      rw [tick_own]
      exact Nat.max_eq_right onward
    · cases moved
  | finish id end_ =>
    simp only [EffortClock.step] at moved
    split at moved
    next none_ =>
      cases moved
      have same : (state.store.finishTx id end_).2 = state.store := by simp only [EffortStore.finishTx, none_]
      rw [Kept, same]
      exact kept
    next effort found =>
      obtain ⟨member, rfl, open_⟩ := found_open found
      split at moved
      next started =>
        cases moved
        have onward := kept.tick (tick_grows state effort.threadId end_.at_ (state.store.finishTx effort.id end_).2)
        refine onward.finish member open_ started ?_ (finishTx_open kept end_ member open_)
        rw [tick_own]
        exact Nat.le_max_right _ _
      · cases moved
  | record table thread now =>
    cases thread with
    | none =>
      cases moved
      exact record_kept kept nofun
    | some thread =>
      simp only [EffortClock.step] at moved
      split at moved
      next onward =>
        cases moved
        refine record_kept (kept.tick (tick_grows state _ _ _)) ?_
        rintro _ ⟨⟩
        rw [tick_own]
        exact Nat.max_eq_right onward
      · cases moved

/-- The efforts as a machine. -/
def stepOut (state : EffortClock) (step : EffortStep) : Option (EffortClock × Unit) := (state.step step).map (·, ())

theorem run_eq (state : EffortClock) (steps : List EffortStep) : state.run steps = Machine.run stepOut state steps := by
  have same : (fun (state : EffortClock) step => (state.step step).getD state) = Machine.advance stepOut := by
    funext state step
    cases moved : state.step step <;> simp [Machine.advance, stepOut, moved]
  rw [EffortClock.run, Machine.run, same]

theorem run_kept (steps : List EffortStep) : Kept (EffortClock.start.run steps) := by
  rw [run_eq]
  have begun : Kept .start := empty_kept _
  refine Machine.run_invariant (fun state (_ : List (EffortStep × Unit)) => Kept state) ?_ [] begun steps
  intro state _ step next _ kept moved
  obtain ⟨_, taken, same⟩ := Option.map_eq_some_iff.mp moved
  cases same
  exact step_kept kept taken

/-- The spans and the stamps of a state agree. -/
structure Consistent (state : EffortClock) : Prop where
  oneOpen : ∀ a ∈ state.store.efforts, ∀ b ∈ state.store.efforts, a.threadId = b.threadId →
    a.endedAt = none → b.endedAt = none → a = b
  spans : ∀ effort ∈ state.store.efforts, ∀ ended, effort.endedAt = some ended → effort.startedAt ≤ ended
  /-- Two spans share no more than an end point. -/
  apart : ∀ a ∈ state.store.efforts, ∀ b ∈ state.store.efforts, a ≠ b → a.threadId = b.threadId →
    (∃ ended, a.endedAt = some ended ∧ ended ≤ b.startedAt) ∨ ∃ ended, b.endedAt = some ended ∧ ended ≤ a.startedAt
  stamped : ∀ table, ∀ row ∈ state.store.rows table, ∀ id, row.effortId = some id →
    ∃ effort ∈ state.store.efforts, effort.id = id ∧ row.threadId = some effort.threadId ∧ effort.startedAt ≤ row.time ∧
      ∀ ended, effort.endedAt = some ended → row.time ≤ ended
  /-- A row without an effort is strictly inside of none of its thread's. -/
  unstamped : ∀ table, ∀ row ∈ state.store.rows table, row.effortId = none →
    ∀ effort ∈ state.store.efforts, row.threadId = some effort.threadId →
      ¬ (effort.startedAt < row.time ∧ ∀ ended, effort.endedAt = some ended → row.time < ended)
  /-- A finish leaves no later row with the effort it closes. -/
  closes : ∀ id end_ next, (state.store.finishTx id end_).1 = true → state.step (.finish id end_) = some next →
    ∀ table, ∀ row ∈ next.store.rows table, row.effortId = some id → row.time ≤ end_.at_

/-- After every sequence of starts, finishes and recordings. -/
theorem effort_spans (steps : List EffortStep) : Consistent (EffortClock.start.run steps) := by
  have kept := run_kept steps
  refine ⟨?_, ?_, ?_, ?_, ?_, ?_⟩
  · intro a inA b inB thread openA openB
    exact kept.one_open inA inB openA openB thread
  · intro effort member ended at_
    exact (kept.ended effort member ended at_).1
  · intro a inA b inB differ thread
    rcases kept.apart inA inB differ with before | after
    · exact .inl (before thread)
    · exact .inr (after thread.symm)
  · intro table row member id own
    obtain ⟨effort, listed, same, thread, span⟩ := (kept.rows table row member).1 id own
    exact ⟨effort, listed, same, thread, span.1, span.2⟩
  · rintro table row member none_ effort listed thread ⟨started, within⟩
    rcases (kept.rows table row member).2 none_ effort listed thread with before | ⟨ended, at_, past⟩
    · omega
    · have inside := within ended at_
      omega
  · intro id end_ next closes moved table row member own
    simp only [EffortClock.step] at moved
    split at moved
    next none_ => simp [EffortStore.finishTx, none_] at closes
    next effort found =>
      obtain ⟨listed, rfl, open_⟩ := found_open found
      split at moved
      next =>
        cases moved
        exact (finishTx_open kept end_ listed open_).released member own
      · cases moved

end Oxplow.Proofs.EffortSpans
