import Oxplow.Library.Machine
import Oxplow.Proofs.TaskPlaces
import Oxplow.Proofs.UriGrammar
import Oxplow.Tasks.Verbs

/-! A task's ref names the task, a thread's id the thread, and each of a verb's words the
value it stands for. -/

namespace Oxplow.Proofs.TaskRefs
open Tasks

variable {id : Nat}

theorem numberOf_toDigits (small : id < rowLimit) : numberOf (Nat.toDigits 10 id) = some id := by
  have digits : (Nat.toDigits 10 id).all Char.isDigit = true := by
    apply List.all_eq_true.mpr
    intro c member
    exact Nat.isDigit_of_mem_toDigits (by decide) (by decide) member
  have some_ : (Nat.toDigits 10 id).isEmpty = false := by simp [Nat.toDigits_ne_nil]
  simp [numberOf, digits, some_, small]

theorem tryFromStr_display (small : id < rowLimit) : TaskId.tryFromStr (display TaskId.letters id) = some id := by
  have text : (display TaskId.letters id).toList = TaskId.letters.toList ++ Nat.toDigits 10 id := by simp [display]
  rw [TaskId.tryFromStr, text, if_pos (by simp), List.drop_left]
  exact numberOf_toDigits small

theorem fromStr_display (small : id < rowLimit) : ThreadId.fromStr (display "thr" id) = .ok id := by
  have text : (display "thr" id).toList = ['t', 'h', 'r'] ++ Nat.toDigits 10 id := by simp [display]
  have kind : ThreadId.kinds.find? (fun kind => kind.1.toList == ['t', 'h', 'r']) = some ("thr", "thread id (thr…)") := by
    decide
  have any : ThreadId.anyFromStr (display "thr" id) = .ok (("thr", "thread id (thr…)"), id) := by
    have letters : (['t', 'h', 'r'] ++ Nat.toDigits 10 id).take 3 = ['t', 'h', 'r'] := rfl
    have digits : (['t', 'h', 'r'] ++ Nat.toDigits 10 id).drop 3 = Nat.toDigits 10 id := rfl
    simp only [ThreadId.anyFromStr, text, letters, digits, kind, Option.bind_some, numberOf_toDigits small, Option.map_some]
  simp [ThreadId.fromStr, any, Except.bind]

theorem workItemOfUri_workItemUri (provider id : String) : workItemOfUri (workItemUri provider id) = some (provider, id) := by
  have named : (workItemName.display == workItem) = true := by decide
  have parsed : parseOk (workItemUri provider id) =
      some ⟨workItemName, (Uri.Params.empty.insert "provider" provider (by decide)).insert "id" id (by decide), .empty⟩ := by
    simp only [parseOk, workItemUri, UriRoundTrip.parse_toString]
  simp only [workItemOfUri, parsed, Option.filter_some, named, if_true, Option.bind_some, Uri.Params.insert, Uri.Params.empty]
  rw [Std.ExtTreeMap.getElem?_insert, if_neg (by decide), Std.ExtTreeMap.getElem?_insert_self,
    Std.ExtTreeMap.getElem?_insert_self]
  rfl

theorem taskRef_workItemRef (small : id < rowLimit) (field : String) : taskRef (workItemRef id) field = .ok id := by
  have found := workItemOfUri_workItemUri provider (display TaskId.letters id)
  have named : taskOfWorkItemRef (workItemRef id) = some id := by
    simp [taskOfWorkItemRef, workItemRef, found, tryFromStr_display small]
  have list : (providerOf (workItemRef id)).filter (· ≠ provider) = none := by
    apply Option.filter_eq_none_iff.mpr
    intro other is
    simp only [providerOf, workItemRef, found, Option.map_eq_some_iff, Option.filter_eq_some_iff] at is
    obtain ⟨pair, ⟨own, _⟩, rfl⟩ := is
    cases own
    simp
  simp only [taskRef, list, named]

end Oxplow.Proofs.TaskRefs

/-! What each verb makes of the tables, and what every verb keeps of them. -/

namespace Oxplow.Proofs.TaskVerbs
open Tasks Library Outcome TaskPlaces TaskRefs

variable {db : TaskDb} {id now : Nat} {task : Task} {f : Task → Task}

/-! ## What stays true -/

/-- A task is completed while it is done, and can be while it is archived. -/
structure Completion (task : Task) : Prop where
  done : task.status = .done → task.completedAt.isSome = true
  only : task.completedAt.isSome = true → task.status = .done ∨ task.status = .archived

/-- A URI that a link can go to, a task of the list if it is a work item. -/
def Linkable (target : String) : Prop :=
  ∃ kind, resourceOf target = some kind ∧ (kind = workItem → ∃ onto, taskRef target "/target" = .ok onto)

structure Kept (db : TaskDb) : Prop extends Rows db where
  below : ∀ task ∈ db.tasks, task.id < db.nextTask
  limit : db.nextTask ≤ rowLimit
  threads : ∀ thread ∈ db.threads, thread < rowLimit
  refers : ∀ task ∈ db.tasks, db.refers task = true
  completion : ∀ task ∈ db.tasks, Completion task
  links : ∀ link ∈ db.links, Linkable link.toUri

theorem Completion.setStatus (kept : Completion task) (onto : TaskStatus) (now : Nat) : Completion (task.setStatus onto now) := by
  constructor
  · intro done
    change onto = .done at done
    subst done
    simp only [Task.setStatus]
    by_cases was : task.status = .done
    · simpa [was] using kept.done was
    · simp [was]
  · intro completed
    change onto = .done ∨ onto = .archived
    simp only [Task.setStatus] at completed
    by_contra neither
    obtain ⟨other, kept⟩ := not_or.mp neither
    rw [if_neg (fun both => other both.1), if_pos ⟨other, kept⟩] at completed
    cases completed

/-! ## One row changed -/

/-- The table with one live task changed. -/
def changed (db : TaskDb) (id : Nat) (f : Task → Task) : TaskDb :=
  { db with tasks := db.tasks.map fun row => if row.id = id ∧ row.live = true then f row else row }

/-- A change that says the same of who the task is and where. -/
structure Still (f : Task → Task) : Prop where
  id : ∀ row, (f row).id = row.id
  live : ∀ row, (f row).live = row.live
  thread : ∀ row, (f row).threadId = row.threadId
  place : ∀ row, (f row).sortIndex = row.sortIndex

theorem Still.comp {g : Task → Task} (first : Still f) (next : Still g) : Still fun row => g (f row) where
  id row := (next.id _).trans (first.id row)
  live row := (next.live _).trans (first.live row)
  thread row := (next.thread _).trans (first.thread row)
  place row := (next.place _).trans (first.place row)

theorem still_setStatus (onto : TaskStatus) (now : Nat) : Still fun row => row.setStatus onto now := ⟨fun _ => rfl, fun _ => rfl, fun _ => rfl, fun _ => rfl⟩

theorem Still.row (still : Still f) : Still fun row => if row.id = id ∧ row.live = true then f row else row := by
  constructor <;> intro row <;> split
  · exact still.id row
  · rfl
  · exact still.live row
  · rfl
  · exact still.thread row
  · rfl
  · exact still.place row
  · rfl

theorem changed_changed {g : Task → Task} (still : Still f) : changed (changed db id f) id g = changed db id fun row => g (f row) := by
  simp only [changed, List.map_map]
  congr 1
  apply List.map_congr_left
  intro row _
  simp only [Function.comp_apply]
  by_cases own : row.id = id ∧ row.live = true
  · rw [if_pos own, if_pos own, if_pos ⟨(still.id row).trans own.1, (still.live row).trans own.2⟩]
  · rw [if_neg own, if_neg own, if_neg own]

theorem getTaskTx_changed (still : Still f) (other : Nat) :
    (changed db id f).getTaskTx other = (db.getTaskTx other).map fun row => if row.id = id ∧ row.live = true then f row else row :=
  getTaskTx_map still.row.id still.row.live

theorem getTaskTx_own (still : Still f) (found : db.getTaskTx id = some task) : (changed db id f).getTaskTx id = some (f task) := by
  obtain ⟨_, own, live⟩ := mem_of_getTaskTx found
  rw [getTaskTx_changed still, found, Option.map_some, if_pos ⟨own, live⟩]

theorem getTaskTx_other (still : Still f) {other : Nat} (apart : other ≠ id) : (changed db id f).getTaskTx other = db.getTaskTx other := by
  rw [getTaskTx_changed still]
  cases found : db.getTaskTx other with
  | none => rfl
  | some row =>
    obtain ⟨_, own, _⟩ := mem_of_getTaskTx found
    rw [Option.map_some, if_neg fun both => apart (own.symm.trans both.1)]

theorem any_changed (still : Still f) (parent : Nat) : (changed db id f).tasks.any (·.id == parent) = db.tasks.any (·.id == parent) := by
  simp only [changed, List.any_map, Function.comp_def, still.row.id]

theorem refers_changed (still : Still f) (task : Task) : (changed db id f).refers task = db.refers task := by
  simp only [TaskDb.refers, any_changed still]
  rfl

theorem Still.rows (still : Still f) (rows : Rows db) : Rows (changed db id f) := by
  constructor
  · simp only [changed, List.map_map, Function.comp_def, still.row.id]
    exact rows.ids
  · intro a' inA b' inB liveA liveB threads places
    obtain ⟨a, memberA, rfl⟩ := List.mem_map.mp inA
    obtain ⟨b, memberB, rfl⟩ := List.mem_map.mp inB
    rw [still.row.live] at liveA liveB
    rw [still.row.thread, still.row.thread] at threads
    rw [still.row.place, still.row.place] at places
    rw [rows.apart a memberA b memberB liveA liveB threads places]

/-- Rows changed so that a live one says the same of where it is. -/
theorem Kept.mapped (kept : Kept db) (own : ∀ row, (f row).id = row.id)
    (stays : ∀ row ∈ db.tasks, (f row).live = true →
      row.live = true ∧ (f row).threadId = row.threadId ∧ (f row).sortIndex = row.sortIndex)
    (refers : ∀ row ∈ db.tasks, db.refers (f row) = true) (completion : ∀ row ∈ db.tasks, Completion (f row)) :
    Kept { db with tasks := db.tasks.map f } := by
  have known : ∀ task, TaskDb.refers { db with tasks := db.tasks.map f } task = db.refers task := by
    intro task
    simp only [TaskDb.refers, List.any_map, Function.comp_def, own]
  refine ⟨⟨?_, ?_⟩, ?_, kept.limit, kept.threads, ?_, ?_, kept.links⟩
  · simp only [List.map_map, Function.comp_def, own]
    exact kept.ids
  · intro a' inA b' inB liveA liveB threads places
    obtain ⟨a, memberA, rfl⟩ := List.mem_map.mp inA
    obtain ⟨b, memberB, rfl⟩ := List.mem_map.mp inB
    obtain ⟨wasA, threadA, placeA⟩ := stays a memberA liveA
    obtain ⟨wasB, threadB, placeB⟩ := stays b memberB liveB
    rw [threadA, threadB] at threads
    rw [placeA, placeB] at places
    rw [kept.apart a memberA b memberB wasA wasB threads places]
  · intro task' member
    obtain ⟨row, inside, rfl⟩ := List.mem_map.mp member
    rw [own]
    exact kept.below row inside
  · intro task' member
    obtain ⟨row, inside, rfl⟩ := List.mem_map.mp member
    rw [known]
    exact refers row inside
  · intro task' member
    obtain ⟨row, inside, rfl⟩ := List.mem_map.mp member
    exact completion row inside

theorem Kept.changed (kept : Kept db) (still : Still f)
    (refers : ∀ row ∈ db.tasks, row.id = id → db.refers (f row) = true) (completion : ∀ row ∈ db.tasks, Completion row → Completion (f row)) :
    Kept (changed db id f) := by
  apply kept.mapped still.row.id
  · intro row _ live
    exact ⟨(still.row.live row).symm.trans live, still.row.thread row, still.row.place row⟩
  · intro row inside
    split
    next own => exact refers row inside own.1
    next => exact kept.refers row inside
  · intro row inside
    split
    · exact completion row inside (kept.completion row inside)
    · exact kept.completion row inside

/-- Such a change moves nothing. -/
theorem listIdsTx_changed (still : Still f) (rows : Rows db) (thread : Option Nat) :
    (changed db id f).listIdsTx thread = db.listIdsTx thread := by
  apply (still.rows rows).listIdsTx
  · intro other
    simp only [mem_listIdsTx]
    constructor
    · rintro ⟨row, member, own, threads, live⟩
      refine ⟨_, List.mem_map_of_mem member, ?_, ?_, ?_⟩
      · exact (still.row.id row).trans own
      · exact (still.row.thread row).trans threads
      · exact (still.row.live row).trans live
    · rintro ⟨row', member, own, threads, live⟩
      obtain ⟨row, inside, rfl⟩ := List.mem_map.mp member
      refine ⟨row, inside, ?_, ?_, ?_⟩
      · exact (still.row.id row).symm.trans own
      · exact (still.row.thread row).symm.trans threads
      · exact (still.row.live row).symm.trans live
  · have same : ∀ other, rank (changed db id f) other = rank db other := by
      intro other
      simp only [rank, getTaskTx_changed still, Option.map_map, Function.comp_def, still.row.place]
    simp only [same]
    exact rows.ordered

/-! ## Fields and status -/

theorem changed_congr {g : Task → Task} (rows : Rows db) (found : db.getTaskTx id = some task) (same : f task = g task) :
    changed db id f = changed db id g := by
  obtain ⟨member, own, _⟩ := mem_of_getTaskTx found
  simp only [changed]
  congr 1
  apply List.map_congr_left
  intro row inside
  by_cases its : row.id = id ∧ row.live = true
  · rw [if_pos its, if_pos its, rows.same inside member (its.1.trans own.symm), same]
  · rw [if_neg its, if_neg its]

theorem setStatusTx_found (rows : Rows db) (found : db.getTaskTx id = some task) (onto : TaskStatus) (now : Nat) :
    db.setStatusTx id onto now = .ok (⟨task, task.setStatus onto now⟩, changed db id fun row => row.setStatus onto now) := by
  obtain ⟨member, own, _⟩ := mem_of_getTaskTx found
  have there : db.getTaskTx (task.setStatus onto now).id = some task := by
    rw [← found, ← own]
    rfl
  simp only [TaskDb.setStatusTx, found, TaskDb.writeStatusTx, there, Option.isNone_some, Bool.false_eq_true, if_false, updateRows,
    Except.map, changed]
  congr 3
  apply List.map_congr_left
  intro row inside
  by_cases its : row.id = id ∧ row.live = true
  · have same : row = task := rows.same inside member (its.1.trans own.symm)
    subst same
    rw [if_pos its, if_pos (by simp [Task.setStatus, its])]
    rfl
  · rw [if_neg its, if_neg (by simpa [Task.setStatus, own] using its)]

/-- The state an archive passes through. -/
def through (onto : TaskStatus) (asked : Option CanonicalState) (task : Task) : Option TaskStatus :=
  ((if onto = .archived then asked else none).map nativeStatus).filter fun status => task.completedAt.isSome != (status == .done)

/-- A task as a status move leaves it. -/
def movedTo (onto : TaskStatus) (asked : Option CanonicalState) (now : Nat) (task : Task) : Task :=
  ((through onto asked task).elim task fun status => task.setStatus status now).setStatus onto now

theorem still_movedTo (onto : TaskStatus) (asked : Option CanonicalState) (now : Nat) : Still (movedTo onto asked now) := by
  constructor <;> intro row <;> cases passes : through onto asked row <;> simp [movedTo, passes, Task.setStatus, Task.live]

theorem Completion.movedTo (kept : Completion task) (onto : TaskStatus) (asked : Option CanonicalState) (now : Nat) :
    Completion (movedTo onto asked now task) := by
  unfold TaskVerbs.movedTo
  cases through onto asked task with
  | none => exact kept.setStatus onto now
  | some status => exact (kept.setStatus status now).setStatus onto now

theorem setStatusThrough_found (rows : Rows db) (found : db.getTaskTx id = some task) (onto : TaskStatus) (asked : Option CanonicalState)
    (now : Nat) :
    ∃ after, setStatusThrough db task onto asked now = .ok (⟨task, after⟩, changed db id (movedTo onto asked now)) := by
  obtain ⟨_, own, _⟩ := mem_of_getTaskTx found
  subst own
  cases passes : through onto asked task with
  | none =>
    refine ⟨task.setStatus onto now, ?_⟩
    have same : changed db task.id (fun row => row.setStatus onto now) = changed db task.id (movedTo onto asked now) := by
      apply changed_congr rows found
      rw [movedTo, passes, Option.elim_none]
    unfold through at passes
    simp only [setStatusThrough, passes, setStatusTx_found rows found, same, Except.mapError]
  | some status =>
    refine ⟨(task.setStatus status now).setStatus onto now, ?_⟩
    have still := still_setStatus status now
    have after : Rows (changed db task.id fun row => row.setStatus status now) := still.rows rows
    have same : changed db task.id (fun row => (row.setStatus status now).setStatus onto now) =
        changed db task.id (movedTo onto asked now) := by
      apply changed_congr rows found
      rw [movedTo, passes, Option.elim_some]
    have next := setStatusTx_found after (getTaskTx_own still found) onto now
    rw [changed_changed still, same] at next
    unfold through at passes
    simp only [setStatusThrough, passes, setStatusTx_found rows found, Except.mapError]
    change Except.bind (Except.mapError _ (TaskDb.setStatusTx (changed db task.id fun row => row.setStatus status now) task.id onto now)) _ = _
    rw [next]
    rfl

theorem still_updated (input : UpdateInput) (parent : Option (Option Nat)) (priority : Option TaskPriority) (now : Nat) :
    Still (updated input parent priority now) := ⟨fun _ => rfl, fun _ => rfl, fun _ => rfl, fun _ => rfl⟩

theorem updateFieldsTx_found (rows : Rows db) (found : db.getTaskTx id = some task) (input : UpdateInput)
    (parent : Option (Option Nat)) (priority : Option TaskPriority) (now : Nat) :
    db.updateFieldsTx (updated input parent priority now task) =
      if db.refers (updated input parent priority now task) then
        .ok (updated input parent priority now task, changed db id (updated input parent priority now))
      else .error TaskDb.foreignKey := by
  obtain ⟨member, own, _⟩ := mem_of_getTaskTx found
  subst own
  have there : db.getTaskTx (updated input parent priority now task).id = some task := found
  have wrote : updateRows (fun row => row.id == (updated input parent priority now task).id && row.live)
      (fun row =>
        { row with
          threadId := (updated input parent priority now task).threadId
          parentId := (updated input parent priority now task).parentId
          title := (updated input parent priority now task).title
          description := (updated input parent priority now task).description
          priority := (updated input parent priority now task).priority
          sortIndex := (updated input parent priority now task).sortIndex
          updatedAt := (updated input parent priority now task).updatedAt
          deletedAt := (updated input parent priority now task).deletedAt
          author := (updated input parent priority now task).author }) db.tasks =
      (changed db task.id (updated input parent priority now)).tasks := by
    simp only [updateRows, changed]
    apply List.map_congr_left
    intro row inside
    by_cases its : row.id = task.id ∧ row.live = true
    · have same : row = task := rows.same inside member its.1
      subst same
      rw [if_pos its, if_pos (by simp [updated, its])]
      rfl
    · rw [if_neg its, if_neg (by simpa [updated] using its)]
  have after := getTaskTx_own (still_updated input parent priority now) found
  cases refers : db.refers (updated input parent priority now task) with
  | false => simp [TaskDb.updateFieldsTx, TaskDb.updateTaskTx, there, refers, bind, Except.bind]
  | true =>
    have written : db.updateTaskTx (updated input parent priority now task) =
        .ok (1, changed db task.id (updated input parent priority now)) := by
      simp only [TaskDb.updateTaskTx, there, Option.isNone_some, Bool.false_eq_true, if_false, refers, if_true, wrote]
      rfl
    simp only [TaskDb.updateFieldsTx, written, bind, Except.bind]
    rw [if_neg (by decide), if_pos trivial]
    rw [show (updated input parent priority now task).id = task.id from rfl, after]

/-- A task as an update leaves it. -/
def restated (input : UpdateInput) (parent : Option (Option Nat)) (priority : Option TaskPriority) (status : Option TaskStatus)
    (now : Nat) (row : Task) : Task :=
  status.elim (updated input parent priority now row) fun onto => movedTo onto input.state now (updated input parent priority now row)

theorem still_restated (input : UpdateInput) (parent : Option (Option Nat)) (priority : Option TaskPriority) (status : Option TaskStatus)
    (now : Nat) : Still (restated input parent priority status now) := by
  cases status with
  | none => exact still_updated input parent priority now
  | some onto => exact (still_updated input parent priority now).comp (still_movedTo onto input.state now)

/-- What an update that succeeds found in its input. -/
structure Updates (db : TaskDb) (input : UpdateInput) (now id : Nat) (parent : Option (Option Nat)) (priority : Option TaskPriority)
    (status : Option TaskStatus) (before : Task) : Prop where
  named : taskRef input.uri "/uri" = .ok id
  detaches : parentOf input.parentUri = .ok parent
  native : oxplowNative input.native = .ok priority
  status : oxplowStatus input.state input.nativeState = .ok status
  found : db.getTaskTx id = some before
  refers : db.refers (updated input parent priority now before) = true

theorem moveGiven_found (rows : Rows db) (found : db.getTaskTx id = some task) (input : UpdateInput) (parent : Option (Option Nat))
    (priority : Option TaskPriority) (status : Option TaskStatus) :
    moveGiven (changed db id (updated input parent priority now)) (updated input parent priority now task) status input.state now =
      .ok (changed db id (restated input parent priority status now)) := by
  cases status with
  | none => rfl
  | some onto =>
    have still := still_updated input parent priority now
    obtain ⟨after, went⟩ := setStatusThrough_found (still.rows rows) (getTaskTx_own still found) onto input.state now
    simp only [moveGiven, went, Except.map, changed_changed still]
    rfl

variable {done : Answer × TaskDb}

theorem updateTx_ok {input : UpdateInput} (rows : Rows db) :
    updateTx db input now = .ok done ↔
    ∃ id parent priority status before, Updates db input now id parent priority status before ∧
      done = (⟨answered input.uri [], some (.update (updateInverse input priority before)), [id]⟩,
        changed db id (restated input parent priority status now)) := by
  constructor
  · intro ok
    simp only [updateTx, bind_ok] at ok
    obtain ⟨id, named, parent, parents, priority, native, status, state, ok⟩ := ok
    cases found : db.getTaskTx id with
    | none =>
      rw [found] at ok
      cases ok
    | some before =>
      rw [found] at ok
      simp only [bind_ok, mapError_ok, pure_ok] at ok
      obtain ⟨fields, wrote, last, went, rfl⟩ := ok
      rw [updateFieldsTx_found rows found] at wrote
      split at wrote
      next refers =>
        cases wrote
        refine ⟨id, parent, priority, status, before, ⟨named, parents, native, state, found, refers⟩, ?_⟩
        rw [moveGiven_found rows found, Except.ok.injEq] at went
        rw [went]
      next => cases wrote
  · rintro ⟨id, parent, priority, status, before, is, rfl⟩
    have wrote := updateFieldsTx_found rows is.found input parent priority now
    rw [if_pos is.refers] at wrote
    simp only [updateTx, bind_ok]
    refine ⟨id, is.named, parent, is.detaches, priority, is.native, status, is.status, ?_⟩
    rw [is.found]
    simp only [bind_ok, mapError_ok, pure_ok]
    exact ⟨_, wrote, _, moveGiven_found rows is.found input parent priority status, rfl⟩

theorem transitionTx_ok {input : TransitionInput} (rows : Rows db) :
    transitionTx db input now = .ok done ↔
    ∃ id onto before, taskRef input.uri "/uri" = .ok id ∧ oxplowStatus (some input.onto) input.nativeState = .ok (some onto) ∧
      db.getTaskTx id = some before ∧
      done = (⟨answered input.uri [], some (.transition ⟨input.uri, canonicalOf before, some (statusStr before.status)⟩), [id]⟩,
        changed db id (movedTo onto (some input.onto) now)) := by
  constructor
  · intro ok
    simp only [transitionTx, bind_ok] at ok
    obtain ⟨id, named, status, state, ok⟩ := ok
    cases status with
    | none => cases ok
    | some onto =>
      cases found : db.getTaskTx id with
      | none =>
        rw [found] at ok
        cases ok
      | some before =>
        obtain ⟨after, went⟩ := setStatusThrough_found rows found onto (some input.onto) now
        rw [found] at ok
        simp only [went, bind_ok, pure_ok, Except.ok.injEq] at ok
        obtain ⟨change, rfl, rfl⟩ := ok
        exact ⟨id, onto, before, named, state, found, rfl⟩
  · rintro ⟨id, onto, before, named, state, found, rfl⟩
    obtain ⟨after, went⟩ := setStatusThrough_found rows found onto (some input.onto) now
    simp only [transitionTx, bind_ok]
    refine ⟨id, named, some onto, state, ?_⟩
    simp only [found, went, bind_ok, pure_ok]
    exact ⟨_, rfl, rfl⟩

/-! ## Places -/

variable {dest : Option Nat} {place_ : Placement Nat} {index : Nat}

theorem refers_moved (kept : Kept db) (found : db.getTaskTx id = some task) (there : dest.all db.threads.contains = true) :
    db.refers { task with threadId := dest } = true := by
  have refers := kept.refers task (mem_of_getTaskTx found).1
  simp only [TaskDb.refers, Bool.and_eq_true] at refers ⊢
  exact ⟨there, refers.2⟩

theorem unknown_iff : dest.filter (fun thread => !db.threads.contains thread) = none ↔ dest.all db.threads.contains = true := by
  cases dest <;> simp

theorem place_ok {done : Placed × TaskDb} (kept : Kept db) (ok : place db id dest place_ now = .ok done) :
    ∃ item index, db.getTaskTx id = some item ∧ dest.all db.threads.contains = true ∧
      Placement.index? (others db id dest) place_ = some index ∧ done.1.fromThread = item.threadId ∧
      done.1.fromPlace = Placement.whereIs (db.listIdsTx item.threadId) id ∧ done.2 = placedDb db id dest index now := by
  cases unknown : dest.filter (fun thread => !db.threads.contains thread) with
  | some thread =>
    simp only [place, unknown] at ok
    cases ok
  | none =>
    simp only [place, unknown, mapError_ok] at ok
    have there := unknown_iff.mp unknown
    cases found : db.getTaskTx id with
    | none =>
      simp only [TaskDb.placeTaskTx, found] at ok
      cases ok
    | some item =>
      obtain ⟨moved, placed⟩ := placeTaskTx_found kept.toRows found (refers_moved kept found there) place_ now
      rw [placed, map_ok] at ok
      obtain ⟨index, at_, rfl⟩ := ok
      exact ⟨item, index, rfl, there, indexOf_ok.mp at_, rfl, rfl, rfl⟩

theorem place_of (kept : Kept db) (found : db.getTaskTx id = some task) (there : dest.all db.threads.contains = true)
    (at_ : Placement.index? (others db id dest) place_ = some index) (now : Nat) :
    ∃ placed, place db id dest place_ now = .ok (placed, placedDb db id dest index now) := by
  obtain ⟨moved, placed⟩ := placeTaskTx_found kept.toRows found (refers_moved kept found there) place_ now
  simp only [place, unknown_iff.mpr there, placed, indexOf_ok.mpr at_, Except.map, Except.mapError]
  exact ⟨_, rfl⟩

theorem Kept.placed (kept : Kept db) (there : dest.all db.threads.contains = true)
    (inside : index ≤ (others db id dest).length) (now : Nat) :
    Kept (placedDb db id dest index now) := by
  refine ⟨kept.toRows.placed inside now, ?_, kept.limit, kept.threads, ?_, ?_, kept.links⟩
  · intro task' member
    obtain ⟨row, inside, rfl⟩ := List.mem_map.mp member
    rw [placedRow_id]
    exact kept.below row inside
  · intro task' member
    obtain ⟨row, inside, rfl⟩ := List.mem_map.mp member
    have same : ∀ parent, (placedDb db id dest index now).tasks.any (·.id == parent) = db.tasks.any (·.id == parent) := by
      intro parent
      simp only [placedDb, List.any_map, Function.comp_def, placedRow_id]
    have was := kept.refers row inside
    simp only [TaskDb.refers, same, Bool.and_eq_true] at was ⊢
    rw [placedRow]
    split
    · exact ⟨there, was.2⟩
    · rw [renumbered_fields]
      exact was
  · intro task' member
    obtain ⟨row, inside, rfl⟩ := List.mem_map.mp member
    have was := kept.completion row inside
    rw [placedRow]
    split
    · exact ⟨was.done, was.only⟩
    · rw [renumbered_fields]
      exact ⟨was.done, was.only⟩

/-! ## Links -/

theorem liveTaskTx_ok {itemRef field : String} (kept : Rows db) : liveTaskTx db id itemRef field = .ok () ↔ (db.getTaskTx id).isSome = true := by
  cases row : db.tasks.find? (·.id == id) with
  | none =>
    have none : db.getTaskTx id = none := by
      apply List.find?_eq_none.mpr
      intro task member
      have absent := List.find?_eq_none.mp row task member
      simp only [Bool.and_eq_true, not_and]
      exact fun own => absurd own absent
    simp [liveTaskTx, row, none]
  | some task =>
    have member := List.mem_of_find?_eq_some row
    have own : task.id = id := by simpa using List.find?_some row
    subst own
    cases live : task.live with
    | true => simp [liveTaskTx, row, live, kept.getTaskTx member live]
    | false =>
      have none : db.getTaskTx task.id = none := by
        apply List.find?_eq_none.mpr
        intro other inside both
        simp only [Bool.and_eq_true, beq_iff_eq] at both
        rw [kept.same inside member both.1, live] at both
        cases both.2
      simp [liveTaskTx, row, live, none]

theorem linkable_of_target {target : String} {onto : Option Nat} (ok : linkTargetTx db target = .ok onto) : Linkable target := by
  unfold linkTargetTx at ok
  split at ok
  next => cases ok
  next kind named =>
    refine ⟨kind, named, fun item => ?_⟩
    rw [if_pos item] at ok
    obtain ⟨task, is, _⟩ := bind_ok.mp ok
    exact ⟨task, is⟩

theorem Kept.createLinkTx (kept : Kept db) {onto : String} (linkable : Linkable onto) (fromItem : Nat) (linkType : TaskLinkType) (now : Nat) :
    Kept (createLinkTx db fromItem onto linkType now).2 := by
  unfold Tasks.createLinkTx
  split
  · exact kept
  · refine ⟨⟨kept.ids, kept.apart⟩, kept.below, kept.limit, kept.threads, kept.refers, kept.completion, ?_⟩
    intro link member
    rcases List.mem_append.mp member with old | new
    · exact kept.links link old
    · rw [List.mem_singleton.mp new]
      exact linkable

theorem Kept.createLinksTx {items : List (LinkRecord × Nat)} {after : TaskDb} (kept : Kept db)
    (ok : createLinksTx id now items db = .ok after) : Kept after := by
  induction items generalizing db with
  | nil =>
    cases ok
    exact kept
  | cons item items ih =>
    simp only [Tasks.createLinksTx, bind_ok, mapError_ok] at ok
    obtain ⟨onto, target, linkType, _, rest⟩ := ok
    exact ih (kept.createLinkTx (linkable_of_target target) id linkType now) rest

/-! ## Every verb -/

theorem Kept.insertTx {item : Task} {made : Nat × TaskDb} (kept : Kept db) (completion : Completion item)
    (place : item.sortIndex = db.nextSortIndexTx item.threadId) (ok : db.insertTx item = .ok made) : Kept made.2 := by
  simp only [TaskDb.insertTx] at ok
  split at ok
  next => cases ok
  next refers =>
    split at ok
    next => cases ok
    next room =>
      cases ok
      have last : ∀ row ∈ db.tasks, row.live = true → row.threadId = item.threadId → row.sortIndex < item.sortIndex := by
        intro row member live thread
        have listed : row.sortIndex ∈ (db.tasks.filter (TaskDb.onList item.threadId)).map Task.sortIndex :=
          List.mem_map_of_mem (List.mem_filter.mpr ⟨member, onList_iff.mpr ⟨thread, live⟩⟩)
        cases most : ((db.tasks.filter (TaskDb.onList item.threadId)).map Task.sortIndex).max? with
        | none =>
          rw [List.max?_eq_none_iff.mp most] at listed
          cases listed
        | some top =>
          have below := (List.max?_eq_some_iff.mp most).2 _ listed
          simp only [place, TaskDb.nextSortIndexTx, most, Option.getD_some]
          omega
      have known : ∀ task, db.refers task = true →
          TaskDb.refers { db with tasks := db.tasks ++ [{ item with id := db.nextTask }], nextTask := db.nextTask + 1 } task = true := by
        intro task was
        simp only [TaskDb.refers, Bool.and_eq_true] at was ⊢
        refine ⟨was.1, ?_⟩
        cases parent : task.parentId with
        | none => rfl
        | some p =>
          rw [parent, Option.all_some] at was
          simp [was.2]
      refine ⟨⟨?_, ?_⟩, ?_, by simp only; omega, kept.threads, ?_, ?_, kept.links⟩
      · simp only [List.map_append, List.map_singleton]
        refine List.nodup_append.mpr ⟨kept.ids, List.nodup_singleton _, ?_⟩
        intro a inA b inB same
        obtain ⟨row, member, rfl⟩ := List.mem_map.mp inA
        rw [List.mem_singleton.mp inB] at same
        have below := kept.below row member
        omega
      · intro a inA b inB liveA liveB threads places
        rcases List.mem_append.mp inA with oldA | newA <;> rcases List.mem_append.mp inB with oldB | newB
        · exact kept.apart a oldA b oldB liveA liveB threads places
        · rw [List.mem_singleton.mp newB] at threads places
          have before := last a oldA liveA threads
          simp only at places
          omega
        · rw [List.mem_singleton.mp newA] at threads places
          have before := last b oldB liveB threads.symm
          simp only at places
          omega
        · rw [List.mem_singleton.mp newA, List.mem_singleton.mp newB]
      · intro task member
        rcases List.mem_append.mp member with old | new
        · have below := kept.below task old
          simp only
          omega
        · rw [List.mem_singleton.mp new]
          exact Nat.lt_succ_self _
      · intro task member
        rcases List.mem_append.mp member with old | new
        · exact known task (kept.refers task old)
        · rw [List.mem_singleton.mp new]
          exact known _ (by simpa [TaskDb.refers] using refers)
      · intro task member
        rcases List.mem_append.mp member with old | new
        · exact kept.completion task old
        · rw [List.mem_singleton.mp new]
          exact ⟨completion.done, completion.only⟩

theorem Kept.softDeleteTx {after : TaskDb} (kept : Kept db) (ok : db.softDeleteTx id now = .ok after) : Kept after := by
  simp only [TaskDb.softDeleteTx] at ok
  split at ok
  next => cases ok
  next =>
    cases ok
    apply kept.mapped
    · intro row
      split <;> rfl
    · intro row inside live
      split at live
      next => cases live
      next spared =>
        rw [if_neg spared]
        exact ⟨live, rfl, rfl⟩
    · intro row inside
      split
      · exact kept.refers row inside
      · exact kept.refers row inside
    · intro row inside
      have was := kept.completion row inside
      split
      · exact ⟨was.done, was.only⟩
      · exact was

theorem Kept.createTx {actor : Actor} {input : CreateInput} (kept : Kept db) (ok : createTx db actor input now = .ok done) :
    Kept done.2 := by
  simp only [Tasks.createTx, bind_ok, mapError_ok, pure_ok] at ok
  obtain ⟨parentId, _, priority, _, threadId, _, status, _, made, inserted, last, linked, rfl⟩ := ok
  refine (kept.insertTx ⟨?_, ?_⟩ rfl inserted).createLinksTx linked
  · intro finished
    simp only at finished ⊢
    rw [if_pos (.inl finished)]
    rfl
  · intro completed
    simp only at completed ⊢
    split at completed
    next asked => exact asked.imp_right And.left
    next => cases completed

theorem Kept.updateTx {input : UpdateInput} (kept : Kept db) (ok : updateTx db input now = .ok done) : Kept done.2 := by
  obtain ⟨id, parent, priority, status, before, is, rfl⟩ := (updateTx_ok kept.toRows).mp ok
  obtain ⟨member, own, live⟩ := mem_of_getTaskTx is.found
  have same : ∀ row, db.refers (restated input parent priority status now row) = db.refers (updated input parent priority now row) := by
    intro row
    cases status with
    | none => rfl
    | some onto =>
      cases passes : through onto input.state (updated input parent priority now row) <;>
        simp only [restated, Option.elim_some, movedTo, passes, Option.elim_none] <;> rfl
  apply kept.changed (still_restated input parent priority status now)
  · intro row inside its
    rw [same, kept.same inside member (its.trans own.symm)]
    exact is.refers
  · intro row _ was
    have fields : Completion (updated input parent priority now row) := ⟨was.done, was.only⟩
    cases status with
    | none => exact fields
    | some onto => exact fields.movedTo onto input.state now

theorem Kept.transitionTx {input : TransitionInput} (kept : Kept db) (ok : transitionTx db input now = .ok done) :
    Kept done.2 := by
  obtain ⟨id, onto, before, _, _, _, rfl⟩ := (transitionTx_ok kept.toRows).mp ok
  apply kept.changed (still_movedTo onto (some input.onto) now)
  · intro row inside _
    have same : db.refers (movedTo onto (some input.onto) now row) = db.refers row := by
      cases passes : through onto (some input.onto) row <;> simp only [movedTo, passes, Option.elim_some, Option.elim_none] <;> rfl
    rw [same]
    exact kept.refers row inside
  · intro row _ was
    exact was.movedTo onto (some input.onto) now

theorem Kept.place {done : Placed × TaskDb} (kept : Kept db) (ok : place db id dest place_ now = .ok done) : Kept done.2 := by
  obtain ⟨item, index, _, there, at_, _, _, same⟩ := place_ok kept ok
  rw [same]
  exact kept.placed there (Placement.index?_le at_) now

theorem Kept.runTx {actor : Actor} {call : Call} (kept : Kept db) (ok : runTx db actor call now = .ok done) : Kept done.2 := by
  cases call with
  | create input => exact kept.createTx ok
  | update input => exact kept.updateTx ok
  | transition input => exact kept.transitionTx ok
  | link input =>
    simp only [Tasks.runTx, linkTx, bind_ok, pure_ok] at ok
    obtain ⟨fromItem, _, _, _, onto, target, linkType, _, rfl⟩ := ok
    exact kept.createLinkTx (linkable_of_target target) fromItem linkType now
  | unlink input =>
    simp only [Tasks.runTx, unlinkTx, bind_ok, pure_ok] at ok
    obtain ⟨fromItem, _, linkType, _, rfl⟩ := ok
    refine ⟨⟨kept.ids, kept.apart⟩, kept.below, kept.limit, kept.threads, kept.refers, kept.completion, ?_⟩
    intro link member
    exact kept.links link (List.mem_filter.mp member).1
  | comment input =>
    simp only [Tasks.runTx, commentTx, bind_ok] at ok
    obtain ⟨task, _, _, _, ok⟩ := ok
    split at ok
    · cases ok
    · cases ok
      exact ⟨⟨kept.ids, kept.apart⟩, kept.below, kept.limit, kept.threads, kept.refers, kept.completion, kept.links⟩
  | delete input =>
    simp only [Tasks.runTx, deleteTx, bind_ok, mapError_ok, pure_ok] at ok
    obtain ⟨id, _, after, deleted, rfl⟩ := ok
    exact kept.softDeleteTx deleted
  | reorder input =>
    simp only [Tasks.runTx, reorderTx, bind_ok] at ok
    obtain ⟨id, _, at_, _, ok⟩ := ok
    split at ok
    · cases ok
    · simp only [bind_ok, pure_ok] at ok
      obtain ⟨placed, went, rfl⟩ := ok
      exact kept.place went
  | move input =>
    simp only [Tasks.runTx, moveTx, bind_ok, pure_ok] at ok
    obtain ⟨id, _, at_, _, dest, _, placed, went, rfl⟩ := ok
    exact kept.place went

theorem kept_empty : Kept .empty := by
  constructor <;> simp [TaskDb.empty, rowLimit]
  constructor <;> simp

theorem kept_step {event : Event} {next : TaskDb} {out : Unit} (kept : Kept db) (moves : db.step event = some (next, out)) : Kept next := by
  cases event with
  | threadAdded thread =>
    simp only [TaskDb.step] at moves
    split at moves
    next small =>
      cases moves
      refine ⟨⟨kept.ids, kept.apart⟩, kept.below, kept.limit, ?_, ?_, kept.completion, kept.links⟩
      · intro other member
        rcases List.mem_cons.mp member with rfl | old
        · exact small
        · exact kept.threads other old
      · intro task member
        have was := kept.refers task member
        simp only [TaskDb.refers, Bool.and_eq_true] at was ⊢
        refine ⟨?_, was.2⟩
        cases on : task.threadId with
        | none => rfl
        | some other =>
          rw [on, Option.all_some] at was
          simpa using Or.inr (by simpa using was.1)
    next => cases moves
  | call actor call now =>
    simp only [TaskDb.step] at moves
    split at moves
    next done ok =>
      cases moves
      exact kept.runTx ok
    next => cases moves

theorem kept_run (events : List Event) : Kept (Machine.run TaskDb.step .empty events) := by
  refine Machine.run_invariant (fun db _ => Kept db) ?_ [] kept_empty events
  intro db log event next out kept moves
  exact kept_step kept moves

end Oxplow.Proofs.TaskVerbs
