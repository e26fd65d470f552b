import Oxplow.Proofs.TaskVerbs

/-! Undoing a verb: when running the inverse at once restores the tasks, their lists and their
links, and when it does not. A completion is stamped again by a move back into it, and a link
to a deleted task is not made again. -/

namespace Oxplow.Proofs.TaskUndo
open Tasks Library Outcome TaskPlaces TaskRefs TaskVerbs

variable {db : TaskDb} {id now later : Nat} {task : Task} {f : Task → Task}

/-! ## What a person sees -/

/-- A task but for its place and the time it was last written. -/
structure View where
  title : String
  description : String
  priority : TaskPriority
  parentId : Option Nat
  author : Option TaskAuthor
  status : TaskStatus
  completedAt : Option Nat
  threadId : Option Nat
  deriving DecidableEq

def view (task : Task) : View :=
  ⟨task.title, task.description, task.priority, task.parentId, task.author, task.status, task.completedAt, task.threadId⟩

def Linked (db : TaskDb) (fromItem : Nat) (onto : String) (linkType : TaskLinkType) : Prop :=
  ∃ link ∈ db.links, link.fromItem = fromItem ∧ link.toUri = onto ∧ link.linkType = linkType

structure Restored (before after : TaskDb) : Prop where
  tasks : ∀ id, (after.getTaskTx id).map view = (before.getTaskTx id).map view
  lists : ∀ thread, after.listIdsTx thread = before.listIdsTx thread
  links : ∀ fromItem onto linkType, Linked after fromItem onto linkType ↔ Linked before fromItem onto linkType

/-- A task's change is undone by what gives its view back. -/
theorem restored_changed (rows : Rows db) (still : Still f) (found : db.getTaskTx id = some task) :
    Restored db (changed db id f) ↔ view (f task) = view task := by
  constructor
  · intro restored
    have own := restored.tasks id
    rw [getTaskTx_own still found, found] at own
    exact Option.some.inj own
  · intro same
    refine ⟨fun other => ?_, listIdsTx_changed still rows, fun _ _ _ => Iff.rfl⟩
    by_cases own : other = id
    · subst own
      rw [getTaskTx_own still found, found, Option.map_some, Option.map_some, same]
    · rw [getTaskTx_other still own]

/-! ## The time of a completion -/

/-- The completion time that a step into a status leaves. -/
def stamped (onto was : TaskStatus) (completed : Option Nat) (now : Nat) : Option Nat :=
  if onto = .done ∧ was ≠ .done then some now else if onto ≠ .done ∧ onto ≠ .archived then none else completed

/-- The completion time that a status move leaves. -/
def movedTime (onto : TaskStatus) (asked : Option CanonicalState) (was : TaskStatus) (completed : Option Nat) (now : Nat) : Option Nat :=
  (((if onto = .archived then asked else none).map nativeStatus).filter fun status => completed.isSome != (status == .done)).elim
    (stamped onto was completed now) fun status => stamped onto status (stamped status was completed now) now

theorem movedTo_eq (onto : TaskStatus) (asked : Option CanonicalState) (now : Nat) (task : Task) :
    movedTo onto asked now task =
      { task with status := onto, completedAt := movedTime onto asked task.status task.completedAt now, updatedAt := now } := by
  unfold movedTo movedTime through
  cases ((if onto = .archived then asked else none).map nativeStatus).filter fun status => task.completedAt.isSome != (status == .done) <;> rfl

/-- A completed task keeps its time through a move and back: it stays where it is, unless it is
archived as canceled, or the clock reads that time again. -/
def TimeKept (task : Task) (onto : TaskStatus) (asked : Option CanonicalState) (now later : Nat) : Prop :=
  ∀ at_, task.completedAt = some at_ →
    onto = task.status ∧ ¬ (onto = .archived ∧ asked = some .canceled) ∨
      at_ = if task.status = .archived ∧ onto = .done then now else later

variable {onto : TaskStatus}

/-- Only an archive takes the state that was asked for into account. -/
theorem movedTime_other (other : onto ≠ .archived) (asked : Option CanonicalState) (was : TaskStatus) (completed : Option Nat)
    (now : Nat) : movedTime onto asked was completed now = stamped onto was completed now := by
  rw [movedTime, if_neg other]
  rfl

theorem movedTime_archived {asked : Option CanonicalState} {was : TaskStatus} {completed : Option Nat}
    (fit : ∀ state, asked = some state → fits state .archived = true) (done : was = .done → completed.isSome = true) (now : Nat) :
    movedTime .archived asked was completed now =
      if asked = some .done then some (completed.getD now) else if asked = some .canceled then none else completed := by
  cases asked with
  | none => rfl
  | some state =>
    have fit := fit state rfl
    cases completed with
    | some at_ => cases state <;> first | rfl | cases fit
    | none =>
      have open_ : was ≠ .done := fun is => by cases done is
      cases state with
      | done =>
        change stamped .archived .done (stamped .done was none now) now = some now
        simp [stamped, open_]
      | canceled => rfl
      | todo | inProgress | blocked => cases fit

theorem fits_canonicalOf (task : Task) : fits (canonicalOf task) task.status = true := by
  unfold canonicalOf
  cases task.status <;> cases task.completedAt <;> rfl

theorem timeKept_iff (kept : Completion task) {asked : Option CanonicalState}
    (fit : ∀ state, asked = some state → fits state onto = true) (now later : Nat) :
    movedTime task.status (some (canonicalOf task)) onto (movedTime onto asked task.status task.completedAt now) later = task.completedAt ↔
      TimeKept task onto asked now later := by
  have after := (kept.movedTo onto asked now).done
  rw [movedTo_eq] at after
  have back : ∀ state, some (canonicalOf task) = some state → fits state task.status = true := by
    intro state is
    cases is
    exact fits_canonicalOf task
  cases time : task.completedAt with
  | none =>
    have open_ : task.status ≠ .done := fun is => by simpa [time] using kept.done is
    simp only [TimeKept, time, reduceCtorEq, IsEmpty.forall_iff, implies_true, iff_true]
    rw [time] at after
    by_cases archived : task.status = .archived
    · rw [archived] at back ⊢
      rw [archived] at after
      rw [movedTime_archived back after]
      simp [canonicalOf, statePair, archived, time]
    · rw [movedTime_other archived, stamped, if_neg fun both => open_ both.1, if_pos ⟨open_, archived⟩]
  | some at_ =>
    rw [time] at after
    have moved : movedTime onto asked task.status (some at_) now =
        if onto = .archived then (if asked = some .canceled then none else some at_)
        else if onto = .done then (if task.status = .done then some at_ else some now) else none := by
      by_cases archived : onto = .archived
      · subst archived
        rw [movedTime_archived fit (fun _ => rfl), if_pos rfl]
        split
        next asks => simp [asks]
        next => rfl
      · rw [movedTime_other archived, if_neg archived]
        cases onto <;> cases task.status <;> simp [stamped] at archived ⊢
    rcases kept.only (by simp [time]) with is | is
    · simp only [TimeKept, time, Option.some.injEq, forall_eq', is]
      rw [movedTime_other (by decide), ← is, moved, is, stamped]
      cases onto <;> simp [eq_comm]
    · simp only [TimeKept, time, Option.some.injEq, forall_eq', is]
      rw [is] at back after moved
      rw [movedTime_archived back after, moved]
      cases onto with
      | archived => by_cases asks : asked = some .canceled <;> simp [canonicalOf, statePair, is, time, asks, eq_comm]
      | ready | inProgress | blocked | done | canceled => simp [canonicalOf, statePair, is, time, eq_comm]

/-! ## Verbs -/

theorem exists_ok {α ε : Type} {outcome : Except ε α} {done : α} (is : outcome = .ok done) (P : α → Prop) :
    (∃ back, outcome = .ok back ∧ P back) ↔ P done := by
  rw [is]
  simp

theorem fits_of_ok {state : Option CanonicalState} {nativeState : Option String}
    (ok : oxplowStatus state nativeState = .ok (some onto)) : ∀ asked, state = some asked → fits asked onto = true := by
  rintro asked rfl
  unfold oxplowStatus at ok
  split at ok
  next =>
    cases ok
    cases asked <;> rfl
  next raw =>
    split at ok
    next => cases ok
    next status _ =>
      simp only at ok
      split at ok
      next fit =>
        cases ok
        exact fit
      next => cases ok

theorem oxplowStatus_back (task : Task) : oxplowStatus (some (canonicalOf task)) (some (statusStr task.status)) = .ok (some task.status) := by
  have found : statuses.find? (statusStr · == statusStr task.status) = some task.status := by
    cases task.status <;> decide
  simp only [oxplowStatus, found, fits_canonicalOf, if_true]

/-- When running the inverse at once restores what the verb changed. -/
def Undoable (db : TaskDb) (now later : Nat) : Call → Prop
  | .update input => ∀ id onto task, taskRef input.uri "/uri" = .ok id →
      oxplowStatus input.state input.nativeState = .ok (some onto) → db.getTaskTx id = some task → TimeKept task onto input.state now later
  | .transition input => ∀ id onto task, taskRef input.uri "/uri" = .ok id →
      oxplowStatus (some input.onto) input.nativeState = .ok (some onto) → db.getTaskTx id = some task →
      TimeKept task onto (some input.onto) now later
  | .unlink input => ∀ fromItem, taskRef input.uri "/uri" = .ok fromItem →
      (db.getTaskTx fromItem).isSome = true ∧ ∀ onto, taskRef input.target "/target" = .ok onto → (db.getTaskTx onto).isSome = true
  | _ => True

variable {actor by_ : Actor} {call : Call} {done : Answer × TaskDb}

theorem transition_undone {input : TransitionInput} (kept : Kept db) (ok : transitionTx db input now = .ok done)
    (inverse : done.1.inverse = some call) :
    (∃ back, runTx done.2 by_ call later = .ok back ∧ Restored db back.2) ↔ Undoable db now later (.transition input) := by
  obtain ⟨id, onto, task, named, state, found, rfl⟩ := (transitionTx_ok kept.toRows).mp ok
  cases inverse
  have still := still_movedTo onto (some input.onto) now
  have stillBack := still_movedTo task.status (some (canonicalOf task)) later
  have back : runTx (changed db id (movedTo onto (some input.onto) now)) by_
      (.transition ⟨input.uri, canonicalOf task, some (statusStr task.status)⟩) later = .ok _ :=
    (transitionTx_ok (still.rows kept.toRows)).mpr
      ⟨id, task.status, _, named, oxplowStatus_back task, getTaskTx_own still found, rfl⟩
  rw [exists_ok back, changed_changed still, restored_changed kept.toRows (still.comp stillBack) found]
  have time := timeKept_iff (kept.completion task (mem_of_getTaskTx found).1) (fits_of_ok state) now later
  have seen : view (movedTo task.status (some (canonicalOf task)) later (movedTo onto (some input.onto) now task)) = view task ↔
      TimeKept task onto (some input.onto) now later := by
    rw [movedTo_eq, movedTo_eq, ← time]
    simp [view]
  rw [seen]
  constructor
  · intro keeps id' onto' task' named' state' found'
    cases named.symm.trans named'
    cases state.symm.trans state'
    cases found.symm.trans found'
    exact keeps
  · intro undoable
    exact undoable id onto task named state found

theorem given_back {α β : Type} (given : Option β) (new : Option α) (old : α) (both : given.isSome = new.isSome) :
    (given.map fun _ => old).getD (new.getD old) = old := by
  cases given with
  | some _ => rfl
  | none =>
    cases new with
    | none => rfl
    | some _ => cases both

theorem isSome_of_parentOf {parentUri : Option String} {parent : Option (Option Nat)} (ok : parentOf parentUri = .ok parent) :
    parentUri.isSome = parent.isSome := by
  unfold parentOf at ok
  split at ok
  · cases ok
    rfl
  · cases ok
    rfl
  · obtain ⟨_, _, rfl⟩ := map_ok.mp ok
    rfl

theorem parentOf_back {parent : Option Nat} (small : ∀ p, parent = some p → p < rowLimit) :
    parentOf (some ((parent.map workItemRef).getD "")) = .ok (some parent) := by
  cases parent with
  | none => rfl
  | some p =>
    have named := taskRef_workItemRef (small p rfl) "/parent_uri"
    have some_ : workItemRef p ≠ "" := by
      intro empty
      rw [empty] at named
      have none : taskOfWorkItemRef "" = none := rfl
      have list : providerOf "" = Option.none := rfl
      simp [taskRef, none, list] at named
    simp only [Option.map_some, Option.getD_some]
    unfold parentOf
    split
    next is => cases is
    next is => exact absurd (Option.some.inj is) some_
    next uri _ is =>
      cases is
      rw [named]
      rfl

theorem oxplowNative_back (priority : TaskPriority) :
    oxplowNative (some (.object [("priority", .string (priorityStr priority))])) = .ok (some priority) := by
  have found : priorities.find? (priorityStr · == priorityStr priority) = some priority := by
    cases priority <;> decide
  simp only [oxplowNative, if_true, priorityOf, found]

theorem isSome_of_oxplowStatus {state : Option CanonicalState} {nativeState : Option String} {status : Option TaskStatus}
    (ok : oxplowStatus state nativeState = .ok status) : (state.isSome || nativeState.isSome) = status.isSome := by
  unfold oxplowStatus at ok
  split at ok
  next =>
    cases ok
    cases state <;> rfl
  next raw =>
    split at ok
    next => cases ok
    next onto _ =>
      split at ok
      next =>
        cases ok
        rfl
      next asked =>
        split at ok
        next =>
          cases ok
          rfl
        next => cases ok

theorem refers_of {task task' : Task} (kept : db.refers task = true) (threads : task'.threadId = task.threadId)
    (parents : task'.parentId = task.parentId) : db.refers task' = true := by
  rw [TaskDb.refers, threads, parents]
  exact kept

theorem parent_small (kept : Kept db) (member : task ∈ db.tasks) : ∀ p, task.parentId = some p → p < rowLimit := by
  intro p is
  have refers := kept.refers task member
  simp only [TaskDb.refers, is, Option.all_some, Bool.and_eq_true, List.any_eq_true, beq_iff_eq] at refers
  obtain ⟨row, inside, own⟩ := refers.2
  have below := kept.below row inside
  have limit := kept.limit
  omega

/-- What the inverse of an update finds in its input. -/
theorem updates_back {input : UpdateInput} {parent : Option (Option Nat)} {priority : Option TaskPriority} {status : Option TaskStatus}
    (kept : Kept db) (is : Updates db input now id parent priority status task) (later : Nat) :
    Updates (changed db id (restated input parent priority status now)) (updateInverse input priority task) later id
      (input.parentUri.map fun _ => task.parentId) (priority.map fun _ => task.priority) (status.map fun _ => task.status)
      (restated input parent priority status now task) := by
  have member := (mem_of_getTaskTx is.found).1
  have still := still_restated input parent priority status now
  refine ⟨is.named, ?_, ?_, ?_, getTaskTx_own still is.found, ?_⟩
  · simp only [updateInverse]
    cases input.parentUri with
    | none => rfl
    | some _ => exact parentOf_back (parent_small kept member)
  · simp only [updateInverse]
    cases priority with
    | none => rfl
    | some _ => exact oxplowNative_back task.priority
  · simp only [updateInverse, isSome_of_oxplowStatus is.status]
    cases status with
    | none => rfl
    | some _ => exact oxplowStatus_back task
  · rw [refers_changed still]
    have parents : (restated input parent priority status now task).parentId = parent.getD task.parentId := by
      cases status with
      | none => rfl
      | some onto =>
        rw [restated, Option.elim_some, movedTo_eq]
        rfl
    refine refers_of (kept.refers task member) (still.thread task) ?_
    simp only [updated, parents]
    exact given_back _ _ _ (isSome_of_parentOf is.detaches)

theorem update_undone {input : UpdateInput} (kept : Kept db) (ok : updateTx db input now = .ok done)
    (inverse : done.1.inverse = some call) :
    (∃ back, runTx done.2 by_ call later = .ok back ∧ Restored db back.2) ↔ Undoable db now later (.update input) := by
  obtain ⟨id, parent, priority, status, task, is, rfl⟩ := (updateTx_ok kept.toRows).mp ok
  cases inverse
  have still := still_restated input parent priority status now
  have stillBack := still_restated (updateInverse input priority task) (input.parentUri.map fun _ => task.parentId)
    (priority.map fun _ => task.priority) (status.map fun _ => task.status) later
  have back : runTx (changed db id (restated input parent priority status now)) by_ (.update (updateInverse input priority task)) later =
      .ok _ := (updateTx_ok (still.rows kept.toRows)).mpr ⟨_, _, _, _, _, updates_back kept is later, rfl⟩
  rw [exists_ok back, changed_changed still, restored_changed kept.toRows (still.comp stillBack) is.found]
  have title := given_back input.title input.title task.title rfl
  have body := given_back input.body input.body task.description rfl
  have priorities := given_back priority priority task.priority rfl
  have parents := given_back input.parentUri parent task.parentId (isSome_of_parentOf is.detaches)
  cases status with
  | none =>
    simp only [restated, Option.map_none, Option.elim_none, updated, updateInverse, view, title, body, priorities, parents, true_iff]
    intro id' onto' task' _ state' _
    cases is.status.symm.trans state'
  | some onto =>
    have moved := isSome_of_oxplowStatus is.status
    have time := timeKept_iff (kept.completion task (mem_of_getTaskTx is.found).1) (fits_of_ok is.status) now later
    simp only [restated, Option.map_some, Option.elim_some, movedTo_eq, updated, updateInverse, view, title, body, priorities, parents,
      moved, Option.isSome_some, if_true, View.mk.injEq, true_and, and_true, time]
    constructor
    · intro keeps id' onto' task' named' state' found'
      cases is.named.symm.trans named'
      cases is.status.symm.trans state'
      cases is.found.symm.trans found'
      exact keeps
    · intro undoable
      exact undoable id onto task is.named is.status is.found

/-! ## Links -/

variable {fromItem : Nat} {onto : String} {linkType : TaskLinkType}

/-- The one link. -/
def isLink (fromItem : Nat) (onto : String) (linkType : TaskLinkType) (link : TaskLink) : Bool :=
  link.fromItem == fromItem && link.toUri == onto && link.linkType == linkType

theorem linked_iff : Linked db fromItem onto linkType ↔ db.links.any (isLink fromItem onto linkType) = true := by
  simp only [Linked, List.any_eq_true, isLink, Bool.and_eq_true, beq_iff_eq, and_assoc]

theorem restored_links {links : List TaskLink}
    (same : ∀ fromItem onto linkType, links.any (isLink fromItem onto linkType) = db.links.any (isLink fromItem onto linkType)) :
    Restored db { db with links } := by
  refine ⟨fun _ => rfl, fun _ => rfl, fun fromItem onto linkType => ?_⟩
  rw [linked_iff, linked_iff, same]

/-- A link is another's only if it is the same. -/
theorem isLink_same {fromItem' : Nat} {onto' : String} {linkType' : TaskLinkType} {link : TaskLink}
    (is : isLink fromItem onto linkType link = true) :
    isLink fromItem' onto' linkType' link = (fromItem' == fromItem && onto' == onto && linkType' == linkType) := by
  simp only [isLink, Bool.and_eq_true, beq_iff_eq] at is
  obtain ⟨⟨rfl, rfl⟩, rfl⟩ := is
  simp only [isLink, Bool.beq_comm]

theorem any_added (links : List TaskLink) {added : TaskLink} {fromItem' : Nat} {onto' : String} {linkType' : TaskLinkType}
    (is : isLink fromItem onto linkType added = true) :
    (links ++ [added]).any (isLink fromItem' onto' linkType') =
      (links.any (isLink fromItem' onto' linkType') || (fromItem' == fromItem && onto' == onto && linkType' == linkType)) := by
  simp only [List.any_append, List.any_cons, List.any_nil, Bool.or_false, isLink_same is]

theorem any_removed (links : List TaskLink) (fromItem' : Nat) (onto' : String) (linkType' : TaskLinkType) :
    (links.filter fun link => !isLink fromItem onto linkType link).any (isLink fromItem' onto' linkType') =
      (links.any (isLink fromItem' onto' linkType') && !(fromItem' == fromItem && onto' == onto && linkType' == linkType)) := by
  rw [List.any_filter]
  cases own : fromItem' == fromItem && onto' == onto && linkType' == linkType with
  | true =>
    simp only [Bool.and_eq_true, beq_iff_eq] at own
    obtain ⟨⟨rfl, rfl⟩, rfl⟩ := own
    simp
  | false =>
    simp only [Bool.not_false, Bool.and_true]
    congr 1
    funext link
    cases its : isLink fromItem onto linkType link with
    | true => simp [isLink_same its, own]
    | false => simp

variable {input : LinkInput}

theorem linkTx_ok :
    linkTx db input now = .ok done ↔
    ∃ fromItem target linkType, taskRef input.uri "/uri" = .ok fromItem ∧ liveTaskTx db fromItem input.uri "/uri" = .ok () ∧
      linkTargetTx db input.target = .ok target ∧ linkTypeOf input.linkType = .ok linkType ∧
      done = (⟨answered input.uri [("linked", .bool (createLinkTx db fromItem input.target linkType now).1)],
        if (createLinkTx db fromItem input.target linkType now).1 then some (.unlink input) else none, [fromItem]⟩,
        (createLinkTx db fromItem input.target linkType now).2) := by
  simp only [linkTx, bind_ok, pure_ok]
  constructor
  · rintro ⟨fromItem, named, _, live, target, aimed, linkType, typed, rfl⟩
    exact ⟨fromItem, target, linkType, named, live, aimed, typed, rfl⟩
  · rintro ⟨fromItem, target, linkType, named, live, aimed, typed, rfl⟩
    exact ⟨fromItem, named, (), live, target, aimed, linkType, typed, rfl⟩

theorem unlinkTx_ok :
    unlinkTx db input = .ok done ↔
    ∃ fromItem linkType, taskRef input.uri "/uri" = .ok fromItem ∧ linkTypeOf input.linkType = .ok linkType ∧
      done = (⟨answered input.uri [("unlinked", .bool (deleteLinkTx db fromItem input.target linkType).1)],
        if (deleteLinkTx db fromItem input.target linkType).1 then some (.link input) else none, [fromItem]⟩,
        (deleteLinkTx db fromItem input.target linkType).2) := by
  simp only [unlinkTx, bind_ok, pure_ok]
  constructor
  · rintro ⟨fromItem, named, linkType, typed, rfl⟩
    exact ⟨fromItem, linkType, named, typed, rfl⟩
  · rintro ⟨fromItem, linkType, named, typed, rfl⟩
    exact ⟨fromItem, named, linkType, typed, rfl⟩

theorem createLinkTx_eq (db : TaskDb) (fromItem : Nat) (onto : String) (linkType : TaskLinkType) (now : Nat) :
    createLinkTx db fromItem onto linkType now =
      if db.links.any (isLink fromItem onto linkType) then (false, db)
      else (true, { db with links := db.links ++ [⟨fromItem, onto, linkType, now⟩] }) := rfl

theorem deleteLinkTx_eq (db : TaskDb) (fromItem : Nat) (onto : String) (linkType : TaskLinkType) :
    deleteLinkTx db fromItem onto linkType =
      (db.links.any (isLink fromItem onto linkType),
        { db with links := db.links.filter fun link => !isLink fromItem onto linkType link }) := rfl

theorem isLink_own (fromItem : Nat) (onto : String) (linkType : TaskLinkType) (at_ : Nat) :
    isLink fromItem onto linkType ⟨fromItem, onto, linkType, at_⟩ = true := by simp [isLink]

/-- A link made and removed. -/
theorem restored_added (absent : db.links.any (isLink fromItem onto linkType) = false) (at_ : Nat) :
    Restored db { db with
      links := (db.links ++ [(⟨fromItem, onto, linkType, at_⟩ : TaskLink)]).filter fun link => !isLink fromItem onto linkType link } := by
  apply restored_links
  intro fromItem' onto' linkType'
  rw [any_removed, any_added db.links (isLink_own fromItem onto linkType at_)]
  cases own : fromItem' == fromItem && onto' == onto && linkType' == linkType with
  | true =>
    simp only [Bool.and_eq_true, beq_iff_eq] at own
    obtain ⟨⟨rfl, rfl⟩, rfl⟩ := own
    simp [absent]
  | false => simp

/-- A link removed and made. -/
theorem restored_removed (there : db.links.any (isLink fromItem onto linkType) = true) (at_ : Nat) :
    Restored db { db with links := (db.links.filter fun link => !isLink fromItem onto linkType link) ++ [⟨fromItem, onto, linkType, at_⟩] } := by
  apply restored_links
  intro fromItem' onto' linkType'
  rw [any_added _ (isLink_own fromItem onto linkType at_), any_removed]
  cases own : fromItem' == fromItem && onto' == onto && linkType' == linkType with
  | true =>
    simp only [Bool.and_eq_true, beq_iff_eq] at own
    obtain ⟨⟨rfl, rfl⟩, rfl⟩ := own
    simp [there]
  | false => simp

theorem link_undone (ok : linkTx db input now = .ok done) (inverse : done.1.inverse = some call) :
    ∃ back, runTx done.2 by_ call later = .ok back ∧ Restored db back.2 := by
  obtain ⟨fromItem, target, linkType, named, _, _, typed, rfl⟩ := linkTx_ok.mp ok
  cases there : db.links.any (isLink fromItem input.target linkType) with
  | true =>
    simp only [createLinkTx_eq, there, if_true, Bool.false_eq_true, if_false] at inverse
    cases inverse
  | false =>
    simp only [createLinkTx_eq, there, if_true, Bool.false_eq_true, if_false] at inverse ⊢
    cases inverse
    have back : unlinkTx { db with links := db.links ++ [⟨fromItem, input.target, linkType, now⟩] } input = .ok _ :=
      unlinkTx_ok.mpr ⟨fromItem, linkType, named, typed, rfl⟩
    exact ⟨_, back, restored_added there now⟩

theorem resource_of_taskRef {target : String} {task : Nat} (is : taskRef target "/target" = .ok task) :
    resourceOf target = some workItem := by
  have named : taskOfWorkItemRef target = some task := by
    unfold taskRef at is
    split at is
    next => cases is
    next =>
      split at is
      next found =>
        cases is
        exact found
      next => cases is
  obtain ⟨pair, found, _⟩ := Option.bind_eq_some_iff.mp named
  obtain ⟨u, parsed, _⟩ := Option.bind_eq_some_iff.mp found
  obtain ⟨parsed, own⟩ := Option.filter_eq_some_iff.mp parsed
  rw [resourceOf, parsed, Option.map_some, eq_of_beq own]

theorem linkTargetTx_ok {target : String} (rows : Rows db) (linkable : Linkable target) :
    (∃ task, linkTargetTx db target = .ok task) ↔ ∀ task, taskRef target "/target" = .ok task → (db.getTaskTx task).isSome = true := by
  obtain ⟨kind, named, item⟩ := linkable
  simp only [linkTargetTx, named]
  by_cases own : kind = workItem
  · obtain ⟨task, is⟩ := item own
    rw [if_pos own]
    constructor
    · rintro ⟨_, ok⟩ task' is'
      obtain ⟨other, is'', rest⟩ := bind_ok.mp ok
      cases is'.symm.trans is''
      obtain ⟨_, live, _⟩ := bind_ok.mp rest
      exact (liveTaskTx_ok rows).mp live
    · intro live
      refine ⟨some task, bind_ok.mpr ⟨task, is, bind_ok.mpr ⟨(), ?_, rfl⟩⟩⟩
      exact (liveTaskTx_ok rows).mpr (live task is)
  · rw [if_neg own]
    refine ⟨fun _ task is => ?_, fun _ => ⟨none, rfl⟩⟩
    cases named.symm.trans (resource_of_taskRef is)
    exact absurd rfl own

theorem unlink_undone (kept : Kept db) (ok : unlinkTx db input = .ok done) (inverse : done.1.inverse = some call) :
    (∃ back, runTx done.2 by_ call later = .ok back ∧ Restored db back.2) ↔ Undoable db now later (.unlink input) := by
  obtain ⟨fromItem, linkType, named, typed, rfl⟩ := unlinkTx_ok.mp ok
  cases there : db.links.any (isLink fromItem input.target linkType) with
  | false =>
    simp only [deleteLinkTx_eq, there, Bool.false_eq_true, if_false] at inverse
    cases inverse
  | true =>
    simp only [deleteLinkTx_eq, there, if_true] at inverse ⊢
    cases inverse
    have linkable : Linkable input.target := by
      obtain ⟨link, member, is⟩ := List.any_eq_true.mp there
      simp only [isLink, Bool.and_eq_true, beq_iff_eq] at is
      exact is.1.2 ▸ kept.links link member
    have rows : Rows { db with links := db.links.filter fun link => !isLink fromItem input.target linkType link } := ⟨kept.ids, kept.apart⟩
    constructor
    · rintro ⟨back, went, _⟩ fromItem' named'
      obtain ⟨fromItem'', target, _, named'', live, aimed, _⟩ := linkTx_ok.mp went
      cases named'.symm.trans named''
      exact ⟨(liveTaskTx_ok rows).mp live, (linkTargetTx_ok rows linkable).mp ⟨target, aimed⟩⟩
    · intro undoable
      obtain ⟨live, aims⟩ := undoable fromItem named
      obtain ⟨target, aimed⟩ := (linkTargetTx_ok rows linkable).mpr aims
      have back : linkTx { db with links := db.links.filter fun link => !isLink fromItem input.target linkType link } input later = .ok _ :=
        linkTx_ok.mpr ⟨fromItem, target, linkType, named, (liveTaskTx_ok rows).mpr live, aimed, typed, rfl⟩
      refine ⟨_, back, ?_⟩
      have absent : (db.links.filter fun link => !isLink fromItem input.target linkType link).any
          (isLink fromItem input.target linkType) = false := by
        rw [any_removed]
        simp
      simp only [createLinkTx_eq, absent, Bool.false_eq_true, if_false]
      exact restored_removed there later

/-! ## Places -/

variable {dest : Option Nat} {index : Nat} {items : List (Nat × Nat)} {row : Task}

theorem view_placedRow : view (placedRow id dest index now items row) =
    if row.id = id ∧ row.live = true then { view row with threadId := dest } else view row := by
  unfold placedRow
  split
  · rfl
  · rw [renumbered_fields]
    rfl

theorem getTaskTx_placed (db : TaskDb) (id : Nat) (dest : Option Nat) (index now other : Nat) :
    (placedDb db id dest index now).getTaskTx other =
      (db.getTaskTx other).map (placedRow id dest index now (joined db id dest index).zipIdx) :=
  getTaskTx_map (fun _ => placedRow_id) fun _ => placedRow_live

theorem getTaskTx_placed_own (found : db.getTaskTx id = some task) :
    (placedDb db id dest index now).getTaskTx id = some (settled dest index now task) := by
  obtain ⟨_, own, live⟩ := mem_of_getTaskTx found
  rw [getTaskTx_placed, found, Option.map_some, placedRow, if_pos ⟨own, live⟩]

/-- Placing a task leaves the others of every list. -/
theorem others_placed (kept : Kept db) (found : db.getTaskTx id = some task) (inside : index ≤ (others db id dest).length)
    (thread : Option Nat) : others (placedDb db id dest index now) id thread = others db id thread := by
  rw [others, listIdsTx_placed inside kept.toRows found]
  split
  next same =>
    subst same
    rw [joined, Placement.filter_insertIdx, others, List.filter_filter]
    simp only [Bool.and_self]
  next =>
    rw [others, List.filter_filter]
    simp only [Bool.and_self]

theorem others_of_absent {thread : Option Nat} (kept : Kept db) (found : db.getTaskTx id = some task) (off : thread ≠ task.threadId) :
    others db id thread = db.listIdsTx thread := by
  obtain ⟨member, own, _⟩ := mem_of_getTaskTx found
  apply List.filter_eq_self.mpr
  intro other listed
  have apart : other ≠ id := by
    intro same
    obtain ⟨row, inside, is, threads, _⟩ := mem_listIdsTx.mp listed
    rw [kept.same inside member (is.trans (same.trans own.symm))] at threads
    exact off threads.symm
  simpa using apart

/-- A task placed goes back where it was. -/
theorem restored_placed (kept : Kept db) (found : db.getTaskTx id = some task) (inside : index ≤ (others db id dest).length) :
    ∃ index', Placement.index? (others (placedDb db id dest index now) id task.threadId)
        (Placement.whereIs (db.listIdsTx task.threadId) id) = some index' ∧
      Restored db (placedDb (placedDb db id dest index now) id task.threadId index' later) := by
  obtain ⟨member, own, live⟩ := mem_of_getTaskTx found
  have listed : id ∈ db.listIdsTx task.threadId := mem_listIdsTx.mpr ⟨task, member, own, rfl, live⟩
  have back := Placement.put_back kept.toRows.distinct listed
  obtain ⟨index', at_, list⟩ := Option.map_eq_some_iff.mp back
  have same : ∀ thread, others (placedDb db id dest index now) id thread = others db id thread :=
    fun thread => others_placed kept found inside thread
  refine ⟨index', ?_, ?_⟩
  · rw [same]
    exact at_
  have rows := kept.toRows.placed inside now
  have found' : (placedDb db id dest index now).getTaskTx id = some (settled dest index now task) := getTaskTx_placed_own found
  have inside' : index' ≤ (others (placedDb db id dest index now) id task.threadId).length := by
    rw [same]
    exact Placement.index?_le at_
  refine ⟨fun other => ?_, fun thread => ?_, fun _ _ _ => Iff.rfl⟩
  · rw [getTaskTx_placed, getTaskTx_placed, Option.map_map, Option.map_map]
    cases there : db.getTaskTx other with
    | none => rfl
    | some row =>
      obtain ⟨inRow, ownRow, liveRow⟩ := mem_of_getTaskTx there
      simp only [Option.map_some, Function.comp_apply, view_placedRow, placedRow_id, placedRow_live, Option.some.injEq]
      by_cases its : row.id = id ∧ row.live = true
      · rw [if_pos its, if_pos its, kept.same member inRow (own.trans its.1.symm)]
        rfl
      · rw [if_neg its, if_neg its]
  · rw [listIdsTx_placed inside' rows found', same]
    split
    next here =>
      rw [here, joined, same]
      exact list
    next off => exact others_of_absent kept found off

/-- The place a task was at, by the refs that name it. -/
theorem placement_back (kept : Kept db) (thread : Option Nat) (id : Nat) :
    placement (neighbour (Placement.whereIs (db.listIdsTx thread) id)).1 (neighbour (Placement.whereIs (db.listIdsTx thread) id)).2 =
      .ok (Placement.whereIs (db.listIdsTx thread) id) := by
  have small : ∀ other, (Placement.whereIs (db.listIdsTx thread) id).besides = some other → other < rowLimit := by
    intro other is
    obtain ⟨row, inside, rfl, _⟩ := mem_listIdsTx.mp (Placement.mem_of_whereIs is)
    have below := kept.below row inside
    have limit := kept.limit
    omega
  cases at_ : Placement.whereIs (db.listIdsTx thread) id with
  | end_ => rfl
  | before other =>
    rw [at_] at small
    simp only [neighbour, placement, taskRef_workItemRef (small other rfl), Except.map]
  | after other =>
    rw [at_] at small
    simp only [neighbour, placement, taskRef_workItemRef (small other rfl), Except.map]

theorem thread_known (kept : Kept db) (found : db.getTaskTx id = some task) : task.threadId.all db.threads.contains = true := by
  have refers := kept.refers task (mem_of_getTaskTx found).1
  simp only [TaskDb.refers, Bool.and_eq_true] at refers
  exact refers.1

theorem moveDest_back (kept : Kept db) (found : db.getTaskTx id = some task) : moveDest (moveTo task.threadId) = .ok task.threadId := by
  have known := thread_known kept found
  cases thread : task.threadId with
  | none => rfl
  | some t =>
    rw [thread, Option.all_some] at known
    have small := kept.threads t (List.contains_iff_mem.mp known)
    simp only [moveTo, moveDest, parseThread, fromStr_display small, Except.mapError, Except.map]

variable {placed : Placed × TaskDb}

/-- Placing back where a task was restores the lists. -/
theorem place_undone {place_ : Placement Nat} (kept : Kept db) (went : place db id dest place_ now = .ok placed) (later : Nat) :
    ∃ task, db.getTaskTx id = some task ∧ placed.1.fromThread = task.threadId ∧
      placed.1.fromPlace = Placement.whereIs (db.listIdsTx task.threadId) id ∧ (∃ after, placed.2.getTaskTx id = some after ∧ after.threadId = dest) ∧
      ∃ back, place placed.2 id task.threadId placed.1.fromPlace later = .ok back ∧ Restored db back.2 := by
  obtain ⟨task, index, found, there, at_, fromThread, fromPlace, same⟩ := place_ok kept went
  have inside := Placement.index?_le at_
  have restore : ∃ index', Placement.index? (others (placedDb db id dest index now) id task.threadId)
        (Placement.whereIs (db.listIdsTx task.threadId) id) = some index' ∧
      Restored db (placedDb (placedDb db id dest index now) id task.threadId index' later) :=
    restored_placed kept found inside
  obtain ⟨index', at_', restored⟩ := restore
  have kept' := kept.placed there inside now
  have found' : (placedDb db id dest index now).getTaskTx id = some (settled dest index now task) := getTaskTx_placed_own found
  refine ⟨task, found, fromThread, fromPlace, ?_, ?_⟩
  · rw [same]
    exact ⟨_, found', rfl⟩
  · rw [same, fromPlace]
    have known := thread_known kept found
    obtain ⟨back, ran⟩ := place_of kept' found' known at_' later
    exact ⟨_, ran, restored⟩

theorem reorderTx_of {input : ReorderInput} {at_ : Placement Nat} (named : taskRef input.uri "/uri" = .ok id)
    (places : placement input.before input.after = .ok at_) (found : db.getTaskTx id = some task)
    (went : place db id task.threadId at_ now = .ok placed) : ∃ answer, reorderTx db input now = .ok (answer, placed.2) := by
  refine ⟨⟨answered input.uri [], some (.reorder ⟨input.uri, (neighbour placed.1.fromPlace).1, (neighbour placed.1.fromPlace).2⟩),
    id :: placed.1.renumbered⟩, ?_⟩
  simp only [reorderTx, bind_ok]
  refine ⟨id, named, at_, places, ?_⟩
  simp only [found, bind_ok, pure_ok]
  exact ⟨placed, went, rfl⟩

theorem moveTx_of {input : MoveInput} {at_ : Placement Nat} (named : taskRef input.uri "/uri" = .ok id)
    (places : placement input.before input.after = .ok at_) (dests : moveDest input.onto = .ok dest)
    (went : place db id dest at_ now = .ok placed) : ∃ answer, moveTx db input now = .ok (answer, placed.2) := by
  refine ⟨⟨answered input.uri [], some (.move ⟨input.uri, moveTo placed.1.fromThread, (neighbour placed.1.fromPlace).1,
    (neighbour placed.1.fromPlace).2⟩), id :: placed.1.renumbered⟩, ?_⟩
  simp only [moveTx, bind_ok, pure_ok]
  exact ⟨id, named, at_, places, dest, dests, placed, went, rfl⟩

theorem reorder_undone {input : ReorderInput} (kept : Kept db) (ok : reorderTx db input now = .ok done)
    (inverse : done.1.inverse = some call) : ∃ back, runTx done.2 by_ call later = .ok back ∧ Restored db back.2 := by
  simp only [reorderTx, bind_ok] at ok
  obtain ⟨id, named, at_, _, ok⟩ := ok
  split at ok
  next => cases ok
  next task found =>
    simp only [bind_ok, pure_ok] at ok
    obtain ⟨placed, went, rfl⟩ := ok
    cases inverse
    obtain ⟨task', found', _, fromPlace, ⟨after, foundAfter, thread⟩, back, ran, restored⟩ := place_undone kept went later
    cases found.symm.trans found'
    have places := placement_back kept task.threadId id
    rw [← fromPlace] at places
    rw [← thread] at ran
    obtain ⟨answer, went'⟩ : ∃ answer, reorderTx placed.2
        ⟨input.uri, (neighbour placed.1.fromPlace).1, (neighbour placed.1.fromPlace).2⟩ later = .ok (answer, back.2) :=
      reorderTx_of named places foundAfter ran
    exact ⟨_, went', restored⟩

theorem move_undone {input : MoveInput} (kept : Kept db) (ok : moveTx db input now = .ok done)
    (inverse : done.1.inverse = some call) : ∃ back, runTx done.2 by_ call later = .ok back ∧ Restored db back.2 := by
  simp only [moveTx, bind_ok, pure_ok] at ok
  obtain ⟨id, named, at_, _, dest, _, placed, went, rfl⟩ := ok
  cases inverse
  obtain ⟨task, found, fromThread, fromPlace, _, back, ran, restored⟩ := place_undone kept went later
  have places := placement_back kept task.threadId id
  rw [← fromPlace] at places
  have dests := moveDest_back kept found
  rw [← fromThread] at dests
  rw [← fromThread] at ran
  obtain ⟨answer, went'⟩ : ∃ answer, moveTx placed.2
      ⟨input.uri, moveTo placed.1.fromThread, (neighbour placed.1.fromPlace).1, (neighbour placed.1.fromPlace).2⟩ later =
      .ok (answer, back.2) := moveTx_of named places dests ran
  exact ⟨_, went', restored⟩

/-! ## Runs -/

/-- What holds of the tasks however the verbs came to leave them. -/
structure Undoes (db : TaskDb) : Prop where
  /-- No two live tasks of a list have one place. -/
  distinct : ∀ a ∈ db.tasks, ∀ b ∈ db.tasks, a.live → b.live → a.threadId = b.threadId → a.sortIndex = b.sortIndex → a = b
  undone : ∀ actor by_ call now later done inverse, runTx db actor call now = .ok done → done.1.inverse = some inverse →
    ((∃ back, runTx done.2 by_ inverse later = .ok back ∧ Restored db back.2) ↔ Undoable db now later call)

theorem verbs_undone (events : List Event) : Undoes (Machine.run TaskDb.step .empty events) := by
  have kept := kept_run events
  refine ⟨kept.apart, ?_⟩
  intro actor by_ call now later done inverse ok is
  cases call with
  | create input =>
    simp only [runTx, createTx, bind_ok, mapError_ok, pure_ok] at ok
    obtain ⟨_, _, _, _, _, _, _, _, _, _, _, _, rfl⟩ := ok
    cases is
  | update input => exact update_undone kept ok is
  | transition input => exact transition_undone kept ok is
  | link input => exact iff_of_true (link_undone ok is) trivial
  | unlink input => exact unlink_undone kept ok is
  | comment input =>
    simp only [runTx, commentTx, bind_ok] at ok
    obtain ⟨_, _, _, _, ok⟩ := ok
    split at ok
    · cases ok
    · cases ok
      cases is
  | delete input =>
    simp only [runTx, deleteTx, bind_ok, mapError_ok, pure_ok] at ok
    obtain ⟨_, _, _, _, rfl⟩ := ok
    cases is
  | reorder input => exact iff_of_true (reorder_undone kept ok is) trivial
  | move input => exact iff_of_true (move_undone kept ok is) trivial

/-! ## A completion stamped again -/

/-- A task filed as done at 10. -/
def filed : TaskDb :=
  Machine.run TaskDb.step .empty [.call .human (.create ⟨"ship it", none, none, some .done, none, none, none, []⟩) 10]

/-- Reopened at 20 and put back at 30, it is done since 30. -/
theorem undo_restamps : ¬ ∀ done inverse, runTx filed .human (.transition ⟨workItemRef 1, .todo, none⟩) 20 = .ok done →
    done.1.inverse = some inverse → ∃ back, runTx done.2 .human inverse 30 = .ok back ∧ Restored filed back.2 := by
  intro restores
  have named : taskRef (workItemRef 1) "/uri" = .ok 1 := taskRef_workItemRef (by decide) _
  have kept : Kept filed := kept_run _
  obtain ⟨task, found, status, time⟩ : ∃ task, filed.getTaskTx 1 = some task ∧ task.status = .done ∧ task.completedAt = some 10 :=
    ⟨_, rfl, rfl, rfl⟩
  have reopened : transitionTx filed ⟨workItemRef 1, .todo, none⟩ 20 = .ok _ :=
    (transitionTx_ok kept.toRows).mpr ⟨1, .ready, task, named, rfl, found, rfl⟩
  have undoable := (transition_undone kept reopened rfl).mp (restores _ _ reopened rfl)
  have kept_ := undoable 1 .ready task named rfl found 10 time
  simp [status] at kept_

end Oxplow.Proofs.TaskUndo
