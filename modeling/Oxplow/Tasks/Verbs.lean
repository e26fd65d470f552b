import Oxplow.Jobs.CanonicalJson
import Oxplow.Tasks.TaskStore

/-! `verbs.rs` and `mapping.rs`: the work-item verbs over the task tables, each with its result
and, when it can be undone, the verb that undoes it. -/

namespace Oxplow.Tasks
open Library Jobs

inductive CanonicalState where
  | todo | inProgress | blocked | done | canceled
  deriving DecidableEq

def CanonicalState.asStr : CanonicalState → String
  | todo => "todo"
  | inProgress => "in_progress"
  | blocked => "blocked"
  | done => "done"
  | canceled => "canceled"

inductive CommandError where
  | invalid (field : Option String) (message : String)
  | failed (message : String)
  deriving DecidableEq

/-- Who calls. -/
inductive Actor where
  | human
  | agent
  | page (onBehalfOf : Actor)
  | component (onBehalfOf : Actor)
  | effect (effect : String)
  | job (source : String)
  | system

inductive TaskList where
  | backlog
  | thread (raw : String)
  deriving DecidableEq

structure LinkRecord where
  target : String
  linkType : String

structure CreateInput where
  title : String
  body : Option String
  parentUri : Option String
  state : Option CanonicalState
  nativeState : Option String
  native : Option Json
  thread : Option String
  links : List LinkRecord

structure UpdateInput where
  uri : String
  title : Option String
  body : Option String
  parentUri : Option String
  state : Option CanonicalState
  nativeState : Option String
  native : Option Json

structure TransitionInput where
  uri : String
  onto : CanonicalState
  nativeState : Option String

structure LinkInput where
  uri : String
  target : String
  linkType : String

structure CommentInput where
  uri : String
  body : String

structure DeleteInput where
  uri : String

structure ReorderInput where
  uri : String
  before : Option String
  after : Option String

structure MoveInput where
  uri : String
  onto : TaskList
  before : Option String
  after : Option String

/-- A verb with its input. -/
inductive Call where
  | create (input : CreateInput)
  | update (input : UpdateInput)
  | transition (input : TransitionInput)
  | link (input : LinkInput)
  | unlink (input : LinkInput)
  | comment (input : CommentInput)
  | delete (input : DeleteInput)
  | reorder (input : ReorderInput)
  | move (input : MoveInput)

structure Answer where
  result : Json
  inverse : Option Call
  changed : List Nat

def invalidAt (field message : String) : CommandError := .invalid (some field) message

def CommandError.of : DomainError → CommandError
  | .invalid message => .invalid none message
  | .notFound => .failed "not found"
  | .constraint message => .failed ("constraint violated: " ++ message)
  | .storage message => .failed ("storage: " ++ message)

/-! ## Mapping -/

def nativeStatus : CanonicalState → TaskStatus
  | .todo => .ready
  | .inProgress => .inProgress
  | .blocked => .blocked
  | .done => .done
  | .canceled => .canceled

def statusStr : TaskStatus → String
  | .ready => "ready"
  | .inProgress => "in_progress"
  | .blocked => "blocked"
  | .done => "done"
  | .canceled => "canceled"
  | .archived => "archived"

def statuses : List TaskStatus := [.ready, .inProgress, .blocked, .done, .canceled, .archived]

def statePair (status : TaskStatus) (completed : Bool) : CanonicalState × String :=
  let state :=
    match status with
    | .ready => .todo
    | .inProgress => .inProgress
    | .blocked => .blocked
    | .done => .done
    | .canceled => .canceled
    | .archived => if completed then .done else .canceled
  (state, statusStr status)

def canonicalOf (task : Task) : CanonicalState := (statePair task.status task.completedAt.isSome).1

/-- A native state stands for a canonical one by its name; an archived task is done or canceled. -/
def fits (state : CanonicalState) (status : TaskStatus) : Bool :=
  match status with
  | .archived => state == .done || state == .canceled
  | other => nativeStatus state == other

def oxplowStatus (state : Option CanonicalState) (nativeState : Option String) : Except CommandError (Option TaskStatus) :=
  match nativeState with
  | none => .ok (state.map nativeStatus)
  | some raw =>
    match statuses.find? (statusStr · == raw) with
    | none =>
      .error (invalidAt "/native_state"
        ("`" ++ raw ++ "` isn't an oxplow status (ready, in_progress, blocked, done, canceled, archived)"))
    | some status =>
      match state with
      | none => .ok (some status)
      | some state =>
        if fits state status then .ok (some status)
        else .error (invalidAt "/native_state" ("`" ++ raw ++ "` isn't an oxplow status for `" ++ state.asStr ++ "`"))

def priorityStr : TaskPriority → String
  | .low => "low"
  | .medium => "medium"
  | .high => "high"
  | .urgent => "urgent"

def priorities : List TaskPriority := [.low, .medium, .high, .urgent]

def nativeError : CommandError := invalidAt "/native" "oxplow's native field is `priority`"

/-- A priority as JSON spells it, if one is given. -/
def priorityOf : Json → Except CommandError (Option TaskPriority)
  | .null => .ok none
  | .string name | .object [(name, .null)] =>
    match priorities.find? (priorityStr · == name) with
    | some priority => .ok (some priority)
    | none => .error nativeError
  | _ => .error nativeError

/-- oxplow's own field of an input. -/
def oxplowNative : Option Json → Except CommandError (Option TaskPriority)
  | none | some (.object []) | some (.array []) => .ok none
  | some (.array [value]) => priorityOf value
  | some (.object [(name, value)]) => if name = "priority" then priorityOf value else .error nativeError
  | some _ => .error nativeError

def linkTypeStr : TaskLinkType → String
  | .blocks => "blocks"
  | .relatesTo => "relates_to"
  | .discoveredFrom => "discovered_from"
  | .duplicates => "duplicates"
  | .supersedes => "supersedes"
  | .repliesTo => "replies_to"
  | .about => "about"

def linkTypes : List TaskLinkType := [.blocks, .relatesTo, .discoveredFrom, .duplicates, .supersedes, .repliesTo, .about]

def linkTypeOf (raw : String) : Except CommandError TaskLinkType :=
  match linkTypes.find? (linkTypeStr · == raw) with
  | some linkType => .ok linkType
  | none =>
    .error (invalidAt "/link_type" ("`" ++ raw ++
      "` isn't an oxplow link type (blocks, relates_to, discovered_from, duplicates, supersedes, replies_to, about)"))

/-! ## Refs -/

/-- The task a ref names. -/
def taskRef (itemRef field : String) : Except CommandError Nat :=
  match (providerOf itemRef).filter (· ≠ provider) with
  | some other => .error (invalidAt field ("`" ++ itemRef ++ "` is " ++ other ++ "'s; this command places oxplow's own tasks"))
  | none =>
    match taskOfWorkItemRef itemRef with
    | some task => .ok task
    | none =>
      .error (invalidAt field ("`" ++ itemRef ++ "` names no oxplow task (oxplow:oxplow/work_item?id=tsk<n>&provider=oxplow)"))

/-- A deleted task takes no comments or links. -/
def liveTaskTx (db : TaskDb) (task : Nat) (itemRef field : String) : Except CommandError Unit :=
  match db.tasks.find? (·.id == task) with
  | none => .error (invalidAt field ("no work item `" ++ itemRef ++ "`"))
  | some row => if row.live then .ok () else .error (invalidAt field ("`" ++ itemRef ++ "` was deleted"))

def parseThread (raw field : String) : Except CommandError Nat := (ThreadId.fromStr raw).mapError (invalidAt field)

def taskAuthor : Actor → Option TaskAuthor
  | .human => some .user
  | .agent => some .agent
  | .page onBehalfOf | .component onBehalfOf => taskAuthor onBehalfOf
  | .effect _ | .job _ | .system => none

def noteAuthor : Actor → String
  | .human => "user"
  | .agent => "agent"
  | .page onBehalfOf | .component onBehalfOf => noteAuthor onBehalfOf
  | .effect effect => "effect:" ++ effect
  | .job source => source
  | .system => "oxplow"

/-- `char::is_whitespace`. -/
def whiteSpace (c : Char) : Bool :=
  let n := c.toNat
  0x09 ≤ n && n ≤ 0x0D || 0x2000 ≤ n && n ≤ 0x200A ||
    [0x20, 0x85, 0xA0, 0x1680, 0x2028, 0x2029, 0x202F, 0x205F, 0x3000].contains n

/-- What a link points at: a live task, or any other URI, which may dangle. -/
def linkTargetTx (db : TaskDb) (target : String) : Except CommandError (Option Nat) :=
  match resourceOf target with
  | none => .error (invalidAt "/target" ("`" ++ target ++ "` isn't a URI (oxplow:<extension>/<resource>?…)"))
  | some kind =>
    if kind = workItem then do
      let onto ← taskRef target "/target"
      liveTaskTx db onto target "/target"
      return some onto
    else .ok none

/-! ## Verbs -/

def notFound (id : Nat) : DomainError → CommandError
  | .notFound => .failed ("task " ++ display TaskId.letters id ++ " not found")
  | other => .of other

def answered (uri : String) (more : List (String × Json)) : Json := .object (("uri", .string uri) :: more)

/-- Add a link, unless it is there. -/
def createLinkTx (db : TaskDb) (fromItem : Nat) (onto : String) (linkType : TaskLinkType) (now : Nat) : Bool × TaskDb :=
  if db.links.any fun link => link.fromItem == fromItem && link.toUri == onto && link.linkType == linkType then (false, db)
  else (true, { db with links := db.links ++ [⟨fromItem, onto, linkType, now⟩] })

def deleteLinkTx (db : TaskDb) (fromItem : Nat) (onto : String) (linkType : TaskLinkType) : Bool × TaskDb :=
  let gone := fun link : TaskLink => link.fromItem == fromItem && link.toUri == onto && link.linkType == linkType
  (db.links.any gone, { db with links := db.links.filter fun link => !gone link })

/-- An error of a link made with its item, at that link. -/
def atLink (n : Nat) : CommandError → CommandError
  | .invalid field message => .invalid (field.map fun f => "/links/" ++ toString n ++ f) message
  | other => other

def createLinksTx (id : Nat) (now : Nat) : List (LinkRecord × Nat) → TaskDb → Except CommandError TaskDb
  | [], db => .ok db
  | (link, n) :: rest, db => do
    let _ ← (linkTargetTx db link.target).mapError (atLink n)
    let linkType ← (linkTypeOf link.linkType).mapError (atLink n)
    createLinksTx id now rest (createLinkTx db id link.target linkType now).2

def createTx (db : TaskDb) (actor : Actor) (input : CreateInput) (now : Nat) : Except CommandError (Answer × TaskDb) := do
  let parentId ← input.parentUri.mapM fun uri => taskRef uri "/parent_uri"
  let priority ← oxplowNative input.native
  let threadId ← input.thread.mapM fun raw => parseThread raw "/thread"
  let status := (← oxplowStatus input.state input.nativeState).getD .ready
  let item : Task :=
    { id := 0
      threadId
      parentId
      title := input.title
      description := input.body.getD ""
      status
      priority := priority.getD .medium
      sortIndex := db.nextSortIndexTx threadId
      createdAt := now
      updatedAt := now
      -- Filed straight into `archived`: completed when it was asked as done.
      completedAt := if status = .done ∨ status = .archived ∧ input.state = some .done then some now else none
      deletedAt := none
      author := taskAuthor actor }
  let made ← (db.insertTx item).mapError CommandError.of
  let db ← createLinksTx made.1 now input.links.zipIdx made.2
  return (⟨.object [("uri", .string (workItemRef made.1))], none, [made.1]⟩, db)

/-- Move a task at a time. Archiving as done what is not completed (or as canceled what is)
passes through that state, so that the item reads as asked. -/
def setStatusThrough (db : TaskDb) (task : Task) (onto : TaskStatus) (asked : Option CanonicalState) (now : Nat) :
    Except CommandError (StatusChange × TaskDb) :=
  let through :=
    ((if onto = .archived then asked else none).map nativeStatus).filter fun status => task.completedAt.isSome != (status == .done)
  match through with
  | none => (db.setStatusTx task.id onto now).mapError (notFound task.id)
  | some status => do
    let first ← (db.setStatusTx task.id status now).mapError (notFound task.id)
    let last ← (first.2.setStatusTx task.id onto now).mapError (notFound task.id)
    return (⟨first.1.before, last.1.after⟩, last.2)

/-- The status move an update asks for, if it asks for one. -/
def moveGiven (db : TaskDb) (task : Task) (status : Option TaskStatus) (asked : Option CanonicalState) (now : Nat) :
    Except CommandError TaskDb :=
  match status with
  | none => .ok db
  | some onto => (setStatusThrough db task onto asked now).map (·.2)

/-- The fields an update gives a task. -/
def updated (input : UpdateInput) (parent : Option (Option Nat)) (priority : Option TaskPriority) (now : Nat) (before : Task) : Task :=
  { before with
    title := input.title.getD before.title
    description := input.body.getD before.description
    priority := priority.getD before.priority
    parentId := parent.getD before.parentId
    updatedAt := now }

/-- A parent an update names, or that it detaches. -/
def parentOf : Option String → Except CommandError (Option (Option Nat))
  | none => .ok none
  | some "" => .ok (some none)
  | some uri => (taskRef uri "/parent_uri").map fun parent => some (some parent)

/-- What gives back exactly what an update gives. -/
def updateInverse (input : UpdateInput) (priority : Option TaskPriority) (before : Task) : UpdateInput :=
  let moved := input.state.isSome || input.nativeState.isSome
  { uri := input.uri
    title := input.title.map fun _ => before.title
    body := input.body.map fun _ => before.description
    parentUri := input.parentUri.map fun _ => (before.parentId.map workItemRef).getD ""
    state := if moved then some (canonicalOf before) else none
    nativeState := if moved then some (statusStr before.status) else none
    native := priority.map fun _ => .object [("priority", .string (priorityStr before.priority))] }

def updateTx (db : TaskDb) (input : UpdateInput) (now : Nat) : Except CommandError (Answer × TaskDb) := do
  let id ← taskRef input.uri "/uri"
  let parent ← parentOf input.parentUri
  let priority ← oxplowNative input.native
  let status ← oxplowStatus input.state input.nativeState
  match db.getTaskTx id with
  | none => .error (notFound id .notFound)
  | some before =>
    let fields ← (db.updateFieldsTx (updated input parent priority now before)).mapError (notFound id)
    let db ← moveGiven fields.2 fields.1 status input.state now
    return (⟨answered input.uri [], some (.update (updateInverse input priority before)), [id]⟩, db)

def transitionTx (db : TaskDb) (input : TransitionInput) (now : Nat) : Except CommandError (Answer × TaskDb) := do
  let id ← taskRef input.uri "/uri"
  match ← oxplowStatus (some input.onto) input.nativeState with
  | none => .error (invalidAt "/to" "a transition needs a state")
  | some onto =>
    match db.getTaskTx id with
    | none => .error (notFound id .notFound)
    | some task =>
      let change ← setStatusThrough db task onto (some input.onto) now
      let inverse : TransitionInput := ⟨input.uri, canonicalOf change.1.before, some (statusStr change.1.before.status)⟩
      return (⟨answered input.uri [], some (.transition inverse), [id]⟩, change.2)

def linkTx (db : TaskDb) (input : LinkInput) (now : Nat) : Except CommandError (Answer × TaskDb) := do
  let fromItem ← taskRef input.uri "/uri"
  liveTaskTx db fromItem input.uri "/uri"
  let _ ← linkTargetTx db input.target
  let linkType ← linkTypeOf input.linkType
  let added := createLinkTx db fromItem input.target linkType now
  return (⟨answered input.uri [("linked", .bool added.1)], if added.1 then some (.unlink input) else none, [fromItem]⟩, added.2)

def unlinkTx (db : TaskDb) (input : LinkInput) : Except CommandError (Answer × TaskDb) := do
  let fromItem ← taskRef input.uri "/uri"
  let linkType ← linkTypeOf input.linkType
  let removed := deleteLinkTx db fromItem input.target linkType
  return (⟨answered input.uri [("unlinked", .bool removed.1)], if removed.1 then some (.link input) else none, [fromItem]⟩, removed.2)

def commentTx (db : TaskDb) (actor : Actor) (input : CommentInput) (now : Nat) : Except CommandError (Answer × TaskDb) := do
  let task ← taskRef input.uri "/uri"
  liveTaskTx db task input.uri "/uri"
  if input.body.toList.all whiteSpace then .error (invalidAt "/body" "a comment needs a body")
  else
    let note : TaskNote := ⟨db.nextNote, task, input.body, noteAuthor actor, now⟩
    return (⟨answered input.uri [("comment", .string (display "not" note.id))], none, [task]⟩,
      { db with notes := db.notes ++ [note], nextNote := db.nextNote + 1 })

def deleteTx (db : TaskDb) (input : DeleteInput) (now : Nat) : Except CommandError (Answer × TaskDb) := do
  let id ← taskRef input.uri "/uri"
  let db ← (db.softDeleteTx id now).mapError (gone input.uri)
  return (⟨answered input.uri [], none, [id]⟩, db)
where
  gone (uri : String) : DomainError → CommandError
    | .notFound => invalidAt "/uri" ("no work item `" ++ uri ++ "`")
    | other => .of other

/-- The place that at most one of two refs names. -/
def placement : Option String → Option String → Except CommandError (Placement Nat)
  | some _, some _ => .error (invalidAt "/after" "give `before` or `after`, not both")
  | some before, none => (taskRef before "/before").map .before
  | none, some after => (taskRef after "/after").map .after
  | none, none => .ok .end_

/-- The refs that name a place. -/
def neighbour : Placement Nat → Option String × Option String
  | .end_ => (none, none)
  | .before task => (some (workItemRef task), none)
  | .after task => (none, some (workItemRef task))

def moveDest : TaskList → Except CommandError (Option Nat)
  | .backlog => .ok none
  | .thread raw => (parseThread raw "/to/thread").map some

def moveTo : Option Nat → TaskList
  | none => .backlog
  | some thread => .thread (display "thr" thread)

/-- Place a task in a list, refusing a thread that is not there. -/
def place (db : TaskDb) (id : Nat) (dest : Option Nat) (at_ : Placement Nat) (now : Nat) : Except CommandError (Placed × TaskDb) :=
  match dest.filter fun thread => !db.threads.contains thread with
  | some thread => .error (invalidAt "/to" ("no thread `" ++ display "thr" thread ++ "`"))
  | none => (db.placeTaskTx id dest at_ now).mapError gone
where
  gone : DomainError → CommandError
    | .notFound => invalidAt "/uri" ("no work item " ++ workItemRef id)
    | other => .of other

def reorderTx (db : TaskDb) (input : ReorderInput) (now : Nat) : Except CommandError (Answer × TaskDb) := do
  let id ← taskRef input.uri "/uri"
  let at_ ← placement input.before input.after
  match db.getTaskTx id with
  | none => .error (invalidAt "/uri" ("no work item `" ++ input.uri ++ "`"))
  | some task =>
    let placed ← place db id task.threadId at_ now
    let back := neighbour placed.1.fromPlace
    return (⟨answered input.uri [], some (.reorder ⟨input.uri, back.1, back.2⟩), id :: placed.1.renumbered⟩, placed.2)

def moveTx (db : TaskDb) (input : MoveInput) (now : Nat) : Except CommandError (Answer × TaskDb) := do
  let id ← taskRef input.uri "/uri"
  let at_ ← placement input.before input.after
  let dest ← moveDest input.onto
  let placed ← place db id dest at_ now
  let back := neighbour placed.1.fromPlace
  return (⟨answered input.uri [], some (.move ⟨input.uri, moveTo placed.1.fromThread, back.1, back.2⟩),
    id :: placed.1.renumbered⟩, placed.2)

/-- Run a verb in one transaction. -/
def runTx (db : TaskDb) (actor : Actor) (call : Call) (now : Nat) : Except CommandError (Answer × TaskDb) :=
  match call with
  | .create input => createTx db actor input now
  | .update input => updateTx db input now
  | .transition input => transitionTx db input now
  | .link input => linkTx db input now
  | .unlink input => unlinkTx db input
  | .comment input => commentTx db actor input now
  | .delete input => deleteTx db input now
  | .reorder input => reorderTx db input now
  | .move input => moveTx db input now

/-! ## Runs -/

inductive Event where
  /-- A thread core makes. -/
  | threadAdded (thread : Nat)
  | call (actor : Actor) (call : Call) (now : Nat)

namespace TaskDb

def empty : TaskDb := ⟨[], [], [], [], 1, 1⟩

/-- A verb that fails leaves the tables as they were. -/
def step (db : TaskDb) : Event → Option (TaskDb × Unit)
  | .threadAdded thread => if thread < rowLimit then some ({ db with threads := thread :: db.threads }, ()) else none
  | .call actor call now =>
    match runTx db actor call now with
    | .ok done => some (done.2, ())
    | .error _ => none

end TaskDb
end Oxplow.Tasks
