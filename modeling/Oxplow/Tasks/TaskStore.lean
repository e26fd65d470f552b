import Mathlib.Data.List.Sort
import Oxplow.Library.Placing
import Oxplow.Library.Transaction
import Oxplow.Uri.OxplowUri

/-! `ids.rs`, `refs.rs`: a task's id and its URI, a thread's id, and what a URI names. -/

namespace Oxplow.Tasks
open Uri

/-- What SQLite numbers rows below. -/
def rowLimit : Nat := 9223372036854775808

/-- An id as text: its letters, then its row's number. -/
def display (letters : String) (id : Nat) : String := String.ofList (letters.toList ++ Nat.toDigits 10 id)

/-- The number that digits after the letters give, as an `i64`. -/
def numberOf (digits : List Char) : Option Nat :=
  if !digits.isEmpty && digits.all Char.isDigit && Nat.ofDigitChars 10 digits 0 < rowLimit then
    some (Nat.ofDigitChars 10 digits 0)
  else none

namespace TaskId

def letters : String := "tsk"

def tryFromStr (s : String) : Option Nat :=
  if letters.toList.isPrefixOf s.toList then numberOf (s.toList.drop letters.toList.length) else none

end TaskId

namespace ThreadId

/-- Each kind's letters and label. -/
def kinds : List (String × String) :=
  [("str", "stream id (str…)"), ("thr", "thread id (thr…)"), ("not", "note id (not…)"), ("eff", "effort id (eff…)"),
    ("trn", "agent-turn id (trn…)"), ("cmt", "comment id (cmt…)"), ("cmg", "comment-message id (cmg…)"),
    ("pgv", "page-visit id (pgv…)"), ("usg", "usage-event id (usg…)"), ("ses", "agent-session id (ses…)"),
    ("hnd", "handoff id (hnd…)"), ("trm", "terminal id (trm…)")]

/-- `AnyId::from_str`: the kind's letters and label, and the number. -/
def anyFromStr (s : String) : Except String ((String × String) × Nat) :=
  let found := (kinds.find? fun kind => kind.1.toList == s.toList.take 3).bind fun kind =>
    (numberOf (s.toList.drop 3)).map fun value => (kind, value)
  match found with
  | some found => .ok found
  | none => .error ("`" ++ s ++ "` is not a valid id (expected a 3-letter prefix followed by an integer, e.g. `tsk42`)")

def fromStr (s : String) : Except String Nat :=
  (anyFromStr s).bind fun found =>
    if found.1.1 = "thr" then .ok found.2
    else .error ("expected a thread id (thr…), but got a " ++ found.1.2)

end ThreadId

/-! ## URIs -/

/-- A URI of one of oxplow's resources. -/
def workItemName : ResourceName := ⟨"oxplow", "work_item", by decide, by decide⟩

def workItemUri (provider id : String) : String :=
  OxplowUri.toString
    { resource := workItemName
      params := (Params.empty.insert "provider" provider (by decide)).insert "id" id (by decide)
      view := Params.empty }

def parseOk (text : String) : Option OxplowUri :=
  match OxplowUri.parse text with
  | .ok u => some u
  | .error _ => none

/-- The resource a URI names. -/
def resourceOf (text : String) : Option (List Char) := (parseOk text).map fun u => u.resource.display

def workItem : List Char := "oxplow/work_item".toList

def workItemOfUri (text : String) : Option (String × String) :=
  ((parseOk text).filter fun u => u.resource.display == workItem).bind fun u =>
    (u.params.entries["provider"]?).bind fun provider => (u.params.entries["id"]?).map fun id => (provider, id)

def provider : String := "oxplow"

def workItemRef (task : Nat) : String := workItemUri provider (display TaskId.letters task)

/-- One of oxplow's tasks. -/
def taskOfWorkItemRef (r : String) : Option Nat :=
  (workItemOfUri r).bind fun found => if found.1 = provider then TaskId.tryFromStr found.2 else none

/-- The list a work item's URI names. -/
def providerOf (itemRef : String) : Option String :=
  ((workItemOfUri itemRef).filter fun found => !found.1.isEmpty && !found.2.isEmpty).map (·.1)

end Oxplow.Tasks

/-! `model.rs`, `store.rs` and the links of `satellite.rs`: the task tables, and what a verb
reads and writes of them. -/

namespace Oxplow.Tasks
open Library

inductive TaskStatus where
  | ready | inProgress | blocked | done | canceled | archived
  deriving DecidableEq

inductive TaskPriority where
  | low | medium | high | urgent
  deriving DecidableEq

inductive TaskAuthor where
  | user | agent
  deriving DecidableEq

inductive TaskLinkType where
  | blocks | relatesTo | discoveredFrom | duplicates | supersedes | repliesTo | about
  deriving DecidableEq

structure Task where
  id : Nat
  /-- None is the backlog. -/
  threadId : Option Nat
  parentId : Option Nat
  title : String
  description : String
  status : TaskStatus
  priority : TaskPriority
  sortIndex : Int
  createdAt : Nat
  updatedAt : Nat
  completedAt : Option Nat
  deletedAt : Option Nat
  author : Option TaskAuthor
  deriving DecidableEq

namespace Task

def setStatus (task : Task) (onto : TaskStatus) (now : Nat) : Task :=
  let completedAt :=
    if onto = .done ∧ task.status ≠ .done then some now
    else if onto ≠ .done ∧ onto ≠ .archived then none
    else task.completedAt
  { task with completedAt, status := onto, updatedAt := now }

def live (task : Task) : Bool := task.deletedAt.isNone

end Task

structure TaskLink where
  fromItem : Nat
  toUri : String
  linkType : TaskLinkType
  createdAt : Nat
  deriving DecidableEq

structure TaskNote where
  id : Nat
  task : Nat
  body : String
  author : String
  createdAt : Nat
  deriving DecidableEq

structure TaskDb where
  tasks : List Task
  links : List TaskLink
  notes : List TaskNote
  threads : List Nat
  nextTask : Nat
  nextNote : Nat

inductive DomainError where
  | invalid (message : String)
  | notFound
  | constraint (message : String)
  | storage (message : String)
  deriving DecidableEq

structure StatusChange where
  before : Task
  after : Task

/-- What placing a task did: the task as it stands, where it was, and the other tasks of its
new list whose place changed. -/
structure Placed where
  task : Task
  fromThread : Option Nat
  fromPlace : Placement Nat
  renumbered : List Nat

namespace TaskDb

/-- A live task. -/
def getTaskTx (db : TaskDb) (id : Nat) : Option Task := db.tasks.find? fun task => task.id == id && task.live

/-- What the tables refer to is there. -/
def refers (db : TaskDb) (task : Task) : Bool :=
  task.threadId.all db.threads.contains && task.parentId.all fun parent => db.tasks.any (·.id == parent)

def foreignKey : DomainError := .constraint "sql: FOREIGN KEY constraint failed"

/-- The one writer of a task's status and its completion. -/
def writeStatusTx (db : TaskDb) (item : Task) : Except DomainError TaskDb :=
  if (db.getTaskTx item.id).isNone then .error .notFound
  else .ok
    { db with
      tasks := updateRows (fun row => row.id == item.id && row.live)
        (fun row => { row with status := item.status, completedAt := item.completedAt, updatedAt := item.updatedAt }) db.tasks }

/-- Everything but the status: the rows changed. -/
def updateTaskTx (db : TaskDb) (item : Task) : Except DomainError (Nat × TaskDb) :=
  if (db.getTaskTx item.id).isNone then .ok (0, db)
  else if db.refers item then
    .ok (1, { db with
      tasks := updateRows (fun row => row.id == item.id && row.live)
        (fun row =>
          { row with
            threadId := item.threadId
            parentId := item.parentId
            title := item.title
            description := item.description
            priority := item.priority
            sortIndex := item.sortIndex
            updatedAt := item.updatedAt
            deletedAt := item.deletedAt
            author := item.author }) db.tasks })
  else .error foreignKey

def setStatusTx (db : TaskDb) (id : Nat) (onto : TaskStatus) (now : Nat) : Except DomainError (StatusChange × TaskDb) :=
  match db.getTaskTx id with
  | none => .error .notFound
  | some before => (db.writeStatusTx (before.setStatus onto now)).map fun db => (⟨before, before.setStatus onto now⟩, db)

/-- A row's fields, without a status to go with them: the row as written. -/
def updateFieldsTx (db : TaskDb) (item : Task) : Except DomainError (Task × TaskDb) := do
  let wrote ← db.updateTaskTx item
  if wrote.1 = 0 then .error .notFound
  else match wrote.2.getTaskTx item.id with
    | none => .error .notFound
    | some after => .ok (after, wrote.2)

def onList (thread : Option Nat) (task : Task) : Bool := task.threadId == thread && task.live

/-- The end of a list. -/
def nextSortIndexTx (db : TaskDb) (thread : Option Nat) : Int :=
  ((db.tasks.filter (onList thread)).map Task.sortIndex).max?.getD (-1) + 1

def insertTx (db : TaskDb) (item : Task) : Except DomainError (Nat × TaskDb) :=
  if !db.refers item then .error foreignKey
  else if rowLimit ≤ db.nextTask then .error (.storage "sql: database or disk is full")
  else .ok (db.nextTask, { db with tasks := db.tasks ++ [{ item with id := db.nextTask }], nextTask := db.nextTask + 1 })

def softDeleteTx (db : TaskDb) (id : Nat) (now : Nat) : Except DomainError TaskDb :=
  if (db.getTaskTx id).isNone then .error .notFound
  else .ok
    { db with
      tasks := updateRows (fun row => row.id == id && row.live) (fun row => { row with deletedAt := some now, updatedAt := now }) db.tasks }

/-! ## Places -/

/-- By place, then by age. -/
def Comes (a b : Task) : Prop := a.sortIndex < b.sortIndex ∨ a.sortIndex = b.sortIndex ∧ a.createdAt ≤ b.createdAt

instance : DecidableRel Comes := fun _ _ => inferInstanceAs (Decidable (_ ∨ _))

/-- A list's live tasks in order. -/
def listIdsTx (db : TaskDb) (thread : Option Nat) : List Nat :=
  ((db.tasks.filter (onList thread)).insertionSort Comes).map Task.id

/-- A row of another task whose place is not the one it comes to. -/
def misplaced (other : Nat) (place : Int) (row : Task) : Bool := row.id == other && row.sortIndex != place

/-- Number a list's other tasks by their places: those whose place changed. -/
def renumberTx (id : Nat) : List (Nat × Nat) → TaskDb → List Nat × TaskDb
  | [], db => ([], db)
  | (other, i) :: rest, db =>
    if other = id then renumberTx id rest db
    else
      let changed := db.tasks.any (misplaced other i)
      let next := renumberTx id rest
        { db with tasks := updateRows (misplaced other i) (fun row => { row with sortIndex := i }) db.tasks }
      (if changed then other :: next.1 else next.1, next.2)

def notThere (other id : Nat) : DomainError :=
  .invalid (display TaskId.letters other ++ " isn't in the list " ++ display TaskId.letters id ++ " is going to")

/-- Where in the list a task goes. -/
def indexOf (id : Nat) (list : List Nat) (place : Placement Nat) : Except DomainError Nat :=
  match Placement.index? list place, place with
  | some index, _ => .ok index
  | none, .before other => .error (notThere other id)
  | none, .after other => .error (notThere other id)
  | none, .end_ => .ok list.length

/-- Put a task in a list, renumbering the list. -/
def placeTaskTx (db : TaskDb) (id : Nat) (dest : Option Nat) (place : Placement Nat) (now : Nat) : Except DomainError (Placed × TaskDb) :=
  match db.getTaskTx id with
  | none => .error .notFound
  | some item => do
    let fromPlace := Placement.whereIs (db.listIdsTx item.threadId) id
    let list := (db.listIdsTx dest).filter (· ≠ id)
    let index ← indexOf id list place
    let numbered := renumberTx id (list.insertIdx index id).zipIdx db
    let task := { item with threadId := dest, sortIndex := index, updatedAt := now }
    let wrote ← numbered.2.updateTaskTx task
    if wrote.1 = 0 then .error .notFound
    else .ok (⟨task, item.threadId, fromPlace, numbered.1⟩, wrote.2)

end TaskDb
end Oxplow.Tasks
