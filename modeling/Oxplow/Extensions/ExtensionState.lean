import Mathlib.Algebra.Group.Nat.Defs
import Oxplow.Jobs.CanonicalJson
import Oxplow.Jobs.ExtensionJob
import Oxplow.Library.Transaction
import Oxplow.Library.Table

/-! `extension_state.rs` and `extension_state_store.rs`: an extension's workflow state and
caches, one row of values a namespace, which a writer replaces when the stamp it read is still
the row's. -/

namespace Oxplow.Extensions
open Jobs Library Outcome

def maxKeys : Nat := 256

def maxKeyBytes : Nat := 128

def maxSnapshotBytes : Nat := 1048576

def maxValueDepth : Nat := 64

inductive Scope where
  | project
  | personal
  deriving DecidableEq

inductive Area where
  | state
  | cache
  deriving DecidableEq

structure Namespace where
  extension : String
  scope : Scope
  area : Area
  deriving DecidableEq

structure Stamp where
  schemaVersion : Nat
  revision : Nat
  deriving DecidableEq

inductive StateError where
  | conflict (actual : Option Stamp)
  | invalid (message : String)
  deriving DecidableEq

/-- A `BTreeMap` of JSON values. -/
structure Values where
  entries : List (String × Json)
  sorted : (entries.map (·.1)).Pairwise (· < ·)

structure Snapshot where
  stamp : Stamp
  values : Values

/-! ## Checks -/

def Namespace.validate (namespace_ : Namespace) : Except StateError Unit :=
  ensure (namespace_.extension.utf8ByteSize ≤ maxKeyBytes ∧ validExtensionName namespace_.extension = true)
    (.invalid "invalid extension namespace")

def tooLarge : StateError := .invalid s!"extension namespace exceeds {maxSnapshotBytes} serialized bytes"

/-- A byte count with more added, up to the limit of a snapshot. -/
def addLowerBound (total bytes : Nat) : Except StateError Nat :=
  if maxSnapshotBytes < total + bytes then .error tooLarge else .ok (total + bytes)

def tooDeep : StateError := .invalid s!"extension state exceeds {maxValueDepth} levels of JSON nesting"

mutual
def lowerBoundValue (depth total : Nat) (value : Json) : Except StateError Nat :=
  if maxValueDepth < depth then .error tooDeep
  else
    match value with
    | .null => addLowerBound total 4
    | .bool true => addLowerBound total 4
    | .bool false => addLowerBound total 5
    | .number _ => addLowerBound total 1
    | .string text => addLowerBound total (text.utf8ByteSize + 2)
    | .array items => do lowerBoundItems (depth + 1) (← addLowerBound total 2) 0 items
    | .object entries => do lowerBoundEntries (depth + 1) (← addLowerBound total 2) 0 entries

/-- The items of a list, each but the first behind a comma. -/
def lowerBoundItems (depth total comma : Nat) : List Json → Except StateError Nat
  | [] => .ok total
  | item :: items => do
    let total ← addLowerBound total comma
    let total ← lowerBoundValue depth total item
    lowerBoundItems depth total 1 items

/-- The entries of an object: a comma, the quoted key and a colon, and the value. -/
def lowerBoundEntries (depth total comma : Nat) : List (String × Json) → Except StateError Nat
  | [] => .ok total
  | (key, value) :: entries => do
    let total ← addLowerBound total comma
    let total ← addLowerBound total (key.utf8ByteSize + 3)
    let total ← lowerBoundValue depth total value
    lowerBoundEntries depth total 1 entries
end

def isKey (key : String) : Bool :=
  let letters := key.toList
  key.utf8ByteSize ≤ maxKeyBytes && letters.head?.any isAsciiLowercase &&
    letters.getLast?.any (fun c => isAsciiLowercase c || isAsciiDigit c) &&
    letters.all fun c => isAsciiLowercase c || isAsciiDigit c || c == '.' || c == '-' || c == '_'

mutual
/-- `serde_json::to_string`, with the keys of an object as they stand. -/
def writeJson : Json → String
  | .null => "null"
  | .bool true => "true"
  | .bool false => "false"
  | .number text => text
  | .string text => Json.quote text
  | .array items => "[" ++ String.intercalate "," (writeItems items) ++ "]"
  | .object entries => "\x7b" ++ String.intercalate "," (writeEntries entries) ++ "\x7d"

def writeItems : List Json → List String
  | [] => []
  | item :: items => writeJson item :: writeItems items

def writeEntries : List (String × Json) → List String
  | [] => []
  | (key, value) :: entries => (Json.quote key ++ ":" ++ writeJson value) :: writeEntries entries
end

def Values.json (values : Values) : String := writeJson (.object values.entries)

def validateValues (values : Values) : Except StateError Unit := do
  ensure (values.entries.length ≤ maxKeys) (.invalid s!"extension namespace exceeds {maxKeys} keys")
  ensure (∀ entry ∈ values.entries, isKey entry.1 = true)
    (.invalid (s!"extension state keys must be 1..={maxKeyBytes} ASCII characters, start with a lowercase letter, " ++
      "contain lowercase letters/digits/dot/dash/underscore, and end with a lowercase letter or digit"))
  let _ ← lowerBoundEntries 2 2 0 values.entries
  ensure (values.json.utf8ByteSize ≤ maxSnapshotBytes) tooLarge

def validateVersion (schemaVersion : Nat) : Except StateError Unit :=
  ensure (schemaVersion ≠ 0) (.invalid "extension state schema version must be positive")

/-- `u32::MAX`, the type of a schema version. -/
def maxVersion : Nat := 2 ^ 32 - 1

/-- `i64::MAX`. -/
def maxRevision : Nat := 2 ^ 63 - 1

def validateStamp (stamp : Stamp) : Except StateError Unit := do
  validateVersion stamp.schemaVersion
  ensure (stamp.revision ≠ 0 ∧ stamp.revision ≤ maxRevision) (.invalid "extension state revision must be in 1..=i64::MAX")

def validateExpected : Option Stamp → Except StateError Unit
  | some stamp => validateStamp stamp
  | none => .ok ()

/-! ## The store -/

/-- A row of `extension_state`. -/
structure StateRow where
  schemaVersion : Int
  revision : Int
  valuesJson : String
  deriving DecidableEq

abbrev StateStore := Table Namespace StateRow

namespace StateStore

section
variable (fromStr : String → Option Values)

/-- What a row reads as. `fromStr` is the JSON parser. -/
def readRow (row : StateRow) : Except StateError Snapshot := do
  ensure (0 < row.schemaVersion ∧ row.schemaVersion ≤ maxVersion ∧ 0 < row.revision)
    (.invalid "persisted extension state has an invalid version or revision")
  ensure (row.valuesJson.utf8ByteSize ≤ maxSnapshotBytes) (.invalid "persisted extension state exceeds the serialized byte limit")
  let values ← (fromStr row.valuesJson).elim (.error (.invalid "persisted extension state is not a JSON object")) .ok
  validateValues values
  return ⟨⟨row.schemaVersion.toNat, row.revision.toNat⟩, values⟩

def snapshotTx (store : StateStore) (namespace_ : Namespace) : Except StateError (Option Snapshot) := do
  namespace_.validate
  match store.get namespace_ with
  | none => .ok none
  | some row => (readRow fromStr row).map some

/-- The row is replaced when it has the stamp: the `UPDATE`, and the rows it changed. -/
def update (store : StateStore) (namespace_ : Namespace) (stamp : Stamp) (row : StateRow) : StateStore × Nat :=
  match store.get namespace_ with
  | some current =>
    if current.schemaVersion = stamp.schemaVersion ∧ current.revision = stamp.revision then (store.insert namespace_ row, 1)
    else (store, 0)
  | none => (store, 0)

/-- The row is added when there is none: the `INSERT … ON CONFLICT DO NOTHING`. -/
def insertNew (store : StateStore) (namespace_ : Namespace) (row : StateRow) : StateStore × Nat :=
  match store.get namespace_ with
  | some _ => (store, 0)
  | none => (store.insert namespace_ row, 1)

def write (store : StateStore) (namespace_ : Namespace) (expected : Option Stamp) (row : StateRow) : StateStore × Nat :=
  match expected with
  | some stamp => update store namespace_ stamp row
  | none => insertNew store namespace_ row

/-- The revision a write gives the row. -/
def nextRevision : Option Stamp → Except StateError Nat
  | some stamp =>
    (ensure (stamp.revision < maxRevision) (.invalid "extension state revision limit reached")).map fun _ => stamp.revision + 1
  | none => .ok 1

def compareExchangeTx (store : StateStore) (namespace_ : Namespace) (expected : Option Stamp) (schemaVersion : Nat)
    (values : Values) : Except StateError (StateStore × Snapshot) := do
  namespace_.validate
  validateVersion schemaVersion
  validateValues values
  validateExpected expected
  let current ← snapshotTx fromStr store namespace_
  let actual := current.map (·.stamp)
  ensure (actual = expected) (.conflict actual)
  let revision ← nextRevision actual
  ensure (values.json.utf8ByteSize ≤ maxSnapshotBytes) (.invalid "extension namespace exceeds 1048576 serialized bytes")
  let (next, changed) := write store namespace_ expected ⟨schemaVersion, revision, values.json⟩
  if changed = 1 then return (next, ⟨⟨schemaVersion, revision⟩, values⟩)
  else do
    let present ← snapshotTx fromStr next namespace_
    .error (.conflict (present.map (·.stamp)))

end

/-- Every scope and area of the extension is forgotten: it was removed. -/
def forgetExtensionTx (store : StateStore) (extension : String) : StateStore :=
  store.delete fun namespace_ => namespace_.extension == extension

end StateStore

/-! ## Transactions -/

inductive StateCall where
  | snapshot (namespace_ : Namespace)
  | compareExchange (namespace_ : Namespace) (expected : Option Stamp) (schemaVersion : Nat) (values : Values)
  | forgetExtension (extension : String)

namespace StateStore
variable (fromStr : String → Option Values)

/-- The store after a transaction. One that fails is rolled back. -/
def after (store : StateStore) : StateCall → StateStore
  | .snapshot _ => store
  | .compareExchange namespace_ expected schemaVersion values =>
    match compareExchangeTx fromStr store namespace_ expected schemaVersion values with
    | .ok (next, _) => next
    | .error _ => store
  | .forgetExtension extension => store.forgetExtensionTx extension

/-- The store after transactions, one at a time. -/
def run (store : StateStore) (calls : List StateCall) : StateStore := calls.foldl (after fromStr) store

end StateStore
end Oxplow.Extensions
