import Mathlib.Data.Finset.Basic
import Mathlib.Data.Finset.Image
import Oxplow.Snapshots.SnapshotStore

/-! `blob_store.rs` and the content cleanup of `snapshot_capture.rs`: blobs are written before
the rows that retain them, and expired by a keep-set read before the deletions. -/

namespace Oxplow.Snapshots

/-- A row as it is stored, and whether its take kept contents. -/
structure StoredRow where
  row : FileSnapshot
  contents : Bool
  deriving DecidableEq

/-- The blob the store wrote for a row, if it wrote one. -/
def writes (row : FileSnapshot) (contents : Bool) : Option String :=
  if row.storage = .oxplow ∧ contents = true then row.blobHash else none

/-- How far the blob of a file that a take or a sweep captured is. -/
inductive Phase
  /-- Read and hashed. -/
  | hashed
  /-- No blob of it was on disk. -/
  | absent
  /-- Written to its temporary file. -/
  | temporary (n : Nat)
  /-- Its blob was found, or put in place, or it needs none. -/
  | settled
  /-- Its row is recorded, or it came to nothing. -/
  | over
  deriving DecidableEq

structure Capture where
  row : FileSnapshot
  contents : Bool
  phase : Phase

/-- A `run_cleanup` after its keep-set was read. -/
structure Cleanup where
  keep : List String
  /-- The next row's id when it was read. -/
  seen : Nat

structure BlobStore where
  blobs : Finset String
  /-- Temporary files, by hash and number. -/
  temps : Finset (String × Nat)
  /-- `TMP_COUNTER`. -/
  counter : Nat
  rows : List StoredRow
  nextFile : Nat
  captures : List Capture
  cleanups : List Cleanup

namespace BlobStore

def start : BlobStore := ⟨∅, ∅, 0, [], 1, [], []⟩

/-- The path's newest row. -/
def Newest (rows : List StoredRow) (r : StoredRow) : Prop :=
  ∀ other ∈ rows, other.row.streamId = r.row.streamId → other.row.path = r.row.path → other.row.id ≤ r.row.id

instance (rows : List StoredRow) : DecidablePred (Newest rows) := fun r => by
  unfold Newest
  infer_instance

/-- `retained_blob_hashes`. -/
def retained (rows : List StoredRow) (cutoff : Nat) : List String :=
  (rows.filter fun r => cutoff ≤ r.row.capturedAt ∨ Newest rows r).filterMap (·.row.blobHash)

def setPhase (s : BlobStore) (index : Nat) (phase : Phase) : BlobStore :=
  { s with captures := s.captures.modify index fun c => { c with phase } }

inductive Event
  /-- A take or a sweep settles on a row for a file. -/
  | capture (row : FileSnapshot) (contents : Bool)
  /-- `write_hashed`: is the blob there? -/
  | exists_ (index : Nat)
  | writeTemp (index : Nat)
  | rename (index : Nat)
  /-- The row is recorded. -/
  | commit (index : Nat)
  /-- The reading is replaced or left out. -/
  | drop (index : Nat)
  /-- `run_cleanup` reads its keep-set. -/
  | readKeep (cutoff : Nat)
  /-- `gc` removes a blob. -/
  | delete (cleanup : Nat) (hash : String)
  /-- `gc` removes a temporary file. -/
  | deleteTemp (cleanup : Nat) (temp : String × Nat)
  /-- The program stops and starts again. -/
  | restart
  deriving DecidableEq

inductive Outcome
  | done
  /-- A blob write failed. -/
  | failed
  deriving DecidableEq

/-- The capture at `index`, when it writes a blob and is that far. -/
def writing (s : BlobStore) (index : Nat) (phase : Phase → Option Nat) : Option (String × Nat) := do
  let c ← s.captures[index]?
  let hash ← writes c.row c.contents
  let n ← phase c.phase
  return (hash, n)

def atHashed : Phase → Option Nat
  | .hashed => some 0
  | _ => none

def atAbsent : Phase → Option Nat
  | .absent => some 0
  | _ => none

def atTemporary : Phase → Option Nat
  | .temporary n => some n
  | _ => none

def step (s : BlobStore) : Event → Option (BlobStore × Outcome)
  | .capture row contents =>
    let phase := if (writes row contents).isSome then .hashed else .settled
    some ({ s with captures := s.captures ++ [⟨row, contents, phase⟩] }, .done)
  | .exists_ index =>
    (s.writing index atHashed).map fun found => (s.setPhase index (if found.1 ∈ s.blobs then .settled else .absent), .done)
  | .writeTemp index =>
    (s.writing index atAbsent).map fun found =>
      ({ s.setPhase index (.temporary s.counter) with temps := insert (found.1, s.counter) s.temps, counter := s.counter + 1 }, .done)
  | .rename index =>
    (s.writing index atTemporary).map fun found =>
      if found ∈ s.temps then
        ({ s.setPhase index .settled with temps := s.temps.erase found, blobs := insert found.1 s.blobs }, .done)
      else (s.setPhase index .over, .failed)
  | .commit index =>
    (s.captures[index]?.filter (·.phase = .settled)).map fun c =>
      ({ s.setPhase index .over with
          rows := s.rows ++ [⟨{ c.row with id := s.nextFile }, c.contents⟩], nextFile := s.nextFile + 1 }, .done)
  | .drop index => some (s.setPhase index .over, .done)
  | .readKeep cutoff => some ({ s with cleanups := s.cleanups ++ [⟨retained s.rows cutoff, s.nextFile⟩] }, .done)
  | .delete cleanup hash =>
    (s.cleanups[cleanup]?.filter fun c => hash ∉ c.keep).map fun _ => ({ s with blobs := s.blobs.erase hash }, .done)
  | .deleteTemp cleanup temp => s.cleanups[cleanup]?.map fun _ => ({ s with temps := s.temps.erase temp }, .done)
  | .restart => some ({ s with counter := 0, captures := [], cleanups := [] }, .done)

end BlobStore

end Oxplow.Snapshots
