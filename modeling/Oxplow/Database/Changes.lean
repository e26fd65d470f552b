import Mathlib.Data.Finset.Basic
import Oxplow.Library.Machine

/-! `changes.rs`: which tables a write touched. Every pooled connection's hooks note the tables
of its open transaction, and every database call publishes what has been committed. -/

namespace Oxplow.Database

/-- What one or more commits touched. -/
structure Changed where
  /-- Every table a row changed in. -/
  tables : Finset String
  /-- The ones it updated or deleted rows in, not only inserted into. -/
  rewrote : Finset String
  deriving DecidableEq

namespace Changed

def empty : Changed := ⟨∅, ∅⟩

def isEmpty (changed : Changed) : Bool := decide (changed.tables = ∅)

def note (changed : Changed) (table : String) (rewrote : Bool) : Changed :=
  ⟨insert table changed.tables, if rewrote then insert table changed.rewrote else changed.rewrote⟩

def extend (changed other : Changed) : Changed := ⟨changed.tables ∪ other.tables, changed.rewrote ∪ other.rewrote⟩

end Changed

structure State where
  /-- Per connection: what its open transaction touched. -/
  pending : Nat → Option Changed
  /-- Touched by a commit, not yet published. -/
  committed : Changed

inductive Action where
  | insert | update | delete
  deriving DecidableEq

namespace State

/-- The preupdate hook. A generation bump is bookkeeping for the write it rides with. -/
def preupdate (s : State) (id : Nat) (action : Action) (db table : String) : State :=
  if db = "main" ∧ table ≠ "table_generation" then
    { s with pending := Function.update s.pending id (some (((s.pending id).getD .empty).note table (action != .insert))) }
  else s

def commitHook (s : State) (id : Nat) : State :=
  match s.pending id with
  | some changed => ⟨Function.update s.pending id none, s.committed.extend changed⟩
  | none => s

def rollbackHook (s : State) (id : Nat) : State := { s with pending := Function.update s.pending id none }

end State

/-! ## Connections -/

/-- A connection's open transaction: what it changed in the main database, and whether its
commit hook has run. -/
structure Transaction where
  changed : Changed
  hooked : Bool

/-- A commit that took effect, with how many sets had been published and how many times the
committed set had been flushed. -/
structure Commit where
  changed : Changed
  sentBefore : Nat
  flushesBefore : Nat

/-- The pool: the hooks' state, what was published, each connection's transaction, and the
commits so far. -/
structure Pool where
  changes : State
  sent : List Changed
  flushes : Nat
  transaction : Nat → Option Transaction
  commits : List Commit

inductive Event where
  /-- A row changes in a table. -/
  | change (id : Nat) (action : Action) (db table : String)
  /-- SQLite runs the commit hook, in the connection's commit. -/
  | commitHook (id : Nat)
  /-- The commit takes effect. -/
  | takeEffect (id : Nat)
  /-- The transaction is rolled back, by its caller or by a commit that failed. -/
  | rollback (id : Nat)
  /-- A database call has ended. -/
  | flush
  deriving DecidableEq

namespace Pool

def start : Pool := ⟨⟨fun _ => none, .empty⟩, [], 0, fun _ => none, []⟩

/-- Publish what has been committed since the last publish. -/
def flush (s : Pool) : Pool :=
  { s with
    changes := { s.changes with committed := .empty }
    sent := if s.changes.committed.isEmpty then s.sent else s.sent ++ [s.changes.committed]
    flushes := s.flushes + 1 }

/-- A row change in the connection's transaction, which begins with its first. -/
def change (s : Pool) (id : Nat) (action : Action) (db table : String) : Pool :=
  let before := ((s.transaction id).map (·.changed)).getD .empty
  let changed := if db = "main" then before.note table (action != .insert) else before
  { s with
    changes := s.changes.preupdate id action db table
    transaction := Function.update s.transaction id (some ⟨changed, false⟩) }

def step (s : Pool) : Event → Option (Pool × Unit)
  | .change id action db table =>
    if ((s.transaction id).any (·.hooked)) = true then none else some (s.change id action db table, ())
  | .commitHook id =>
    match s.transaction id with
    | some ⟨changed, false⟩ =>
      some ({ s with
        changes := s.changes.commitHook id
        transaction := Function.update s.transaction id (some ⟨changed, true⟩) }, ())
    | _ => none
  | .takeEffect id =>
    match s.transaction id with
    | some ⟨changed, true⟩ =>
      some ({ s with
        transaction := Function.update s.transaction id none
        commits := s.commits ++ [⟨changed, s.sent.length, s.flushes⟩] }, ())
    | _ => none
  | .rollback id =>
    match s.transaction id with
    | some _ =>
      some ({ s with
        changes := s.changes.rollbackHook id
        transaction := Function.update s.transaction id none }, ())
    | none => none
  | .flush => some (s.flush, ())

end Pool
end Oxplow.Database
