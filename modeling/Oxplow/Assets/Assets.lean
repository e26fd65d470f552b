import Oxplow.Database.Changes

/-! `assets.rs`: derived data whose inputs are tables, recomputed when a commit touches one.
Each asset's loop, step by step, with the change notices that mark it in between. -/

namespace Oxplow.Assets
open Database

/-! ## The database -/

/-- Each table's generation. -/
abbrev Generations := List (String × Nat)

/-- What an asset is built from: the build, its definition, its inputs' generations as its
recompute began and its own tables' as it ended. -/
structure BuiltFrom where
  build : String
  definition : Option String
  inputs : Generations
  outputs : Generations
  deriving DecidableEq

structure Db where
  build : String
  /-- The tables whose triggers bump their generation. -/
  tracked : String → Bool
  gen : String → Nat
  /-- `asset_state.built_from`. -/
  state : String → Option BuiltFrom
  /-- The commits of the run, in order. -/
  commits : List Changed

/-- What an earlier run left: what each asset was built from was read then, and generations only
grow. -/
structure Disk where
  build : String
  tracked : String → Bool
  gen : String → Nat
  state : String → Option BuiltFrom
  past : ∀ asset built, state asset = some built → ∀ entry ∈ built.inputs, tracked entry.1 = true ∧ entry.2 ≤ gen entry.1

namespace Db

def opened (disk : Disk) : Db := ⟨disk.build, disk.tracked, disk.gen, disk.state, []⟩

/-- The generations of `tables`, none when one isn't tracked. -/
def generations (db : Db) (tables : List String) : Option Generations :=
  if tables.all db.tracked then some (tables.map fun t => (t, db.gen t)) else none

/-- A transaction inserts into some tables and rewrites others, so many rows more than one of each. -/
def commit (db : Db) (inserted rewrote : Finset String) (rows : String → Nat) : Db :=
  { db with
    gen := fun t => if t ∈ inserted ∪ rewrote ∧ db.tracked t = true then db.gen t + rows t + 1 else db.gen t
    commits := db.commits ++ [⟨inserted ∪ rewrote, rewrote⟩] }

end Db

/-! ## Assets -/

/-- One asset: its name, the tables it reads, and those it writes. -/
structure Materializer where
  asset : String
  inputs : List String
  outputs : List String
  definition : Option String
  /-- Recomputed on a clock (`every`) instead of on its inputs' changes. -/
  clocked : Bool
  deriving DecidableEq

/-- A call of `changed` for what some commits touched, or of `all_changed`. -/
structure Notice where
  commits : List Nat
  all : Bool
  deriving DecidableEq

/-- Where an asset's loop is. -/
inductive Phase where
  /-- Its first build, before its tables are tracked. -/
  | first
  | tracked
  /-- The check has read the inputs' generations, after so many commits. -/
  | checkedInputs (since : Nat) (inputs : Option Generations)
  | checkedOutputs (since : Nat) (inputs outputs : Option Generations)
  /-- It is current as stored. -/
  | current (since : Nat)
  /-- `needs_full` is cleared. -/
  | cleared (since : Nat)
  /-- `wanted` is read. -/
  | counted (since asked : Nat)
  /-- `wait_for_upstream`: the assets it reads that are still to be looked at. -/
  | waiting (left : List Nat)
  /-- `run_once` has read `wanted`. -/
  | asked (asked : Nat)
  /-- `needs_full` is taken. -/
  | swapped (asked : Nat) (full : Bool)
  /-- The inputs' generations are read. -/
  | begun (asked : Nat) (full : Bool) (inputs : Option Generations)
  /-- The materializer's recompute reads its inputs, from so many commits on. -/
  | reading (asked : Nat) (full : Bool) (inputs : Option Generations) (since : Nat)
  /-- `recompute` has returned, with the commit it made. -/
  | ended (asked : Nat) (made : Option Nat)
  /-- The assets still to be told. -/
  | telling (left : List Nat) (made : Option Nat)
  | idle
  /-- Its inputs must be quiet for the coalesce window. -/
  | quieting
  deriving DecidableEq

structure Entry where
  materializer : Materializer
  needsFull : Bool
  wanted : Nat
  done : Nat
  /-- The permit of `dirty`. -/
  dirty : Bool
  phase : Phase
  /-- Notices that have set `needs_full` and are still to mark it. -/
  noticing : List Notice
  /-- The input commits noticed, each with the `wanted` that its mark left. -/
  noticed : List (Nat × Nat)
  /-- The noticed rewrites that have set `needs_full`. -/
  stored : List Nat
  /-- How many commits there were as the read of what it stores began. -/
  readFrom : Nat
  /-- The same, of its last full build. -/
  fullFrom : Nat
  /-- Its last recompute failed. -/
  failed : Bool

/-- Does a commit touch an input. -/
def touches (db : Db) (m : Materializer) (c : Nat) : Bool :=
  (db.commits[c]?).any fun changed => m.inputs.any fun t => decide (t ∈ changed.tables)

/-- Does a commit update or delete rows of an input. -/
def rewrites (db : Db) (m : Materializer) (c : Nat) : Bool :=
  (db.commits[c]?).any fun changed => m.inputs.any fun t => decide (t ∈ changed.rewrote)

namespace Entry

def pending (e : Entry) : Bool := decide (e.done < e.wanted)

/-- Its first build is asked for. What was committed before, it reads. -/
def register (db : Db) (m : Materializer) : Entry where
  materializer := m
  needsFull := true
  wanted := 1
  done := 0
  dirty := false
  phase := if m.clocked then .idle else .first
  noticing := []
  noticed := ((List.range db.commits.length).filter fun c => touches db m c).map (·, 1)
  stored := (List.range db.commits.length).filter fun c => rewrites db m c
  readFrom := 0
  fullFrom := 0
  failed := false

/-- `mark`, for some commits. -/
def mark (e : Entry) (commits : List Nat) : Entry :=
  { e with wanted := e.wanted + 1, dirty := true, noticed := e.noticed ++ commits.map (·, e.wanted + 1) }

/-- The first half of `changed`, or of `all_changed`: `needs_full`. -/
def note (db : Db) (e : Entry) (notice : Notice) : Entry :=
  { e with
    needsFull := if notice.all || notice.commits.any (rewrites db e.materializer) then true else e.needsFull
    stored := e.stored ++ notice.commits.filter (rewrites db e.materializer)
    noticing := e.noticing ++ [notice] }

/-- The second half: `mark`. -/
def noteMark (db : Db) (e : Entry) (notice : Notice) (later : List Notice) : Entry :=
  let rest := { e with noticing := later }
  if notice.all || notice.commits.any (touches db e.materializer) then rest.mark (notice.commits.filter (touches db e.materializer)) else rest

/-- `recompute` failed: what it took of `needs_full` is put back. -/
def fail (e : Entry) (asked : Nat) (full : Bool) : Entry :=
  { e with needsFull := if full then true else e.needsFull, failed := true, phase := .ended asked none }

/-- `recompute` succeeded; the commit it made is the next. -/
def finish (e : Entry) (asked : Nat) (full : Bool) (since made : Nat) : Entry :=
  { e with
    readFrom := since
    fullFrom := if full then since else e.fullFrom
    failed := false
    phase := .ended asked (some made) }

end Entry

/-! ## The runner -/

structure Runner where
  db : Db
  entries : List Entry

/-- A step of one asset's loop, or of a notice for it. -/
inductive EntryEvent where
  | note (commits : List Nat)
  | noteAll
  | mark
  /-- Its tables that were not tracked get their triggers. -/
  | track (made : List String)
  | readInputs | readOutputs | readState | clear | count
  | look | swap | logFailed | readGenerations | begin | fail
  /-- The recompute is done, and recorded or not. -/
  | finish (recorded : Bool)
  | settle | tell | wake | again | timeout
  /-- Its clock. -/
  | tick
  deriving DecidableEq

inductive Event where
  | commit (inserted rewrote : Finset String) (rows : String → Nat)
  | register (m : Materializer)
  | entry (i : Nat) (event : EntryEvent)

namespace Runner

/-- No asset is registered yet. -/
def start (disk : Disk) : Runner := ⟨.opened disk, []⟩

def set (s : Runner) (i : Nat) (e : Entry) : Runner := { s with entries := s.entries.set i e }

/-- The assets that `m` reads by name. -/
def upstream (s : Runner) (m : Materializer) : List Nat :=
  (List.range s.entries.length).filter fun j =>
    (s.entries[j]?).any fun up => up.materializer.asset != m.asset && m.inputs.contains up.materializer.asset

/-- `downstream.mark()`, for the recompute `made`. -/
def tell (s : Runner) (m : Materializer) (made : Option Nat) (j : Nat) : Runner :=
  match s.entries[j]? with
  | some d =>
    if d.materializer.asset != m.asset && d.materializer.inputs.contains m.asset then
      s.set j (d.mark ((made.toList).filter (touches s.db d.materializer)))
    else s
  | none => s

/-- What recording a recompute stores. -/
def record (s : Runner) (m : Materializer) (inputs : Option Generations) : Runner :=
  let built := inputs.bind fun inputs => (s.db.generations m.outputs).map fun outputs => BuiltFrom.mk s.db.build m.definition inputs outputs
  { s with db := { s.db with state := Function.update s.db.state m.asset built } }

def entryStep (s : Runner) (i : Nat) (e : Entry) : EntryEvent → Option Runner
  | .note commits =>
    if e.materializer.clocked then none
    else if commits.all (· < s.db.commits.length) then some (s.set i (e.note s.db ⟨commits, false⟩)) else none
  | .noteAll =>
    if e.materializer.clocked then none else some (s.set i (e.note s.db ⟨List.range s.db.commits.length, true⟩))
  | .mark =>
    match e.noticing with
    | notice :: later => some (s.set i (e.noteMark s.db notice later))
    | [] => none
  | .track made =>
    match e.phase with
    | .first => some { s.set i { e with phase := .tracked } with db := { s.db with tracked := fun t => s.db.tracked t || made.contains t } }
    | _ => none
  | .readInputs =>
    match e.phase with
    | .tracked => some (s.set i { e with phase := .checkedInputs s.db.commits.length (s.db.generations e.materializer.inputs) })
    | _ => none
  | .readOutputs =>
    match e.phase with
    | .checkedInputs since inputs => some (s.set i { e with phase := .checkedOutputs since inputs (s.db.generations e.materializer.outputs) })
    | _ => none
  | .readState =>
    match e.phase with
    | .checkedOutputs since (some inputs) (some outputs) =>
      if s.db.state e.materializer.asset = some ⟨s.db.build, e.materializer.definition, inputs, outputs⟩ then
        some (s.set i { e with phase := .current since })
      else some (s.set i { e with phase := .waiting (s.upstream e.materializer) })
    | .checkedOutputs _ _ _ => some (s.set i { e with phase := .waiting (s.upstream e.materializer) })
    | _ => none
  | .clear =>
    match e.phase with
    | .current since => some (s.set i { e with needsFull := false, phase := .cleared since })
    | _ => none
  | .count =>
    match e.phase with
    | .cleared since => some (s.set i { e with phase := .counted since e.wanted })
    | _ => none
  | .look =>
    match e.phase with
    | .waiting [] => some (s.set i { e with phase := .asked e.wanted })
    | .waiting (up :: left) =>
      if ((s.entries[up]?).any Entry.pending) = true then some (s.set i { e with phase := .waiting (s.upstream e.materializer) })
      else some (s.set i { e with phase := .waiting left })
    | _ => none
  | .swap =>
    match e.phase with
    | .asked asked => some (s.set i { e with needsFull := false, phase := .swapped asked e.needsFull })
    | _ => none
  | .logFailed =>
    match e.phase with
    | .swapped asked full => some (s.set i (e.fail asked full))
    | _ => none
  | .readGenerations =>
    match e.phase with
    | .swapped asked full => some (s.set i { e with phase := .begun asked full (s.db.generations e.materializer.inputs) })
    | _ => none
  | .begin =>
    match e.phase with
    | .begun asked full inputs => some (s.set i { e with phase := .reading asked full inputs s.db.commits.length })
    | _ => none
  | .fail =>
    match e.phase with
    | .reading asked full _ _ => some (s.set i (e.fail asked full))
    | _ => none
  | .finish recorded =>
    match e.phase with
    | .reading asked full inputs since =>
      let done := s.set i (e.finish asked full since s.db.commits.length)
      let made := { done with db := s.db.commit {e.materializer.asset} ∅ fun _ => 0 }
      some (if recorded then made.record e.materializer inputs else made)
    | _ => none
  | .settle =>
    match e.phase with
    | .counted since asked =>
      some (s.set i { e with done := max e.done asked, readFrom := since, failed := false, phase := .idle })
    | .ended asked made =>
      some (s.set i { e with done := max e.done asked, phase := .telling (List.range s.entries.length) made })
    | _ => none
  | .tell =>
    match e.phase with
    | .telling [] _ => some (s.set i { e with phase := .idle })
    | .telling (j :: left) made => some ((s.set i { e with phase := .telling left made }).tell e.materializer made j)
    | _ => none
  | .wake =>
    match e.phase with
    | .idle => if e.dirty && !e.materializer.clocked then some (s.set i { e with dirty := false, phase := .quieting }) else none
    | _ => none
  | .again =>
    match e.phase with
    | .quieting => if e.dirty then some (s.set i { e with dirty := false }) else none
    | _ => none
  | .timeout =>
    match e.phase with
    | .quieting => some (s.set i { e with phase := if e.pending then .waiting (s.upstream e.materializer) else .idle })
    | _ => none
  | .tick =>
    match e.phase with
    | .idle => if e.materializer.clocked then some (s.set i { e.mark [] with phase := .waiting (s.upstream e.materializer) }) else none
    | _ => none

def step (s : Runner) : Event → Option (Runner × Unit)
  | .commit inserted rewrote rows => some ({ s with db := s.db.commit inserted rewrote rows }, ())
  | .register m =>
    if (s.entries.any fun e => e.materializer.asset == m.asset) = true then none
    else some ({ s with entries := s.entries ++ [Entry.register s.db m] }, ())
  | .entry i event =>
    match s.entries[i]? with
    | some e => (s.entryStep i e event).map (·, ())
    | none => none

end Runner
end Oxplow.Assets
