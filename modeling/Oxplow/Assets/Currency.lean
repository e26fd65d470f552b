import Mathlib.Data.List.Basic

/-! `table_generations.rs` and the currency check of `assets.rs`: per-table counters that the
tables' own triggers bump, beside tables that other code drops and recreates. -/

namespace Oxplow.Assets.Currency

inductive TableName
  /-- Core's, or an extension's entity. -/
  | source (name : String)
  /-- `m_<view>`, a materialized dataset's. -/
  | materialized (view : String)
  deriving DecidableEq

/-- A table's rows, and whether it has the three triggers that bump its generation. -/
structure Table (ρ : Type) where
  rows : List ρ
  tracked : Bool

abbrev Generations := List (TableName × Nat)

/-- `built_from`: the build, the definition, the inputs' generations as the recompute began
and its own tables' as it ended. -/
structure BuiltFrom where
  build : String
  definition : Option String
  inputs : Generations
  outputs : Generations
  deriving DecidableEq

structure Db (ρ : Type) where
  /-- `build_identity`. -/
  build : String
  tables : TableName → Option (Table ρ)
  /-- `table_generation`: none for a table is 0. -/
  gen : TableName → Nat
  /-- `asset_state`, and its `built_from`. -/
  state : String → Option (Option BuiltFrom)

/-- A materialized dataset: its view, the tables its SELECT reads, and its definition. No
dataset reads itself. -/
structure Materializer where
  asset : String
  inputs : List TableName
  definition : Option String
  apart : .materialized asset ∉ inputs

namespace Materializer

def table (m : Materializer) : TableName := .materialized m.asset

def outputs (m : Materializer) : List TableName := [m.table]

end Materializer

variable {ρ : Type}

namespace Db

def empty (build : String) : Db ρ := ⟨build, fun _ => none, fun _ => 0, fun _ => none⟩

def isTracked (db : Db ρ) (t : TableName) : Bool := (db.tables t).any (·.tracked)

/-- The generations of `tables`, none when one isn't tracked. -/
def generations (db : Db ρ) (tables : List TableName) : Option Generations :=
  if tables.all db.isTracked then some (tables.map fun t => (t, db.gen t)) else none

/-- The rows of `tables`, none when one doesn't exist. -/
def contents (db : Db ρ) (tables : List TableName) : Option (List (List ρ)) :=
  tables.mapM fun t => (db.tables t).map (·.rows)

/-- `track_tx`: each that exists gets its triggers. -/
def track (db : Db ρ) (tables : List TableName) : Db ρ :=
  { db with tables := fun t => (db.tables t).map fun table => { table with tracked := table.tracked || tables.contains t } }

/-- `rows` become the table's, in `changes` row writes. -/
def write (db : Db ρ) (t : TableName) (table : Table ρ) (rows : List ρ) (changes : Nat) : Db ρ :=
  { db with
    tables := Function.update db.tables t (some { table with rows })
    gen := if table.tracked then Function.update db.gen t (db.gen t + changes) else db.gen }

/-- `DROP TABLE`: the triggers go, the generation stays. -/
def drop (db : Db ρ) (t : TableName) : Db ρ := { db with tables := Function.update db.tables t none }

/-- `DROP TABLE` and `CREATE TABLE`, with rows written after. -/
def recreate (db : Db ρ) (t : TableName) (rows : List ρ) : Db ρ :=
  { db with tables := Function.update db.tables t (some ⟨rows, false⟩) }

/-- `materialize_table` where the contract changed or the table isn't there. -/
def materialize (db : Db ρ) (view : String) : Db ρ :=
  { db.recreate (.materialized view) [] with state := Function.update db.state view none }

/-- `is_current`. -/
def isCurrent (db : Db ρ) (m : Materializer) : Bool :=
  match db.generations m.inputs, db.generations m.outputs with
  | some inputs, some outputs => db.state m.asset = some (some ⟨db.build, m.definition, inputs, outputs⟩)
  | _, _ => false

end Db

/-! ## Recomputes -/

/-- Where a recompute is. -/
inductive Stage
  /-- Its inputs' generations are read. -/
  | begun
  /-- Its table is refilled. -/
  | refilled
  /-- Its table's generation is read. -/
  | measured (outputs : Option Generations)

structure Recompute where
  m : Materializer
  inputs : Option Generations
  stage : Stage

/-- The database, and each asset's recompute under way. -/
structure Runner (ρ : Type) where
  db : Db ρ
  running : String → Option Recompute

/-- A step of a recompute under way. -/
inductive RecomputeStep
  | refill
  | measure
  | record
  /-- It fails, or its asset is removed. -/
  | abort

inductive Event (ρ : Type)
  /-- Rows of a table are written, one change and so many more. -/
  | write (t : TableName) (rows : List ρ) (more : Nat)
  /-- `write_entity` of a changed shape, or a new table. -/
  | reshape (name : String) (rows : List ρ)
  /-- An extension's tables go, or an orphaned dataset's. -/
  | drop (t : TableName)
  /-- A dataset is published with another contract, or comes back. -/
  | materialize (view : String)
  | track (tables : List TableName)
  | begin (m : Materializer)
  | recompute (view : String) (step : RecomputeStep)
  /-- The program stops and starts again, perhaps as another build. -/
  | restart (build : String)

namespace Runner

def start (build : String) : Runner ρ := ⟨.empty build, fun _ => none⟩

def setRunning (s : Runner ρ) (view : String) (r : Option Recompute) : Runner ρ :=
  { s with running := Function.update s.running view r }

/-- What a recompute that measured its table records. -/
def built (db : Db ρ) (r : Recompute) (outputs : Option Generations) : Option BuiltFrom :=
  r.inputs.bind fun inputs => outputs.map fun outputs => ⟨db.build, r.m.definition, inputs, outputs⟩

variable (eval : String → Option String → List (List ρ) → List ρ)

/-- `DELETE`, then `INSERT … SELECT`, in one transaction. -/
def refill (s : Runner ρ) (r : Recompute) : Option (Runner ρ) := do
  let table ← s.db.tables r.m.table
  let inputs ← s.db.contents r.m.inputs
  let rows := eval s.db.build r.m.definition inputs
  return { s.setRunning r.m.asset (some { r with stage := .refilled }) with
    db := s.db.write r.m.table table rows (table.rows.length + rows.length) }

def recomputeStep (s : Runner ρ) (r : Recompute) : RecomputeStep → Option (Runner ρ)
  | .refill =>
    match r.stage with
    | .begun => s.refill eval r
    | _ => none
  | .measure =>
    match r.stage with
    | .refilled => some (s.setRunning r.m.asset (some { r with stage := .measured (s.db.generations r.m.outputs) }))
    | _ => none
  | .record =>
    match r.stage with
    | .measured outputs =>
      some { s.setRunning r.m.asset none with
        db := { s.db with state := Function.update s.db.state r.m.asset (some (built s.db r outputs)) } }
    | _ => none
  | .abort => some (s.setRunning r.m.asset none)

def step (s : Runner ρ) : Event ρ → Option (Runner ρ × Unit)
  | .write t rows more => (s.db.tables t).map fun table => ({ s with db := s.db.write t table rows (more + 1) }, ())
  | .reshape name rows => some ({ s with db := s.db.recreate (.source name) rows }, ())
  | .drop t => some ({ s with db := s.db.drop t }, ())
  | .materialize view => some ({ s with db := s.db.materialize view }, ())
  | .track tables => some ({ s with db := s.db.track tables }, ())
  | .begin m => some (s.setRunning m.asset (some ⟨m, s.db.generations m.inputs, .begun⟩), ())
  | .recompute view step => ((s.running view).bind fun r => s.recomputeStep eval r step).map (·, ())
  | .restart build => some (⟨{ s.db with build }, fun _ => none⟩, ())

end Runner
end Oxplow.Assets.Currency
