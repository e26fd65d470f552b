import Oxplow.Assets.Currency
import Oxplow.Library.Machine

/-! A record made at the tables' present generations is of the rows they hold, where no table
an asset counts on is dropped under its record; a dropped table keeps its generation. -/

namespace Oxplow.Proofs.AssetCurrency
open Library Assets.Currency

variable {ρ : Type} {eval : String → Option String → List (List ρ) → List ρ} {db db' : Db ρ} {s next : Runner ρ} {t : TableName}
  {stamps outputs : Generations} {view : String} {built : BuiltFrom} {r : Recompute} {event : Event ρ}

/-! ## What stays where generations stay -/

/-- Each stamp is of a generation reached, and one at the present generation is of a table
that has its triggers still. -/
def Counted (db : Db ρ) (stamps : Generations) : Prop :=
  ∀ entry ∈ stamps, entry.2 ≤ db.gen entry.1 ∧ (entry.2 = db.gen entry.1 → db.isTracked entry.1 = true)

/-- Every stamp is at the present generation. -/
def Present (db : Db ρ) (stamps : Generations) : Prop := ∀ entry ∈ stamps, entry.2 = db.gen entry.1

/-- A table that has its triggers is as it was where its generation is. -/
def SteadyAt (db db' : Db ρ) (t : TableName) : Prop :=
  db'.gen t = db.gen t → db.isTracked t = true → db'.tables t = db.tables t

theorem Counted.present_back (counted : Counted db stamps) (mono : ∀ t, db.gen t ≤ db'.gen t) (present : Present db' stamps) :
    Present db stamps ∧ ∀ entry ∈ stamps, db'.gen entry.1 = db.gen entry.1 := by
  have same : ∀ entry ∈ stamps, entry.2 = db.gen entry.1 := by
    intro entry inside
    have := (counted entry inside).1
    have := mono entry.1
    have := present entry inside
    omega
  exact ⟨same, fun entry inside => (present entry inside).symm.trans (same entry inside)⟩

theorem Counted.step (counted : Counted db stamps) (mono : ∀ t, db.gen t ≤ db'.gen t)
    (steady : ∀ entry ∈ stamps, entry.2 = db.gen entry.1 → SteadyAt db db' entry.1) : Counted db' stamps := by
  intro entry inside
  obtain ⟨reached, tracked⟩ := counted entry inside
  refine ⟨Nat.le_trans reached (mono entry.1), fun present => ?_⟩
  have grown := mono entry.1
  have was : entry.2 = db.gen entry.1 := by omega
  have same := steady entry inside was (by omega) (tracked was)
  rw [Db.isTracked, same]
  exact tracked was

variable {tables : List TableName}

theorem contents_congr (same : ∀ t ∈ tables, db'.tables t = db.tables t) : db'.contents tables = db.contents tables := by
  simp only [Db.contents]
  induction tables with
  | nil => rfl
  | cons t tables ih =>
    rw [List.mapM_cons, List.mapM_cons, same t List.mem_cons_self, ih fun u inside => same u (List.mem_cons_of_mem _ inside)]

/-- Stamps at the present generations name contents that are as they were. -/
theorem Counted.contents (counted : Counted db stamps) (mono : ∀ t, db.gen t ≤ db'.gen t)
    (steady : ∀ entry ∈ stamps, entry.2 = db.gen entry.1 → SteadyAt db db' entry.1) (present : Present db' stamps) :
    db'.contents (stamps.map (·.1)) = db.contents (stamps.map (·.1)) := by
  obtain ⟨was, grown⟩ := counted.present_back mono present
  refine contents_congr fun t inside => ?_
  obtain ⟨entry, member, rfl⟩ := List.mem_map.mp inside
  exact steady entry member (was entry member) (grown entry member) ((counted entry member).2 (was entry member))

/-! ## Records -/

/-- An asset's rows are what its definition gives over its inputs. -/
def Fresh (eval : String → Option String → List (List ρ) → List ρ) (db : Db ρ) (view build : String) (definition : Option String)
    (inputs : List TableName) : Prop :=
  ∃ table contents, db.tables (.materialized view) = some table ∧ db.contents inputs = some contents ∧
    table.rows = eval build definition contents

/-- A record is of the rows its asset has, as long as its stamps are at the present generations. -/
structure Recorded (eval : String → Option String → List (List ρ) → List ρ) (db : Db ρ) (view : String) (built : BuiltFrom) : Prop where
  counted : Counted db built.inputs
  own : ∃ g, built.outputs = [(.materialized view, g)] ∧ g ≤ db.gen (.materialized view) ∧
    ∀ table, db.tables (.materialized view) = some table → g = db.gen (.materialized view) →
      table.tracked = true ∧ (Present db built.inputs → Fresh eval db view built.build built.definition (built.inputs.map (·.1)))

/-- An asset's table, where its generation is the same and it has its triggers, is as it was. -/
def OwnKept (db db' : Db ρ) (view : String) : Prop :=
  ∀ table', db'.tables (.materialized view) = some table' → db'.gen (.materialized view) = db.gen (.materialized view) →
    ∃ table, db.tables (.materialized view) = some table ∧ (table.tracked = true → table' = table)

theorem Recorded.step (recorded : Recorded eval db view built) (mono : ∀ t, db.gen t ≤ db'.gen t)
    (steady : ∀ entry ∈ built.inputs, entry.2 = db.gen entry.1 → SteadyAt db db' entry.1) (own : OwnKept db db' view) :
    Recorded eval db' view built := by
  refine ⟨recorded.counted.step mono steady, ?_⟩
  obtain ⟨g, outputs, reached, held⟩ := recorded.own
  have grown := mono (.materialized view)
  refine ⟨g, outputs, Nat.le_trans reached grown, fun table' there present => ?_⟩
  obtain ⟨table, before, same⟩ := own table' there (by omega)
  obtain ⟨tracked, fresh⟩ := held table before (by omega)
  obtain rfl := same tracked
  refine ⟨tracked, fun inputs => ?_⟩
  obtain ⟨was, _⟩ := recorded.counted.present_back mono inputs
  obtain ⟨old, contents, there', inputs', rows⟩ := fresh was
  obtain rfl := Option.some.inj (before.symm.trans there')
  exact ⟨table', contents, there, by rw [recorded.counted.contents mono steady inputs, inputs'], rows⟩

/-! ## Recomputes under way -/

/-- What a recompute that began at `stamps` has done so far. -/
def Reached (eval : String → Option String → List (List ρ) → List ρ) (db : Db ρ) (m : Materializer) (stamps : Generations) : Stage → Prop
  | .begun => True
  | .refilled => Present db stamps → Fresh eval db m.asset db.build m.definition m.inputs
  | .measured none => True
  | .measured (some outputs) => Recorded eval db m.asset ⟨db.build, m.definition, stamps, outputs⟩

structure Running (eval : String → Option String → List (List ρ) → List ρ) (db : Db ρ) (view : String) (r : Recompute) : Prop where
  asset : r.m.asset = view
  inputs : ∀ stamps, r.inputs = some stamps → stamps.map (·.1) = r.m.inputs ∧ Counted db stamps ∧ Reached eval db r.m stamps r.stage

/-- What holds between steps: of every record, and of every recompute under way. -/
structure Kept (eval : String → Option String → List (List ρ) → List ρ) (s : Runner ρ) : Prop where
  state : ∀ view built, s.db.state view = some (some built) → Recorded eval s.db view built
  running : ∀ view r, s.running view = some r → Running eval s.db view r

/-- A record, or a recompute under way, has read the table at its present generation. -/
def Stamped (s : Runner ρ) (t : TableName) : Prop :=
  (∃ view built, s.db.state view = some (some built) ∧ (t, s.db.gen t) ∈ built.inputs) ∨
    ∃ view r stamps, s.running view = some r ∧ r.inputs = some stamps ∧ (t, s.db.gen t) ∈ stamps

/-- A table is not dropped under a record or a recompute that has read it as it is, nor is an
asset's own between its refill and its record; nor is its own written to before it is measured. -/
def Clear (s : Runner ρ) : Event ρ → Prop
  | .write t _ _ => ∀ view r, t = .materialized view → s.running view = some r → r.stage ≠ .refilled
  | .reshape name _ => ¬ Stamped s (.source name)
  | .drop t => ¬ Stamped s t ∧ ∀ view r, t = .materialized view → s.running view = some r → r.stage = .begun
  | .materialize view => ¬ Stamped s (.materialized view) ∧ ∀ r, s.running view = some r → r.stage = .begun
  | _ => True

/-- An asset's rows are as they were. -/
def RowsKept (db db' : Db ρ) (view : String) : Prop :=
  ∀ table, db.tables (.materialized view) = some table →
    ∃ table', db'.tables (.materialized view) = some table' ∧ table'.rows = table.rows

/-- A step of the tables keeps what the records and the recomputes under way count on. -/
theorem Kept.move (kept : Kept eval s) (build : db'.build = s.db.build) (mono : ∀ t, s.db.gen t ≤ db'.gen t)
    (steady : ∀ t, Stamped s t → SteadyAt s.db db' t)
    (state : ∀ view built, db'.state view = some (some built) → s.db.state view = some (some built) ∧ OwnKept s.db db' view)
    (rows : ∀ view r, s.running view = some r → r.stage = .refilled → RowsKept s.db db' view)
    (own : ∀ view r, s.running view = some r → r.stage ≠ .begun → r.stage ≠ .refilled → OwnKept s.db db' view) :
    Kept eval { s with db := db' } := by
  constructor
  · intro view built at_
    obtain ⟨was, own⟩ := state view built at_
    refine (kept.state view built was).step mono (fun entry inside present => steady entry.1 ?_) own
    exact .inl ⟨view, built, was, by rw [← present]; exact inside⟩
  · intro view r at_
    obtain ⟨asset, held⟩ := kept.running view r at_
    refine ⟨asset, fun stamps began => ?_⟩
    obtain ⟨names, counted, reached⟩ := held stamps began
    have still : ∀ entry ∈ stamps, entry.2 = s.db.gen entry.1 → SteadyAt s.db db' entry.1 := fun entry inside present =>
      steady entry.1 (.inr ⟨view, r, stamps, at_, began, by rw [← present]; exact inside⟩)
    refine ⟨names, counted.step mono still, ?_⟩
    cases stage : r.stage with
    | begun => trivial
    | refilled =>
      rw [stage] at reached
      intro present
      obtain ⟨table, contents, there, inputs, filled⟩ := reached (counted.present_back mono present).1
      rw [asset] at there
      obtain ⟨table', there', same⟩ := rows view r at_ stage table there
      refine ⟨table', contents, by rw [asset]; exact there', ?_, by rw [same, filled, build]⟩
      rw [← names, counted.contents mono still present, names, inputs]
    | measured outputs =>
      rw [stage] at reached
      cases outputs with
      | none => trivial
      | some outputs =>
        change Recorded eval db' r.m.asset ⟨db'.build, r.m.definition, stamps, outputs⟩
        rw [build]
        have kept := own view r at_ (by simp [stage]) (by simp [stage])
        rw [← asset] at kept
        exact Recorded.step reached mono still kept

theorem Recorded.withState (recorded : Recorded eval db view built) (state : String → Option (Option BuiltFrom)) :
    Recorded eval { db with state } view built :=
  ⟨recorded.counted, recorded.own⟩

theorem Running.withState (running : Running eval db view r) (state : String → Option (Option BuiltFrom)) :
    Running eval { db with state } view r := by
  refine ⟨running.asset, fun stamps began => ?_⟩
  obtain ⟨names, counted, reached⟩ := running.inputs stamps began
  refine ⟨names, counted, ?_⟩
  match stage : r.stage with
  | .begun => trivial
  | .refilled =>
    rw [stage] at reached
    exact reached
  | .measured none => trivial
  | .measured (some outputs) =>
    rw [stage] at reached
    exact Recorded.withState reached state

/-- A recompute under way is put where it is now. -/
theorem Kept.setRunning (kept : Kept eval s) (view : String) (r : Option Recompute)
    (running : ∀ now, r = some now → Running eval s.db view now) : Kept eval (s.setRunning view r) := by
  refine ⟨kept.state, fun other now at_ => ?_⟩
  by_cases same : other = view
  · subst same
    exact running now (by simpa [Runner.setRunning] using at_)
  · exact kept.running other now (by simpa [Runner.setRunning, same] using at_)

/-! ## Each step -/

variable {table : Table ρ} {rows : List ρ} {changes : Nat}

theorem write_gen (u : TableName) :
    (db.write t table rows changes).gen u = if u = t ∧ table.tracked = true then db.gen u + changes else db.gen u := by
  by_cases tracked : table.tracked = true
  · by_cases same : u = t
    · subst same
      simp [Db.write, tracked]
    · simp [Db.write, tracked, same]
  · simp [Db.write, tracked]

theorem write_tables {u : TableName} (other : u ≠ t) : (db.write t table rows changes).tables u = db.tables u := by
  simp [Db.write, other]

theorem write_mono (u : TableName) : db.gen u ≤ (db.write t table rows changes).gen u := by
  rw [write_gen]
  split <;> omega

/-- Where a write changes nothing, the rows are the same. -/
theorem write_steady (there : db.tables t = some table) (idle : changes = 0 → rows = table.rows) (u : TableName) :
    SteadyAt db (db.write t table rows changes) u := by
  intro same tracked
  by_cases own : u = t
  · subst own
    have on : table.tracked = true := by simpa [Db.isTracked, there] using tracked
    rw [write_gen, if_pos ⟨rfl, on⟩] at same
    have unmoved := idle (by omega)
    simp [Db.write, there, unmoved]
  · exact write_tables own

theorem write_own (there : db.tables t = some table) (idle : changes = 0 → rows = table.rows) (view : String) :
    OwnKept db (db.write t table rows changes) view := by
  intro table' there' same
  by_cases own : .materialized view = t
  · subst own
    refine ⟨table, there, fun tracked => ?_⟩
    have unmoved := write_steady there idle (.materialized view) same (by simp [Db.isTracked, there, tracked])
    exact Option.some.inj (there'.symm.trans (unmoved.trans there))
  · rw [write_tables own] at there'
    exact ⟨table', there', fun _ => rfl⟩

theorem write_rows (other : t ≠ .materialized view) : RowsKept db (db.write t table rows changes) view := by
  intro table' there
  exact ⟨table', by rw [write_tables (Ne.symm other), there], rfl⟩

theorem Kept.write (kept : Kept eval s) (there : s.db.tables t = some table) (idle : changes = 0 → rows = table.rows)
    (clear : ∀ view r, t = .materialized view → s.running view = some r → r.stage ≠ .refilled) :
    Kept eval { s with db := s.db.write t table rows changes } := by
  refine kept.move rfl write_mono (fun u _ => write_steady there idle u) (fun view built at_ => ⟨at_, write_own there idle view⟩) ?_
    (fun view r _ _ _ => write_own there idle view)
  intro view r at_ stage
  exact write_rows fun own => clear view r own at_ stage

/-- A table that nothing counts on changes otherwise than by row writes. -/
theorem Kept.replace (kept : Kept eval s) {table' : Option (Table ρ)} {state' : String → Option (Option BuiltFrom)}
    (unstamped : ¬ Stamped s t)
    (state : ∀ view built, state' view = some (some built) → s.db.state view = some (some built) ∧
      (t = .materialized view → table' = none))
    (begun : ∀ view r, t = .materialized view → s.running view = some r → r.stage = .begun) :
    Kept eval { s with db := { s.db with tables := Function.update s.db.tables t table', state := state' } } := by
  have others : ∀ u, u ≠ t → Function.update s.db.tables t table' u = s.db.tables u := fun u other => Function.update_of_ne other _ _
  refine kept.move rfl (fun _ => Nat.le_refl _) (fun u stamped _ _ => others u fun same => unstamped (same ▸ stamped)) ?_ ?_ ?_
  · intro view built at_
    obtain ⟨was, gone⟩ := state view built at_
    refine ⟨was, fun new there _ => ?_⟩
    by_cases own : t = .materialized view
    · subst own
      simp [gone rfl] at there
    · exact ⟨new, (others _ (Ne.symm own)).symm.trans there, fun _ => rfl⟩
  · intro view r at_ stage table there
    have own : t ≠ .materialized view := fun own => by simp [begun view r own at_] at stage
    exact ⟨table, (others _ (Ne.symm own)).trans there, rfl⟩
  · intro view r at_ unbegun _ new there _
    have own : t ≠ .materialized view := fun own => unbegun (begun view r own at_)
    exact ⟨new, (others _ (Ne.symm own)).symm.trans there, fun _ => rfl⟩

theorem track_eta {more : Bool} (tracked : table.tracked = true) :
    ({ table with tracked := table.tracked || more } : Table ρ) = table := by
  obtain ⟨rows, on⟩ := table
  obtain rfl : on = true := tracked
  rfl

theorem Kept.track (kept : Kept eval s) (tables : List TableName) : Kept eval { s with db := s.db.track tables } := by
  have own : ∀ view, OwnKept s.db (s.db.track tables) view := by
    intro view table' there _
    obtain ⟨table, was, rfl⟩ := Option.map_eq_some_iff.mp there
    exact ⟨table, was, track_eta⟩
  refine kept.move rfl (fun _ => Nat.le_refl _) (fun u _ _ tracked => ?_) (fun view built at_ => ⟨at_, own view⟩) ?_
    (fun view _ _ _ _ => own view)
  · cases there : s.db.tables u with
    | none => simp only [Db.track, there, Option.map_none]
    | some table =>
      have on : table.tracked = true := by simpa [Db.isTracked, there] using tracked
      simp only [Db.track, there, Option.map_some, track_eta on]
  · intro view r _ _ table there
    exact ⟨{ table with tracked := table.tracked || tables.contains (.materialized view) },
      by simp only [Db.track, there, Option.map_some], rfl⟩

theorem generations_eq (read : db.generations tables = some stamps) :
    stamps = tables.map (fun t => (t, db.gen t)) ∧ ∀ t ∈ tables, db.isTracked t = true := by
  unfold Db.generations at read
  split at read
  next all => exact ⟨(Option.some.inj read).symm, List.all_eq_true.mp all⟩
  next => exact absurd read (Option.some_ne_none _).symm

/-- Generations read now are counted and present. -/
theorem counted_of_generations (read : db.generations tables = some stamps) :
    stamps.map (·.1) = tables ∧ Counted db stamps ∧ Present db stamps := by
  obtain ⟨rfl, tracked⟩ := generations_eq read
  refine ⟨by simp [Function.comp_def], ?_, ?_⟩
  · intro entry inside
    obtain ⟨t, member, rfl⟩ := List.mem_map.mp inside
    exact ⟨Nat.le_refl _, fun _ => tracked t member⟩
  · intro entry inside
    obtain ⟨t, member, rfl⟩ := List.mem_map.mp inside
    rfl

theorem Kept.begin (kept : Kept eval s) (m : Materializer) :
    Kept eval (s.setRunning m.asset (some ⟨m, s.db.generations m.inputs, .begun⟩)) := by
  refine kept.setRunning m.asset _ fun now same => ?_
  obtain rfl := Option.some.inj same
  refine ⟨rfl, fun stamps read => ?_⟩
  obtain ⟨names, counted, _⟩ := counted_of_generations read
  exact ⟨names, counted, trivial⟩

theorem Kept.refill (kept : Kept eval s) (at_ : s.running view = some r) (begun : r.stage = .begun)
    (moves : s.refill eval r = some next) : Kept eval next := by
  obtain ⟨asset, held⟩ := kept.running view r at_
  simp only [Runner.refill, Option.bind_eq_bind, Option.bind_eq_some_iff] at moves
  obtain ⟨table, there, contents, inputs, same⟩ := moves
  obtain rfl := Option.some.inj same
  -- A refill that writes no row finds none and leaves none.
  have idle : table.rows.length + (eval s.db.build r.m.definition contents).length = 0 →
      eval s.db.build r.m.definition contents = table.rows := fun none_ => by
    have left : table.rows = [] := List.length_eq_zero_iff.mp (by omega)
    have right : eval s.db.build r.m.definition contents = [] := List.length_eq_zero_iff.mp (by omega)
    rw [left, right]
  have clear : ∀ other now, r.m.table = .materialized other → s.running other = some now → now.stage ≠ .refilled := by
    intro other now own running
    have same : r.m.asset = other := TableName.materialized.inj own
    obtain rfl := Option.some.inj (running.symm.trans (same ▸ asset ▸ at_))
    simp [begun]
  have written := kept.write there idle clear
  refine written.setRunning r.m.asset _ fun now same => ?_
  obtain rfl := Option.some.inj same
  have apart : ∀ t ∈ r.m.inputs, t ≠ r.m.table := fun t inside own => r.m.apart (by rw [own] at inside; exact inside)
  refine ⟨rfl, fun stamps began => ?_⟩
  obtain ⟨names, counted, _⟩ := (written.running view r at_).inputs stamps began
  refine ⟨names, counted, fun _ => ?_⟩
  refine ⟨_, contents, by simp only [Db.write]; exact Function.update_self _ _ _, ?_, rfl⟩
  rw [contents_congr fun t inside => write_tables (apart t inside)]
  exact inputs

theorem Kept.measure (kept : Kept eval s) (at_ : s.running view = some r) (refilled : r.stage = .refilled) :
    Kept eval (s.setRunning r.m.asset (some { r with stage := .measured (s.db.generations r.m.outputs) })) := by
  obtain ⟨asset, held⟩ := kept.running view r at_
  refine kept.setRunning r.m.asset _ fun now same => ?_
  obtain rfl := Option.some.inj same
  refine ⟨rfl, fun stamps began => ?_⟩
  obtain ⟨names, counted, reached⟩ := held stamps began
  rw [refilled] at reached
  refine ⟨names, counted, ?_⟩
  cases read : s.db.generations r.m.outputs with
  | none => trivial
  | some outputs =>
    obtain ⟨rfl, tracked⟩ := generations_eq read
    refine ⟨counted, s.db.gen r.m.table, rfl, Nat.le_refl _, fun table there _ => ⟨?_, fun present => ?_⟩⟩
    · have on := tracked r.m.table List.mem_cons_self
      have same : s.db.tables r.m.table = some table := there
      simpa [Db.isTracked, same] using on
    · rw [names]
      exact reached present

theorem Kept.record (kept : Kept eval s) (at_ : s.running view = some r) {outputs : Option Generations}
    (measured : r.stage = .measured outputs) :
    Kept eval { s.setRunning r.m.asset none with
      db := { s.db with state := Function.update s.db.state r.m.asset (some (Runner.built s.db r outputs)) } } := by
  obtain ⟨asset, held⟩ := kept.running view r at_
  have cleared : Kept eval (s.setRunning r.m.asset none) := kept.setRunning r.m.asset none fun now none_ => by simp at none_
  refine ⟨fun other built stored => ?_, fun other now running => (cleared.running other now running).withState _⟩
  apply Recorded.withState
  by_cases own : other = r.m.asset
  · subst own
    have recorded : Runner.built s.db r outputs = some built := by simpa using stored
    obtain ⟨stamps, began, rest⟩ := Option.bind_eq_some_iff.mp recorded
    obtain ⟨read, rfl, rfl⟩ := Option.map_eq_some_iff.mp rest
    obtain ⟨_, _, reached⟩ := held stamps began
    rw [measured] at reached
    exact reached
  · exact kept.state other built (by simpa [own] using stored)

theorem Kept.recompute (kept : Kept eval s) (at_ : s.running view = some r) {step : RecomputeStep}
    (moves : s.recomputeStep eval r step = some next) : Kept eval next := by
  cases step with
  | refill =>
    cases stage : r.stage with
    | begun =>
      simp only [Runner.recomputeStep, stage] at moves
      exact kept.refill at_ stage moves
    | refilled => simp [Runner.recomputeStep, stage] at moves
    | measured outputs => simp [Runner.recomputeStep, stage] at moves
  | measure =>
    cases stage : r.stage with
    | refilled =>
      simp only [Runner.recomputeStep, stage] at moves
      obtain rfl := Option.some.inj moves
      exact kept.measure at_ stage
    | begun => simp [Runner.recomputeStep, stage] at moves
    | measured outputs => simp [Runner.recomputeStep, stage] at moves
  | record =>
    cases stage : r.stage with
    | measured outputs =>
      simp only [Runner.recomputeStep, stage] at moves
      obtain rfl := Option.some.inj moves
      exact kept.record at_ stage
    | begun => simp [Runner.recomputeStep, stage] at moves
    | refilled => simp [Runner.recomputeStep, stage] at moves
  | abort =>
    obtain rfl := Option.some.inj moves
    exact kept.setRunning r.m.asset none fun now none_ => by simp at none_

theorem Kept.step (kept : Kept eval s) (clear : Clear s event) {out : Unit} (moves : s.step eval event = some (next, out)) :
    Kept eval next := by
  cases event with
  | write t rows more =>
    obtain ⟨table, there, same⟩ := Option.map_eq_some_iff.mp moves
    obtain ⟨rfl, _⟩ := Prod.mk.inj same
    exact kept.write there (by omega) clear
  | reshape name rows =>
    obtain ⟨rfl, _⟩ := Prod.mk.inj (Option.some.inj moves)
    exact kept.replace clear (fun view built at_ => ⟨at_, by simp⟩) (by simp)
  | drop t =>
    obtain ⟨rfl, _⟩ := Prod.mk.inj (Option.some.inj moves)
    exact kept.replace clear.1 (fun view built at_ => ⟨at_, fun _ => rfl⟩) fun view r own => clear.2 view r own
  | materialize view =>
    obtain ⟨rfl, _⟩ := Prod.mk.inj (Option.some.inj moves)
    refine kept.replace clear.1 (fun other built at_ => ?_) fun other r own at_ => ?_
    · have apart : other ≠ view := fun same => by simp [same] at at_
      exact ⟨by simpa [apart, Db.recreate] using at_, fun own => absurd (TableName.materialized.inj own).symm apart⟩
    · exact clear.2 r (TableName.materialized.inj own ▸ at_)
  | track tables =>
    obtain ⟨rfl, _⟩ := Prod.mk.inj (Option.some.inj moves)
    exact kept.track tables
  | begin m =>
    obtain ⟨rfl, _⟩ := Prod.mk.inj (Option.some.inj moves)
    exact kept.begin m
  | recompute view step =>
    obtain ⟨moved, found, same⟩ := Option.map_eq_some_iff.mp moves
    obtain ⟨rfl, _⟩ := Prod.mk.inj same
    obtain ⟨r, at_, moves⟩ := Option.bind_eq_some_iff.mp found
    exact kept.recompute at_ moves
  | restart build =>
    obtain ⟨rfl, _⟩ := Prod.mk.inj (Option.some.inj moves)
    exact ⟨fun view built at_ => ⟨(kept.state view built at_).counted, (kept.state view built at_).own⟩, by simp⟩

theorem isCurrent_eq {m : Materializer} (current : db.isCurrent m = true) :
    ∃ inputs outputs, db.generations m.inputs = some inputs ∧ db.generations m.outputs = some outputs ∧
      db.state m.asset = some (some ⟨db.build, m.definition, inputs, outputs⟩) := by
  unfold Db.isCurrent at current
  split at current
  next inputs outputs left right => exact ⟨inputs, outputs, left, right, of_decide_eq_true current⟩
  next => exact absurd current Bool.false_ne_true

/-- A dataset that copies an entity's rows. -/
def copying : Materializer := ⟨"v_copy", [.source "e"], some "SELECT * FROM e", by decide⟩

def copy (_ : String) (_ : Option String) (inputs : List (List Nat)) : List Nat := inputs.flatten

/-- The dataset is built from the entity's rows. -/
def filling : List (Event Nat) :=
  [.reshape "e" [1], .materialize "v_copy", .track [.source "e", .materialized "v_copy"], .begin copying,
    .recompute "v_copy" .refill, .recompute "v_copy" .measure, .recompute "v_copy" .record]

/-- The entity's shape changes, and the program stops before the next recompute. -/
def reshaped : List (Event Nat) := filling ++ [.reshape "e" [2], .restart "b", .track [.source "e", .materialized "v_copy"]]

end Oxplow.Proofs.AssetCurrency
