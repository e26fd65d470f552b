import Oxplow.Changes.ChangeAnalysis

/-! Which analysis of a change stands. The guard is let go before the results are stored and
the status outlives both, so the order of the stores is the order of the guards only while
no call takes the guard of another whose results are on their way. -/

namespace Oxplow.Proofs.AnalysisRuns
open Changes Library.Machine

/-! ## What stands -/

/-- What one analysis leaves: its rows, and what it was of. -/
structure Record where
  functions : List ChangeFunctionRow
  imports : List ChangeImportRow
  testFiles : List ChangeTestFileRow
  snapshotId : Option Nat
  eventsTo : Option Nat
  analyzedFrom : Option String

def noRecord : Record := ⟨[], [], [], none, none, none⟩

def recordOf : Option Change → Record
  | none => noRecord
  | some change => ⟨change.functions, change.imports, change.testFiles, change.snapshotId, change.eventsTo, change.analyzedFrom⟩

def analysisRecord (analysis : Analysis) : Record where
  functions := replaced (fun row => (row.path, row.symbolRef)) analysis.results.functions
  imports := analysis.results.imports
  testFiles := replaced (·.path) analysis.results.testFiles
  snapshotId := analysis.snapshotId
  eventsTo := some analysis.eventsTo
  analyzedFrom := analysis.analyzedFrom

def duplicatesOf : Option Change → List ChangeDuplicateRow
  | none => []
  | some change => change.duplicates

def statusOf : Option Change → Status
  | none => .pending
  | some change => change.status

/-- An `events_to` is not lower than another, where that one is there. -/
def NotBefore (earlier later : Option Nat) : Prop := ∀ e ∈ earlier, ∃ e' ∈ later, e ≤ e'

theorem NotBefore.refl (e : Option Nat) : NotBefore e e := fun n member => ⟨n, member, Nat.le_refl n⟩

theorem NotBefore.trans {a b c : Option Nat} (first : NotBefore a b) (second : NotBefore b c) : NotBefore a c := by
  intro e member
  obtain ⟨e', member', le⟩ := first e member
  obtain ⟨e'', member'', le'⟩ := second e' member'
  exact ⟨e'', member'', Nat.le_trans le le'⟩

/-! ## The calls -/

/-- An analysis is under way from its guard to its last write. -/
def underWay : Phase → Bool
  | .guarded _ | .marked _ | .counted _ _ | .against _ _ _ | .computed _ | .failed _ => true
  | _ => false

/-- The status `running` is written and what ends it is not. -/
def leavesRunning : Phase → Bool
  | .marked _ | .counted _ _ | .against _ _ _ | .computed _ | .failed _ => true
  | _ => false

/-- The results of a call on their way to be stored. -/
def unstored : Phase → Option Analysis
  | .computed analysis => some analysis
  | _ => none

/-- How far the log had come for what a call is about to store. -/
def seen : Phase → Option Nat
  | .counted _ eventsTo | .against _ eventsTo _ => some eventsTo
  | .computed analysis => some analysis.eventsTo
  | _ => none

/-- The guard is held, or the results are on their way. -/
def active (call : Call) : Bool := call.holds || (unstored call.phase).isSome

def UnderWay (s : State) : Prop := ∃ id, ∃ call ∈ s.calls id, underWay call.phase

/-- The change's status says that it was neither analyzed nor failed. -/
def Unsettled (s : State) : Prop := statusOf s.shared.change ≠ .done ∧ statusOf s.shared.change ≠ .failed

/-! ## The property -/

/-- A request, and the analysis it starts up to its guard. -/
def requested (s : State) (target : Target) (contents : Bool) (analyzedFrom : Option String) : List Step :=
  [.call .request target, .move s.next .create, .move s.next (.read contents), .move (s.next + 1) .create,
    .move (s.next + 1) (.read contents), .move (s.next + 1) (.lock analyzedFrom)]

structure Sound (s : State) : Prop where
  /-- What is stored of the analysis is all of one. -/
  oneAnalysis : recordOf s.shared.change = noRecord ∨ ∃ made ∈ s.shared.made, recordOf s.shared.change = analysisRecord made.2
  duplicates : duplicatesOf s.shared.change ≠ [] → s.duplicates = s.shared.analysis
  /-- Whatever else runs meanwhile, a request that reads such a row starts a call. -/
  starts : ¬ UnderWay s → Unsettled s → ∀ id target moved contents, s.calls id = some ⟨.request, target, .keyed moved, false⟩ →
    (advance State.step s (.move id (.read contents))).calls s.next = some ⟨.ensure, target, .resolved, false⟩
  /-- A request that runs alone starts an analysis, unless snapshots keep no contents. -/
  analyzes : ¬ UnderWay s → Unsettled s → ∀ target contents analyzedFrom, (contents = false → target.readsSnapshots = false) →
    (run State.step s (requested s target contents analyzedFrom)).calls (s.next + 1) =
      some ⟨.ensure, target, .guarded analyzedFrom, false⟩

/-- The steps that no analysis suffers from. -/
def Careful (s : State) : Step → Prop
  -- The guard is not taken while results are on their way.
  | .move _ (.lock _) => ∀ other < s.next, ∀ call ∈ s.calls other, unstored call.phase = none
  -- What is stored lists each file once, and no duplicates of another analysis are there.
  | .move id (.store _) => ∀ call ∈ s.calls id, ∀ analysis ∈ unstored call.phase,
      (analysis.results.files.map (·.path)).Nodup ∧ duplicatesOf s.shared.change = []
  -- No error and no drop comes between the status `running` and what ends it.
  | .move id .leave => ∀ call ∈ s.calls id, leavesRunning call.phase = false
  | .move id .drop => ∀ call ∈ s.calls id, call.phase.guards = false
  | .restart => ∀ id < s.next, ∀ call ∈ s.calls id, leavesRunning call.phase = false
  -- A scan of an analysis is not taken for one of another that saw as many events.
  | .storeScan => ∀ job rows, s.worker = .found job rows → (recordOf s.shared.change).eventsTo = some job.eventsTo →
      s.shared.analysis = some job.call
  | _ => True

/-! ## The store -/

theorem getOrCreate_record (base : Option Revision) (head : Revision) (change : Option Change) :
    recordOf (some (Change.getOrCreate base head change).1) = recordOf change := by
  cases change with
  | none => rfl
  | some change =>
    simp only [Change.getOrCreate]
    split <;> rfl

theorem getOrCreate_duplicates (base : Option Revision) (head : Revision) (change : Option Change) :
    duplicatesOf (some (Change.getOrCreate base head change).1) = duplicatesOf change := by
  cases change with
  | none => rfl
  | some change =>
    simp only [Change.getOrCreate]
    split <;> rfl

theorem getOrCreate_status (base : Option Revision) (head : Revision) (change : Option Change) :
    statusOf (some (Change.getOrCreate base head change).1) = statusOf change := by
  cases change with
  | none => rfl
  | some change =>
    simp only [Change.getOrCreate]
    split <;> rfl

theorem insertFiles_nodup {kept files : List ChangeFileRow} (once : (kept ++ files).Pairwise fun a b => a.path ≠ b.path) :
    insertFiles kept files = some (kept ++ files) := by
  induction files generalizing kept with
  | nil => rw [insertFiles, List.append_nil]
  | cons file files ih =>
    have fresh : kept.any (·.path == file.path) = false := by
      apply List.any_eq_false.mpr
      intro other member same
      have apart := (List.pairwise_append.mp once).2.2 other member file List.mem_cons_self
      exact apart (eq_of_beq same)
    rw [insertFiles, fresh, if_neg Bool.false_ne_true]
    have moved : kept ++ file :: files = kept ++ [file] ++ files := by simp
    rw [moved] at once ⊢
    exact ih once

theorem writeFiles_kept {change written : Change} {files : List ChangeFileRow} {at' : String} {eventsTo : Nat} {wrote : Bool}
    (writes : change.writeFiles files at' eventsTo = some (written, wrote)) : written.duplicates = change.duplicates := by
  rw [Change.writeFiles] at writes
  split at writes
  · cases writes
    rfl
  · obtain ⟨rows, -, same⟩ := Option.map_eq_some_iff.mp writes
    cases same
    rfl

theorem writeFiles_nodup (change : Change) {files : List ChangeFileRow} (once : (files.map (·.path)).Nodup) (at' : String)
    (eventsTo : Nat) : (change.writeFiles files at' eventsTo).isSome := by
  rw [Change.writeFiles]
  split
  · rfl
  · have apart : ([] ++ files.map change.keptFlags).Pairwise fun (a b : ChangeFileRow) => a.path ≠ b.path := by
      rw [List.nil_append, List.pairwise_map]
      exact List.pairwise_map.mp once
    rw [insertFiles_nodup apart]
    rfl

variable {analysis : Analysis}

theorem storeResults_record {change stored : Change} {at' : String}
    (stores : change.storeResults analysis.results analysis.snapshotId analysis.eventsTo analysis.analyzedFrom at' = some stored) :
    recordOf (some stored) = analysisRecord analysis ∧ stored.duplicates = change.duplicates ∧ stored.status = .done := by
  rw [Change.storeResults] at stores
  obtain ⟨⟨written, wrote⟩, writes, same⟩ := Option.map_eq_some_iff.mp stores
  cases same
  have kept : written.duplicates = change.duplicates := writeFiles_kept writes
  exact ⟨rfl, kept, rfl⟩

theorem storeResults_nodup (change : Change) (once : (analysis.results.files.map (·.path)).Nodup) (at' : String) :
    (change.storeResults analysis.results analysis.snapshotId analysis.eventsTo analysis.analyzedFrom at').isSome := by
  rw [Change.storeResults, Option.isSome_map]
  exact writeFiles_nodup change once at' analysis.eventsTo

/-! ## What a move does -/

def held (call : Option Call) : Bool := call.any Call.holds

/-- A dropped call only waits for its last write. -/
def Landing (call : Call) : Prop := call.dropped = true → call.phase.guards = false ∧ underWay call.phase = true

/-- What a move of call `id` does to what is shared, and to the call. -/
structure Effect (s : Shared) (id : Nat) (call : Call) (s' : Shared) (call' spawned : Option Call) : Prop where
  log : s'.log = s.log
  spawned : ∀ c ∈ spawned, c.phase = .resolved ∧ c.dropped = false
  guard : (s'.running = s.running ∧ held call' = call.holds) ∨ (s.running = false ∧ s'.running = true ∧ held call' = true) ∨
    (call.holds = true ∧ s'.running = false ∧ held call' = false)
  busy : ∀ c ∈ call', active c = true → active call = true ∨ s.running = false ∧ s'.running = true
  landing : ∀ c ∈ call', Landing c
  sees : ∀ c ∈ call', ∀ e ∈ seen c.phase, e ∈ seen call.phase ∨ e = s.log
  made : ∀ entry ∈ s.made, entry ∈ s'.made
  computed : ∀ c ∈ call', ∀ a ∈ unstored c.phase, (id, a) ∈ s'.made ∨ a ∈ unstored call.phase
  record : (recordOf s'.change = recordOf s.change ∧ s'.analysis = s.analysis) ∨
    ∃ a ∈ unstored call.phase, recordOf s'.change = analysisRecord a ∧ s'.analysis = some id ∧ ∀ c ∈ call', seen c.phase = none
  duplicates : duplicatesOf s'.change = duplicatesOf s.change
  row : s'.change.isSome = true ∨ s'.change = s.change ∧ (call.phase = .resolved → call' = none)
  status : statusOf s'.change = .running → (∃ c ∈ call', leavesRunning c.phase = true) ∨
    leavesRunning call.phase = false ∧ statusOf s.change = .running

section Effects

variable {s s' : Shared} {id : Nat} {call : Call} {call' spawned : Option Call}

/-- A call that only comes to its next await. -/
theorem Effect.onward {c : Call} (past : call.phase ≠ .resolved) (holds : c.holds = call.holds) (stays : active c = true → active call = true)
    (landing : Landing c) (sees : ∀ e ∈ seen c.phase, e ∈ seen call.phase ∨ e = s.log)
    (computes : unstored c.phase = none ∨ unstored c.phase = unstored call.phase)
    (leaves : leavesRunning c.phase = leavesRunning call.phase) : Effect s id call s (some c) none where
  log := rfl
  spawned := by simp
  guard := .inl ⟨rfl, by simpa [held] using holds⟩
  busy := by
    intro other same on
    cases same
    exact .inl (stays on)
  landing := by
    intro other same
    cases same
    exact landing
  sees := by
    intro other same
    cases same
    exact sees
  made := fun _ member => member
  computed := by
    intro other same a member
    cases same
    obtain none | same := computes
    · rw [none] at member
      cases member
    · exact .inr (same ▸ member)
  record := .inl ⟨rfl, rfl⟩
  duplicates := rfl
  row := .inr ⟨rfl, fun fresh => absurd fresh past⟩
  status := by
    intro running
    cases left : leavesRunning call.phase with
    | true => exact .inl ⟨c, rfl, leaves.trans left⟩
    | false => exact .inr ⟨rfl, running⟩

/-- A call that ends without its guard, and without a write. -/
theorem Effect.gone (free : call.holds = false) (settled : leavesRunning call.phase = false)
    (starts : ∀ c ∈ spawned, c.phase = .resolved ∧ c.dropped = false) : Effect s id call s none spawned where
  log := rfl
  spawned := starts
  guard := .inl ⟨rfl, by simp [held, free]⟩
  busy := by simp
  landing := by simp [Landing]
  sees := by simp
  made := fun _ member => member
  computed := by simp
  record := .inl ⟨rfl, rfl⟩
  duplicates := rfl
  row := .inr ⟨rfl, fun _ => rfl⟩
  status := fun running => .inr ⟨settled, running⟩

/-- What a move must be for what follows. -/
def Fit (call : Call) : Move → Prop
  | .store _ => ∀ analysis ∈ unstored call.phase, (analysis.results.files.map (·.path)).Nodup
  | .leave => leavesRunning call.phase = false
  | .drop => call.phase.guards = false
  | _ => True

variable {target : Target} {ask : Ask}

theorem effect_create (moves : s.move id ⟨ask, target, .resolved, false⟩ .create = some (s', call', spawned)) :
    Effect s id ⟨ask, target, .resolved, false⟩ s' call' spawned := by
  cases moves
  have record := getOrCreate_record target.base target.head s.change
  exact
    { log := rfl
      spawned := by simp
      guard := .inl ⟨rfl, by simp [held, Call.holds, Phase.guards]⟩
      busy := by simp [active, Call.holds, Phase.guards, unstored]
      landing := by simp [Landing]
      sees := by simp [seen]
      made := fun _ member => member
      computed := by simp [unstored]
      record := .inl ⟨record, rfl⟩
      duplicates := getOrCreate_duplicates target.base target.head s.change
      row := .inl rfl
      status := fun running => .inr ⟨rfl, getOrCreate_status target.base target.head s.change ▸ running⟩ }

theorem effect_read {moved contents : Bool}
    (moves : s.move id ⟨ask, target, .keyed moved, false⟩ (.read contents) = some (s', call', spawned)) :
    Effect s id ⟨ask, target, .keyed moved, false⟩ s' call' spawned := by
  obtain ⟨change, -, same⟩ := Option.map_eq_some_iff.mp moves
  have free : Call.holds ⟨ask, target, .keyed moved, false⟩ = false := rfl
  split at same
  · cases same
    apply Effect.gone free rfl
    intro c member
    split at member
    · cases member
      exact ⟨rfl, rfl⟩
    · cases member
  · split at same
    · cases same
      exact Effect.gone free rfl (by simp)
    · cases same
      exact Effect.onward (by simp) (by simp [Call.holds, Phase.guards]) (by simp [active, Call.holds, Phase.guards, unstored])
        (by simp [Landing]) (by simp [seen]) (.inl rfl) rfl

variable {analyzedFrom : Option String}

theorem effect_lock {moved : Bool} {row : ChangeRow}
    (moves : s.move id ⟨ask, target, .found row moved, false⟩ (.lock analyzedFrom) = some (s', call', spawned)) :
    Effect s id ⟨ask, target, .found row moved, false⟩ s' call' spawned := by
  simp only [Shared.move] at moves
  split at moves
  · cases moves
    exact Effect.gone (by simp [Call.holds, Phase.guards]) rfl (by simp)
  · rename_i free
    have open' : s.running = false := by
      cases running : s.running with
      | true => exact absurd (by simp [running]) free
      | false => rfl
    cases moves
    exact
      { log := rfl
        spawned := by simp
        guard := .inr (.inl ⟨open', rfl, rfl⟩)
        busy := fun _ _ _ => .inr ⟨open', rfl⟩
        landing := by simp [Landing]
        sees := by simp [seen]
        made := fun _ member => member
        computed := by simp [unstored]
        record := .inl ⟨rfl, rfl⟩
        duplicates := rfl
        row := .inr ⟨rfl, by simp⟩
        status := fun running => .inr ⟨rfl, running⟩ }

theorem effect_mark (moves : s.move id ⟨ask, target, .guarded analyzedFrom, false⟩ .mark = some (s', call', spawned)) :
    Effect s id ⟨ask, target, .guarded analyzedFrom, false⟩ s' call' spawned := by
  obtain ⟨change, found, same⟩ := Option.map_eq_some_iff.mp moves
  cases same
  exact
    { log := rfl
      spawned := by simp
      guard := .inl ⟨rfl, rfl⟩
      busy := fun _ _ _ => .inl rfl
      landing := by simp [Landing]
      sees := by simp [seen]
      made := fun _ member => member
      computed := by simp [unstored]
      record := .inl ⟨by rw [found]; rfl, rfl⟩
      duplicates := by rw [found]; rfl
      row := .inl rfl
      status := fun _ => .inl ⟨_, rfl, rfl⟩ }

theorem effect_compute {eventsTo : Nat} {snapshotId : Option Nat} {result : Except String ChangeResults}
    (moves : s.move id ⟨ask, target, .against analyzedFrom eventsTo snapshotId, false⟩ (.compute result) = some (s', call', spawned)) :
    Effect s id ⟨ask, target, .against analyzedFrom eventsTo snapshotId, false⟩ s' call' spawned := by
  have holds : Call.holds ⟨ask, target, .against analyzedFrom eventsTo snapshotId, false⟩ = true := rfl
  cases result with
  | ok results =>
    cases moves
    exact
      { log := rfl
        spawned := by simp
        guard := .inr (.inr ⟨holds, rfl, rfl⟩)
        busy := fun _ _ _ => .inl rfl
        landing := by simp [Landing]
        sees := by
          intro c same e member
          cases same
          exact .inl member
        made := fun _ member => List.mem_append_left _ member
        computed := by
          intro c same a member
          cases same
          cases member
          exact .inl (List.mem_append_right _ (List.mem_singleton.mpr rfl))
        record := .inl ⟨rfl, rfl⟩
        duplicates := rfl
        row := .inr ⟨rfl, by simp⟩
        status := fun _ => .inl ⟨_, rfl, rfl⟩ }
  | error error =>
    cases moves
    exact
      { log := rfl
        spawned := by simp
        guard := .inr (.inr ⟨holds, rfl, rfl⟩)
        busy := fun _ _ _ => .inl rfl
        landing := by simp [Landing]
        sees := by simp [seen]
        made := fun _ member => member
        computed := by simp [unstored]
        record := .inl ⟨rfl, rfl⟩
        duplicates := rfl
        row := .inr ⟨rfl, by simp⟩
        status := fun _ => .inl ⟨_, rfl, rfl⟩ }

theorem effect_store {dropped : Bool} {at' : String} (once : (analysis.results.files.map (·.path)).Nodup)
    (moves : s.move id ⟨ask, target, .computed analysis, dropped⟩ (.store at') = some (s', call', spawned)) :
    Effect s id ⟨ask, target, .computed analysis, dropped⟩ s' call' spawned := by
  obtain ⟨change, found, same⟩ := Option.map_eq_some_iff.mp moves
  have free : Call.holds ⟨ask, target, .computed analysis, dropped⟩ = false := by simp [Call.holds, Phase.guards]
  obtain ⟨stored, stores⟩ := Option.isSome_iff_exists.mp (storeResults_nodup change once at')
  obtain ⟨record, kept, done⟩ := storeResults_record stores
  rw [stores] at same
  have left : ∀ c ∈ call', c.phase = .stored analysis ∧ c.dropped = false := by
    intro c member
    cases same
    split at member
    · cases member
    · rename_i whole
      cases member
      exact ⟨rfl, Bool.eq_false_iff.mpr whole⟩
  have unheld : held call' = false := by
    cases call' with
    | none => rfl
    | some c => simp [held, Call.holds, (left c rfl).1, Phase.guards]
  cases same
  exact
    { log := rfl
      spawned := by simp
      guard := .inl ⟨rfl, unheld.trans free.symm⟩
      busy := fun c _ _ => .inl (by simp [active, unstored])
      landing := fun c member dropped => absurd ((left c member).2.symm.trans dropped) Bool.false_ne_true
      sees := fun c member e sees => by
        rw [(left c member).1] at sees
        cases sees
      made := fun _ member => member
      computed := fun c member a computes => by
        rw [(left c member).1] at computes
        cases computes
      record := .inr ⟨analysis, rfl, record, rfl, fun c member => by rw [(left c member).1]; rfl⟩
      duplicates := by rw [found]; exact kept
      row := .inl rfl
      status := fun running => by
        rw [statusOf, done] at running
        cases running }

theorem effect_fail {dropped : Bool} {error at' : String}
    (moves : s.move id ⟨ask, target, .failed error, dropped⟩ (.store at') = some (s', call', spawned)) :
    Effect s id ⟨ask, target, .failed error, dropped⟩ s' call' spawned := by
  obtain ⟨change, found, same⟩ := Option.map_eq_some_iff.mp moves
  cases same
  exact
    { log := rfl
      spawned := by simp
      guard := .inl ⟨rfl, by simp [held, Call.holds, Phase.guards]⟩
      busy := by simp
      landing := by simp [Landing]
      sees := by simp
      made := fun _ member => member
      computed := by simp
      record := .inl ⟨by rw [found]; rfl, rfl⟩
      duplicates := by rw [found]; rfl
      row := .inl rfl
      status := fun running => by cases running }

theorem effect_submit (moves : s.move id ⟨ask, target, .stored analysis, false⟩ .submit = some (s', call', spawned)) :
    Effect s id ⟨ask, target, .stored analysis, false⟩ s' call' spawned := by
  simp only [Shared.move] at moves
  have free : Call.holds ⟨ask, target, .stored analysis, false⟩ = false := rfl
  have ends : ∀ queued, Effect s id ⟨ask, target, .stored analysis, false⟩ { s with queued } none none := fun queued =>
    { log := rfl
      spawned := by simp
      guard := .inl ⟨rfl, by simp [held, free]⟩
      busy := by simp
      landing := by simp [Landing]
      sees := by simp
      made := fun _ member => member
      computed := by simp
      record := .inl ⟨rfl, rfl⟩
      duplicates := rfl
      row := .inr ⟨rfl, fun _ => rfl⟩
      status := fun running => .inr ⟨rfl, running⟩ }
  cases moves
  split
  · exact ends s.queued
  · exact ends _

/-- A call that lets its guard go, if it has it, and is gone or only waits for its write. -/
theorem effect_letGo (settled : call' = none ∧ leavesRunning call.phase = false ∨
    call.phase.guards = false ∧ underWay call.phase = true ∧ call' = some { call with dropped := true }) :
    Effect s id call (s.letGo call) call' none := by
  obtain ⟨rfl, settled⟩ | ⟨free, waits, rfl⟩ := settled
  · cases holds : call.holds with
    | false =>
      rw [Shared.letGo, holds]
      exact Effect.gone holds settled (by simp)
    | true =>
      rw [Shared.letGo, holds]
      exact
        { log := rfl
          spawned := by simp
          guard := .inr (.inr ⟨holds, rfl, rfl⟩)
          busy := by simp
          landing := by simp [Landing]
          sees := by simp
          made := fun _ member => member
          computed := by simp
          record := .inl ⟨rfl, rfl⟩
          duplicates := rfl
          row := .inr ⟨rfl, fun _ => rfl⟩
          status := fun running => .inr ⟨settled, running⟩ }
  · have holds : call.holds = false := by simp [Call.holds, free]
    rw [Shared.letGo, holds]
    have past : call.phase ≠ .resolved := by
      intro fresh
      rw [fresh] at waits
      cases waits
    exact Effect.onward past (by simp [Call.holds, free]) (by simp [active, Call.holds, free]) (fun _ => ⟨free, waits⟩)
      (fun _ member => .inl member) (.inr rfl) rfl

theorem move_effect {m : Move} (fit : Fit call m) (landing : Landing call) (moves : s.move id call m = some (s', call', spawned)) :
    Effect s id call s' call' spawned := by
  obtain ⟨ask, target, phase, dropped⟩ := call
  have whole : phase.guards = true ∨ underWay phase = false → dropped = false := by
    intro apart
    cases dropped with
    | false => rfl
    | true =>
      obtain ⟨free, waits⟩ := landing rfl
      obtain guards | ends := apart
      · exact absurd (guards.symm.trans free) Bool.false_ne_true.symm
      · exact absurd (waits.symm.trans ends) Bool.false_ne_true.symm
  cases m with
  | create =>
    cases phase with
    | resolved =>
      cases whole (.inr rfl)
      exact effect_create moves
    | _ => cases moves
  | read contents =>
    cases phase with
    | keyed moved =>
      cases whole (.inr rfl)
      exact effect_read moves
    | _ => cases moves
  | lock analyzedFrom =>
    cases phase with
    | found row moved =>
      cases whole (.inr rfl)
      exact effect_lock moves
    | _ => cases moves
  | mark =>
    cases phase with
    | guarded analyzedFrom =>
      cases whole (.inl rfl)
      exact effect_mark moves
    | _ => cases moves
  | count =>
    cases phase with
    | marked analyzedFrom =>
      cases whole (.inl rfl)
      cases moves
      exact Effect.onward (by simp) rfl (fun _ => rfl) (by simp [Landing]) (fun e sees => .inr (Option.some.inj sees).symm) (.inl rfl) rfl
    | _ => cases moves
  | pin latest =>
    cases phase with
    | counted analyzedFrom eventsTo =>
      cases whole (.inl rfl)
      cases moves
      exact Effect.onward (by simp) rfl (fun _ => rfl) (by simp [Landing]) (fun e sees => .inl sees) (.inl rfl) rfl
    | _ => cases moves
  | compute result =>
    cases phase with
    | against analyzedFrom eventsTo snapshotId =>
      cases whole (.inl rfl)
      exact effect_compute moves
    | _ => cases result <;> cases moves
  | store at' =>
    cases phase with
    | computed analysis => exact effect_store (fit analysis rfl) moves
    | failed error => exact effect_fail moves
    | _ => cases moves
  | submit =>
    cases phase with
    | stored analysis =>
      cases whole (.inr rfl)
      exact effect_submit moves
    | _ => cases moves
  | leave =>
    obtain ⟨rfl, rfl, rfl⟩ := Shared.move_leave moves
    exact effect_letGo (.inl ⟨rfl, fit⟩)
  | drop =>
    have free : phase.guards = false := fit
    cases phase with
    | computed analysis =>
      simp only [Shared.move] at moves
      split at moves
      · cases moves
      · cases moves
        exact effect_letGo (.inr ⟨rfl, rfl, rfl⟩)
    | failed error =>
      simp only [Shared.move] at moves
      split at moves
      · cases moves
      · cases moves
        exact effect_letGo (.inr ⟨rfl, rfl, rfl⟩)
    | guarded analyzedFrom => cases free
    | _ => cases moves

theorem letGo_running (s : Shared) (call : Call) : (s.letGo call).running = s.running ∨ (s.letGo call).running = false := by
  rw [Shared.letGo]
  split
  · exact .inr rfl
  · exact .inl rfl

theorem letGo_analysis (s : Shared) (call : Call) : (s.letGo call).analysis = s.analysis := by
  rw [Shared.letGo]
  split <;> rfl

/-- Only the lock takes the guard, and only the store of results replaces the analysis. -/
theorem move_marks {m : Move} (moves : s.move id call m = some (s', call', spawned)) :
    (s'.running = s.running ∨ s'.running = false ∨ ∃ analyzedFrom, m = .lock analyzedFrom) ∧
      (s'.analysis = s.analysis ∨ ∃ at' analysis, m = .store at' ∧ call.phase = .computed analysis) := by
  have still : s' = s → (s'.running = s.running ∨ s'.running = false ∨ ∃ analyzedFrom, m = .lock analyzedFrom) ∧
      (s'.analysis = s.analysis ∨ ∃ at' analysis, m = .store at' ∧ call.phase = .computed analysis) := by
    rintro rfl
    exact ⟨.inl rfl, .inl rfl⟩
  unfold Shared.move at moves
  split at moves
  case h_1 =>
    cases moves
    exact ⟨.inl rfl, .inl rfl⟩
  case h_2 =>
    obtain ⟨change, -, same⟩ := Option.map_eq_some_iff.mp moves
    apply still
    split at same
    · cases same
      rfl
    · split at same <;> cases same <;> rfl
  case h_3 =>
    refine ⟨.inr (.inr ⟨_, rfl⟩), .inl ?_⟩
    split at moves <;> cases moves <;> rfl
  case h_4 | h_10 =>
    obtain ⟨change, -, same⟩ := Option.map_eq_some_iff.mp moves
    cases same
    exact ⟨.inl rfl, .inl rfl⟩
  case h_5 | h_6 =>
    cases moves
    exact ⟨.inl rfl, .inl rfl⟩
  case h_7 | h_8 =>
    cases moves
    exact ⟨.inr (.inl rfl), .inl rfl⟩
  case h_9 phase =>
    obtain ⟨change, -, same⟩ := Option.map_eq_some_iff.mp moves
    refine ⟨.inl ?_, .inr ⟨_, _, rfl, phase⟩⟩
    split at same <;> cases same <;> rfl
  case h_11 =>
    cases moves
    refine ⟨.inl ?_, .inl ?_⟩ <;> split <;> rfl
  case h_12 | h_13 | h_14 | h_15 =>
    split at moves
    · cases moves
    · cases moves
      obtain same | free := letGo_running s call
      · exact ⟨.inl same, .inl (letGo_analysis s call)⟩
      · exact ⟨.inr (.inl free), .inl (letGo_analysis s call)⟩
  case h_16 => cases moves

end Effects

/-! ## What every careful step keeps -/

structure Kept (s : State) : Prop where
  fresh : ∀ id, s.next ≤ id → s.calls id = none
  landing : ∀ id, ∀ call ∈ s.calls id, Landing call
  held : ∀ id, ∀ call ∈ s.calls id, call.holds = true → s.shared.running = true
  holder : s.shared.running = true → ∃ id, ∃ call ∈ s.calls id, call.holds = true
  alone : ∀ i j, ∀ a ∈ s.calls i, ∀ b ∈ s.calls j, active a = true → active b = true → i = j
  sees : ∀ id, ∀ call ∈ s.calls id, ∀ e ∈ seen call.phase, e ≤ s.shared.log ∧ NotBefore (recordOf s.shared.change).eventsTo (some e)
  logged : ∀ e ∈ (recordOf s.shared.change).eventsTo, e ≤ s.shared.log
  computed : ∀ id, ∀ call ∈ s.calls id, ∀ a ∈ unstored call.phase, (id, a) ∈ s.shared.made
  record : recordOf s.shared.change = noRecord ∨ ∃ made ∈ s.shared.made, recordOf s.shared.change = analysisRecord made.2
  duplicates : duplicatesOf s.shared.change ≠ [] → s.duplicates = s.shared.analysis
  row : ∀ id, ∀ call ∈ s.calls id, call.phase = .resolved ∨ s.shared.change.isSome = true
  ends : statusOf s.shared.change = .running → ∃ id, ∃ call ∈ s.calls id, leavesRunning call.phase = true

theorem kept_start : Kept .start where
  fresh := fun _ _ => rfl
  landing := by simp [State.start]
  held := by simp [State.start]
  holder := by simp [State.start]
  alone := by simp [State.start]
  sees := by simp [State.start]
  logged := by simp [State.start, recordOf, noRecord]
  computed := by simp [State.start]
  record := .inl rfl
  duplicates := by simp [State.start, duplicatesOf]
  row := by simp [State.start]
  ends := by simp [State.start, statusOf]

variable {call : Call}

/-- A new call that only waits for its row. -/
theorem Kept.begin {s : State} (kept : Kept s) (phase : call.phase = .resolved) (whole : call.dropped = false) :
    Kept (s.begin call) := by
  have at' : ∀ id, ∀ c ∈ (s.begin call).calls id, c = call ∨ c ∈ s.calls id := by
    intro id c member
    by_cases same : id = s.next
    · subst same
      simp only [State.begin, Function.update_self, Option.mem_def, Option.some.injEq] at member
      exact .inl member.symm
    · simp only [State.begin, Function.update_of_ne same] at member
      exact .inr member
  have stays : ∀ id, ∀ c ∈ s.calls id, c ∈ (s.begin call).calls id := by
    intro id c member
    have apart : id ≠ s.next := by
      rintro rfl
      rw [kept.fresh _ (Nat.le_refl _)] at member
      cases member
    simpa only [State.begin, Function.update_of_ne apart] using member
  have idle : active call = false := by simp [active, Call.holds, phase, Phase.guards, unstored]
  refine ⟨?_, ?_, ?_, ?_, ?_, ?_, kept.logged, ?_, kept.record, kept.duplicates, ?_, ?_⟩
  · intro id above
    have apart : id ≠ s.next := Nat.ne_of_gt above
    simp only [State.begin, Function.update_of_ne apart]
    exact kept.fresh id (Nat.le_of_succ_le above)
  · intro id c member
    obtain rfl | member := at' id c member
    · intro dropped
      exact absurd (whole.symm.trans dropped) Bool.false_ne_true
    · exact kept.landing id c member
  · intro id c member holds
    obtain rfl | member := at' id c member
    · simp [Call.holds, phase, Phase.guards] at holds
    · exact kept.held id c member holds
  · intro running
    obtain ⟨id, c, member, holds⟩ := kept.holder running
    exact ⟨id, c, stays id c member, holds⟩
  · intro i j a memberA b memberB activeA activeB
    obtain rfl | memberA := at' i a memberA
    · exact absurd (idle.symm.trans activeA) Bool.false_ne_true
    obtain rfl | memberB := at' j b memberB
    · exact absurd (idle.symm.trans activeB) Bool.false_ne_true
    exact kept.alone i j a memberA b memberB activeA activeB
  · intro id c member e sees
    obtain rfl | member := at' id c member
    · rw [phase] at sees
      cases sees
    · exact kept.sees id c member e sees
  · intro id c member a computes
    obtain rfl | member := at' id c member
    · rw [phase] at computes
      cases computes
    · exact kept.computed id c member a computes
  · intro id c member
    obtain rfl | member := at' id c member
    · exact .inl phase
    · exact kept.row id c member
  · intro running
    obtain ⟨id, c, member, leaves⟩ := kept.ends running
    exact ⟨id, c, stays id c member, leaves⟩

/-- What call `id` and the others are once it moved. -/
def replace (s : State) (id : Nat) (shared : Shared) (call : Option Call) : State :=
  { s with shared, calls := Function.update s.calls id call }

variable {id : Nat} {call' : Option Call} {shared : Shared}

theorem replace_calls {s : State} {other : Nat} {c : Call} (member : c ∈ (replace s id shared call').calls other) :
    other = id ∧ c ∈ call' ∨ other ≠ id ∧ c ∈ s.calls other := by
  by_cases same : other = id
  · subst same
    simp only [replace, Function.update_self] at member
    exact .inl ⟨rfl, member⟩
  · simp only [replace, Function.update_of_ne same] at member
    exact .inr ⟨same, member⟩

theorem held_of_mem {call : Option Call} {c : Call} (member : c ∈ call) (holds : c.holds = true) : held call = true := by
  cases member
  exact holds

theorem mem_of_held {call : Option Call} (holds : held call = true) : ∃ c ∈ call, c.holds = true := by
  cases call with
  | none => cases holds
  | some c => exact ⟨c, rfl, holds⟩

theorem active_of_holds (holds : call.holds = true) : active call = true := by simp [active, holds]

theorem active_of_unstored {a : Analysis} (computes : a ∈ unstored call.phase) : active call = true := by
  have some' : (unstored call.phase).isSome = true := Option.isSome_of_mem computes
  simp [active, some']

theorem active_of_seen (landing : Landing call) {e : Nat} (sees : e ∈ seen call.phase) : active call = true := by
  obtain ⟨ask, target, phase, dropped⟩ := call
  cases phase with
  | counted analyzedFrom eventsTo | against analyzedFrom eventsTo snapshotId =>
    cases dropped with
    | false => rfl
    | true => cases (landing rfl).1
  | computed analysis => simp [active, unstored]
  | _ => cases sees

theorem seen_of_unstored {phase : Phase} {a : Analysis} (computes : a ∈ unstored phase) : a.eventsTo ∈ seen phase := by
  cases phase with
  | computed analysis =>
    cases computes
    rfl
  | _ => cases computes

/-- The stored analysis moves only to one that saw as many events. -/
theorem Kept.notBefore {s : State} (kept : Kept s) (found : call ∈ s.calls id) {spawned : Option Call}
    (effect : Effect s.shared id call shared call' spawned) :
    NotBefore (recordOf s.shared.change).eventsTo (recordOf shared.change).eventsTo := by
  obtain ⟨same, -⟩ | ⟨a, computes, record, -, -⟩ := effect.record
  · rw [same]
    exact NotBefore.refl _
  · rw [record]
    exact (kept.sees id call found _ (seen_of_unstored computes)).2

/-- A move of one call, where no one else is active as it takes the guard and no duplicates
stand as it stores. -/
theorem Kept.replace {s : State} (kept : Kept s) (found : call ∈ s.calls id) {spawned : Option Call}
    (effect : Effect s.shared id call shared call' spawned)
    (clear : s.shared.running = false → shared.running = true → ∀ other, ∀ c ∈ s.calls other, unstored c.phase = none)
    (bare : shared.analysis ≠ s.shared.analysis → duplicatesOf s.shared.change = []) : Kept (replace s id shared call') := by
  have idle : s.shared.running = false → shared.running = true → ∀ other, ∀ c ∈ s.calls other, active c = false := by
    intro free taken other c member
    have unheld : c.holds = false := by
      cases holds : c.holds with
      | false => rfl
      | true => exact absurd (free.symm.trans (kept.held other c member holds)) Bool.false_ne_true
    simp [active, unheld, clear free taken other c member]
  refine ⟨?_, ?_, ?_, ?_, ?_, ?_, ?_, ?_, ?_, ?_, ?_, ?_⟩
  · intro other above
    have apart : other ≠ id := by
      rintro rfl
      rw [kept.fresh other above] at found
      cases found
    simp only [AnalysisRuns.replace, Function.update_of_ne apart]
    exact kept.fresh other above
  · intro other c member
    obtain ⟨-, member⟩ | ⟨-, member⟩ := replace_calls member
    · exact effect.landing c member
    · exact kept.landing other c member
  · intro other c member holds
    obtain ⟨-, member⟩ | ⟨apart, member⟩ := replace_calls member
    · obtain ⟨same, still⟩ | ⟨-, taken, -⟩ | ⟨-, -, gone⟩ := effect.guard
      · have before : call.holds = true := still.symm.trans (held_of_mem member holds)
        exact same.trans (kept.held id call found before)
      · exact taken
      · exact absurd (gone.symm.trans (held_of_mem member holds)) Bool.false_ne_true
    · have running := kept.held other c member holds
      obtain ⟨same, -⟩ | ⟨free, -, -⟩ | ⟨before, -, -⟩ := effect.guard
      · exact same.trans running
      · exact absurd (free.symm.trans running) Bool.false_ne_true
      · exact absurd (kept.alone other id c member call found (active_of_holds holds) (active_of_holds before)) apart
  · intro running
    obtain ⟨same, still⟩ | ⟨-, -, now⟩ | ⟨-, free, -⟩ := effect.guard
    · obtain ⟨other, c, member, holds⟩ := kept.holder (same.symm.trans running)
      by_cases here : other = id
      · subst here
        cases Option.mem_unique member found
        obtain ⟨c', member', holds'⟩ := mem_of_held (still.trans holds)
        exact ⟨other, c', by simpa [AnalysisRuns.replace] using member', holds'⟩
      · exact ⟨other, c, by simpa [AnalysisRuns.replace, Function.update_of_ne here] using member, holds⟩
    · obtain ⟨c', member', holds'⟩ := mem_of_held now
      exact ⟨id, c', by simpa [AnalysisRuns.replace] using member', holds'⟩
    · exact absurd (free.symm.trans running) Bool.false_ne_true
  · have only : ∀ c ∈ call', active c = true → ∀ j, ∀ b ∈ s.calls j, active b = true → j = id := by
      intro c member on j b memberB onB
      obtain before | ⟨free, taken⟩ := effect.busy c member on
      · exact kept.alone j id b memberB call found onB before
      · exact absurd ((idle free taken j b memberB).symm.trans onB) Bool.false_ne_true
    intro i j a memberA b memberB activeA activeB
    obtain ⟨rfl, hereA⟩ | ⟨-, otherA⟩ := replace_calls memberA <;> obtain ⟨rfl, hereB⟩ | ⟨-, otherB⟩ := replace_calls memberB
    · rfl
    · exact (only a hereA activeA j b otherB activeB).symm
    · exact only b hereB activeB i a otherA activeA
    · exact kept.alone i j a otherA b otherB activeA activeB
  · intro other c member e sees
    have log : shared.log = s.shared.log := effect.log
    obtain ⟨rfl, inside⟩ | ⟨apart, outside⟩ := replace_calls member
    · obtain ⟨same, -⟩ | ⟨a, -, -, -, none⟩ := effect.record
      · simp only [AnalysisRuns.replace, same, log]
        obtain before | rfl := effect.sees c inside e sees
        · exact kept.sees other call found e before
        · exact ⟨Nat.le_refl _, fun stored member => ⟨_, rfl, kept.logged stored member⟩⟩
      · rw [none c inside] at sees
        cases sees
    · obtain ⟨same, -⟩ | ⟨a, computes, -, -, -⟩ := effect.record
      · simp only [AnalysisRuns.replace, same, log]
        exact kept.sees other c outside e sees
      · have on := active_of_seen (kept.landing other c outside) sees
        exact absurd (kept.alone other id c outside call found on (active_of_unstored computes)) apart
  · intro e member
    have log : shared.log = s.shared.log := effect.log
    simp only [AnalysisRuns.replace, log]
    obtain ⟨same, -⟩ | ⟨a, computes, record, -, -⟩ := effect.record
    · rw [AnalysisRuns.replace, same] at member
      exact kept.logged e member
    · rw [AnalysisRuns.replace, record] at member
      cases member
      exact (kept.sees id call found _ (seen_of_unstored computes)).1
  · intro other c member a computes
    obtain ⟨rfl, inside⟩ | ⟨-, outside⟩ := replace_calls member
    · obtain made | before := effect.computed c inside a computes
      · exact made
      · exact effect.made _ (kept.computed other call found a before)
    · exact effect.made _ (kept.computed other c outside a computes)
  · obtain ⟨same, -⟩ | ⟨a, computes, record, -, -⟩ := effect.record
    · obtain none | ⟨made, member, of'⟩ := kept.record
      · exact .inl (same.trans none)
      · exact .inr ⟨made, effect.made made member, same.trans of'⟩
    · exact .inr ⟨(id, a), effect.made _ (kept.computed id call found a computes), record⟩
  · intro rows
    have before : duplicatesOf s.shared.change ≠ [] := effect.duplicates ▸ rows
    by_cases same : shared.analysis = s.shared.analysis
    · exact (kept.duplicates before).trans same.symm
    · exact absurd (bare same) before
  · have stays : s.shared.change.isSome = true → shared.change.isSome = true := by
      intro before
      obtain now | ⟨same, -⟩ := effect.row
      · exact now
      · rw [same]
        exact before
    intro other c member
    obtain ⟨-, inside⟩ | ⟨-, outside⟩ := replace_calls member
    · obtain now | ⟨same, ends⟩ := effect.row
      · exact .inr now
      · obtain fresh | before := kept.row id call found
        · rw [ends fresh] at inside
          cases inside
        · exact .inr (stays before)
    · exact (kept.row other c outside).imp_right stays
  · intro running
    obtain ⟨c, member, leaves⟩ | ⟨settled, before⟩ := effect.status running
    · exact ⟨id, c, by simpa [AnalysisRuns.replace] using member, leaves⟩
    · obtain ⟨other, c, member, leaves⟩ := kept.ends before
      have apart : other ≠ id := by
        rintro rfl
        cases Option.mem_unique member found
        exact absurd (settled.symm.trans leaves) Bool.false_ne_true
      exact ⟨other, c, by simpa [AnalysisRuns.replace, Function.update_of_ne apart] using member, leaves⟩

/-! ## Steps and runs -/

def stored (s : State) : Option Nat := (recordOf s.shared.change).eventsTo

theorem step_move {s next : State} {m : Move} {out : Unit} (moves : s.step (.move id m) = some (next, out)) :
    ∃ call ∈ s.calls id, ∃ shared call' spawned, s.shared.move id call m = some (shared, call', spawned) ∧
      next = (spawned.elim (replace s id shared call') fun c => (replace s id shared call').begin c) := by
  obtain ⟨call, found, rest⟩ := Option.bind_eq_some_iff.mp moves
  obtain ⟨⟨shared, call', spawned⟩, moved, same⟩ := Option.map_eq_some_iff.mp rest
  refine ⟨call, found, shared, call', spawned, moved, ?_⟩
  cases same
  cases spawned with
  | none => rfl
  | some c => rfl

theorem storeDuplicates_record (change : Change) (rows : List ChangeDuplicateRow) (eventsTo : Nat) :
    recordOf (some (change.storeDuplicates rows eventsTo).1) = recordOf (some change) := by
  rw [Change.storeDuplicates]
  split <;> rfl

theorem storeDuplicates_status (change : Change) (rows : List ChangeDuplicateRow) (eventsTo : Nat) :
    statusOf (some (change.storeDuplicates rows eventsTo).1) = statusOf (some change) := by
  rw [Change.storeDuplicates]
  split <;> rfl

/-- A state whose duplicates were stored. -/
theorem Kept.scanned {s : State} (kept : Kept s) {change : Change} (record : recordOf (some change) = recordOf s.shared.change)
    (status : statusOf (some change) = statusOf s.shared.change) (worker : Worker) {duplicates : Option Nat}
    (own : change.duplicates ≠ [] → duplicates = s.shared.analysis) : Kept { s.withChange change with worker, duplicates } where
  fresh := kept.fresh
  landing := kept.landing
  held := kept.held
  holder := kept.holder
  alone := kept.alone
  sees := by
    intro id call member e sees
    obtain ⟨le, later⟩ := kept.sees id call member e sees
    refine ⟨le, ?_⟩
    rw [State.withChange, record]
    exact later
  logged := by
    rw [State.withChange, record]
    exact kept.logged
  computed := kept.computed
  record := by
    rw [State.withChange, record]
    exact kept.record
  duplicates := own
  row := fun id call member => (kept.row id call member).imp_right fun _ => rfl
  ends := by
    rw [State.withChange, status]
    exact kept.ends

theorem careful_step {s next : State} (kept : Kept s) {event : Step} {out : Unit} (careful : Careful s event)
    (moves : s.step event = some (next, out)) : Kept next ∧ NotBefore (stored s) (stored next) := by
  cases event with
  | log more =>
    cases moves
    refine ⟨{ kept with sees := ?_, logged := ?_ }, NotBefore.refl _⟩
    · intro id call member e sees
      obtain ⟨le, later⟩ := kept.sees id call member e sees
      exact ⟨Nat.le_add_right_of_le le, later⟩
    · exact fun e member => Nat.le_add_right_of_le (kept.logged e member)
  | call ask target =>
    cases moves
    exact ⟨kept.begin rfl rfl, NotBefore.refl _⟩
  | move id m =>
    obtain ⟨call, found, shared, call', spawned, moved, rfl⟩ := step_move moves
    have fit : Fit call m := by
      cases m with
      | store at' => exact fun analysis computes => (careful call found analysis computes).1
      | leave => exact careful call found
      | drop => exact careful call found
      | _ => trivial
    have effect := move_effect fit (kept.landing id call found) moved
    obtain ⟨turns, stores⟩ := move_marks moved
    have clear : s.shared.running = false → shared.running = true → ∀ other, ∀ c ∈ s.calls other, unstored c.phase = none := by
      intro free taken other c member
      obtain same | gone | ⟨analyzedFrom, rfl⟩ := turns
      · exact absurd ((same.trans free).symm.trans taken) Bool.false_ne_true
      · exact absurd (gone.symm.trans taken) Bool.false_ne_true
      · apply careful other _ c member
        apply Nat.lt_of_not_le
        intro above
        rw [kept.fresh other above] at member
        cases member
    have bare : shared.analysis ≠ s.shared.analysis → duplicatesOf s.shared.change = [] := by
      intro other
      obtain same | ⟨at', analysis, rfl, phase⟩ := stores
      · exact absurd same other
      · exact (careful call found analysis (by rw [phase]; rfl)).2
    have base := kept.replace found effect clear bare
    have later := kept.notBefore found effect
    cases spawned with
    | none => exact ⟨base, later⟩
    | some c =>
      obtain ⟨phase, whole⟩ := effect.spawned c rfl
      exact ⟨base.begin phase whole, later⟩
  | restart =>
    cases moves
    have ended : statusOf s.shared.change ≠ .running := by
      intro running
      obtain ⟨id, call, member, leaves⟩ := kept.ends running
      have below : id < s.next := by
        apply Nat.lt_of_not_le
        intro above
        rw [kept.fresh id above] at member
        cases member
      exact absurd ((careful id below call member).symm.trans leaves) Bool.false_ne_true
    exact ⟨⟨fun _ _ => rfl, by simp, by simp, by simp, by simp, by simp, kept.logged, by simp, kept.record, kept.duplicates,
      by simp, fun running => absurd running ended⟩, NotBefore.refl _⟩
  | scan =>
    rw [State.step] at moves
    split at moves
    · cases moves
      exact ⟨{ kept with }, NotBefore.refl _⟩
    · cases moves
  | findings rows =>
    rw [State.step] at moves
    split at moves
    · cases moves
      exact ⟨{ kept with }, NotBefore.refl _⟩
    · cases moves
  | scanFailed =>
    rw [State.step] at moves
    split at moves
    · cases moves
    · cases moves
      exact ⟨{ kept with }, NotBefore.refl _⟩
  | storeScan =>
    rw [State.step] at moves
    split at moves
    · rename_i job rows change worker found
      cases moves
      have record := storeDuplicates_record change rows job.eventsTo
      have status := storeDuplicates_status change rows job.eventsTo
      rw [← found] at record status
      have later : NotBefore (stored s) (recordOf (some (change.storeDuplicates rows job.eventsTo).1)).eventsTo := by
        rw [record]
        exact NotBefore.refl _
      have taken : s.shared.change = some change → change.eventsTo = some job.eventsTo → s.shared.analysis = some job.call := by
        intro found same
        apply careful job rows worker
        rw [found]
        exact same
      have own : (change.storeDuplicates rows job.eventsTo).1.duplicates ≠ [] →
          (if (change.storeDuplicates rows job.eventsTo).2 then some job.call else s.duplicates) = s.shared.analysis := by
        intro rest
        by_cases same : change.eventsTo = some job.eventsTo
        · have stores : (change.storeDuplicates rows job.eventsTo).2 = true := by simp [Change.storeDuplicates, same]
          rw [stores, if_pos rfl]
          exact (taken found same).symm
        · have skips : change.storeDuplicates rows job.eventsTo = (change, false) := if_neg same
          rw [skips] at rest ⊢
          apply kept.duplicates
          rw [found]
          exact rest
      exact ⟨kept.scanned record status .idle own, later⟩
    · cases moves
  | await =>
    rw [State.step] at moves
    split at moves
    · cases moves
      exact ⟨{ kept with }, NotBefore.refl _⟩
    · cases moves
  | resume =>
    obtain ⟨job, -, same⟩ := Option.map_eq_some_iff.mp moves
    cases same
    exact ⟨{ kept with }, NotBefore.refl _⟩

theorem advance_move {s : State} {m : Move} (found : s.calls id = some call) {spawned : Option Call}
    (moves : s.shared.move id call m = some (shared, call', spawned)) :
    advance State.step s (.move id m) = spawned.elim (replace s id shared call') fun c => (replace s id shared call').begin c := by
  have steps : s.step (.move id m) = some (s.moved id shared call' spawned, ()) := by simp [State.step, found, moves]
  rw [advance_of_some steps]
  cases spawned <;> rfl

theorem advance_alone {s : State} {m : Move} (found : s.calls id = some call)
    (moves : s.shared.move id call m = some (shared, call', none)) :
    advance State.step s (.move id m) = replace s id shared call' :=
  advance_move found moves

theorem replace_at (s : State) (id : Nat) (shared : Shared) (call' : Option Call) : (replace s id shared call').calls id = call' :=
  Function.update_self _ _ _

theorem begin_at (s : State) (call : Call) : (s.begin call).calls s.next = some call := Function.update_self _ _ _

/-- No analysis under way and none stored or failed: the row is as it was first made, and
the guard is free. -/
theorem waits {s : State} (kept : Kept s) (idle : ¬ UnderWay s) (unsettled : Unsettled s) :
    statusOf s.shared.change = .pending ∧ s.shared.running = false := by
  constructor
  · cases status : statusOf s.shared.change with
    | pending => rfl
    | running =>
      obtain ⟨id, call, member, leaves⟩ := kept.ends status
      refine absurd ⟨id, call, member, ?_⟩ idle
      cases phase : call.phase <;> rw [phase] at leaves <;> first | rfl | cases leaves
    | done => exact absurd status unsettled.1
    | failed => exact absurd status unsettled.2
  · cases running : s.shared.running with
    | false => rfl
    | true =>
      obtain ⟨id, call, member, holds⟩ := kept.holder running
      refine absurd ⟨id, call, member, ?_⟩ idle
      have guards : call.phase.guards = true := (Bool.and_eq_true_iff.mp holds).2
      cases phase : call.phase <;> rw [phase] at guards <;> first | rfl | cases guards

theorem request_reads {s : Shared} {change : Change} (found : s.change = some change) (status : change.status = .pending) (id : Nat)
    (target : Target) (moved contents : Bool) :
    s.move id ⟨.request, target, .keyed moved, false⟩ (.read contents) = some (s, none, some ⟨.ensure, target, .resolved, false⟩) := by
  simp [Shared.move, found, status]

theorem request_starts {s : State} (pending : statusOf s.shared.change = .pending) (present : s.shared.change.isSome = true)
    {target : Target} {moved contents : Bool} (found : s.calls id = some ⟨.request, target, .keyed moved, false⟩) :
    advance State.step s (.move id (.read contents)) = (replace s id s.shared none).begin ⟨.ensure, target, .resolved, false⟩ := by
  obtain ⟨change, same⟩ := Option.isSome_iff_exists.mp present
  have status : change.status = .pending := by
    rw [same] at pending
    exact pending
  exact advance_move found (request_reads same status id target moved contents)

/-- The state once a call that only was resolved made its row. -/
theorem create_keys {s : State} {ask : Ask} {target : Target} (found : s.calls id = some ⟨ask, target, .resolved, false⟩) :
    ∃ t moved, advance State.step s (.move id .create) = t ∧ t.calls id = some ⟨ask, target, .keyed moved, false⟩ ∧ t.next = s.next ∧
      statusOf t.shared.change = statusOf s.shared.change ∧ t.shared.change.isSome = true ∧ t.shared.running = s.shared.running :=
  ⟨_, _, advance_move found rfl, replace_at s id _ _, rfl, getOrCreate_status target.base target.head s.shared.change, rfl, rfl⟩

/-- An analysis of a row as first made takes the free guard. -/
theorem ensure_guards {s : State} {target : Target} {contents : Bool}
    (found : s.calls id = some ⟨.ensure, target, .resolved, false⟩) (pending : statusOf s.shared.change = .pending)
    (free : s.shared.running = false) (reads : contents = false → target.readsSnapshots = false) (analyzedFrom : Option String) :
    (run State.step s [.move id .create, .move id (.read contents), .move id (.lock analyzedFrom)]).calls id =
      some ⟨.ensure, target, .guarded analyzedFrom, false⟩ := by
  obtain ⟨t, moved, same, keyed, -, status, present, running⟩ := create_keys found
  rw [run_cons, same]
  obtain ⟨change, row⟩ := Option.isSome_iff_exists.mp present
  have made : change.status = .pending := by
    rw [row, pending] at status
    exact status
  have kept : (!contents && target.readsSnapshots) = false := by
    cases contents with
    | true => rfl
    | false => exact reads rfl
  have finds : t.shared.move id ⟨.ensure, target, .keyed moved, false⟩ (.read contents) =
      some (t.shared, some ⟨.ensure, target, .found change.toChangeRow moved, false⟩, none) := by
    simp [Shared.move, row, kept]
  rw [run_cons, advance_alone keyed finds]
  have takes : t.shared.move id ⟨.ensure, target, .found change.toChangeRow moved, false⟩ (.lock analyzedFrom) =
      some ({ t.shared with running := true }, some ⟨.ensure, target, .guarded analyzedFrom, false⟩, none) := by
    simp [Shared.move, running, free, Shared.current, made]
  rw [run_cons, advance_alone (replace_at t id _ _) takes]
  exact replace_at _ id _ _

theorem sound_of_kept {s : State} (kept : Kept s) : Sound s where
  oneAnalysis := kept.record
  duplicates := kept.duplicates
  starts := by
    intro idle unsettled id target moved contents found
    obtain ⟨pending, -⟩ := waits kept idle unsettled
    have present : s.shared.change.isSome = true := (kept.row id _ found).resolve_left (by simp)
    rw [request_starts pending present found]
    exact begin_at _ _
  analyzes := by
    intro idle unsettled target contents analyzedFrom reads
    obtain ⟨pending, free⟩ := waits kept idle unsettled
    have first : advance State.step s (.call .request target) = s.begin ⟨.request, target, .resolved, false⟩ := rfl
    rw [requested, run_cons, first, run_cons]
    obtain ⟨t, moved, same, keyed, next, status, present, running⟩ := create_keys (begin_at s ⟨.request, target, .resolved, false⟩)
    rw [same, run_cons, request_starts (status.trans pending) present keyed]
    have spawned := begin_at (replace t s.next t.shared none) ⟨.ensure, target, .resolved, false⟩
    have place : (replace t s.next t.shared none).next = s.next + 1 := next
    rw [place] at spawned
    exact ensure_guards spawned (status.trans pending) (running.trans free) reads analyzedFrom

/-- In every run whose steps are careful, the stored analysis never goes back, and in every
state reached it is all of one, its duplicates are its own, and a request of a change that is
neither analyzed nor under way starts an analysis. -/
theorem analysis_kept {before after : List Step} (careful : Admits State.step Careful .start (before ++ after)) :
    NotBefore (stored (run State.step .start before)) (stored (run State.step .start (before ++ after))) ∧
      Sound (run State.step .start (before ++ after)) := by
  obtain ⟨first, second⟩ := admits_append.mp careful
  have grows : ∀ {s : State} {events : List Step}, Kept s → Admits State.step Careful s events →
      Kept (run State.step s events) ∧ NotBefore (stored s) (stored (run State.step s events)) := fun kept admits =>
    run_allowed (fun s s' => NotBefore (stored s) (stored s')) (fun s => NotBefore.refl _) NotBefore.trans Kept
      (fun s event next out kept careful moves => careful_step kept careful moves) kept admits
  obtain ⟨middle, -⟩ := grows kept_start first
  obtain ⟨last, later⟩ := grows middle second
  rw [run_append]
  exact ⟨later, sound_of_kept last⟩

/-! ## Runs that are careful, and runs that are not -/

def tree : Target := ⟨some (.vcs "git" "a"), .working⟩

def oneFile (path : String) : ChangeResults := ⟨[⟨path, "modified", 1, 0, none, false, none, none⟩], [], [], []⟩

/-- A call from its row to its guard, and from there to its results. -/
def guarding (id : Nat) : List Step := [.move id .create, .move id (.read true), .move id (.lock none)]
def computing (id : Nat) (path : String) : List Step :=
  [.move id .mark, .move id .count, .move id (.pin none), .move id (.compute (.ok (oneFile path)))]

/-- An analysis, its duplicates, and a refresh that finds no guard to take. -/
def analyzed : List Step :=
  [.log 5, .call .request tree, .move 0 .create, .move 0 (.read true)] ++ guarding 1 ++ computing 1 "a.rs" ++
    [.move 1 (.store "now"), .move 1 .submit, .scan, .findings [⟨"a.rs", 1, 9, 9, "b.rs", 1, 9⟩], .storeScan, .restart]

theorem analyzed_careful : Admits State.step Careful .start analyzed := by
  refine ⟨trivial, trivial, trivial, trivial, trivial, trivial, ?_, trivial, trivial, trivial, trivial, ?_, trivial, trivial, trivial, ?_, ?_, trivial⟩
  · intro other below call member
    match other, below with
    | 0, _ => cases member
    | 1, _ =>
      cases member
      rfl
  · intro call member analysis computes
    cases member
    cases computes
    exact ⟨by simp [oneFile], rfl⟩
  · intro job rows worker _
    cases worker
    rfl
  · intro id below call member
    match id, below with
    | 0, _ => cases member
    | 1, _ => cases member

theorem analysis_kept_analyzed :
    NotBefore (stored (run State.step .start (analyzed.take 7))) (stored (run State.step .start analyzed)) ∧ Sound (run State.step .start analyzed) := by
  have split : analyzed.take 7 ++ analyzed.drop 7 = analyzed := List.take_append_drop 7 analyzed
  have careful : Admits State.step Careful .start (analyzed.take 7 ++ analyzed.drop 7) := by
    rw [split]
    exact analyzed_careful
  have kept := analysis_kept careful
  rw [split] at kept
  exact kept

/-- Two refreshes, the second from the guard that the first let go before it stored. -/
def crossed : List Step :=
  [.log 5, .call .refresh tree] ++ guarding 0 ++ computing 0 "a.rs" ++ [.log 2, .call .refresh tree] ++ guarding 1 ++ computing 1 "b.rs" ++
    [.move 1 (.store "now")]

/-- An analysis that returns early, its status written. -/
def cutOff : List Step := [.call .ensure tree] ++ guarding 0 ++ [.move 0 .mark, .move 0 .leave]

/-- A second analysis, once the first has its duplicates. -/
def again : List Step := analyzed ++ [.call .refresh tree] ++ guarding 2 ++ computing 2 "c.rs" ++ [.move 2 (.store "later")]

theorem older_stored_and_left_running :
    (stored (run State.step .start crossed) = some 7 ∧ stored (run State.step .start (crossed ++ [.move 0 (.store "late")])) = some 5) ∧
      (¬ UnderWay (run State.step .start cutOff) ∧ Unsettled (run State.step .start cutOff) ∧
        ((run State.step .start (cutOff ++ requested (run State.step .start cutOff) tree true none)).calls 2).isNone = true) ∧
      duplicatesOf (run State.step .start again).shared.change ≠ [] ∧ (run State.step .start again).duplicates = some 1 ∧
        (run State.step .start again).shared.analysis = some 2 := by
  refine ⟨⟨rfl, rfl⟩, ⟨?_, ?_, rfl⟩, List.cons_ne_nil _ _, rfl, rfl⟩
  · rintro ⟨id, call, member, -⟩
    match id with
    | 0 => cases member
    | _ + 1 => cases member
  · constructor <;> intro status <;> cases status

end Oxplow.Proofs.AnalysisRuns
