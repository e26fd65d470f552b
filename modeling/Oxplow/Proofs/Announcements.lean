import Mathlib.Data.Finset.Lattice.Lemmas
import Oxplow.Database.Changes

/-! When a commit is announced. Its tables are in the committed set from its hook on, so a set
published after it took effect names them, as long as none is published in between. -/

namespace Oxplow.Proofs.Announcements
open Database Library

/-! ## Sets of tables -/

/-- What of a transaction's changes the hooks note. -/
def noted (changed : Changed) : Changed := ⟨changed.tables.erase "table_generation", changed.rewrote.erase "table_generation"⟩

/-- Every table of one set is in the other, as rewritten if it was. -/
def Within (changed other : Changed) : Prop :=
  ∀ t ∈ changed.tables, t ∈ other.tables ∧ (t ∈ changed.rewrote → t ∈ other.rewrote)

variable {changed : Changed}

theorem Within.extend_left {other : Changed} (within : Within changed other) (more : Changed) :
    Within changed (other.extend more) := by
  intro t member
  obtain ⟨table, rewrote⟩ := within t member
  exact ⟨Finset.mem_union_left _ table, fun inside => Finset.mem_union_left _ (rewrote inside)⟩

theorem within_extend_right (changed other : Changed) : Within other (changed.extend other) :=
  fun _ member => ⟨Finset.mem_union_right _ member, Finset.mem_union_right _⟩

theorem within_of_empty (none : changed.tables = ∅) (other : Changed) : Within changed other := by
  intro t member
  rw [none] at member
  cases member

theorem mem_noted {t : String} : t ∈ (noted changed).tables ↔ t ≠ "table_generation" ∧ t ∈ changed.tables := Finset.mem_erase

theorem noted_note {table : String} (kept : table ≠ "table_generation") (rewrote : Bool) :
    noted (changed.note table rewrote) = (noted changed).note table rewrote := by
  have same : ∀ tables : Finset String, (insert table tables).erase "table_generation" = insert table (tables.erase "table_generation") :=
    fun tables => Finset.erase_insert_of_ne kept
  cases rewrote <;> simp [noted, Changed.note, same]

theorem noted_generation (changed : Changed) (rewrote : Bool) : noted (changed.note "table_generation" rewrote) = noted changed := by
  have same : ∀ tables : Finset String, (insert "table_generation" tables).erase "table_generation" = tables.erase "table_generation" := by
    intro tables
    ext t
    simp
  cases rewrote <;> simp [noted, Changed.note, same]

/-! ## The hooks -/

theorem preupdate_committed (s : State) (id : Nat) (action : Action) (db table : String) :
    (s.preupdate id action db table).committed = s.committed := by
  rw [State.preupdate]
  split <;> rfl

theorem preupdate_other (s : State) {id other : Nat} (apart : other ≠ id) (action : Action) (db table : String) :
    (s.preupdate id action db table).pending other = s.pending other := by
  rw [State.preupdate]
  split
  · exact Function.update_of_ne apart _ _
  · rfl

/-- What a connection's pending set has, its open transaction's noted changes. -/
theorem preupdate_noted {s : State} {id : Nat} {before : Changed} (held : (s.pending id).getD .empty = noted before) (action : Action)
    (db table : String) :
    ((s.preupdate id action db table).pending id).getD .empty =
      noted (if db = "main" then before.note table (action != .insert) else before) := by
  rw [State.preupdate]
  by_cases main : db = "main"
  swap
  · rw [if_neg (fun both => main both.1), if_neg main]
    exact held
  by_cases bump : table = "table_generation"
  · rw [if_neg (fun both => both.2 bump), if_pos main, bump, noted_generation]
    exact held
  · rw [if_pos ⟨main, bump⟩, if_pos main, noted_note bump]
    simp only [Function.update_self, Option.getD_some, held]

theorem commitHook_committed (s : State) (id : Nat) :
    (s.commitHook id).committed = s.committed.extend ((s.pending id).getD .empty) := by
  rw [State.commitHook]
  cases s.pending id with
  | some changed => rfl
  | none => simp only [Option.getD_none, Changed.extend, Changed.empty, Finset.union_empty]

theorem commitHook_self (s : State) (id : Nat) : ((s.commitHook id).pending id).getD .empty = .empty := by
  rw [State.commitHook]
  cases found : s.pending id with
  | some changed => simp
  | none => simp [found]

theorem commitHook_other (s : State) {id other : Nat} (apart : other ≠ id) : (s.commitHook id).pending other = s.pending other := by
  rw [State.commitHook]
  cases s.pending id with
  | some changed => exact Function.update_of_ne apart _ _
  | none => rfl

/-! ## What every step keeps -/

/-- The changes of a transaction whose commit hook has not run. -/
def underway : Option Transaction → Changed
  | some ⟨changed, false⟩ => changed
  | _ => .empty

/-- The connection is between its commit hook and the commit taking effect. -/
def Committing (s : Pool) (id : Nat) (changed : Changed) : Prop := s.transaction id = some ⟨changed, true⟩

/-- A set published since the commit names each table it noted. -/
def Told (s : Pool) (commit : Commit) : Prop :=
  ∀ t ∈ (noted commit.changed).tables, ∃ i set, commit.sentBefore ≤ i ∧ s.sent[i]? = some set ∧ t ∈ set.tables ∧
    (t ∈ (noted commit.changed).rewrote → t ∈ set.rewrote)

structure Kept (s : Pool) : Prop where
  pending : ∀ id, (s.changes.pending id).getD .empty = noted (underway (s.transaction id))
  committing : ∀ id changed, Committing s id changed → Within (noted changed) s.changes.committed
  before : ∀ commit ∈ s.commits, commit.flushesBefore ≤ s.flushes ∧ commit.sentBefore ≤ s.sent.length
  waiting : ∀ commit ∈ s.commits, commit.flushesBefore = s.flushes → Within (noted commit.changed) s.changes.committed
  told : ∀ commit ∈ s.commits, commit.flushesBefore < s.flushes → Told s commit
  source : ∀ t ∈ s.changes.committed.tables,
    (∃ commit ∈ s.commits, t ∈ (noted commit.changed).tables) ∨ ∃ id changed, Committing s id changed ∧ t ∈ (noted changed).tables
  sent : ∀ set ∈ s.sent, ∀ t ∈ set.tables, ∃ commit ∈ s.commits, t ∈ (noted commit.changed).tables

theorem kept_start : Kept .start where
  pending _ := rfl
  committing _ _ committing := nomatch committing
  before _ member := nomatch member
  waiting _ member := nomatch member
  told _ member := nomatch member
  source t member := absurd member (Finset.notMem_empty t)
  sent _ member := nomatch member

theorem underway_of_unhooked {transaction : Option Transaction} (unhooked : ¬ transaction.any (·.hooked) = true) :
    underway transaction = (transaction.map (·.changed)).getD .empty := by
  rcases transaction with _ | ⟨changed, _ | _⟩
  · rfl
  · rfl
  · exact absurd rfl unhooked

theorem kept_change {s : Pool} (kept : Kept s) {id : Nat} (unhooked : ¬ (s.transaction id).any (·.hooked) = true) (action : Action)
    (db table : String) : Kept (s.change id action db table) := by
  have committed : (s.change id action db table).changes.committed = s.changes.committed := preupdate_committed ..
  have before := kept.pending id
  rw [underway_of_unhooked unhooked] at before
  -- the connection was not committing, and it isn't now
  have committing : ∀ {other changed}, Committing (s.change id action db table) other changed ↔ Committing s other changed := by
    intro other changed
    by_cases same : other = id
    · subst same
      constructor
      · intro after
        have after := (Function.update_self ..).symm.trans after
        cases after
      · intro before
        rw [before] at unhooked
        exact absurd rfl unhooked
    · simp only [Committing, Pool.change, Function.update_of_ne same]
  refine ⟨?_, ?_, kept.before, ?_, kept.told, ?_, kept.sent⟩
  · intro other
    by_cases same : other = id
    · subst same
      simp only [Pool.change, Function.update_self, underway]
      exact preupdate_noted before action db table
    · simp only [Pool.change, Function.update_of_ne same, preupdate_other _ same]
      exact kept.pending other
  · intro other changed after
    rw [committed]
    exact kept.committing other changed (committing.mp after)
  · rw [committed]
    exact kept.waiting
  · intro t member
    rw [committed] at member
    rcases kept.source t member with done | ⟨other, changed, underway, inside⟩
    · exact .inl done
    · exact .inr ⟨other, changed, committing.mpr underway, inside⟩

theorem kept_commitHook {s : Pool} (kept : Kept s) {id : Nat} (opened : s.transaction id = some ⟨changed, false⟩) :
    Kept { s with
      changes := s.changes.commitHook id
      transaction := Function.update s.transaction id (some ⟨changed, true⟩) } := by
  have held : (s.changes.pending id).getD .empty = noted changed := by
    have held := kept.pending id
    rw [opened] at held
    exact held
  have committed : (s.changes.commitHook id).committed = s.changes.committed.extend (noted changed) := by
    rw [commitHook_committed, held]
  have others : ∀ {other more}, Committing s other more → other ≠ id := by
    rintro other more committing rfl
    rw [Committing, opened] at committing
    cases committing
  refine ⟨?_, ?_, kept.before, ?_, kept.told, ?_, kept.sent⟩
  · intro other
    by_cases same : other = id
    · subst same
      simp only [Function.update_self, underway]
      exact commitHook_self ..
    · simp only [Function.update_of_ne same, commitHook_other _ same]
      exact kept.pending other
  · intro other more committing
    simp only [committed]
    by_cases same : other = id
    · subst same
      simp only [Committing, Function.update_self, Option.some.injEq, Transaction.mk.injEq, and_true] at committing
      rw [← committing]
      exact within_extend_right _ _
    · simp only [Committing, Function.update_of_ne same] at committing
      exact (kept.committing other more committing).extend_left _
  · intro commit member waiting
    simp only [committed]
    exact (kept.waiting commit member waiting).extend_left _
  · intro t member
    simp only [committed, Changed.extend] at member
    rcases Finset.mem_union.mp member with old | new
    · rcases kept.source t old with done | ⟨other, more, committing, inside⟩
      · exact .inl done
      · refine .inr ⟨other, more, ?_, inside⟩
        simp only [Committing, Function.update_of_ne (others committing)]
        exact committing
    · refine .inr ⟨id, changed, ?_, new⟩
      simp only [Committing, Function.update_self]

theorem kept_takeEffect {s : Pool} (kept : Kept s) {id : Nat} (committing : Committing s id changed) :
    Kept { s with
      transaction := Function.update s.transaction id none
      commits := s.commits ++ [⟨changed, s.sent.length, s.flushes⟩] } := by
  have last : ∀ commit ∈ s.commits ++ [⟨changed, s.sent.length, s.flushes⟩], commit ∈ s.commits ∨ commit = ⟨changed, s.sent.length, s.flushes⟩ := by
    intro commit member
    exact (List.mem_append.mp member).imp_right List.mem_singleton.mp
  refine ⟨?_, ?_, ?_, ?_, ?_, ?_, ?_⟩
  · intro other
    by_cases same : other = id
    · subst same
      have held := kept.pending other
      rw [committing] at held
      simp only [Function.update_self]
      exact held
    · simp only [Function.update_of_ne same]
      exact kept.pending other
  · intro other more after
    by_cases same : other = id
    · subst same
      simp only [Committing, Function.update_self] at after
      cases after
    · simp only [Committing, Function.update_of_ne same] at after
      exact kept.committing other more after
  · intro commit member
    rcases last commit member with old | rfl
    · exact kept.before commit old
    · exact ⟨Nat.le_refl _, Nat.le_refl _⟩
  · intro commit member waiting
    rcases last commit member with old | rfl
    · exact kept.waiting commit old waiting
    · exact kept.committing id changed committing
  · intro commit member flushed
    rcases last commit member with old | rfl
    · exact kept.told commit old flushed
    · exact absurd flushed (Nat.lt_irrefl _)
  · intro t member
    rcases kept.source t member with ⟨commit, old, inside⟩ | ⟨other, more, underway, inside⟩
    · exact .inl ⟨commit, List.mem_append_left _ old, inside⟩
    · by_cases same : other = id
      · subst same
        obtain rfl : changed = more := by
          have both := committing.symm.trans underway
          simpa using both
        exact .inl ⟨_, List.mem_append_right _ (List.mem_singleton_self _), inside⟩
      · refine .inr ⟨other, more, ?_, inside⟩
        simp only [Committing, Function.update_of_ne same]
        exact underway
  · intro set member t inside
    obtain ⟨commit, old, noted⟩ := kept.sent set member t inside
    exact ⟨commit, List.mem_append_left _ old, noted⟩

/-- A transaction is rolled back before its commit hook, or noted nothing. -/
theorem kept_rollback {s : Pool} (kept : Kept s) {id : Nat}
    (quiet : ∀ changed, Committing s id changed → (noted changed).tables = ∅) :
    Kept { s with
      changes := s.changes.rollbackHook id
      transaction := Function.update s.transaction id none } := by
  refine ⟨?_, ?_, kept.before, kept.waiting, kept.told, ?_, kept.sent⟩
  · intro other
    by_cases same : other = id
    · subst same
      simp only [State.rollbackHook, Function.update_self, Option.getD_none]
      rfl
    · simp only [State.rollbackHook, Function.update_of_ne same]
      exact kept.pending other
  · intro other more after
    by_cases same : other = id
    · subst same
      simp only [Committing, Function.update_self] at after
      cases after
    · simp only [Committing, Function.update_of_ne same] at after
      exact kept.committing other more after
  · intro t member
    rcases kept.source t member with done | ⟨other, more, underway, inside⟩
    · exact .inl done
    · by_cases same : other = id
      · subst same
        rw [quiet more underway] at inside
        cases inside
      · refine .inr ⟨other, more, ?_, inside⟩
        simp only [Committing, Function.update_of_ne same]
        exact underway

/-- A flush while nothing noted is between its commit hook and its commit. -/
theorem kept_flush {s : Pool} (kept : Kept s) (quiet : ∀ id changed, Committing s id changed → (noted changed).tables = ∅) : Kept s.flush := by
  have grows : ∀ (i : Nat) (set : Changed), s.sent[i]? = some set → s.flush.sent[i]? = some set := by
    intro i set found
    rw [Pool.flush]
    split
    · exact found
    · rw [List.getElem?_append_left (List.getElem?_eq_some_iff.mp found).1]
      exact found
  -- what a set that is published now has, it has after every commit before
  have published : ∀ t ∈ s.changes.committed.tables, s.flush.sent[s.sent.length]? = some s.changes.committed := by
    intro t member
    have some : ¬ s.changes.committed.isEmpty = true := by
      intro none
      rw [of_decide_eq_true none] at member
      cases member
    rw [Pool.flush, if_neg some]
    exact List.getElem?_concat_length
  refine ⟨kept.pending, ?_, ?_, ?_, ?_, ?_, ?_⟩
  · intro id changed committing
    exact within_of_empty (quiet id changed committing) _
  · intro commit member
    obtain ⟨flushes, sent⟩ := kept.before commit member
    refine ⟨Nat.le_succ_of_le flushes, ?_⟩
    rw [Pool.flush]
    split
    · exact sent
    · rw [List.length_append]
      exact Nat.le_add_right_of_le sent
  · intro commit member waiting
    have flushes := (kept.before commit member).1
    rw [waiting] at flushes
    exact absurd flushes (Nat.not_succ_le_self s.flushes)
  · intro commit member flushed t noted
    rcases Nat.lt_or_eq_of_le (Nat.le_of_lt_succ flushed) with earlier | now
    · obtain ⟨i, set, since, found, inside⟩ := kept.told commit member earlier t noted
      exact ⟨i, set, since, grows i set found, inside⟩
    · have within := kept.waiting commit member now t noted
      exact ⟨s.sent.length, s.changes.committed, (kept.before commit member).2, published t within.1, within⟩
  · intro t member
    exact absurd member (Finset.notMem_empty t)
  · intro set member t inside
    rw [Pool.flush] at member
    split at member
    · exact kept.sent set member t inside
    · rcases List.mem_append.mp member with old | new
      · exact kept.sent set old t inside
      · rw [List.mem_singleton.mp new] at inside
        rcases kept.source t inside with done | ⟨id, changed, committing, within⟩
        · exact done
        · rw [quiet id changed committing] at within
          cases within

/-! ## Runs -/

/-- The step doesn't come between a commit hook that noted a table and its commit: nothing is
published there, and the commit is not rolled back. -/
def Quiet (s : Pool) : Event → Prop
  | .flush => ∀ id changed, Committing s id changed → (noted changed).tables = ∅
  | .rollback id => ∀ changed, Committing s id changed → (noted changed).tables = ∅
  | _ => True

theorem kept_step {s next : Pool} {event : Event} (kept : Kept s) (quiet : Quiet s event) {out : Unit}
    (moves : s.step event = some (next, out)) : Kept next := by
  cases event with
  | change id action db table =>
    rw [Pool.step] at moves
    split at moves
    · cases moves
    · rename_i unhooked
      obtain ⟨rfl, -⟩ := Prod.mk.inj (Option.some.inj moves)
      exact kept_change kept unhooked action db table
  | commitHook id =>
    rw [Pool.step] at moves
    split at moves
    · rename_i changed opened
      obtain ⟨rfl, -⟩ := Prod.mk.inj (Option.some.inj moves)
      exact kept_commitHook kept opened
    · cases moves
  | takeEffect id =>
    rw [Pool.step] at moves
    split at moves
    · rename_i changed committing
      obtain ⟨rfl, -⟩ := Prod.mk.inj (Option.some.inj moves)
      exact kept_takeEffect kept committing
    · cases moves
  | rollback id =>
    rw [Pool.step] at moves
    split at moves
    · obtain ⟨rfl, -⟩ := Prod.mk.inj (Option.some.inj moves)
      exact kept_rollback kept quiet
    · cases moves
  | flush =>
    obtain ⟨rfl, -⟩ := Prod.mk.inj (Option.some.inj moves)
    exact kept_flush kept quiet

theorem kept_run {events : List Event} (quiet : Machine.Admits Pool.step Quiet .start events) : Kept (Machine.run Pool.step .start events) := by
  refine (Machine.run_allowed (fun _ _ => True) (fun _ => trivial) (fun _ _ => trivial) Kept ?_ kept_start quiet).1
  intro s event next out kept allowed moves
  exact ⟨kept_step kept allowed moves, trivial⟩

/-- Once the committed set has been flushed after a commit took effect, a set published since
names a table it changed. -/
def Announced (s : Pool) (t : String) : Prop :=
  ∀ commit ∈ s.commits, t ∈ commit.changed.tables → commit.flushesBefore < s.flushes →
    ∃ i set, commit.sentBefore ≤ i ∧ s.sent[i]? = some set ∧ t ∈ set.tables ∧ (t ∈ commit.changed.rewrote → t ∈ set.rewrote)

/-- Some transaction that changed a table of a published set was not rolled back. -/
def Committed (s : Pool) (t : String) : Prop :=
  ∀ set ∈ s.sent, t ∈ set.tables →
    (∃ commit ∈ s.commits, t ∈ commit.changed.tables) ∨ ∃ id transaction, s.transaction id = some transaction ∧ t ∈ transaction.changed.tables

/-- In a run that publishes nothing, and rolls nothing back, between a commit hook and its
commit, every committed change is announced after it took effect, and nothing else is. -/
theorem announced_run (events : List Event) (quiet : Machine.Admits Pool.step Quiet .start events) (t : String) :
    (t ≠ "table_generation" → Announced (Machine.run Pool.step .start events) t) ∧ Committed (Machine.run Pool.step .start events) t := by
  have kept := kept_run quiet
  constructor
  · intro table commit member changed flushed
    obtain ⟨i, set, since, found, names, rewrote⟩ := kept.told commit member flushed t (mem_noted.mpr ⟨table, changed⟩)
    exact ⟨i, set, since, found, names, fun inside => rewrote (Finset.mem_erase.mpr ⟨table, inside⟩)⟩
  · intro set member inside
    obtain ⟨commit, done, noted⟩ := kept.sent set member t inside
    exact .inl ⟨commit, done, (mem_noted.mp noted).2⟩

/-- A connection inserts and commits, with another's call ending before and after its hook. -/
theorem announced_run_insert :
    Machine.Admits Pool.step Quiet .start
        [.change 0 .insert "main" "plain", .flush, .commitHook 0, .takeEffect 0, .flush] ∧
      Announced (Machine.run Pool.step .start [.change 0 .insert "main" "plain", .flush, .commitHook 0, .takeEffect 0, .flush]) "plain" := by
  have quiet : Machine.Admits Pool.step Quiet .start
      [.change 0 .insert "main" "plain", .flush, .commitHook 0, .takeEffect 0, .flush] := by
    refine ⟨trivial, ?_, trivial, trivial, ?_, trivial⟩
    · intro id changed committing
      by_cases same : id = 0
      · subst same
        cases committing
      · have idle := (Function.update_of_ne same _ _).symm.trans committing
        cases idle
    · intro id changed committing
      by_cases same : id = 0
      · subst same
        cases committing
      · have first := (Function.update_of_ne same _ _).symm.trans committing
        have second := (Function.update_of_ne same _ _).symm.trans first
        have idle := (Function.update_of_ne same _ _).symm.trans second
        cases idle
  exact ⟨quiet, (announced_run _ quiet "plain").1 (by decide)⟩

/-- Another call's flush publishes the tables of a commit before it takes effect; no set
published after that names them. -/
theorem unannounced_early : ¬ ∀ events t, Announced (Machine.run Pool.step .start events) t ∧ Committed (Machine.run Pool.step .start events) t := by
  intro announced
  obtain ⟨i, set, since, found, -⟩ :=
    (announced [.change 0 .insert "main" "plain", .commitHook 0, .flush, .takeEffect 0, .flush] "plain").1 ⟨⟨{"plain"}, ∅⟩, 1, 1⟩
      (List.mem_singleton.mpr rfl) (by decide) (by decide)
  have sent : (Machine.run Pool.step .start [.change 0 .insert "main" "plain", .commitHook 0, .flush, .takeEffect 0, .flush]).sent =
      [⟨{"plain"}, ∅⟩] := by rfl
  rw [sent, List.getElem?_eq_none since] at found
  cases found

end Oxplow.Proofs.Announcements
