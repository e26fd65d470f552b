import Oxplow.Assets.Assets

/-! What an asset stores, whenever it is not pending. A notice that comes while its loop reads
leaves it pending, but for one that comes between the first-build check's read and its
bookkeeping. -/

namespace Oxplow.Proofs.AssetRuns
open Assets

/-! ## Commits -/

variable {db : Db} {m : Materializer} {c : Nat}

theorem touches_iff : touches db m c = true ↔ ∃ changed, db.commits[c]? = some changed ∧ ∃ t ∈ m.inputs, t ∈ changed.tables := by
  simp only [touches, Option.any_eq_true, List.any_eq_true, decide_eq_true_eq]

theorem rewrites_iff :
    rewrites db m c = true ↔ ∃ changed, db.commits[c]? = some changed ∧ ∃ t ∈ m.inputs, t ∈ changed.rewrote := by
  simp only [rewrites, Option.any_eq_true, List.any_eq_true, decide_eq_true_eq]

theorem lt_of_touches (touched : touches db m c = true) : c < db.commits.length := by
  obtain ⟨changed, found, -⟩ := touches_iff.mp touched
  exact (List.getElem?_eq_some_iff.mp found).1

/-- One database has the other's commits, and maybe later ones. -/
def Grown (db db' : Db) : Prop := db.commits <+: db'.commits

theorem Grown.refl (db : Db) : Grown db db := List.prefix_refl _

theorem Grown.commit (db : Db) (inserted rewrote : Finset String) (rows : String → Nat) : Grown db (db.commit inserted rewrote rows) :=
  List.prefix_append ..

variable {db' : Db}

theorem Grown.length_le (grown : Grown db db') : db.commits.length ≤ db'.commits.length := List.IsPrefix.length_le grown

theorem Grown.getElem? (grown : Grown db db') (old : c < db.commits.length) : db'.commits[c]? = db.commits[c]? := by
  obtain ⟨more, whole⟩ := grown
  rw [← whole, List.getElem?_append_left old]

theorem Grown.touches_eq (grown : Grown db db') (m : Materializer) (old : c < db.commits.length) :
    touches db' m c = touches db m c := by
  rw [touches, touches, grown.getElem? old]

theorem Grown.rewrites_eq (grown : Grown db db') (m : Materializer) (old : c < db.commits.length) :
    rewrites db' m c = rewrites db m c := by
  rw [rewrites, rewrites, grown.getElem? old]

/-- What a commit rewrote, it touched. -/
def Sound (db : Db) : Prop := ∀ changed ∈ db.commits, changed.rewrote ⊆ changed.tables

theorem touches_of_rewrites (sound : Sound db) (rewrote : rewrites db m c = true) : touches db m c = true := by
  obtain ⟨changed, found, t, input, inside⟩ := rewrites_iff.mp rewrote
  exact touches_iff.mpr ⟨changed, found, t, input, sound changed (List.mem_of_getElem? found) inside⟩

theorem sound_commit (sound : Sound db) (inserted rewrote : Finset String) (rows : String → Nat) :
    Sound (db.commit inserted rewrote rows) := by
  intro changed member
  rcases List.mem_append.mp member with old | new
  · exact sound changed old
  · rw [List.mem_singleton.mp new]
    exact fun t inside => Finset.mem_union_right _ inside

/-! ## Phases -/

end Oxplow.Proofs.AssetRuns

namespace Oxplow.Assets.Phase

/-- The `wanted` that its loop has read and is still to settle. -/
def asking : Phase → Option Nat
  | .counted _ a | .asked a | .swapped a _ | .begun a _ _ | .reading a _ _ _ | .ended a _ => some a
  | _ => none

/-- It has not recomputed since it was registered. -/
def unbuilt : Phase → Bool
  | .first | .tracked | .checkedInputs _ _ | .checkedOutputs _ _ _ | .current _ | .cleared _ | .counted _ _ => true
  | _ => false

/-- A full build under way reads, or will read, what the commit left. -/
def Carries : Phase → Nat → Prop
  | .swapped _ true, _ | .begun _ true _, _ => True
  | .reading _ true _ since, c => c < since
  | _, _ => False

/-- A recompute is under way. -/
def underWay : Phase → Bool
  | .asked _ | .swapped _ _ | .begun _ _ _ | .reading _ _ _ _ | .ended _ _ => true
  | _ => false

end Oxplow.Assets.Phase

namespace Oxplow.Proofs.AssetRuns
open Assets Library

/-- No commit up to some point touched an input. -/
def Untouched (db : Db) (m : Materializer) (since : Nat) : Prop := ∀ c < since, touches db m c = false

/-- Inputs whose generations are those that it was built from were not touched. -/
def Unmoved (db : Db) (m : Materializer) (since : Nat) (inputs : Option Generations) : Prop :=
  ∀ built, db.state m.asset = some built → inputs = some built.inputs → Untouched db m since

/-- A commit that rewrote nothing. -/
def Inserted (db : Db) (c : Nat) : Prop := ∃ changed, db.commits[c]? = some changed ∧ changed.rewrote = ∅

/-- What each phase of an asset's loop knows. -/
def PhaseKept (db : Db) (e : Entry) : Phase → Prop
  | .checkedInputs since inputs => since ≤ db.commits.length ∧ Unmoved db e.materializer since inputs
  | .checkedOutputs since inputs _ => since ≤ db.commits.length ∧ Unmoved db e.materializer since inputs
  | .current since => since ≤ db.commits.length ∧ Untouched db e.materializer since
  | .cleared since => since ≤ db.commits.length ∧ Untouched db e.materializer since
  | .counted _ asked => ∀ c k, (c, k) ∈ e.noticed → asked < k
  | .swapped asked full => ∀ c k, (c, k) ∈ e.noticed → rewrites db e.materializer c = true → k ≤ asked → full = true ∨ c < e.fullFrom
  | .begun asked full _ => ∀ c k, (c, k) ∈ e.noticed → rewrites db e.materializer c = true → k ≤ asked → full = true ∨ c < e.fullFrom
  | .reading asked full _ since => e.fullFrom ≤ since ∧ since ≤ db.commits.length ∧
      (∀ c k, (c, k) ∈ e.noticed → k ≤ asked → c < since) ∧
      ∀ c k, (c, k) ∈ e.noticed → rewrites db e.materializer c = true → k ≤ asked → full = true ∨ c < e.fullFrom
  | .ended asked made => (∀ i, made = some i → Inserted db i) ∧ (e.failed = false →
      (∀ c k, (c, k) ∈ e.noticed → k ≤ asked → c < e.readFrom) ∧
      ∀ c k, (c, k) ∈ e.noticed → rewrites db e.materializer c = true → k ≤ asked → c < e.fullFrom)
  | .telling _ made => ∀ i, made = some i → Inserted db i
  | _ => True

/-- What an asset's counters and marks say of the commits noticed. -/
structure Ledger (db : Db) (e : Entry) : Prop where
  bound : e.done ≤ e.wanted
  ticket : ∀ c k, (c, k) ∈ e.noticed → 1 ≤ k ∧ k ≤ e.wanted ∧ touches db e.materializer c = true
  stored : ∀ c ∈ e.stored, rewrites db e.materializer c = true ∧ c < db.commits.length
  rewrote : ∀ c k, (c, k) ∈ e.noticed → rewrites db e.materializer c = true → c ∈ e.stored
  inFlight : ∀ notice ∈ e.noticing, ∀ c ∈ notice.commits, c < db.commits.length ∧ (rewrites db e.materializer c = true → c ∈ e.stored)
  read : ∀ c k, (c, k) ∈ e.noticed → k ≤ e.done → e.failed = false → c < e.readFrom
  full : ∀ c k, (c, k) ∈ e.noticed → rewrites db e.materializer c = true → k ≤ e.done → e.failed = false → c < e.fullFrom
  fullBound : e.fullFrom ≤ db.commits.length

structure EntryKept (db : Db) (e : Entry) : Prop where
  ledger : Ledger db e
  asking : ∀ a, e.phase.asking = some a → e.done ≤ a ∧ a ≤ e.wanted
  unbuilt : e.phase.unbuilt = true → e.done = 0 ∧ e.failed = false
  owed : ∀ c ∈ e.stored, e.needsFull = true ∨ e.phase.Carries c ∨ c < e.fullFrom
  phase : PhaseKept db e e.phase

/-! ## What a longer log keeps -/

variable {db db' : Db} {m : Materializer} {since : Nat}

theorem Untouched.grown (untouched : Untouched db m since) (bound : since ≤ db.commits.length) (grown : Grown db db') :
    Untouched db' m since := by
  intro c before
  rw [grown.touches_eq m (Nat.lt_of_lt_of_le before bound)]
  exact untouched c before

variable {inputs : Option Generations}

theorem Unmoved.grown (unmoved : Unmoved db m since inputs) (bound : since ≤ db.commits.length) (grown : Grown db db')
    (same : db'.state m.asset = db.state m.asset) : Unmoved db' m since inputs := by
  intro built stored read
  rw [same] at stored
  exact (unmoved built stored read).grown bound grown

theorem Inserted.grown {c : Nat} (inserted : Inserted db c) (grown : Grown db db') : Inserted db' c := by
  obtain ⟨changed, found, nothing⟩ := inserted
  refine ⟨changed, ?_, nothing⟩
  rw [grown.getElem? (List.getElem?_eq_some_iff.mp found).1]
  exact found

variable {e : Entry}

theorem Ledger.grown (ledger : Ledger db e) (grown : Grown db db') : Ledger db' e := by
  have longer := grown.length_le
  have rewritten : ∀ c k, (c, k) ∈ e.noticed → rewrites db' e.materializer c = true → rewrites db e.materializer c = true := by
    intro c k member rewrote
    rw [← grown.rewrites_eq _ (lt_of_touches (ledger.ticket c k member).2.2)]
    exact rewrote
  refine ⟨ledger.bound, ?_, ?_, ?_, ?_, ledger.read, ?_, Nat.le_trans ledger.fullBound longer⟩
  · intro c k member
    obtain ⟨low, high, touched⟩ := ledger.ticket c k member
    rw [← grown.touches_eq _ (lt_of_touches touched)] at touched
    exact ⟨low, high, touched⟩
  · intro c member
    obtain ⟨rewrote, old⟩ := ledger.stored c member
    rw [← grown.rewrites_eq _ old] at rewrote
    exact ⟨rewrote, Nat.lt_of_lt_of_le old longer⟩
  · intro c k member rewrote
    exact ledger.rewrote c k member (rewritten c k member rewrote)
  · intro notice member c inside
    obtain ⟨old, stored⟩ := ledger.inFlight notice member c inside
    refine ⟨Nat.lt_of_lt_of_le old longer, ?_⟩
    rw [grown.rewrites_eq _ old]
    exact stored
  · intro c k member rewrote
    exact ledger.full c k member (rewritten c k member rewrote)

variable {phase : Phase}

theorem PhaseKept.grown (kept : PhaseKept db e phase) (ledger : Ledger db e) (grown : Grown db db')
    (same : phase.unbuilt = true → db'.state e.materializer.asset = db.state e.materializer.asset) : PhaseKept db' e phase := by
  have longer := grown.length_le
  have rewritten : ∀ c k, (c, k) ∈ e.noticed → rewrites db' e.materializer c = true → rewrites db e.materializer c = true := by
    intro c k member rewrote
    rw [← grown.rewrites_eq _ (lt_of_touches (ledger.ticket c k member).2.2)]
    exact rewrote
  cases phase with
  | checkedInputs since inputs => exact ⟨Nat.le_trans kept.1 longer, kept.2.grown kept.1 grown (same rfl)⟩
  | checkedOutputs since inputs _ => exact ⟨Nat.le_trans kept.1 longer, kept.2.grown kept.1 grown (same rfl)⟩
  | current since => exact ⟨Nat.le_trans kept.1 longer, kept.2.grown kept.1 grown⟩
  | cleared since => exact ⟨Nat.le_trans kept.1 longer, kept.2.grown kept.1 grown⟩
  | counted _ asked => exact kept
  | swapped asked full => exact fun c k member rewrote => kept c k member (rewritten c k member rewrote)
  | begun asked full _ => exact fun c k member rewrote => kept c k member (rewritten c k member rewrote)
  | reading asked full _ since =>
    obtain ⟨fullFrom, old, read, rest⟩ := kept
    exact ⟨fullFrom, Nat.le_trans old longer, read, fun c k member rewrote => rest c k member (rewritten c k member rewrote)⟩
  | ended asked made =>
    refine ⟨fun i same => (kept.1 i same).grown grown, fun succeeded => ?_⟩
    obtain ⟨read, full⟩ := kept.2 succeeded
    exact ⟨read, fun c k member rewrote => full c k member (rewritten c k member rewrote)⟩
  | telling _ made => exact fun i same => (kept i same).grown grown
  | first | tracked | waiting | asked | idle | quieting => trivial

theorem EntryKept.grown (kept : EntryKept db e) (grown : Grown db db')
    (same : e.phase.unbuilt = true → db'.state e.materializer.asset = db.state e.materializer.asset) : EntryKept db' e :=
  ⟨kept.ledger.grown grown, kept.asking, kept.unbuilt, kept.owed, kept.phase.grown kept.ledger grown same⟩

/-! ## The steps of an asset's loop -/

variable {db : Db} {e : Entry}

theorem Ledger.turn (ledger : Ledger db e) (needsFull dirty : Bool) (phase : Phase) :
    Ledger db { e with needsFull, dirty, phase } :=
  ⟨ledger.bound, ledger.ticket, ledger.stored, ledger.rewrote, ledger.inFlight, ledger.read, ledger.full, ledger.fullBound⟩

/-- A step that leaves the counters alone, and takes nothing of `needs_full`. -/
theorem EntryKept.turn (kept : EntryKept db e) (dirty : Bool)
    (asking : ∀ a, phase.asking = some a → e.phase.asking = some a ∨ a = e.wanted)
    (unbuilt : phase.unbuilt = true → e.phase.unbuilt = true) (carries : ∀ c ∈ e.stored, e.phase.Carries c → phase.Carries c)
    (known : PhaseKept db e phase) : EntryKept db { e with dirty, phase } := by
  refine ⟨kept.ledger.turn e.needsFull dirty phase, ?_, fun stays => kept.unbuilt (unbuilt stays), ?_, known⟩
  · intro a asks
    rcases asking a asks with before | rfl
    · exact kept.asking a before
    · exact ⟨kept.ledger.bound, Nat.le_refl _⟩
  · intro c member
    rcases kept.owed c member with full | carried | built
    · exact .inl full
    · exact .inr (.inl (carries c member carried))
    · exact .inr (.inr built)

theorem mem_mark {commits : List Nat} {c k : Nat} : (c, k) ∈ (e.mark commits).noticed ↔ (c, k) ∈ e.noticed ∨ (c ∈ commits ∧ k = e.wanted + 1) := by
  rw [Entry.mark, List.mem_append, List.mem_map]
  simp only [Prod.mk.injEq, eq_comm (a := k)]
  constructor
  · rintro (old | ⟨a, member, rfl, same⟩)
    · exact .inl old
    · exact .inr ⟨member, same⟩
  · rintro (old | ⟨member, same⟩)
    · exact .inl old
    · exact .inr ⟨c, member, rfl, same⟩

theorem EntryKept.mark (kept : EntryKept db e) {commits : List Nat} (touched : ∀ c ∈ commits, touches db e.materializer c = true)
    (stored : ∀ c ∈ commits, rewrites db e.materializer c = true → c ∈ e.stored) : EntryKept db (e.mark commits) := by
  have ledger := kept.ledger
  -- the mark's own ticket is above every `wanted` read so far
  have old : ∀ a, a ≤ e.wanted → ∀ c k, (c, k) ∈ (e.mark commits).noticed → k ≤ a → (c, k) ∈ e.noticed := by
    intro a below c k member bound
    rcases mem_mark.mp member with old | ⟨-, same⟩
    · exact old
    · omega
  refine ⟨⟨Nat.le_succ_of_le ledger.bound, ?_, ledger.stored, ?_, ledger.inFlight, ?_, ?_, ledger.fullBound⟩, ?_, kept.unbuilt, kept.owed, ?_⟩
  · intro c k member
    rcases mem_mark.mp member with before | ⟨inside, rfl⟩
    · obtain ⟨low, high, touches⟩ := ledger.ticket c k before
      exact ⟨low, Nat.le_succ_of_le high, touches⟩
    · exact ⟨Nat.succ_pos _, Nat.le_refl _, touched c inside⟩
  · intro c k member rewrote
    rcases mem_mark.mp member with before | ⟨inside, -⟩
    · exact ledger.rewrote c k before rewrote
    · exact stored c inside rewrote
  · intro c k member done
    exact ledger.read c k (old e.done ledger.bound c k member done) done
  · intro c k member rewrote done
    exact ledger.full c k (old e.done ledger.bound c k member done) rewrote done
  · intro a asks
    exact ⟨(kept.asking a asks).1, Nat.le_succ_of_le (kept.asking a asks).2⟩
  · have known := kept.phase
    have below := fun a asks => (kept.asking a asks).2
    change PhaseKept db (e.mark commits) e.phase
    generalize e.phase = phase at known below
    cases phase with
    | counted _ asked =>
      intro c k member
      rcases mem_mark.mp member with before | ⟨-, rfl⟩
      · exact known c k before
      · exact Nat.lt_succ_of_le (below asked rfl)
    | swapped asked full => exact fun c k member rewrote bound => known c k (old asked (below asked rfl) c k member bound) rewrote bound
    | begun asked full _ => exact fun c k member rewrote bound => known c k (old asked (below asked rfl) c k member bound) rewrote bound
    | reading asked full _ since =>
      obtain ⟨fullFrom, bound, read, rest⟩ := known
      refine ⟨fullFrom, bound, ?_, ?_⟩
      · exact fun c k member within => read c k (old asked (below asked rfl) c k member within) within
      · exact fun c k member rewrote within => rest c k (old asked (below asked rfl) c k member within) rewrote within
    | ended asked made =>
      refine ⟨known.1, fun succeeded => ?_⟩
      obtain ⟨read, full⟩ := known.2 succeeded
      constructor
      · exact fun c k member within => read c k (old asked (below asked rfl) c k member within) within
      · exact fun c k member rewrote within => full c k (old asked (below asked rfl) c k member within) rewrote within
    | first | tracked | checkedInputs | checkedOutputs | current | cleared | waiting | asked | telling | idle | quieting => exact known

theorem EntryKept.note (kept : EntryKept db e) {notice : Notice} (past : ∀ c ∈ notice.commits, c < db.commits.length) :
    EntryKept db (e.note db notice) := by
  have ledger := kept.ledger
  refine ⟨⟨ledger.bound, ledger.ticket, ?_, ?_, ?_, ledger.read, ledger.full, ledger.fullBound⟩, kept.asking, kept.unbuilt, ?_, kept.phase⟩
  · intro c member
    rcases List.mem_append.mp member with old | new
    · exact ledger.stored c old
    · obtain ⟨inside, rewrote⟩ := List.mem_filter.mp new
      exact ⟨rewrote, past c inside⟩
  · intro c k member rewrote
    exact List.mem_append_left _ (ledger.rewrote c k member rewrote)
  · intro other member c inside
    rcases List.mem_append.mp member with old | new
    · obtain ⟨bound, stored⟩ := ledger.inFlight other old c inside
      exact ⟨bound, fun rewrote => List.mem_append_left _ (stored rewrote)⟩
    · rw [List.mem_singleton.mp new] at inside
      exact ⟨past c inside, fun rewrote => List.mem_append_right _ (List.mem_filter.mpr ⟨inside, rewrote⟩)⟩
  · intro c member
    rcases List.mem_append.mp member with old | new
    · rcases kept.owed c old with full | rest
      · refine .inl ?_
        rw [Entry.note]
        simp only [full, ite_self]
      · exact .inr rest
    · obtain ⟨inside, rewrote⟩ := List.mem_filter.mp new
      have any : notice.commits.any (rewrites db e.materializer) = true := List.any_eq_true.mpr ⟨c, inside, rewrote⟩
      refine .inl ?_
      rw [Entry.note]
      simp only [any, Bool.or_true, if_true]

theorem EntryKept.noteMark (kept : EntryKept db e) {notice : Notice} {later : List Notice} (first : e.noticing = notice :: later) :
    EntryKept db (e.noteMark db notice later) := by
  have ledger := kept.ledger
  have flight := ledger.inFlight notice (first ▸ List.mem_cons_self ..)
  have rest : EntryKept db { e with noticing := later } := by
    refine ⟨⟨ledger.bound, ledger.ticket, ledger.stored, ledger.rewrote, ?_, ledger.read, ledger.full, ledger.fullBound⟩,
      kept.asking, kept.unbuilt, kept.owed, kept.phase⟩
    intro other member
    exact ledger.inFlight other (first ▸ List.mem_cons_of_mem _ member)
  rw [Entry.noteMark]
  split
  · apply rest.mark
    · exact fun c member => (List.mem_filter.mp member).2
    · exact fun c member rewrote => (flight c (List.mem_filter.mp member).1).2 rewrote
  · exact rest

/-! ### The first-build check -/

/-- What an earlier run left of an asset: a commit to one of its inputs has moved its generation since. -/
def Past (db : Db) (asset : String) : Prop :=
  ∀ built, db.state asset = some built → ∀ entry ∈ built.inputs, db.tracked entry.1 = true ∧ entry.2 ≤ db.gen entry.1 ∧
    ∀ (c : Nat) (changed : Database.Changed), db.commits[c]? = some changed → entry.1 ∈ changed.tables → entry.2 < db.gen entry.1

theorem Past.unmoved (past : Past db m.asset) : Unmoved db m db.commits.length (db.generations m.inputs) := by
  intro built stored same c _
  by_contra touched
  obtain ⟨changed, found, t, input, inside⟩ := touches_iff.mp (eq_true_of_ne_false touched)
  have read : (t, db.gen t) ∈ built.inputs := by
    rw [Db.generations] at same
    split at same
    · rw [← Option.some.inj same]
      exact List.mem_map.mpr ⟨t, input, rfl⟩
    · cases same
  exact absurd ((past built stored _ read).2.2 c changed found inside) (Nat.lt_irrefl _)

/-- A check that found the asset current, and no notice that it missed, takes nothing back. -/
theorem EntryKept.clear (kept : EntryKept db e) (sound : Sound db) (phase : e.phase = .current since)
    (undisturbed : ∀ c ∈ e.stored, c < since) : EntryKept db { e with needsFull := false, phase := .cleared since } := by
  have known := kept.phase
  rw [phase] at known
  have none : ∀ c, c ∉ e.stored := by
    intro c member
    have touched := touches_of_rewrites sound (kept.ledger.stored c member).1
    rw [known.2 c (undisturbed c member)] at touched
    cases touched
  refine ⟨kept.ledger.turn false e.dirty (.cleared since), fun a asks => (nomatch asks), fun _ => kept.unbuilt ?_, ?_, known⟩
  · rw [phase]
    rfl
  · exact fun c member => absurd member (none c)

theorem EntryKept.count (kept : EntryKept db e) (phase : e.phase = .cleared since)
    (undisturbed : ∀ c k, (c, k) ∈ e.noticed → c < since) : EntryKept db { e with phase := .counted since e.wanted } := by
  have known := kept.phase
  rw [phase] at known
  have none : ∀ c k, (c, k) ∉ e.noticed := by
    intro c k member
    have touched := (kept.ledger.ticket c k member).2.2
    rw [known.2 c (undisturbed c k member)] at touched
    cases touched
  refine kept.turn e.dirty (fun a asks => .inr (Option.some.inj asks).symm) (fun _ => ?_) ?_ ?_
  · rw [phase]
    rfl
  · intro c _ carried
    rw [phase] at carried
    exact carried.elim
  · exact fun c k member => absurd member (none c k)

variable {asked : Nat}

theorem EntryKept.settleChecked (kept : EntryKept db e) (phase : e.phase = .counted since asked) :
    EntryKept db { e with done := max e.done asked, readFrom := since, failed := false, phase := .idle } := by
  have ledger := kept.ledger
  have known := kept.phase
  rw [phase] at known
  obtain ⟨-, bound⟩ := kept.asking asked (by rw [phase]; rfl)
  obtain ⟨undone, -⟩ := kept.unbuilt (by rw [phase]; rfl)
  -- every mark that is noticed came after `wanted` was read
  have later : ∀ c k, (c, k) ∈ e.noticed → ¬ k ≤ max e.done asked := by
    intro c k member within
    have first := (ledger.ticket c k member).1
    have after := known c k member
    omega
  refine ⟨⟨?_, ledger.ticket, ledger.stored, ledger.rewrote, ledger.inFlight, ?_, ?_, ledger.fullBound⟩, fun a asks => (nomatch asks),
    fun stays => (nomatch stays), ?_, trivial⟩
  · exact Nat.max_le.mpr ⟨ledger.bound, bound⟩
  · exact fun c k member within => absurd within (later c k member)
  · exact fun c k member _ within => absurd within (later c k member)
  · intro c member
    have owed := kept.owed c member
    rw [phase] at owed
    exact owed

/-! ### A recompute -/

theorem EntryKept.swap (kept : EntryKept db e) (phase : e.phase = .asked asked) :
    EntryKept db { e with needsFull := false, phase := .swapped asked e.needsFull } := by
  have owed : ∀ c ∈ e.stored, e.needsFull = true ∨ c < e.fullFrom := by
    intro c member
    have owed := kept.owed c member
    rw [phase] at owed
    rcases owed with full | none | built
    · exact .inl full
    · exact none.elim
    · exact .inr built
  refine ⟨kept.ledger.turn false e.dirty (.swapped asked e.needsFull), fun a asks => ?_, fun stays => (nomatch stays), ?_, ?_⟩
  · obtain rfl : asked = a := Option.some.inj asks
    exact kept.asking asked (by rw [phase]; rfl)
  · intro c member
    rcases owed c member with full | built
    · refine .inr (.inl ?_)
      rw [full]
      trivial
    · exact .inr (.inr built)
  · exact fun c k member rewrote _ => owed c (kept.ledger.rewrote c k member rewrote)

variable {full : Bool}

/-- A recompute that fails puts back what it took. -/
theorem EntryKept.fail (kept : EntryKept db e) (asks : e.phase.asking = some asked)
    (carried : ∀ c, e.phase.Carries c → full = true) : EntryKept db (e.fail asked full) := by
  have ledger := kept.ledger
  refine ⟨⟨ledger.bound, ledger.ticket, ledger.stored, ledger.rewrote, ledger.inFlight, fun _ _ _ _ failed => (nomatch failed),
    fun _ _ _ _ _ failed => (nomatch failed), ledger.fullBound⟩, fun a same => ?_, fun stays => (nomatch stays), ?_, ?_⟩
  · obtain rfl : asked = a := Option.some.inj same
    exact kept.asking asked asks
  · intro c member
    rcases kept.owed c member with needed | carries | built
    · refine .inl ?_
      rw [Entry.fail]
      simp only [needed, ite_self]
    · refine .inl ?_
      rw [Entry.fail, carried c carries]
      rfl
    · exact .inr (.inr built)
  · exact ⟨fun i same => (nomatch same), fun failed => (nomatch failed)⟩

theorem EntryKept.readGenerations (kept : EntryKept db e) (phase : e.phase = .swapped asked full) (inputs : Option Generations) :
    EntryKept db { e with phase := .begun asked full inputs } := by
  have known := kept.phase
  rw [phase] at known
  refine kept.turn e.dirty (fun a asks => .inl ?_) (fun stays => (nomatch stays)) ?_ known
  · rw [phase]
    exact asks
  · intro c _ carried
    rw [phase] at carried
    cases full with
    | true => trivial
    | false => exact carried.elim

theorem EntryKept.begin (kept : EntryKept db e) (phase : e.phase = .begun asked full inputs) :
    EntryKept db { e with phase := .reading asked full inputs db.commits.length } := by
  have known := kept.phase
  rw [phase] at known
  refine kept.turn e.dirty (fun a asks => .inl ?_) (fun stays => (nomatch stays)) ?_ ⟨kept.ledger.fullBound, Nat.le_refl _, ?_, known⟩
  · rw [phase]
    exact asks
  · intro c member carried
    rw [phase] at carried
    cases full with
    | true => exact (kept.ledger.stored c member).2
    | false => exact carried.elim
  · exact fun c k member _ => lt_of_touches (kept.ledger.ticket c k member).2.2

/-- A recompute that succeeds read every commit noticed before its `wanted` was read. -/
theorem EntryKept.finish (kept : EntryKept db e) {made : Nat} (phase : e.phase = .reading asked full inputs since)
    (inserted : Inserted db made) : EntryKept db (e.finish asked full since made) := by
  have ledger := kept.ledger
  have known := kept.phase
  rw [phase] at known
  obtain ⟨earlier, bound, read, rest⟩ := known
  obtain ⟨doneAsked, askedWanted⟩ := kept.asking asked (by rw [phase]; rfl)
  have built : ∀ c k, (c, k) ∈ e.noticed → rewrites db e.materializer c = true → k ≤ asked → c < if full then since else e.fullFrom := by
    intro c k member rewrote within
    rcases rest c k member rewrote within with rfl | before
    · exact read c k member within
    · split
      · exact Nat.lt_of_lt_of_le before earlier
      · exact before
  refine ⟨⟨ledger.bound, ledger.ticket, ledger.stored, ledger.rewrote, ledger.inFlight, ?_, ?_, ?_⟩, fun a same => ?_,
    fun stays => (nomatch stays), ?_, ?_⟩
  · exact fun c k member within _ => read c k member (Nat.le_trans within doneAsked)
  · exact fun c k member rewrote within _ => built c k member rewrote (Nat.le_trans within doneAsked)
  · rw [Entry.finish]
    simp only
    split
    · exact bound
    · exact ledger.fullBound
  · obtain rfl : asked = a := Option.some.inj same
    exact ⟨doneAsked, askedWanted⟩
  · intro c member
    have owed := kept.owed c member
    rw [phase] at owed
    rcases owed with needed | carries | before
    · exact .inl needed
    · refine .inr (.inr ?_)
      cases full with
      | true => exact carries
      | false => exact carries.elim
    · refine .inr (.inr ?_)
      rw [Entry.finish]
      simp only
      split
      · exact Nat.lt_of_lt_of_le before earlier
      · exact before
  · refine ⟨fun i same => Option.some.inj same ▸ inserted, fun _ => ⟨?_, ?_⟩⟩
    · exact fun c k member within => read c k member within
    · exact fun c k member rewrote within => built c k member rewrote within

theorem EntryKept.settleBuilt (kept : EntryKept db e) {made : Option Nat} (phase : e.phase = .ended asked made) (left : List Nat) :
    EntryKept db { e with done := max e.done asked, phase := .telling left made } := by
  have ledger := kept.ledger
  have known := kept.phase
  rw [phase] at known
  obtain ⟨doneAsked, askedWanted⟩ := kept.asking asked (by rw [phase]; rfl)
  have within : max e.done asked = asked := Nat.max_eq_right doneAsked
  refine ⟨⟨?_, ledger.ticket, ledger.stored, ledger.rewrote, ledger.inFlight, ?_, ?_, ledger.fullBound⟩, fun a asks => (nomatch asks),
    fun stays => (nomatch stays), ?_, known.1⟩
  · exact within.symm ▸ askedWanted
  · exact fun c k member bound succeeded => (known.2 succeeded).1 c k member (within ▸ bound)
  · exact fun c k member rewrote bound succeeded => (known.2 succeeded).2 c k member rewrote (within ▸ bound)
  · intro c member
    have owed := kept.owed c member
    rw [phase] at owed
    exact owed

theorem entryKept_register (m : Materializer) : EntryKept db (Entry.register db m) := by
  have ticket : ∀ c k, (c, k) ∈ (Entry.register db m).noticed → k = 1 ∧ c < db.commits.length ∧ touches db m c = true := by
    intro c k member
    obtain ⟨a, inside, same⟩ := List.mem_map.mp member
    obtain ⟨rfl, rfl⟩ := Prod.mk.inj same
    obtain ⟨range, touched⟩ := List.mem_filter.mp inside
    exact ⟨rfl, List.mem_range.mp range, touched⟩
  have phase : (Entry.register db m).phase = .idle ∨ (Entry.register db m).phase = .first := by
    cases clocked : m.clocked with
    | true => exact .inl (by simp [Entry.register, clocked])
    | false => exact .inr (by simp [Entry.register, clocked])
  refine ⟨⟨Nat.zero_le _, ?_, ?_, ?_, fun _ member => (nomatch member), ?_, ?_, Nat.zero_le _⟩, ?_, fun _ => ⟨rfl, rfl⟩, fun _ _ => .inl rfl, ?_⟩
  · intro c k member
    obtain ⟨rfl, -, touched⟩ := ticket c k member
    exact ⟨Nat.le_refl _, Nat.le_refl _, touched⟩
  · intro c member
    obtain ⟨range, rewrote⟩ := List.mem_filter.mp member
    exact ⟨rewrote, List.mem_range.mp range⟩
  · intro c k member rewrote
    exact List.mem_filter.mpr ⟨List.mem_range.mpr (ticket c k member).2.1, rewrote⟩
  · intro c k member within
    rw [(ticket c k member).1] at within
    exact absurd within (Nat.not_succ_le_zero 0)
  · intro c k member _ within
    rw [(ticket c k member).1] at within
    exact absurd within (Nat.not_succ_le_zero 0)
  · intro a asks
    rcases phase with idle | first
    · rw [idle] at asks
      cases asks
    · rw [first] at asks
      cases asks
  · rcases phase with idle | first
    · rw [idle]
      trivial
    · rw [first]
      trivial

/-! ## The runner -/

structure Kept (s : Runner) : Prop where
  sound : Sound s.db
  entries : ∀ (i : Nat) (e : Entry), s.entries[i]? = some e → EntryKept s.db e
  names : (s.entries.map fun e => e.materializer.asset).Nodup
  past : ∀ asset, (∀ e ∈ s.entries, e.materializer.asset = asset → e.phase.unbuilt = true) → Past s.db asset

variable {s : Runner}

/-- An asset has one entry. -/
theorem Kept.alone (kept : Kept s) {e' : Entry} (member : e ∈ s.entries) (member' : e' ∈ s.entries)
    (same : e.materializer.asset = e'.materializer.asset) : e = e' :=
  List.inj_on_of_nodup_map kept.names member member' same

theorem Kept.set (kept : Kept s) {i : Nat} {e' : Entry} (found : s.entries[i]? = some e) (entry : EntryKept s.db e')
    (same : e'.materializer = e.materializer) (unbuilt : e'.phase.unbuilt = true → e.phase.unbuilt = true) :
    Kept (s.set i e') := by
  obtain ⟨bound, here⟩ := List.getElem?_eq_some_iff.mp found
  refine ⟨kept.sound, ?_, ?_, ?_⟩
  · intro j other found'
    by_cases at_ : j = i
    · subst at_
      rw [Runner.set, List.getElem?_set_self bound] at found'
      exact Option.some.inj found' ▸ entry
    · rw [Runner.set, List.getElem?_set_ne (Ne.symm at_)] at found'
      exact kept.entries j other found'
  · have names : ((s.set i e').entries.map fun e => e.materializer.asset) = s.entries.map fun e => e.materializer.asset := by
      rw [Runner.set, List.map_set, same, ← here]
      apply List.ext_getElem?
      intro j
      by_cases at_ : j = i
      · subst at_
        rw [List.getElem?_set_self (by simpa using bound), List.getElem?_map, found, here]
        rfl
      · rw [List.getElem?_set_ne (Ne.symm at_)]
    rw [names]
    exact kept.names
  · intro asset all
    apply kept.past
    intro other member named
    obtain ⟨j, hj⟩ := List.mem_iff_getElem?.mp member
    by_cases at_ : j = i
    · subst at_
      obtain rfl : e = other := Option.some.inj (found.symm.trans hj)
      refine unbuilt (all e' ?_ (same ▸ named))
      exact List.mem_iff_getElem?.mpr ⟨j, by rw [Runner.set, List.getElem?_set_self bound]⟩
    · refine all other ?_ named
      exact List.mem_iff_getElem?.mpr ⟨j, by rw [Runner.set, List.getElem?_set_ne (Ne.symm at_)]; exact hj⟩

theorem Kept.withDb (kept : Kept s) (grown : Grown s.db db) (sound : Sound db)
    (state : ∀ e ∈ s.entries, e.phase.unbuilt = true → db.state e.materializer.asset = s.db.state e.materializer.asset)
    (past : ∀ asset, (∀ e ∈ s.entries, e.materializer.asset = asset → e.phase.unbuilt = true) → Past s.db asset → Past db asset) :
    Kept { s with db } := by
  refine ⟨sound, ?_, kept.names, fun asset all => past asset all (kept.past asset all)⟩
  intro i e found
  exact (kept.entries i e found).grown grown (state e (List.mem_of_getElem? found))

theorem Past.commit {asset : String} (past : Past db asset) (inserted rewrote : Finset String) (rows : String → Nat) :
    Past (db.commit inserted rewrote rows) asset := by
  intro built stored entry member
  obtain ⟨tracked, low, moved⟩ := past built stored entry member
  have grows : db.gen entry.1 ≤ (db.commit inserted rewrote rows).gen entry.1 := by
    simp only [Db.commit]
    split
    · omega
    · exact Nat.le_refl _
  refine ⟨tracked, Nat.le_trans low grows, ?_⟩
  intro c changed found inside
  rw [Db.commit] at found
  rcases Nat.lt_or_ge c db.commits.length with old | new
  · rw [List.getElem?_append_left old] at found
    exact Nat.lt_of_lt_of_le (moved c changed found inside) grows
  · rw [List.getElem?_append_right new] at found
    obtain rfl : Database.Changed.mk (inserted ∪ rewrote) rewrote = changed :=
      List.mem_singleton.mp (List.mem_of_getElem? found) |>.symm
    have bumped : (db.commit inserted rewrote rows).gen entry.1 = db.gen entry.1 + rows entry.1 + 1 := if_pos ⟨inside, tracked⟩
    rw [bumped]
    omega

theorem Kept.commit (kept : Kept s) (inserted rewrote : Finset String) (rows : String → Nat) :
    Kept { s with db := s.db.commit inserted rewrote rows } :=
  kept.withDb (.commit ..) (sound_commit kept.sound _ _ _) (fun _ _ _ => rfl) fun _ _ past => past.commit _ _ _

theorem Kept.register (kept : Kept s) (fresh : ¬ (s.entries.any fun e => e.materializer.asset == m.asset) = true) :
    Kept { s with entries := s.entries ++ [Entry.register s.db m] } := by
  refine ⟨kept.sound, ?_, ?_, ?_⟩
  · intro i e found
    rcases Nat.lt_or_ge i s.entries.length with old | new
    · rw [List.getElem?_append_left old] at found
      exact kept.entries i e found
    · rw [List.getElem?_append_right new] at found
      rw [List.mem_singleton.mp (List.mem_of_getElem? found)]
      exact entryKept_register m
  · rw [List.map_append]
    refine List.nodup_append.mpr ⟨kept.names, List.nodup_singleton _, ?_⟩
    intro name member other last same
    obtain ⟨e, inside, rfl⟩ := List.mem_map.mp member
    rw [List.mem_singleton.mp last] at same
    exact fresh (List.any_eq_true.mpr ⟨e, inside, beq_iff_eq.mpr same⟩)
  · intro asset all
    exact kept.past asset fun e member => all e (List.mem_append_left _ member)

theorem Kept.tell (kept : Kept s) (m : Materializer) {made : Option Nat} (inserted : ∀ i, made = some i → Inserted s.db i)
    (j : Nat) : Kept (s.tell m made j) := by
  rw [Runner.tell]
  split
  swap
  · exact kept
  rename_i d found
  split
  swap
  · exact kept
  refine kept.set found ((kept.entries j d found).mark ?_ ?_) rfl id
  · exact fun c member => (List.mem_filter.mp member).2
  · intro c member rewrote
    obtain ⟨changed, stored, nothing⟩ := inserted c (Option.mem_toList.mp (List.mem_filter.mp member).1)
    obtain ⟨changed', stored', t, -, inside⟩ := rewrites_iff.mp rewrote
    obtain rfl := Option.some.inj (stored.symm.trans stored')
    rw [nothing] at inside
    exact absurd inside (Finset.notMem_empty t)

/-- Recording what an asset was built from says nothing of the others. -/
theorem Kept.record (kept : Kept s) (member : e ∈ s.entries) (built : e.phase.unbuilt = false) (inputs : Option Generations) :
    Kept (s.record e.materializer inputs) := by
  have other : ∀ e' ∈ s.entries, e'.phase.unbuilt = true → e'.materializer.asset ≠ e.materializer.asset := by
    intro e' member' unbuilt same
    rw [kept.alone member' member same, built] at unbuilt
    cases unbuilt
  refine kept.withDb (.refl _) kept.sound ?_ ?_
  · intro e' member' unbuilt
    exact Function.update_of_ne (other e' member' unbuilt) _ _
  · intro asset all past
    have apart : asset ≠ e.materializer.asset := by
      rintro rfl
      have unbuilt := all e member rfl
      rw [built] at unbuilt
      cases unbuilt
    intro from_ stored
    simp only [Function.update_of_ne apart] at stored
    exact past from_ stored

/-! ## Runs -/

/-- The first-build check's bookkeeping comes before the notice of any commit that its read did
not see. -/
def undisturbed (e : Entry) : EntryEvent → Bool
  | .clear =>
    match e.phase with
    | .current since => e.stored.all (· < since)
    | _ => true
  | .count =>
    match e.phase with
    | .cleared since => e.noticed.all (·.1 < since)
    | _ => true
  | _ => true

def Undisturbed (s : Runner) : Event → Prop
  | .entry i event => (s.entries[i]?).all (undisturbed · event) = true
  | _ => True

instance : (s : Runner) → (event : Event) → Decidable (Undisturbed s event)
  | s, .entry i event => inferInstanceAs (Decidable ((s.entries[i]?).all (undisturbed · event) = true))
  | _, .commit _ _ _ => inferInstanceAs (Decidable True)
  | _, .register _ => inferInstanceAs (Decidable True)

theorem kept_start (disk : Disk) : Kept (.start disk) := by
  refine ⟨fun _ member => (nomatch member), fun _ _ found => (nomatch found), List.nodup_nil, fun asset _ built stored entry member => ?_⟩
  obtain ⟨tracked, low⟩ := disk.past asset built stored entry member
  exact ⟨tracked, low, fun _ _ found => (nomatch found)⟩

variable {s next : Runner} {i : Nat}

/-- A turn of its loop that moves no counter. -/
theorem Kept.turn (kept : Kept s) (found : s.entries[i]? = some e) (dirty : Bool)
    (asking : ∀ a, phase.asking = some a → e.phase.asking = some a ∨ a = e.wanted)
    (unbuilt : phase.unbuilt = true → e.phase.unbuilt = true) (carries : ∀ c ∈ e.stored, e.phase.Carries c → phase.Carries c)
    (known : PhaseKept s.db e phase) : Kept (s.set i { e with dirty, phase }) :=
  kept.set found ((kept.entries i e found).turn dirty asking unbuilt carries known) rfl unbuilt

theorem Kept.track (kept : Kept s) (found : s.entries[i]? = some e) (phase : e.phase = .first) (made : List String) :
    Kept { s.set i { e with phase := .tracked } with db := { s.db with tracked := fun t => s.db.tracked t || made.contains t } } := by
  have turned : Kept (s.set i { e with phase := .tracked }) := by
    refine kept.turn found e.dirty (fun a asks => (nomatch asks)) (fun _ => ?_) ?_ trivial
    · rw [phase]
      rfl
    · intro c _ carried
      rw [phase] at carried
      exact carried.elim
  refine turned.withDb (.refl _) turned.sound (fun _ _ _ => rfl) ?_
  intro asset _ past built stored entry member
  obtain ⟨tracked, rest⟩ := past built stored entry member
  exact ⟨by simp only [show s.db.tracked entry.1 = true from tracked, Bool.true_or], rest⟩

/-- Nobody else writes what a check reads of its asset. -/
theorem Kept.past_of (kept : Kept s) (found : s.entries[i]? = some e) (unbuilt : e.phase.unbuilt = true) : Past s.db e.materializer.asset := by
  apply kept.past
  intro other member same
  rw [kept.alone member (List.mem_of_getElem? found) same]
  exact unbuilt

/-- It looks at the assets it reads, and its `needs_full` is as it was. -/
theorem Kept.wait (kept : Kept s) (found : s.entries[i]? = some e) (rests : ∀ c, ¬ e.phase.Carries c) (dirty : Bool)
    (asking : ∀ a, phase.asking = some a → a = e.wanted) (built : phase.unbuilt = false) (known : PhaseKept s.db e phase) :
    Kept (s.set i { e with dirty, phase }) := by
  refine kept.turn found dirty (fun a asks => .inr (asking a asks)) (fun unbuilt => ?_) (fun c _ carried => (rests c carried).elim) known
  rw [built] at unbuilt
  cases unbuilt

theorem Kept.readState (kept : Kept s) (found : s.entries[i]? = some e) {outputs : Option Generations}
    (phase : e.phase = .checkedOutputs since inputs outputs) {read : Generations} (whole : inputs = some read) {built : BuiltFrom}
    (stored : s.db.state e.materializer.asset = some built) (same : built.inputs = read) :
    Kept (s.set i { e with phase := .current since }) := by
  have known := (kept.entries i e found).phase
  rw [phase] at known
  refine kept.turn found e.dirty (fun a asks => (nomatch asks)) (fun _ => ?_) ?_ ⟨known.1, known.2 built stored ?_⟩
  · rw [phase]
    rfl
  · intro c _ carried
    rw [phase] at carried
    exact carried.elim
  · rw [whole, same]

/-- The recompute's own commit, which rewrites nothing, and what is recorded of it. -/
theorem Kept.finish (kept : Kept s) (found : s.entries[i]? = some e) {recorded : Bool}
    (phase : e.phase = .reading asked full inputs since) {made : Runner}
    (committed : made = { s.set i (e.finish asked full since s.db.commits.length) with db := s.db.commit {e.materializer.asset} ∅ fun _ => 0 }) :
    Kept (if recorded then made.record e.materializer inputs else made) := by
  have grown := kept.commit {e.materializer.asset} ∅ fun _ => 0
  have inserted : Inserted (s.db.commit {e.materializer.asset} ∅ fun _ => 0) s.db.commits.length :=
    ⟨⟨{e.materializer.asset} ∪ ∅, ∅⟩, List.getElem?_concat_length, rfl⟩
  have keptMade : Kept made := by
    rw [committed]
    exact grown.set found ((grown.entries i e found).finish phase inserted) rfl fun unbuilt => (nomatch unbuilt)
  split
  swap
  · exact keptMade
  have member : e.finish asked full since s.db.commits.length ∈ made.entries := by
    rw [committed]
    exact List.mem_iff_getElem?.mpr ⟨i, List.getElem?_set_self (List.getElem?_eq_some_iff.mp found).1⟩
  exact keptMade.record member rfl inputs

theorem kept_entryStep {event : EntryEvent} (kept : Kept s) (found : s.entries[i]? = some e) (quiet : undisturbed e event = true)
    (moves : s.entryStep i e event = some next) : Kept next := by
  have entry := kept.entries i e found
  cases event with
  | note commits =>
    rw [Runner.entryStep] at moves
    split at moves
    · cases moves
    split at moves
    swap
    · cases moves
    rename_i past
    obtain rfl := Option.some.inj moves
    refine kept.set found (entry.note fun c member => ?_) rfl id
    exact of_decide_eq_true (List.all_eq_true.mp past c member)
  | noteAll =>
    rw [Runner.entryStep] at moves
    split at moves
    · cases moves
    obtain rfl := Option.some.inj moves
    exact kept.set found (entry.note fun c member => List.mem_range.mp member) rfl id
  | mark =>
    rw [Runner.entryStep] at moves
    split at moves
    swap
    · cases moves
    rename_i notice later first
    obtain rfl := Option.some.inj moves
    have same : (e.noteMark s.db notice later).materializer = e.materializer ∧ (e.noteMark s.db notice later).phase = e.phase := by
      rw [Entry.noteMark]
      split
      · exact ⟨rfl, rfl⟩
      · exact ⟨rfl, rfl⟩
    exact kept.set found (entry.noteMark first) same.1 fun unbuilt => same.2 ▸ unbuilt
  | track made =>
    rw [Runner.entryStep] at moves
    split at moves
    swap
    · cases moves
    rename_i phase
    obtain rfl := Option.some.inj moves
    exact kept.track found phase made
  | readInputs =>
    rw [Runner.entryStep] at moves
    split at moves
    swap
    · cases moves
    rename_i phase
    obtain rfl := Option.some.inj moves
    have unbuilt : e.phase.unbuilt = true := by
      rw [phase]
      rfl
    refine kept.turn found e.dirty (fun a asks => (nomatch asks)) (fun _ => unbuilt) ?_
      ⟨Nat.le_refl _, (kept.past_of found unbuilt).unmoved⟩
    intro c _ carried
    rw [phase] at carried
    exact carried.elim
  | readOutputs =>
    rw [Runner.entryStep] at moves
    split at moves
    swap
    · cases moves
    rename_i since inputs phase
    obtain rfl := Option.some.inj moves
    have known := entry.phase
    rw [phase] at known
    refine kept.turn found e.dirty (fun a asks => (nomatch asks)) (fun _ => ?_) ?_ known
    · rw [phase]
      rfl
    · intro c _ carried
      rw [phase] at carried
      exact carried.elim
  | readState =>
    rw [Runner.entryStep] at moves
    split at moves
    · rename_i since inputs outputs phase
      split at moves
      · rename_i stored
        obtain rfl := Option.some.inj moves
        exact kept.readState found phase rfl stored rfl
      · obtain rfl := Option.some.inj moves
        exact kept.wait found (by simp [phase, Phase.Carries]) e.dirty (fun a asks => (nomatch asks)) rfl trivial
    · rename_i phase
      obtain rfl := Option.some.inj moves
      exact kept.wait found (by simp [phase, Phase.Carries]) e.dirty (fun a asks => (nomatch asks)) rfl trivial
    · cases moves
  | clear =>
    rw [Runner.entryStep] at moves
    split at moves
    swap
    · cases moves
    rename_i since phase
    obtain rfl := Option.some.inj moves
    simp only [undisturbed, phase, List.all_eq_true, decide_eq_true_eq] at quiet
    refine kept.set found (entry.clear kept.sound phase quiet) rfl fun _ => ?_
    rw [phase]
    rfl
  | count =>
    rw [Runner.entryStep] at moves
    split at moves
    swap
    · cases moves
    rename_i since phase
    obtain rfl := Option.some.inj moves
    simp only [undisturbed, phase, List.all_eq_true, decide_eq_true_eq] at quiet
    refine kept.set found (entry.count phase fun c k member => quiet (c, k) member) rfl fun _ => ?_
    rw [phase]
    rfl
  | look =>
    rw [Runner.entryStep] at moves
    split at moves
    · rename_i phase
      obtain rfl := Option.some.inj moves
      exact kept.wait found (by simp [phase, Phase.Carries]) e.dirty (fun a asks => (Option.some.inj asks).symm) rfl trivial
    · rename_i up left phase
      have rests : ∀ c, ¬ e.phase.Carries c := by simp [phase, Phase.Carries]
      split at moves
      · obtain rfl := Option.some.inj moves
        exact kept.wait found rests e.dirty (fun a asks => (nomatch asks)) rfl trivial
      · obtain rfl := Option.some.inj moves
        exact kept.wait found rests e.dirty (fun a asks => (nomatch asks)) rfl trivial
    · cases moves
  | swap =>
    rw [Runner.entryStep] at moves
    split at moves
    swap
    · cases moves
    rename_i asked phase
    obtain rfl := Option.some.inj moves
    exact kept.set found (entry.swap phase) rfl fun unbuilt => (nomatch unbuilt)
  | logFailed =>
    rw [Runner.entryStep] at moves
    split at moves
    swap
    · cases moves
    rename_i asked full phase
    obtain rfl := Option.some.inj moves
    refine kept.set found (entry.fail (by rw [phase]; rfl) fun c carried => ?_) rfl fun unbuilt => (nomatch unbuilt)
    rw [phase] at carried
    cases full with
    | true => rfl
    | false => exact carried.elim
  | readGenerations =>
    rw [Runner.entryStep] at moves
    split at moves
    swap
    · cases moves
    rename_i asked full phase
    obtain rfl := Option.some.inj moves
    exact kept.set found (entry.readGenerations phase _) rfl fun unbuilt => (nomatch unbuilt)
  | begin =>
    rw [Runner.entryStep] at moves
    split at moves
    swap
    · cases moves
    rename_i asked full inputs phase
    obtain rfl := Option.some.inj moves
    exact kept.set found (entry.begin phase) rfl fun unbuilt => (nomatch unbuilt)
  | fail =>
    rw [Runner.entryStep] at moves
    split at moves
    swap
    · cases moves
    rename_i asked full inputs since phase
    obtain rfl := Option.some.inj moves
    refine kept.set found (entry.fail (by rw [phase]; rfl) fun c carried => ?_) rfl fun unbuilt => (nomatch unbuilt)
    rw [phase] at carried
    cases full with
    | true => rfl
    | false => exact carried.elim
  | finish recorded =>
    rw [Runner.entryStep] at moves
    split at moves
    swap
    · cases moves
    rename_i asked full inputs since phase
    obtain rfl := Option.some.inj moves
    exact kept.finish found phase rfl
  | settle =>
    rw [Runner.entryStep] at moves
    split at moves
    · rename_i since asked phase
      obtain rfl := Option.some.inj moves
      exact kept.set found (entry.settleChecked phase) rfl fun unbuilt => (nomatch unbuilt)
    · rename_i asked made phase
      obtain rfl := Option.some.inj moves
      exact kept.set found (entry.settleBuilt phase _) rfl fun unbuilt => (nomatch unbuilt)
    · cases moves
  | tell =>
    rw [Runner.entryStep] at moves
    have known := entry.phase
    split at moves
    · rename_i phase
      obtain rfl := Option.some.inj moves
      exact kept.wait found (by simp [phase, Phase.Carries]) e.dirty (fun a asks => (nomatch asks)) rfl trivial
    · rename_i j left made phase
      obtain rfl := Option.some.inj moves
      rw [phase] at known
      have told : Kept (s.set i { e with phase := .telling left made }) :=
        kept.wait found (by simp [phase, Phase.Carries]) e.dirty (fun a asks => (nomatch asks)) rfl known
      exact told.tell e.materializer known j
    · cases moves
  | wake =>
    rw [Runner.entryStep] at moves
    split at moves
    swap
    · cases moves
    rename_i phase
    split at moves
    swap
    · cases moves
    obtain rfl := Option.some.inj moves
    exact kept.wait found (by simp [phase, Phase.Carries]) false (fun a asks => (nomatch asks)) rfl trivial
  | again =>
    rw [Runner.entryStep] at moves
    split at moves
    swap
    · cases moves
    rename_i phase
    split at moves
    swap
    · cases moves
    obtain rfl := Option.some.inj moves
    refine kept.turn found false (fun a asks => .inl asks) id (fun _ _ carried => carried) entry.phase
  | timeout =>
    rw [Runner.entryStep] at moves
    split at moves
    swap
    · cases moves
    rename_i phase
    obtain rfl := Option.some.inj moves
    have rests : ∀ c, ¬ e.phase.Carries c := by simp [phase, Phase.Carries]
    split
    · exact kept.wait found rests e.dirty (fun a asks => (nomatch asks)) rfl trivial
    · exact kept.wait found rests e.dirty (fun a asks => (nomatch asks)) rfl trivial
  | tick =>
    rw [Runner.entryStep] at moves
    split at moves
    swap
    · cases moves
    rename_i phase
    split at moves
    swap
    · cases moves
    obtain rfl := Option.some.inj moves
    have marked : EntryKept s.db (e.mark []) := entry.mark (fun _ none => absurd none List.not_mem_nil) fun _ none => absurd none List.not_mem_nil
    refine kept.set found (marked.turn true (fun a asks => (nomatch asks)) (fun unbuilt => (nomatch unbuilt)) ?_ trivial) rfl
      fun unbuilt => (nomatch unbuilt)
    intro c _ carried
    change e.phase.Carries c at carried
    rw [phase] at carried
    exact carried.elim

theorem kept_step {event : Event} {out : Unit} (kept : Kept s) (quiet : Undisturbed s event) (moves : s.step event = some (next, out)) :
    Kept next := by
  cases event with
  | commit inserted rewrote rows =>
    obtain ⟨rfl, -⟩ := Prod.mk.inj (Option.some.inj moves)
    exact kept.commit inserted rewrote rows
  | register m =>
    rw [Runner.step] at moves
    split at moves
    · cases moves
    rename_i fresh
    obtain ⟨rfl, -⟩ := Prod.mk.inj (Option.some.inj moves)
    exact kept.register fresh
  | entry i event =>
    rw [Runner.step] at moves
    split at moves
    swap
    · cases moves
    rename_i e found
    obtain ⟨stepped, went, same⟩ := Option.map_eq_some_iff.mp moves
    obtain ⟨rfl, -⟩ := Prod.mk.inj same
    rw [Undisturbed, found] at quiet
    exact kept_entryStep kept found quiet went

theorem kept_run (disk : Disk) {events : List Event} (quiet : Machine.Admits Runner.step Undisturbed (.start disk) events) :
    Kept (Machine.run Runner.step (.start disk) events) := by
  refine (Machine.run_allowed (fun _ _ => True) (fun _ => trivial) (fun _ _ => trivial) Kept ?_ (kept_start disk) quiet).1
  intro s event next out kept allowed moves
  exact ⟨kept_step kept allowed moves, trivial⟩

/-- What an unclocked asset stores, when it is neither pending nor being recomputed and did not
fail, was read after every commit noticed, and its full build after every rewrite noticed. -/
def Fresh (e : Entry) (db : Db) : Prop :=
  e.materializer.clocked = false → e.pending = false → e.phase.underWay = false → e.failed = false →
    ∀ c k, (c, k) ∈ e.noticed → c < e.readFrom ∧ (rewrites db e.materializer c = true → c < e.fullFrom)

/-- One asset reading one table. -/
def reader : Materializer := ⟨"totals", ["plain"], ["totals"], none, false⟩

/-- An earlier run built it, and nothing has changed since. -/
def unchanged : Disk where
  build := "1"
  tracked _ := true
  gen _ := 0
  state asset := if asset = "totals" then some ⟨"1", none, [("plain", 0)], [("totals", 0)]⟩ else none
  past := by
    intro asset built stored entry member
    split at stored
    · obtain rfl := Option.some.inj stored
      obtain rfl := List.mem_singleton.mp member
      exact ⟨rfl, Nat.le_refl _⟩
    · cases stored

/-- The check finds it current, and a rewrite noticed after is built. -/
def rewritten : List Event :=
  [.register reader, .entry 0 (.track []), .entry 0 .readInputs, .entry 0 .readOutputs, .entry 0 .readState, .entry 0 .clear,
    .entry 0 .count, .entry 0 .settle, .commit ∅ {"plain"} fun _ => 0, .entry 0 (.note [0]), .entry 0 .mark, .entry 0 .wake,
    .entry 0 .timeout, .entry 0 .look, .entry 0 .swap, .entry 0 .readGenerations, .entry 0 .begin, .entry 0 (.finish true),
    .entry 0 .settle, .entry 0 .tell, .entry 0 .tell]

/-- The check reads the inputs' generations; a rewrite is committed and noticed; and the check's
bookkeeping then takes back its mark and its `needs_full`. -/
def disturbed : List Event :=
  [.register reader, .entry 0 (.track []), .entry 0 .readInputs, .commit ∅ {"plain"} fun _ => 0, .entry 0 (.note [0]), .entry 0 .mark,
    .entry 0 .readOutputs, .entry 0 .readState, .entry 0 .clear, .entry 0 .count, .entry 0 .settle]

end Oxplow.Proofs.AssetRuns
