import Oxplow.Proofs.ClaimRuns

/-! Proposals of one key: the newest at most is pending, as long as no approval that fails is
given up after a newer one came. -/

namespace Oxplow.Proofs.ProposalRuns
open Commands CommandBus Library ClaimRuns

/-! ## What a step does to the proposals -/

/-- A failed approval of a proposal gives up its claim. -/
def GivesUp (bus : CommandBus) (event : RunEvent) (proposal : Nat) : Prop :=
  ∃ (id : Nat) (run : Run) (audits : Bool), event = .release id true ∧ bus.active[id]? = some run ∧ run.phase = .releasing audits ∧
    run.origin = .approval proposal

/-- Nothing changes, or one proposal does and is pending only if that is granted. -/
inductive Touch (bus next : CommandBus) (grants : Nat → Prop) : Prop
  | still (same : next.proposals = bus.proposals)
  | changed (id : Nat) (row row' : Proposal) (here : bus.proposals[id]? = some row)
      (after : ∀ other : Nat, next.proposals[other]? = if id = other then some row' else bus.proposals[other]?) (key : row'.key = row.key)
      (granted : row'.decision = .pending → grants id)

variable {bus next mid : CommandBus} {event : RunEvent} {id : Nat} {run : Run} {grants : Nat → Prop}

variable {row : Proposal}

theorem touch_set {row' : Proposal} (here : bus.proposals[id]? = some row) (key : row'.key = row.key)
    (granted : row'.decision = .pending → grants id) : Touch bus (bus.setProposal id row') grants :=
  .changed id row row' here (fun other => TreeMaps.get_insert bus.proposals id other row') key granted

theorem touch_decide {decision : ProposalDecision} {auditId : Option Nat} (settles : decision ≠ .pending)
    (decides : bus.decideTx id decision auditId = .ok next) : Touch bus next grants := by
  rw [decideTx] at decides
  cases here : bus.proposals[id]? with
  | none => simp [here] at decides
  | some row =>
    rw [here] at decides
    dsimp only at decides
    split at decides
    · cases decides
    · obtain rfl := Except.ok.inj decides
      refine touch_set here ?_ ?_
      · rfl
      · exact fun pending => absurd pending settles

theorem touch_undone {row : Nat} (marks : bus.markUndoneTx id row = .ok next) : Touch bus next grants := by
  rw [markUndoneTx] at marks
  split at marks
  · split at marks
    · obtain rfl := Except.ok.inj marks
      exact .still rfl
    · cases marks
  · cases marks

theorem touch_replace (undoneBy : Option Nat) : Touch bus (bus.replaceClaim id undoneBy) grants := by
  rw [replaceClaim]
  split
  · split
    · exact .still rfl
    · exact .still rfl
  · exact .still rfl

theorem touch_claim {origin : RunOrigin} (claims : bus.claim origin = .ok next) : Touch bus next grants := by
  cases origin with
  | undo audit => exact touch_undone claims
  | approval proposal =>
    have settles : ProposalDecision.approved ≠ .pending := by decide
    exact touch_decide settles claims

theorem touch_mark {origin : RunOrigin} {row : Nat} (marks : bus.mark row origin = .ok next) : Touch bus next grants := by
  cases origin with
  | undo audit => exact touch_undone marks
  | approval proposal =>
    have settles : ProposalDecision.approved ≠ .pending := by decide
    exact touch_decide settles marks

theorem touch_finish {origin : RunOrigin} {row : Nat} (finishes : bus.finish row origin = .ok next) : Touch bus next grants := by
  cases origin with
  | undo audit =>
    obtain rfl := Except.ok.inj finishes
    exact touch_replace _
  | approval proposal =>
    simp only [finish, finishClaimTx] at finishes
    cases here : bus.proposals[proposal]? with
    | none => simp [here] at finishes
    | some old =>
      simp only [here] at finishes
      split at finishes
      · rename_i claimed
        obtain rfl := Except.ok.inj finishes
        refine touch_set here ?_ ?_
        · rfl
        · intro pending
          exact absurd (claimed.1.symm.trans pending) (by decide)
      · cases finishes

theorem touch_release (origin : RunOrigin) (granted : ∀ proposal, origin = .approval proposal → grants proposal) :
    Touch bus (bus.release origin) grants := by
  cases origin with
  | undo audit => exact touch_replace none
  | approval proposal =>
    simp only [release, releaseClaimTx]
    cases here : bus.proposals[proposal]? with
    | none => exact .still rfl
    | some row =>
      dsimp only
      split
      · refine touch_set here ?_ ?_
        · rfl
        · exact fun _ => granted proposal rfl
      · exact .still rfl

/-- What a touch does not depend on, and what does not touch proposals. -/
theorem Touch.congr {bus' next' : CommandBus} (touch : Touch bus next grants) (before : bus'.proposals = bus.proposals)
    (after : next'.proposals = next.proposals) : Touch bus' next' grants := by
  cases touch with
  | still same => exact .still ((after.trans same).trans before.symm)
  | changed id row row' here changes key granted =>
    refine .changed id row row' ?_ ?_ key granted
    · rw [before, here]
    · intro other
      rw [after, changes, before]

theorem fail_proposals (audits : Bool) : (bus.fail id run audits).proposals = bus.proposals := by
  rw [fail]
  split <;> rfl

theorem stopped_proposals (landed : Nat) (audits : Bool) : (bus.stopped id run landed audits).proposals = bus.proposals := by
  rw [stopped]
  split <;> rfl

theorem answered_proposals (landed : Nat) (answer : Answer) : (bus.answered id run landed answer).proposals = bus.proposals := by
  cases answer with
  | failed => exact stopped_proposals landed true
  | asks => exact stopped_proposals landed false
  | ok out =>
    simp only [answered]
    split
    · split
      · exact stopped_proposals landed true
      · split <;> rfl
    · rfl

/-- A step keeps a new proposal for a person, or touches one. -/
theorem step_touches (moves : bus.step event = some (next, ())) :
    (∃ key, next.proposals = (bus.insertTx key).proposals) ∨ Touch bus next (GivesUp bus event) := by
  cases event with
  | call outcome inverse =>
    obtain rfl := (Prod.mk.inj (Option.some.inj moves)).1
    exact .inr (.still rfl)
  | propose key =>
    obtain rfl := (Prod.mk.inj (Option.some.inj moves)).1
    exact .inl ⟨key, rfl⟩
  | decline proposal =>
    simp only [CommandBus.step, Option.map_eq_some_iff, Prod.mk.injEq, and_true] at moves
    obtain ⟨decided, declines, rfl⟩ := moves
    cases result : bus.declineTx proposal with
    | error refused => simp [result, Except.toOption] at declines
    | ok decided' =>
      simp only [result, Except.toOption, Option.some.injEq] at declines
      have settles : ProposalDecision.declined ≠ .pending := by decide
      exact .inr (touch_decide settles (declines ▸ result))
  | undo audit resolved keeps =>
    simp only [CommandBus.step] at moves
    split at moves
    · split at moves
      · obtain rfl := (Prod.mk.inj (Option.some.inj moves)).1
        exact .inr (.still rfl)
      · cases moves
    · cases moves
  | approve proposal resolved keeps =>
    simp only [CommandBus.step] at moves
    split at moves
    · split at moves
      · obtain rfl := (Prod.mk.inj (Option.some.inj moves)).1
        exact .inr (.still rfl)
      · cases moves
    · cases moves
  | refuse id audits =>
    simp only [CommandBus.step] at moves
    split at moves
    · split at moves
      · obtain rfl := (Prod.mk.inj (Option.some.inj moves)).1
        exact .inr (.still (fail_proposals audits))
      · cases moves
    · cases moves
  | transact id answer =>
    simp only [CommandBus.step] at moves
    split at moves
    · rename_i run here
      split at moves
      · obtain rfl := (Prod.mk.inj (Option.some.inj moves)).1
        cases answer with
        | failed => exact .inr (.still (fail_proposals true))
        | asks => exact .inr (.still (fail_proposals false))
        | ok out =>
          simp only [transact]
          split
          · rename_i marked marks
            exact .inr ((touch_mark marks).congr rfl rfl)
          · exact .inr (.still rfl)
      · cases moves
    · cases moves
  | claim id stored =>
    simp only [CommandBus.step] at moves
    split at moves
    · rename_i run here
      split at moves
      · obtain rfl := (Prod.mk.inj (Option.some.inj moves)).1
        rw [claimed]
        split
        · rename_i marked claims
          split
          · exact .inr ((touch_claim claims).congr rfl rfl)
          · exact .inr (.still (fail_proposals _))
        · exact .inr (.still (fail_proposals _))
      · cases moves
    · cases moves
  | answer id answer =>
    simp only [CommandBus.step] at moves
    split at moves
    · split at moves
      · obtain rfl := (Prod.mk.inj (Option.some.inj moves)).1
        exact .inr (.still (answered_proposals _ answer))
      · cases moves
    · cases moves
  | record id stored =>
    simp only [CommandBus.step] at moves
    split at moves
    · split at moves
      · obtain rfl := (Prod.mk.inj (Option.some.inj moves)).1
        simp only [recorded]
        split
        · rename_i finished finishes
          split
          · exact .inr ((touch_finish finishes).congr rfl rfl)
          · exact .inr (.still rfl)
        · exact .inr (.still rfl)
      · cases moves
    · cases moves
  | release id stored =>
    simp only [CommandBus.step] at moves
    split at moves
    · rename_i run here
      split at moves
      · rename_i audits phase
        obtain rfl := (Prod.mk.inj (Option.some.inj moves)).1
        cases stored with
        | false => exact .inr (.still (fail_proposals audits))
        | true =>
          refine .inr (Touch.congr (touch_release run.origin ?_) rfl (fail_proposals audits))
          exact fun proposal own => ⟨id, run, audits, rfl, here, phase, own⟩
      · cases moves
    · cases moves
  | auditOnly id stored =>
    simp only [CommandBus.step] at moves
    split at moves
    · split at moves
      · obtain rfl := (Prod.mk.inj (Option.some.inj moves)).1
        cases stored with
        | false => exact .inr (.still rfl)
        | true => exact .inr (.still rfl)
      · cases moves
    · cases moves
  | cutOff id =>
    obtain rfl := (Prod.mk.inj (Option.some.inj moves)).1
    exact .inr (.still rfl)
  | crash =>
    obtain rfl := (Prod.mk.inj (Option.some.inj moves)).1
    exact .inr (.still rfl)

/-! ## The newest of a key -/

/-- No proposal of its key is newer. -/
def isNewest (bus : CommandBus) (proposal : Nat) : Bool :=
  (bus.proposals[proposal]?).all fun row => bus.proposals.toList.all fun entry => decide (entry.1 ≤ proposal) || entry.2.key != row.key

/-- A failed approval gives up the claim of the newest proposal of its key only. -/
def givesUpNewest (bus : CommandBus) : RunEvent → Bool
  | .release id true =>
    (bus.active[id]?).all fun run =>
      match run.phase, run.origin with
      | .releasing _, .approval proposal => isNewest bus proposal
      | _, _ => true
  | _ => true

def GivesUpNewest (bus : CommandBus) (event : RunEvent) : Prop := givesUpNewest bus event = true

instance (bus : CommandBus) (event : RunEvent) : Decidable (GivesUpNewest bus event) := inferInstanceAs (Decidable (_ = true))

/-- A proposal that is pending is the newest of its key. -/
def Newest (bus : CommandBus) : Prop :=
  ∀ (id other : Nat) row row', bus.proposals[id]? = some row → row.decision = .pending → bus.proposals[other]? = some row' →
    row'.key = row.key → other ≤ id

theorem isNewest_iff (here : bus.proposals[id]? = some row) :
    isNewest bus id = true ↔ ∀ (other : Nat) row', bus.proposals[other]? = some row' → row'.key = row.key → other ≤ id := by
  simp only [isNewest, here, Option.all_some, List.all_eq_true, Bool.or_eq_true, decide_eq_true_eq, bne_iff_ne, ne_eq, Prod.forall,
    Std.ExtTreeMap.mem_toList_iff_getElem?_eq_some]
  constructor
  · intro all other row' there same
    exact (all other row' there).resolve_right fun differs => differs same
  · intro all other row' there
    by_cases same : row'.key = row.key
    · exact .inl (all other row' there same)
    · exact .inr same

theorem GivesUp.newest {proposal : Nat} (gives : GivesUp bus event proposal) (allowed : GivesUpNewest bus event) :
    isNewest bus proposal = true := by
  obtain ⟨id, run, audits, rfl, here, phase, origin⟩ := gives
  simpa [GivesUpNewest, givesUpNewest, here, phase, origin] using allowed

theorem supersede_key (key : String) (by_ : Nat) (row : Proposal) : (supersede key by_ row).key = row.key := by
  rw [supersede]
  split <;> rfl

theorem supersede_pending {key : String} {by_ : Nat} (pending : (supersede key by_ row).decision = .pending) :
    row.decision = .pending ∧ row.key ≠ key := by
  rw [supersede] at pending
  split at pending
  · cases pending
  · rename_i other
    exact ⟨pending, fun same => other ⟨same, pending⟩⟩

theorem get_insertTx (key : String) (other : Nat) :
    (bus.insertTx key).proposals[other]? =
      if bus.lastProposal + 1 = other then some ⟨key, .pending, none, none⟩
      else (bus.proposals[other]?).map (supersede key (bus.lastProposal + 1)) := by
  simp only [insertTx, TreeMaps.get_insert, Std.ExtTreeMap.getElem?_map]

theorem Kept.below (kept : Kept bus) (here : bus.proposals[id]? = some row) : id ≤ bus.lastProposal :=
  kept.proposals id (by simpa only [status, here] using proposalStatus_ne_missing row)

theorem newest_insert (kept : Kept bus) (newest : Newest bus) (key : String) (puts : next.proposals = (bus.insertTx key).proposals) :
    Newest next := by
  intro id other row row' here pending there same
  rw [puts, get_insertTx] at here there
  by_cases mine : bus.lastProposal + 1 = id
  · rw [← mine]
    split at there
    · rename_i own
      exact own.symm.le
    · obtain ⟨old, found, -⟩ := Option.map_eq_some_iff.mp there
      exact (Kept.below kept found).trans (Nat.le_succ _)
  · rw [if_neg mine] at here
    obtain ⟨old, found, rfl⟩ := Option.map_eq_some_iff.mp here
    obtain ⟨waited, apart⟩ := supersede_pending pending
    rw [supersede_key] at same
    split at there
    · obtain rfl := Option.some.inj there
      exact absurd same.symm apart
    · obtain ⟨old', found', rfl⟩ := Option.map_eq_some_iff.mp there
      rw [supersede_key] at same
      exact newest id other old old' found waited found' same

theorem newest_touch (newest : Newest bus) (allowed : GivesUpNewest bus event) (touch : Touch bus next (GivesUp bus event)) : Newest next := by
  cases touch with
  | still same =>
    intro id other row row' here pending there
    rw [same] at here there
    exact newest id other row row' here pending there
  | changed changed row row' before after key granted =>
    intro id other mine theirs here pending there same
    rw [after] at here there
    -- The other proposal has the key it had.
    obtain ⟨old, found, alike⟩ : ∃ old, bus.proposals[other]? = some old ∧ old.key = theirs.key := by
      split at there
      · rename_i own
        obtain rfl := Option.some.inj there
        exact ⟨row, own ▸ before, key.symm⟩
      · exact ⟨theirs, there, rfl⟩
    split at here
    · rename_i own
      subst own
      obtain rfl := Option.some.inj here
      refine (isNewest_iff before).mp ((granted pending).newest allowed) other old found ?_
      rw [alike, same, key]
    · exact newest id other mine old here pending found (alike.trans same)

theorem newest_step (kept : Kept bus) (newest : Newest bus) (allowed : GivesUpNewest bus event) (moves : bus.step event = some (next, ())) :
    Newest next := by
  rcases step_touches moves with ⟨key, puts⟩ | touch
  · exact newest_insert kept newest key puts
  · exact newest_touch newest allowed touch

/-- A proposal comes back only when its approval fails, and only the newest of its key does. -/
theorem again_step (kept : Kept bus) (allowed : GivesUpNewest bus event) (moves : bus.step event = some (next, ()))
    {row' : Proposal} (here : bus.proposals[id]? = some row) (there : next.proposals[id]? = some row')
    (settled : row.decision ≠ .pending) (pending : row'.decision = .pending) : GivesUp bus event id ∧ isNewest bus id = true := by
  rcases step_touches moves with ⟨key, puts⟩ | touch
  · rw [puts, get_insertTx, here] at there
    split at there
    · rename_i new
      have below := Kept.below kept here
      omega
    · obtain rfl := Option.some.inj there
      exact absurd (supersede_pending pending).1 settled
  · cases touch with
    | still same =>
      rw [same, here] at there
      obtain rfl := Option.some.inj there
      exact absurd pending settled
    | changed changed old new before after key granted =>
      rw [after] at there
      split at there
      · rename_i own
        subst own
        obtain rfl := Option.some.inj there
        exact ⟨granted pending, (granted pending).newest allowed⟩
      · rw [here] at there
        obtain rfl := Option.some.inj there
        exact absurd pending settled

/-! ## Runs -/

structure Sound (bus : CommandBus) : Prop where
  kept : Kept bus
  newest : Newest bus
  once : Once bus bus.succeeded pastSuccess

theorem start_newest : Newest .start := by
  intro id other row row' here
  simp [start] at here

theorem run_sound {events : List RunEvent} (allowed : Machine.Admits CommandBus.step GivesUpNewest .start events) :
    Sound (ClaimRuns.run .start events) := by
  have all : Sound (ClaimRuns.run .start events) ∧ True := Machine.run_allowed (fun _ _ => True) (fun _ => trivial) (fun _ _ => trivial) Sound
    (fun _ _ _ _ sound allowed moves =>
      ⟨⟨sound.kept.step moves, newest_step sound.kept sound.newest allowed moves, success_step sound.kept sound.once moves⟩, trivial⟩)
    ⟨start_kept, start_newest, start_once _⟩ allowed
  exact all.1

/-- When an approval that fails gives up its claim only while no newer proposal of its key is
there: one proposal of a key at most is pending, the newest; one that is not pending becomes
so only when its approval fails and it is the newest; and one approval at most of a proposal
runs its command to success. -/
theorem one_pending (events : List RunEvent) (allowed : Machine.Admits CommandBus.step GivesUpNewest .start events) :
    (∀ (id other : Nat) row row', (ClaimRuns.run .start events).proposals[id]? = some row → row.decision = .pending →
      (ClaimRuns.run .start events).proposals[other]? = some row' → row'.key = row.key →
        other ≤ id ∧ (row'.decision = .pending → other = id)) ∧
      (∀ event next, GivesUpNewest (ClaimRuns.run .start events) event → (ClaimRuns.run .start events).step event = some (next, ()) →
        ∀ (id : Nat) row row', (ClaimRuns.run .start events).proposals[id]? = some row → next.proposals[id]? = some row' →
          row.decision ≠ .pending → row'.decision = .pending →
            GivesUp (ClaimRuns.run .start events) event id ∧ isNewest (ClaimRuns.run .start events) id = true) ∧
      ∀ entry ∈ (ClaimRuns.run .start events).succeeded, ∀ entry' ∈ (ClaimRuns.run .start events).succeeded,
        entry.2 = entry'.2 → entry.1 = entry'.1 := by
  have sound := run_sound allowed
  refine ⟨?_, ?_, sound.once.once⟩
  · intro id other row row' here pending there same
    have older := sound.newest id other row row' here pending there same
    refine ⟨older, fun pending' => ?_⟩
    exact Nat.le_antisymm older (sound.newest other id row' row there pending' here same.symm)
  · intro event next allowed moves id row row' here there settled pending
    exact again_step sound.kept allowed moves here there settled pending

/-- An approval fails, with a proposal of another key made meanwhile. -/
def failing : List RunEvent :=
  [.propose "oxplow:oxplow/config?key=theme", .approve 1 .external false, .claim 1 true, .propose "oxplow:oxplow/config?key=editor", .answer 1 .failed]

theorem one_pending_failing : GivesUp (ClaimRuns.run .start failing) (.release 1 true) 1 ∧ isNewest (ClaimRuns.run .start failing) 1 = true := by
  have again : ((ClaimRuns.run .start failing).step (.release 1 true)).bind (fun moved => moved.1.proposals[(1 : Nat)]?)
      = some ⟨"oxplow:oxplow/config?key=theme", .pending, none, none⟩ := by decide +kernel
  have before : (ClaimRuns.run .start failing).proposals[(1 : Nat)]? = some ⟨"oxplow:oxplow/config?key=theme", .approved, none, none⟩ := by
    decide
  obtain ⟨⟨next, _⟩, moves, there⟩ := Option.bind_eq_some_iff.mp again
  exact (one_pending failing (by decide +kernel)).2.1 (.release 1 true) next (by decide +kernel) moves 1 _ _ before there (by decide +kernel) rfl

/-- A newer proposal comes while the command of the older one runs, and fails. -/
def replacedWhileRunning : List RunEvent :=
  [.propose "oxplow:oxplow/config?key=theme", .approve 1 .external false, .claim 1 true, .propose "oxplow:oxplow/config?key=theme",
    .answer 1 .failed, .release 1 true]

theorem two_pending : ¬ ∀ events, Newest (ClaimRuns.run .start events) := by
  intro all
  have first : (ClaimRuns.run .start replacedWhileRunning).proposals[1]? = some ⟨"oxplow:oxplow/config?key=theme", .pending, none, none⟩ := by
    decide
  have second : (ClaimRuns.run .start replacedWhileRunning).proposals[2]? = some ⟨"oxplow:oxplow/config?key=theme", .pending, none, none⟩ := by
    decide
  have older := all replacedWhileRunning 1 2 _ _ first rfl second rfl
  exact absurd older (by decide)

end Oxplow.Proofs.ProposalRuns
