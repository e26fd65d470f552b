import Mathlib.Data.Nat.Basic
import Mathlib.Order.Basic
import Oxplow.Commands.Claims
import Oxplow.Library.Machine
import Oxplow.Library.Maps

/-! Undos and approvals while others run: what became of a row, who may change it, and what
has landed. A run that holds a row's claim is the only one that lands anything of it. -/

namespace Oxplow.Proofs.ClaimRuns
open Commands CommandBus Library

/-! ## What became of a row -/

inductive Status
  | missing
  | waiting
  | claimed
  /-- Its run is recorded as `row`. -/
  | done (row : Nat)
  | closed
  deriving DecidableEq

def Status.taken : Status → Bool
  | .claimed | .done _ => true
  | _ => false

def undoneStatus : Option CommandAudit → Status
  | none => .missing
  | some row =>
    match row.undoneBy with
    | none => .waiting
    | some undone => if undone = undoPending then .claimed else .done undone

def proposalStatus : Option Proposal → Status
  | none => .missing
  | some proposal =>
    match proposal.decision with
    | .pending => .waiting
    | .approved => proposal.auditId.elim .claimed .done
    | .declined | .superseded => .closed

def status (bus : CommandBus) : RunOrigin → Status
  | .undo audit => undoneStatus bus.audit[audit]?
  | .approval proposal => proposalStatus bus.proposals[proposal]?

/-- Which run a row is of, and how it ended. -/
def brief (bus : CommandBus) (row : Nat) : Option (Nat × Outcome) := bus.audit[row]?.map fun row => (row.run, row.outcome)

variable {bus next : CommandBus} {origin other : RunOrigin} {id : Nat}

theorem setAudit_status (row : CommandAudit) (origin : RunOrigin) :
    status (bus.setAudit id row) origin = if origin = .undo id then undoneStatus (some row) else status bus origin := by
  cases origin with
  | undo audit =>
    simp only [status, setAudit, TreeMaps.get_insert, RunOrigin.undo.injEq, eq_comm (a := audit)]
    split <;> rfl
  | approval proposal => simp [status, setAudit]

theorem setProposal_status (proposal : Proposal) (origin : RunOrigin) :
    status (bus.setProposal id proposal) origin = if origin = .approval id then proposalStatus (some proposal) else status bus origin := by
  cases origin with
  | undo audit => simp [status, setProposal]
  | approval other =>
    simp only [status, setProposal, TreeMaps.get_insert, RunOrigin.approval.injEq, eq_comm (a := other)]
    split <;> rfl

theorem setAudit_brief {row old : CommandAudit} (here : bus.audit[id]? = some old) (same : (row.run, row.outcome) = (old.run, old.outcome))
    (other : Nat) : brief (bus.setAudit id row) other = brief bus other := by
  simp only [brief, setAudit, TreeMaps.get_insert]
  split
  · rename_i alike
    subst alike
    rw [here, Option.map_some, Option.map_some, same]
  · rfl

/-- A change of one row's status and of nothing else. -/
structure Marked (bus next : CommandBus) (origin : RunOrigin) (now later : Status) : Prop where
  now : status bus origin = now
  later : status next origin = later
  others : ∀ other, other ≠ origin → status next other = status bus other
  briefs : ∀ row, brief next row = brief bus row
  active : next.active = bus.active
  lastAudit : next.lastAudit = bus.lastAudit
  lastProposal : next.lastProposal = bus.lastProposal
  lastRun : next.lastRun = bus.lastRun
  effects : next.effects = bus.effects
  succeeded : next.succeeded = bus.succeeded

theorem setAudit_marked (row : CommandAudit) {old : CommandAudit} (here : bus.audit[id]? = some old) (same : (row.run, row.outcome) = (old.run, old.outcome)) :
    Marked bus (bus.setAudit id row) (.undo id) (undoneStatus (some old)) (undoneStatus (some row)) where
  now := by simp only [status, here]
  later := by rw [setAudit_status, if_pos rfl]
  others other apart := by rw [setAudit_status, if_neg apart]
  briefs := setAudit_brief here same
  active := rfl
  lastAudit := rfl
  lastProposal := rfl
  lastRun := rfl
  effects := rfl
  succeeded := rfl

theorem setProposal_marked (proposal : Proposal) {old : Proposal} (here : bus.proposals[id]? = some old) :
    Marked bus (bus.setProposal id proposal) (.approval id) (proposalStatus (some old)) (proposalStatus (some proposal)) where
  now := by simp only [status, here]
  later := by rw [setProposal_status, if_pos rfl]
  others other apart := by rw [setProposal_status, if_neg apart]
  briefs _ := rfl
  active := rfl
  lastAudit := rfl
  lastProposal := rfl
  lastRun := rfl
  effects := rfl
  succeeded := rfl

theorem markUndone_marked {row : Nat} (marks : bus.markUndoneTx id row = .ok next) :
    Marked bus next (.undo id) .waiting (if row = undoPending then .claimed else .done row) := by
  rw [markUndoneTx] at marks
  cases here : bus.audit[id]? with
  | none => simp [here] at marks
  | some old =>
    rw [here] at marks
    by_cases free : old.undoneBy = none
    · simp only [if_pos free, Except.ok.injEq] at marks
      have moved := setAudit_marked { old with undoneBy := some row } here rfl
      simpa only [marks, undoneStatus, free] using moved
    · simp [free] at marks

theorem decide_marked {decision : ProposalDecision} {auditId : Option Nat} (decides : bus.decideTx id decision auditId = .ok next) :
    ∃ old, bus.proposals[id]? = some old ∧ old.decision = .pending ∧
      Marked bus next (.approval id) .waiting (proposalStatus (some { old with decision, auditId })) := by
  rw [decideTx] at decides
  cases here : bus.proposals[id]? with
  | none => simp [here] at decides
  | some old =>
    rw [here] at decides
    by_cases open_ : old.decision = .pending
    · simp only [open_, ne_eq, not_true, if_false, Except.ok.injEq] at decides
      have moved := setProposal_marked { old with decision, auditId } here
      refine ⟨old, rfl, open_, ?_⟩
      simpa only [decides, proposalStatus, open_] using moved
    · simp [open_] at decides

theorem claim_marked (claims : bus.claim origin = .ok next) : Marked bus next origin .waiting .claimed := by
  cases origin with
  | undo audit => exact markUndone_marked claims
  | approval proposal =>
    obtain ⟨old, -, -, moved⟩ := decide_marked claims
    exact moved

theorem mark_marked {row : Nat} (real : row ≠ undoPending) (marks : bus.mark row origin = .ok next) :
    Marked bus next origin .waiting (.done row) := by
  cases origin with
  | undo audit =>
    have moved := markUndone_marked marks
    rwa [if_neg real] at moved
  | approval proposal =>
    obtain ⟨old, -, -, moved⟩ := decide_marked marks
    exact moved

/-- A row whose claim is pending. -/
theorem undone_claimed (held : status bus (.undo id) = .claimed) : ∃ row, bus.audit[id]? = some row ∧ row.undoneBy = some undoPending := by
  simp only [status] at held
  cases here : bus.audit[id]? with
  | none => simp [here, undoneStatus] at held
  | some row =>
    cases undone : row.undoneBy with
    | none => simp [here, undone, undoneStatus] at held
    | some by_ =>
      by_cases pending : by_ = undoPending
      · exact ⟨row, rfl, pending ▸ undone⟩
      · simp [here, undone, undoneStatus, pending] at held

theorem proposal_claimed (held : status bus (.approval id) = .claimed) :
    ∃ proposal, bus.proposals[id]? = some proposal ∧ proposal.decision = .approved ∧ proposal.auditId = none := by
  simp only [status] at held
  cases here : bus.proposals[id]? with
  | none => simp [here, proposalStatus] at held
  | some proposal =>
    cases decision : proposal.decision with
    | approved =>
      cases audit : proposal.auditId with
      | none => exact ⟨proposal, rfl, decision, audit⟩
      | some row => simp [here, decision, audit, proposalStatus] at held
    | pending => simp [here, decision, proposalStatus] at held
    | declined => simp [here, decision, proposalStatus] at held
    | superseded => simp [here, decision, proposalStatus] at held

theorem replaceClaim_marked (held : status bus (.undo id) = .claimed) (undoneBy : Option Nat) :
    Marked bus (bus.replaceClaim id undoneBy) (.undo id) .claimed
      (undoneBy.elim .waiting fun row => if row = undoPending then .claimed else .done row) := by
  obtain ⟨row, here, pending⟩ := undone_claimed held
  have moved := setAudit_marked { row with undoneBy } here rfl
  have replaced : bus.replaceClaim id undoneBy = bus.setAudit id { row with undoneBy } := by
    simp only [replaceClaim, here, pending, if_true]
  rw [replaced]
  cases undoneBy with
  | none => simpa only [undoneStatus, pending, if_true, Option.elim_none] using moved
  | some by_ => simpa only [undoneStatus, pending, if_true, Option.elim_some] using moved

theorem release_marked (held : status bus origin = .claimed) : Marked bus (bus.release origin) origin .claimed .waiting := by
  cases origin with
  | undo audit => exact replaceClaim_marked held none
  | approval proposal =>
    obtain ⟨row, here, approved, unnamed⟩ := proposal_claimed held
    have moved := setProposal_marked { row with decision := .pending } here
    have released : bus.release (.approval proposal) = bus.setProposal proposal { row with decision := .pending } := by
      simp only [release, releaseClaimTx, here, approved, unnamed, and_self, if_true]
    rw [released]
    simpa only [proposalStatus, approved, unnamed, Option.elim_none] using moved

theorem finish_marked {row : Nat} (real : row ≠ undoPending) (held : status bus origin = .claimed) (finishes : bus.finish row origin = .ok next) :
    Marked bus next origin .claimed (.done row) := by
  cases origin with
  | undo audit =>
    obtain rfl := Except.ok.inj finishes
    have moved := replaceClaim_marked held (some row)
    simp only [Option.elim_some, if_neg real] at moved
    exact moved
  | approval proposal =>
    obtain ⟨old, here, approved, unnamed⟩ := proposal_claimed held
    simp only [finish, finishClaimTx, here, approved, unnamed, and_self, if_true, Except.ok.injEq] at finishes
    have moved := setProposal_marked { old with auditId := some row } here
    simp only [proposalStatus, approved, unnamed] at moved
    rw [← finishes]
    exact moved

/-! ## What a step does -/

/-- The run has its row's claim. -/
def holds : Phase → Bool
  | .running _ | .recording _ _ | .releasing _ => true
  | _ => false

/-- One run goes from a phase to another, with what that does to its row; `row`: how it is
recorded. -/
structure Turn (bus next : CommandBus) (id : Nat) (run : Run) (before after : Option Phase) (now later : Status) (row : Option Outcome)
    (lands wins : Bool) : Prop where
  number : before = none → id = bus.lastRun + 1
  active : bus.active[id]? = before.map fun phase => { run with phase }
  active' : ∀ other : Nat, next.active[other]? = if id = other then after.map (fun phase => { run with phase }) else bus.active[other]?
  now : status bus run.origin = now
  later : status next run.origin = later
  others : ∀ other, other ≠ run.origin → status next other = status bus other ∨
    other = .undo (bus.lastAudit + 1) ∧ status bus other = .missing ∧ status next other = .waiting
  briefs : ∀ other, brief next other =
    if row.isSome = true ∧ other = bus.lastAudit + 1 then row.map fun outcome => (id, outcome) else brief bus other
  lastAudit : next.lastAudit = if row.isSome = true then bus.lastAudit + 1 else bus.lastAudit
  lastProposal : next.lastProposal = bus.lastProposal
  lastRun : next.lastRun = if before.isNone = true then bus.lastRun + 1 else bus.lastRun
  effects : next.effects = bus.effects ++ if lands = true then [(id, run.origin)] else []
  succeeded : next.succeeded = bus.succeeded ++ if wins = true then [(id, run.origin)] else []

/-- The ways a run can go, with `fresh` the next row of the log. The last says that what
landed is taken for nothing. -/
inductive Leg (fresh : Nat) : Option Phase → Option Phase → Status → Status → Option Outcome → Bool → Bool → Bool → Prop
  | begins {now : Status} (there : now ≠ .missing) : Leg fresh none (some .admitted) now now none false false false
  | transacts : Leg fresh (some .admitted) none .waiting (.done fresh) (some .ok) true true false
  | ends {phase : Phase} {now : Status} : Leg fresh (some phase) none now now none false false false
  | fails {now : Status} : Leg fresh (some .admitted) (some .auditing) now now none false false false
  | claims : Leg fresh (some .admitted) (some (.running 0)) .waiting .claimed none false false false
  | steps {landed : Nat} {now : Status} : Leg fresh (some (.running landed)) (some (.running (landed + 1))) now now none true false false
  | finishes {landed : Nat} {now : Status} {out : HandlerOutput} :
      Leg fresh (some (.running landed)) (some (.recording out .ok)) now now none true true false
  | stops {landed : Nat} {now : Status} {out : HandlerOutput} {lands : Bool} :
      Leg fresh (some (.running (landed + 1))) (some (.recording out .error)) now now none lands false false
  | gives {now : Status} {audits : Bool} : Leg fresh (some (.running 0)) (some (.releasing audits)) now now none false false false
  | lies {now : Status} : Leg fresh (some (.running 0)) (some (.releasing true)) now now none true false true
  | records {out : HandlerOutput} {outcome : Outcome} :
      Leg fresh (some (.recording out outcome)) none .claimed (.done fresh) (some outcome) false false false
  | releases {audits : Bool} {after : Option Phase} (next : after = none ∨ after = some .auditing) :
      Leg fresh (some (.releasing audits)) after .claimed .waiting none false false false
  | keeps {audits : Bool} {now : Status} : Leg fresh (some (.releasing audits)) (some .auditing) now now none false false false
  | audits {now : Status} : Leg fresh (some .auditing) none now now (some .error) false false false

/-- Runs go away, rows and proposals are added, and what is decided waited. -/
structure Outside (bus next : CommandBus) : Prop where
  active : ∀ id : Nat, next.active[id]? = none ∨ next.active[id]? = bus.active[id]?
  statuses : ∀ origin, status next origin = status bus origin ∨ status bus origin = .missing ∧ status next origin = .waiting ∨
    status bus origin = .waiting ∧ status next origin = .closed
  briefs : ∀ row, brief next row = brief bus row ∨ row = bus.lastAudit + 1 ∧ ∃ outcome, brief next row = some (bus.lastRun + 1, outcome)
  lastAudit : next.lastAudit = bus.lastAudit ∧ next.lastRun = bus.lastRun ∧ (∀ row, brief next row = brief bus row) ∨
    next.lastAudit = bus.lastAudit + 1 ∧ next.lastRun = bus.lastRun + 1
  lastProposal : bus.lastProposal ≤ next.lastProposal ∧
    ∀ id, status next (.approval id) = status bus (.approval id) ∨ id ≤ next.lastProposal
  effects : next.effects = bus.effects
  succeeded : next.succeeded = bus.succeeded

/-- What is kept of the runs in flight and of the numbers given out. -/
structure Kept (bus : CommandBus) : Prop where
  runs : ∀ (id : Nat) run, bus.active[id]? = some run → id ≤ bus.lastRun ∧ status bus run.origin ≠ .missing
  rows : ∀ row pair, brief bus row = some pair → row ≤ bus.lastAudit ∧ pair.1 ≤ bus.lastRun
  proposals : ∀ id, status bus (.approval id) ≠ .missing → id ≤ bus.lastProposal
  landed : ∀ entry ∈ bus.effects, entry.1 ≤ bus.lastRun
  won : ∀ entry ∈ bus.succeeded, entry.1 ≤ bus.lastRun
  claimed : ∀ (id : Nat) run, bus.active[id]? = some run → holds run.phase = true → status bus run.origin = .claimed
  sole : ∀ (id id' : Nat) run run', bus.active[id]? = some run → bus.active[id']? = some run' → holds run.phase = true →
    holds run'.phase = true → run.origin = run'.origin → id = id'
  unrecorded : ∀ (id : Nat) run, bus.active[id]? = some run → ∀ row pair, brief bus row = some pair → pair.1 ≠ id

/-- A run's first call does not land under an answer that is refused. -/
def honestAnswer (bus : CommandBus) : RunEvent → Bool
  | .answer id (.ok out) => (bus.active[id]?).all fun run => run.phase ≠ .running 0 || run.resolved == .external || out.honest
  | _ => true

def Honest (bus : CommandBus) (event : RunEvent) : Prop := honestAnswer bus event = true

instance (bus : CommandBus) (event : RunEvent) : Decidable (Honest bus event) := inferInstanceAs (Decidable (_ = true))

theorem marked_refl (bus : CommandBus) (origin : RunOrigin) : Marked bus bus origin (status bus origin) (status bus origin) :=
  ⟨rfl, rfl, fun _ _ => rfl, fun _ => rfl, rfl, rfl, rfl, rfl, rfl, rfl⟩

theorem insertAudit_status {row : CommandAudit} (fresh : row.undoneBy = none) (origin : RunOrigin) :
    status (bus.insertAudit row) origin = if origin = .undo (bus.lastAudit + 1) then .waiting else status bus origin := by
  cases origin with
  | undo audit =>
    simp only [status, insertAudit, TreeMaps.get_insert, RunOrigin.undo.injEq, eq_comm (a := audit)]
    split
    · simp only [undoneStatus, fresh]
    · rfl
  | approval proposal => simp [status, insertAudit]

theorem insertAudit_brief (row : CommandAudit) (other : Nat) :
    brief (bus.insertAudit row) other = if other = bus.lastAudit + 1 then some (row.run, row.outcome) else brief bus other := by
  simp only [brief, insertAudit, TreeMaps.get_insert, eq_comm (a := other)]
  split <;> rfl

/-- The next row is not there yet. -/
theorem Kept.next_missing (kept : Kept bus) : status bus (.undo (bus.lastAudit + 1)) = .missing := by
  have absent : bus.audit[bus.lastAudit + 1]? = none := by
    cases here : bus.audit[bus.lastAudit + 1]? with
    | none => rfl
    | some row =>
      have below := (kept.rows (bus.lastAudit + 1) (row.run, row.outcome) (by rw [brief, here]; rfl)).1
      omega
  simp only [status, absent, undoneStatus]

section Turns
variable {run : Run} {phase : Phase} {before after : Option Phase} {now later : Status} {row : Option Outcome} {wins : Bool} {mid : CommandBus}

theorem turn_proceed (here : bus.active[id]? = some run) (marked : Marked bus mid run.origin now later) (phase : Phase) :
    Turn bus (mid.proceed id run phase) id run (some run.phase) (some phase) now later none false false where
  number := nofun
  active := here
  active' other := by
    simp only [proceed, setRun, TreeMaps.get_insert, marked.active]
    split <;> rfl
  now := marked.now
  later := marked.later
  others other apart := .inl (marked.others other apart)
  briefs other := by
    rw [if_neg (by simp)]
    exact marked.briefs other
  lastAudit := marked.lastAudit
  lastProposal := marked.lastProposal
  lastRun := marked.lastRun
  effects := by simpa [proceed, setRun] using marked.effects
  succeeded := by simpa [proceed, setRun] using marked.succeeded

theorem turn_end (here : bus.active[id]? = some run) (marked : Marked bus mid run.origin now later) :
    Turn bus (mid.endRun id) id run (some run.phase) none now later none false false where
  number := nofun
  active := here
  active' other := by
    simp only [endRun, TreeMaps.get_erase, marked.active]
    split <;> rfl
  now := marked.now
  later := marked.later
  others other apart := .inl (marked.others other apart)
  briefs other := by
    rw [if_neg (by simp)]
    exact marked.briefs other
  lastAudit := marked.lastAudit
  lastProposal := marked.lastProposal
  lastRun := marked.lastRun
  effects := by simpa [endRun] using marked.effects
  succeeded := by simpa [endRun] using marked.succeeded

/-- A run that ends with its row in the log. -/
theorem turn_recorded (row : CommandAudit) (kept : Kept bus) (here : bus.active[id]? = some run) (fresh : row.undoneBy = none)
    (own : row.run = id) (marked : Marked (bus.insertAudit row) mid run.origin now later) :
    Turn bus (mid.endRun id) id run (some run.phase) none now later (some row.outcome) false false := by
  have known := (kept.runs id run here).2
  have apart : run.origin ≠ .undo (bus.lastAudit + 1) := fun same => known (same ▸ kept.next_missing)
  exact {
    number := nofun
    active := here
    active' other := by
      simp only [endRun, TreeMaps.get_erase, marked.active]
      split <;> rfl
    now := by
      have before := marked.now
      rwa [insertAudit_status fresh, if_neg apart] at before
    later := marked.later
    others other differs := by
      have after := marked.others other differs
      rw [insertAudit_status fresh] at after
      by_cases new : other = .undo (bus.lastAudit + 1)
      · rw [if_pos new] at after
        exact .inr ⟨new, new ▸ kept.next_missing, after⟩
      · rw [if_neg new] at after
        exact .inl after
    briefs other := by
      have after := marked.briefs other
      rw [insertAudit_brief, own] at after
      have same : brief (mid.endRun id) other = brief mid other := rfl
      simpa [same] using after
    lastAudit := marked.lastAudit
    lastProposal := marked.lastProposal
    lastRun := marked.lastRun
    effects := by simpa [endRun, insertAudit] using marked.effects
    succeeded := by simpa [endRun, insertAudit] using marked.succeeded }

theorem Turn.land (turn : Turn bus next id run before after now later row false wins) :
    Turn bus (next.land id run) id run before after now later row true wins where
  number := turn.number
  active := turn.active
  active' := turn.active'
  now := turn.now
  later := turn.later
  others := turn.others
  briefs := turn.briefs
  lastAudit := turn.lastAudit
  lastProposal := turn.lastProposal
  lastRun := turn.lastRun
  effects := by simp [CommandBus.land, turn.effects]
  succeeded := turn.succeeded

theorem Turn.succeed {lands : Bool} (turn : Turn bus next id run before after now later row lands false) :
    Turn bus (next.succeed id run) id run before after now later row lands true where
  number := turn.number
  active := turn.active
  active' := turn.active'
  now := turn.now
  later := turn.later
  others := turn.others
  briefs := turn.briefs
  lastAudit := turn.lastAudit
  lastProposal := turn.lastProposal
  lastRun := turn.lastRun
  effects := turn.effects
  succeeded := by simp [CommandBus.succeed, turn.succeeded]

end Turns

/-! ## Each step is a turn of one run, or outside the runs -/

/-- A turn that goes one of the ways, and is honest if the event is. -/
def Turned (bus next : CommandBus) (event : RunEvent) : Prop :=
  ∃ (id : Nat) (run : Run) (before after : Option Phase) (now later : Status) (row : Option Outcome) (lands wins lie : Bool),
    Turn bus next id run before after now later row lands wins ∧ Leg (bus.lastAudit + 1) before after now later row lands wins lie ∧
      (lie = true → ¬ Honest bus event)

variable {event : RunEvent}

theorem Turned.of {run : Run} {before after : Option Phase} {now later : Status} {row : Option Outcome} {lands wins : Bool}
    (turn : Turn bus next id run before after now later row lands wins)
    (leg : Leg (bus.lastAudit + 1) before after now later row lands wins false) : Turned bus next event :=
  ⟨id, run, before, after, now, later, row, lands, wins, false, turn, leg, nofun⟩

section Steps
variable {event : RunEvent} {run : Run}

theorem begin_turned (kept : Kept bus) (there : status bus origin ≠ .missing) (resolved : Resolved) (keeps : Bool) :
    Turned bus (bus.begin origin resolved keeps) event := by
  have absent : bus.active[bus.lastRun + 1]? = none := by
    cases here : bus.active[bus.lastRun + 1]? with
    | none => rfl
    | some run =>
      have below := (kept.runs _ run here).1
      omega
  have turn : Turn bus (bus.begin origin resolved keeps) (bus.lastRun + 1) ⟨origin, resolved, keeps, .admitted⟩ none (some .admitted)
      (status bus origin) (status bus origin) none false false := {
    number := fun _ => rfl
    active := absent
    active' other := by
      simp only [begin, TreeMaps.get_insert]
      split <;> rfl
    now := rfl
    later := rfl
    others _ _ := .inl rfl
    briefs other := by
      rw [if_neg (by simp)]
      rfl
    lastAudit := rfl
    lastProposal := rfl
    lastRun := rfl
    effects := by simp [begin]
    succeeded := by simp [begin] }
  exact Turned.of turn (.begins there)

/-- A run that ends without a claim of its own: recorded as failed next, or not at all. -/
theorem fail_turned (here : bus.active[id]? = some run) (early : run.phase = .admitted) (audits : Bool) :
    Turned bus (bus.fail id run audits) event := by
  rw [fail]
  split
  · refine Turned.of (turn_proceed here (marked_refl bus run.origin) .auditing) ?_
    rw [early]
    exact .fails
  · exact Turned.of (turn_end here (marked_refl bus run.origin)) .ends

theorem transact_turned (kept : Kept bus) (here : bus.active[id]? = some run) (early : run.phase = .admitted) (answer : Answer) :
    Turned bus (bus.transact id run answer) event := by
  cases answer with
  | failed => exact fail_turned here early true
  | asks => exact fail_turned here early false
  | ok out =>
    simp only [transact]
    cases marks : (bus.insertAudit (rowOf id run out .ok)).mark (bus.insertAudit (rowOf id run out .ok)).lastAudit run.origin with
    | error refused => exact Turned.of (turn_end here (marked_refl bus run.origin)) .ends
    | ok marked =>
      have turn := turn_recorded (rowOf id run out .ok) kept here rfl rfl (mark_marked (Nat.succ_ne_zero _) marks)
      rw [early] at turn
      exact Turned.of turn.land.succeed .transacts

theorem claimed_turned (here : bus.active[id]? = some run) (early : run.phase = .admitted) (stored : Bool) :
    Turned bus (bus.claimed id run stored) event := by
  rw [claimed]
  cases claims : bus.claim run.origin with
  | error refused => exact fail_turned here early _
  | ok marked =>
    dsimp only
    split
    · refine Turned.of (turn_proceed here (claim_marked claims) (.running 0)) ?_
      rw [early]
      exact .claims
    · exact fail_turned here early _

theorem stopped_turned {landed : Nat} (here : bus.active[id]? = some run) (phase : run.phase = .running landed) (audits : Bool) :
    Turned bus (bus.stopped id run landed audits) event := by
  rw [stopped]
  cases landed with
  | zero =>
    refine Turned.of (turn_proceed here (marked_refl bus run.origin) (.releasing audits)) ?_
    rw [phase]
    exact .gives
  | succ landed =>
    refine Turned.of (turn_proceed here (marked_refl bus run.origin) (.recording ⟨false, [], none⟩ .error)) ?_
    rw [phase]
    exact .stops

theorem answered_turned {landed : Nat} (here : bus.active[id]? = some run) (phase : run.phase = .running landed) (answer : Answer) :
    Turned bus (bus.answered id run landed answer) (.answer id answer) := by
  cases answer with
  | failed => exact stopped_turned here phase true
  | asks => exact stopped_turned here phase false
  | ok out =>
    have finishes (out : HandlerOutput) :
        Turned bus (((bus.land id run).succeed id run).proceed id run (.recording out .ok)) (.answer id (.ok out)) := by
      have turn := (turn_proceed here (marked_refl bus run.origin) (.recording out .ok)).land.succeed
      rw [phase] at turn
      exact Turned.of turn .finishes
    simp only [answered]
    split
    · rename_i more resolved
      split
      · rename_i lies
        cases landed with
        | succ landed =>
          have turn := (turn_proceed here (marked_refl bus run.origin) (.recording ⟨false, [], none⟩ .error)).land
          rw [phase] at turn
          exact Turned.of turn .stops
        | zero =>
          have turn := (turn_proceed here (marked_refl bus run.origin) (.releasing true)).land
          rw [phase] at turn
          refine ⟨id, run, _, _, _, _, _, _, _, true, turn, .lies, fun _ honest => ?_⟩
          simp [Honest, honestAnswer, here, phase, resolved, lies] at honest
      · split
        · have turn := (turn_proceed here (marked_refl bus run.origin) (.recording ⟨false, [], none⟩ .ok)).land.succeed
          rw [phase] at turn
          exact Turned.of turn .finishes
        · have turn := (turn_proceed here (marked_refl bus run.origin) (.running (landed + 1))).land
          rw [phase] at turn
          exact Turned.of turn .steps
    · have turn := (turn_proceed here (marked_refl bus run.origin) (.recording out .ok)).land.succeed
      rw [phase] at turn
      exact Turned.of turn .finishes

theorem recorded_turned {out : HandlerOutput} {outcome : Outcome} (kept : Kept bus) (here : bus.active[id]? = some run)
    (phase : run.phase = .recording out outcome) (stored : Bool) : Turned bus (bus.recorded id run out outcome stored) event := by
  have quits : Turned bus (bus.endRun id) event := Turned.of (turn_end here (marked_refl bus run.origin)) .ends
  simp only [recorded]
  cases finishes : (bus.insertAudit (rowOf id run out outcome)).finish (bus.insertAudit (rowOf id run out outcome)).lastAudit run.origin with
  | error refused => exact quits
  | ok finished =>
    dsimp only
    split
    · have held := kept.claimed id run here (by rw [phase]; rfl)
      have kept_ : status (bus.insertAudit (rowOf id run out outcome)) run.origin = .claimed := by
        rw [insertAudit_status rfl, if_neg, held]
        intro same
        rw [same, kept.next_missing] at held
        cases held
      have turn := turn_recorded (rowOf id run out outcome) kept here rfl rfl (finish_marked (Nat.succ_ne_zero _) kept_ finishes)
      rw [phase] at turn
      exact Turned.of turn .records
    · exact quits

theorem released_turned {audits : Bool} (kept : Kept bus) (here : bus.active[id]? = some run) (phase : run.phase = .releasing audits)
    (stored : Bool) : Turned bus (bus.released id run audits stored) event := by
  have held := kept.claimed id run here (by rw [phase]; rfl)
  rw [released]
  cases stored with
  | false =>
    simp only [Bool.false_eq_true, if_false, fail]
    split
    · refine Turned.of (turn_proceed here (marked_refl bus run.origin) .auditing) ?_
      rw [phase]
      exact .keeps
    · exact Turned.of (turn_end here (marked_refl bus run.origin)) .ends
  | true =>
    simp only [if_true, fail]
    split
    · refine Turned.of (turn_proceed here (release_marked held) .auditing) ?_
      rw [phase]
      exact .releases (.inr rfl)
    · refine Turned.of (turn_end here (release_marked held)) ?_
      rw [phase]
      exact .releases (.inl rfl)

theorem auditedOnly_turned (kept : Kept bus) (here : bus.active[id]? = some run) (phase : run.phase = .auditing) (stored : Bool) :
    Turned bus (bus.auditedOnly id stored) event := by
  rw [auditedOnly]
  cases stored with
  | false => exact Turned.of (turn_end here (marked_refl bus run.origin)) .ends
  | true =>
    have known := (kept.runs id run here).2
    have turn := turn_recorded ⟨id, .error, none, none⟩ kept here rfl rfl (marked_refl _ run.origin)
    rw [phase] at turn
    refine Turned.of turn ?_
    exact .audits

end Steps

/-! ## Steps outside the runs -/

theorem outside_call (kept : Kept bus) (outcome : Outcome) (inverse : Option String) :
    Outside bus { bus.insertAudit ⟨bus.lastRun + 1, outcome, inverse, none⟩ with lastRun := bus.lastRun + 1 } where
  active _ := .inr rfl
  statuses origin := by
    have after : status (bus.insertAudit ⟨bus.lastRun + 1, outcome, inverse, none⟩) origin = _ := insertAudit_status rfl origin
    by_cases new : origin = .undo (bus.lastAudit + 1)
    · rw [if_pos new] at after
      exact .inr (.inl ⟨new ▸ kept.next_missing, after⟩)
    · rw [if_neg new] at after
      exact .inl after
  briefs row := by
    have after : brief (bus.insertAudit ⟨bus.lastRun + 1, outcome, inverse, none⟩) row = _ := insertAudit_brief _ row
    by_cases new : row = bus.lastAudit + 1
    · rw [if_pos new] at after
      exact .inr ⟨new, outcome, after⟩
    · rw [if_neg new] at after
      exact .inl after
  lastAudit := .inr ⟨rfl, rfl⟩
  lastProposal := ⟨Nat.le_refl _, fun _ => .inl rfl⟩
  effects := rfl
  succeeded := rfl

theorem supersede_status (key : String) (by_ : Nat) (proposal : Proposal) :
    proposalStatus (some (supersede key by_ proposal)) = proposalStatus (some proposal) ∨
      proposalStatus (some proposal) = .waiting ∧ proposalStatus (some (supersede key by_ proposal)) = .closed := by
  rw [supersede]
  split
  · rename_i replaced
    right
    simp only [proposalStatus, replaced.2, and_self]
  · exact .inl rfl

theorem proposalStatus_ne_missing (proposal : Proposal) : proposalStatus (some proposal) ≠ .missing := by
  rw [proposalStatus]
  cases proposal.decision with
  | approved => cases proposal.auditId <;> nofun
  | pending => nofun
  | declined => nofun
  | superseded => nofun

theorem outside_propose (kept : Kept bus) (key : String) : Outside bus (bus.insertTx key) where
  active _ := .inr rfl
  statuses origin := by
    cases origin with
    | undo audit => exact .inl rfl
    | approval proposal =>
      simp only [status, insertTx, TreeMaps.get_insert, Std.ExtTreeMap.getElem?_map]
      by_cases new : bus.lastProposal + 1 = proposal
      · subst new
        have absent : bus.proposals[bus.lastProposal + 1]? = none := by
          cases here : bus.proposals[bus.lastProposal + 1]? with
          | none => rfl
          | some row =>
            have below := kept.proposals (bus.lastProposal + 1) (by simpa only [status, here] using proposalStatus_ne_missing row)
            omega
        rw [if_pos rfl, absent]
        exact .inr (.inl ⟨rfl, rfl⟩)
      · rw [if_neg new]
        cases here : bus.proposals[proposal]? with
        | none => exact .inl rfl
        | some row =>
          rcases supersede_status key (bus.lastProposal + 1) row with same | ⟨waits, closes⟩
          · exact .inl same
          · rw [Option.map_some]
            exact .inr (.inr ⟨waits, closes⟩)
  briefs _ := .inl rfl
  lastAudit := .inl ⟨rfl, rfl, fun _ => rfl⟩
  lastProposal := by
    refine ⟨Nat.le_succ _, fun id => ?_⟩
    simp only [status, insertTx, TreeMaps.get_insert, Std.ExtTreeMap.getElem?_map]
    by_cases new : bus.lastProposal + 1 = id
    · exact .inr (Nat.le_of_eq new.symm)
    · rw [if_neg new]
      cases here : bus.proposals[id]? with
      | none => exact .inl rfl
      | some row =>
        have below := kept.proposals id (by simpa only [status, here] using proposalStatus_ne_missing row)
        exact .inr (Nat.le_succ_of_le below)
  effects := rfl
  succeeded := rfl

theorem outside_decline {proposal : Nat} (kept : Kept bus) (declines : bus.declineTx proposal = .ok next) : Outside bus next := by
  obtain ⟨old, here, pending, moved⟩ := decide_marked declines
  exact {
    active := fun _ => .inr (by rw [moved.active])
    statuses := fun origin => by
      by_cases own : origin = .approval proposal
      · subst own
        exact .inr (.inr ⟨moved.now, moved.later⟩)
      · exact .inl (moved.others origin own)
    briefs := fun row => .inl (moved.briefs row)
    lastAudit := .inl ⟨moved.lastAudit, moved.lastRun, moved.briefs⟩
    lastProposal := by
      rw [moved.lastProposal]
      refine ⟨Nat.le_refl _, fun id => ?_⟩
      by_cases own : id = proposal
      · subst own
        exact .inr (kept.proposals id (by rw [moved.now]; nofun))
      · exact .inl (moved.others _ fun same => own (RunOrigin.approval.inj same))
    effects := moved.effects
    succeeded := moved.succeeded }

theorem outside_gone (active : ∀ id : Nat, next.active[id]? = none ∨ next.active[id]? = bus.active[id]?)
    (rest : next = { bus with active := next.active }) : Outside bus next := by
  rw [rest]
  exact ⟨active, fun _ => .inl rfl, fun _ => .inl rfl, .inl ⟨rfl, rfl, fun _ => rfl⟩, ⟨Nat.le_refl _, fun _ => .inl rfl⟩, rfl, rfl⟩

/-- A step is one run's turn, or outside the runs. -/
theorem step_turned (kept : Kept bus) (moves : bus.step event = some (next, ())) : Outside bus next ∨ Turned bus next event := by
  cases event with
  | call outcome inverse =>
    obtain rfl := (Prod.mk.inj (Option.some.inj moves)).1
    exact .inl (outside_call kept outcome inverse)
  | propose key =>
    obtain rfl := (Prod.mk.inj (Option.some.inj moves)).1
    exact .inl (outside_propose kept key)
  | decline proposal =>
    simp only [CommandBus.step, Option.map_eq_some_iff, Prod.mk.injEq, and_true] at moves
    obtain ⟨decided, declines, rfl⟩ := moves
    cases result : bus.declineTx proposal with
    | error refused => simp [result, Except.toOption] at declines
    | ok decided' =>
      simp only [result, Except.toOption, Option.some.injEq] at declines
      exact .inl (outside_decline kept (declines ▸ result))
  | undo audit resolved keeps =>
    simp only [CommandBus.step] at moves
    cases here : bus.audit[audit]? with
    | none => simp [here] at moves
    | some row =>
      simp only [here] at moves
      split at moves
      · rename_i fits
        obtain rfl := (Prod.mk.inj (Option.some.inj moves)).1
        have there : status bus (.undo audit) ≠ .missing := by
          simp only [status, here, undoneStatus]
          split
          · nofun
          · split <;> nofun
        exact .inr (begin_turned kept there resolved keeps)
      · cases moves
  | approve proposal resolved keeps =>
    simp only [CommandBus.step] at moves
    cases here : bus.proposals[proposal]? with
    | none => simp [here] at moves
    | some row =>
      simp only [here] at moves
      split at moves
      · rename_i pending
        obtain rfl := (Prod.mk.inj (Option.some.inj moves)).1
        have there : status bus (.approval proposal) ≠ .missing := by
          simp only [status, here, proposalStatus, pending]
          nofun
        exact .inr (begin_turned kept there resolved keeps)
      · cases moves
  | refuse id audits =>
    simp only [CommandBus.step] at moves
    cases here : bus.active[id]? with
    | none => simp [here] at moves
    | some run =>
      simp only [here] at moves
      split at moves
      · rename_i early
        obtain rfl := (Prod.mk.inj (Option.some.inj moves)).1
        exact .inr (fail_turned here early audits)
      · cases moves
  | transact id answer =>
    simp only [CommandBus.step] at moves
    cases here : bus.active[id]? with
    | none => simp [here] at moves
    | some run =>
      simp only [here] at moves
      split at moves
      · rename_i early
        obtain rfl := (Prod.mk.inj (Option.some.inj moves)).1
        exact .inr (transact_turned kept here early.1 answer)
      · cases moves
  | claim id stored =>
    simp only [CommandBus.step] at moves
    cases here : bus.active[id]? with
    | none => simp [here] at moves
    | some run =>
      simp only [here] at moves
      split at moves
      · rename_i early
        obtain rfl := (Prod.mk.inj (Option.some.inj moves)).1
        exact .inr (claimed_turned here early.1 stored)
      · cases moves
  | answer id answer =>
    simp only [CommandBus.step] at moves
    cases here : bus.active[id]? with
    | none => simp [here] at moves
    | some run =>
      simp only [here] at moves
      split at moves
      · rename_i landed phase
        obtain rfl := (Prod.mk.inj (Option.some.inj moves)).1
        exact .inr (answered_turned here phase answer)
      · cases moves
  | record id stored =>
    simp only [CommandBus.step] at moves
    cases here : bus.active[id]? with
    | none => simp [here] at moves
    | some run =>
      simp only [here] at moves
      split at moves
      · rename_i out outcome phase
        obtain rfl := (Prod.mk.inj (Option.some.inj moves)).1
        exact .inr (recorded_turned kept here phase stored)
      · cases moves
  | release id stored =>
    simp only [CommandBus.step] at moves
    cases here : bus.active[id]? with
    | none => simp [here] at moves
    | some run =>
      simp only [here] at moves
      split at moves
      · rename_i audits phase
        obtain rfl := (Prod.mk.inj (Option.some.inj moves)).1
        exact .inr (released_turned kept here phase stored)
      · cases moves
  | auditOnly id stored =>
    simp only [CommandBus.step] at moves
    cases here : bus.active[id]? with
    | none => simp [here] at moves
    | some run =>
      simp only [here] at moves
      split at moves
      · rename_i phase
        obtain rfl := (Prod.mk.inj (Option.some.inj moves)).1
        exact .inr (auditedOnly_turned kept here phase stored)
      · cases moves
  | cutOff id =>
    obtain rfl := (Prod.mk.inj (Option.some.inj moves)).1
    refine .inl (outside_gone (fun other => ?_) rfl)
    simp only [endRun, TreeMaps.get_erase]
    split
    · exact .inl rfl
    · exact .inr rfl
  | crash =>
    obtain rfl := (Prod.mk.inj (Option.some.inj moves)).1
    exact .inl (outside_gone (fun other => .inl (by simp)) rfl)

/-! ## What every step keeps -/

theorem Outside.rows (outside : Outside bus next) (row : Nat) (pair : Nat × Outcome) (here : brief next row = some pair) :
    brief bus row = some pair ∨ row = next.lastAudit ∧ pair.1 = next.lastRun ∧ next.lastRun = bus.lastRun + 1 := by
  rcases outside.briefs row with same | ⟨new, outcome, added⟩
  · exact .inl (same ▸ here)
  · rcases outside.lastAudit with ⟨-, -, same⟩ | ⟨audit, runs⟩
    · exact .inl (same row ▸ here)
    · rw [added] at here
      obtain rfl := Option.some.inj here
      exact .inr ⟨new.trans audit.symm, runs.symm, runs⟩

theorem Outside.counts (outside : Outside bus next) : bus.lastAudit ≤ next.lastAudit ∧ bus.lastRun ≤ next.lastRun := by
  rcases outside.lastAudit with ⟨audit, runs, -⟩ | ⟨audit, runs⟩ <;> omega

theorem Outside.there (outside : Outside bus next) (there : status bus origin ≠ .missing) : status next origin ≠ .missing := by
  rcases outside.statuses origin with same | ⟨absent, -⟩ | ⟨-, closes⟩
  · rwa [same]
  · exact absurd absent there
  · rw [closes]
    nofun

theorem Outside.claimed (outside : Outside bus next) (held : (status bus origin).taken = true) : status next origin = status bus origin := by
  rcases outside.statuses origin with same | ⟨absent, -⟩ | ⟨waits, -⟩
  · exact same
  · rw [absent] at held
    cases held
  · rw [waits] at held
    cases held

theorem Outside.run (outside : Outside bus next) {run : Run} (here : next.active[id]? = some run) : bus.active[id]? = some run := by
  rcases outside.active id with gone | same
  · rw [gone] at here
    cases here
  · rwa [same] at here

theorem Kept.outside (kept : Kept bus) (outside : Outside bus next) : Kept next where
  runs id run here := by
    have old := kept.runs id run (outside.run here)
    exact ⟨old.1.trans outside.counts.2, outside.there old.2⟩
  rows row pair here := by
    rcases outside.rows row pair here with old | ⟨new, of_, -⟩
    · have bounds := kept.rows row pair old
      exact ⟨bounds.1.trans outside.counts.1, bounds.2.trans outside.counts.2⟩
    · exact ⟨new.le, of_.le⟩
  proposals id there := by
    rcases outside.lastProposal.2 id with same | below
    · exact (kept.proposals id (same ▸ there)).trans outside.lastProposal.1
    · exact below
  landed entry member := (kept.landed entry (outside.effects ▸ member)).trans outside.counts.2
  won entry member := (kept.won entry (outside.succeeded ▸ member)).trans outside.counts.2
  claimed id run here held := by
    have old := kept.claimed id run (outside.run here) held
    rw [outside.claimed (old ▸ rfl), old]
  sole id id' run run' here here' := kept.sole id id' run run' (outside.run here) (outside.run here')
  unrecorded id run here row pair listed := by
    have old := outside.run here
    rcases outside.rows row pair listed with before | ⟨-, of_, runs⟩
    · exact kept.unrecorded id run old row pair before
    · have below := (kept.runs id run old).1
      omega

section Turns
variable {run : Run} {before after : Option Phase} {now later : Status} {row : Option Outcome} {lands wins lie : Bool}

/-- A run that is there after a turn is another one as it was, or the one that turned. -/
theorem Turn.elsewhere (turn : Turn bus next id run before after now later row lands wins) {other : Nat} {run' : Run}
    (here : next.active[other]? = some run') :
    id ≠ other ∧ bus.active[other]? = some run' ∨ id = other ∧ ∃ phase, after = some phase ∧ run' = { run with phase } := by
  rw [turn.active'] at here
  by_cases own : id = other
  · rw [if_pos own, Option.map_eq_some_iff] at here
    obtain ⟨phase, same, rfl⟩ := here
    exact .inr ⟨own, phase, same, rfl⟩
  · rw [if_neg own] at here
    exact .inl ⟨own, here⟩

theorem Turn.rows (turn : Turn bus next id run before after now later row lands wins) (other : Nat) (pair : Nat × Outcome)
    (here : brief next other = some pair) : brief bus other = some pair ∨ row = some pair.2 ∧ pair.1 = id ∧ other = bus.lastAudit + 1 := by
  rw [turn.briefs] at here
  split at here
  · rename_i new
    obtain ⟨outcome, recorded, rfl⟩ := Option.map_eq_some_iff.mp here
    exact .inr ⟨recorded, rfl, new.2⟩
  · exact .inl here

theorem Turn.counts (turn : Turn bus next id run before after now later row lands wins) :
    bus.lastAudit ≤ next.lastAudit ∧ bus.lastRun ≤ next.lastRun ∧ (row.isSome = true → next.lastAudit = bus.lastAudit + 1) := by
  refine ⟨?_, ?_, fun recorded => ?_⟩
  · rw [turn.lastAudit]
    split <;> omega
  · rw [turn.lastRun]
    split <;> omega
  · rw [turn.lastAudit, if_pos recorded]

theorem Turn.entries (turn : Turn bus next id run before after now later row lands wins) {entry : Nat × RunOrigin}
    (member : entry ∈ next.effects) : entry ∈ bus.effects ∨ lands = true ∧ entry = (id, run.origin) := by
  rw [turn.effects] at member
  rcases List.mem_append.mp member with old | new
  · exact .inl old
  · cases lands with
    | false => cases new
    | true => exact .inr ⟨rfl, List.mem_singleton.mp new⟩

theorem Turn.winners (turn : Turn bus next id run before after now later row lands wins) {entry : Nat × RunOrigin}
    (member : entry ∈ next.succeeded) : entry ∈ bus.succeeded ∨ wins = true ∧ entry = (id, run.origin) := by
  rw [turn.succeeded] at member
  rcases List.mem_append.mp member with old | new
  · exact .inl old
  · cases wins with
    | false => cases new
    | true => exact .inr ⟨rfl, List.mem_singleton.mp new⟩

/-- The run that turns has its number by the end. -/
theorem Turn.numbered (turn : Turn bus next id run before after now later row lands wins) (kept : Kept bus) : id ≤ next.lastRun := by
  cases before with
  | none =>
    have given : next.lastRun = bus.lastRun + 1 := turn.lastRun
    rw [turn.number rfl, given]
  | some phase => exact (kept.runs id _ turn.active).1.trans turn.counts.2.1

/-- What a run can do to the status of its row, and in which phase it is then. -/
theorem Leg.moved (leg : Leg (bus.lastAudit + 1) before after now later row lands wins lie) :
    later = now ∨ now = .waiting ∧ later ≠ .missing ∨
      now = .claimed ∧ later ≠ .missing ∧ ∃ phase, before = some phase ∧ holds phase = true := by
  cases leg with
  | transacts => exact .inr (.inl ⟨rfl, nofun⟩)
  | claims => exact .inr (.inl ⟨rfl, nofun⟩)
  | records => exact .inr (.inr ⟨rfl, nofun, _, rfl, rfl⟩)
  | releases => exact .inr (.inr ⟨rfl, nofun, _, rfl, rfl⟩)
  | _ => exact .inl rfl

/-- A run that holds the claim afterwards has just claimed it, or held it. -/
theorem Leg.holding {phase : Phase} (leg : Leg (bus.lastAudit + 1) before (some phase) now later row lands wins lie)
    (held : holds phase = true) : now = .waiting ∧ later = .claimed ∨ later = now ∧ ∃ phase, before = some phase ∧ holds phase = true := by
  cases leg with
  | begins => cases held
  | fails => cases held
  | claims => exact .inl ⟨rfl, rfl⟩
  | releases next =>
    rcases next with gone | failed
    · cases gone
    · obtain rfl := Option.some.inj failed
      cases held
  | keeps => cases held
  | steps => exact .inr ⟨rfl, _, rfl, rfl⟩
  | finishes => exact .inr ⟨rfl, _, rfl, rfl⟩
  | stops => exact .inr ⟨rfl, _, rfl, rfl⟩
  | gives => exact .inr ⟨rfl, _, rfl, rfl⟩
  | lies => exact .inr ⟨rfl, _, rfl, rfl⟩

/-- A run that is recorded has ended. -/
theorem Leg.recorded (leg : Leg (bus.lastAudit + 1) before after now later row lands wins lie) (recorded : row.isSome = true) : after = none := by
  cases leg with
  | transacts => rfl
  | records => rfl
  | audits => rfl
  | _ => cases recorded

theorem Turn.now_there (turn : Turn bus next id run before after now later row lands wins)
    (leg : Leg (bus.lastAudit + 1) before after now later row lands wins lie) (kept : Kept bus) : now ≠ .missing := by
  cases before with
  | some phase =>
    rw [← turn.now]
    exact (kept.runs id _ turn.active).2
  | none =>
    cases leg with
    | begins there => exact there

theorem Turn.later_there (turn : Turn bus next id run before after now later row lands wins)
    (leg : Leg (bus.lastAudit + 1) before after now later row lands wins lie) (kept : Kept bus) : later ≠ .missing := by
  rcases leg.moved with same | ⟨-, there⟩ | ⟨-, there, -⟩
  · rw [same]
    exact turn.now_there leg kept
  · exact there
  · exact there

/-- A row that another run has the claim of keeps its status. -/
theorem Turn.claimed_elsewhere (turn : Turn bus next id run before after now later row lands wins)
    (leg : Leg (bus.lastAudit + 1) before after now later row lands wins lie) (kept : Kept bus) {other : Nat} {run' : Run} (apart : id ≠ other)
    (here : bus.active[other]? = some run') (held : holds run'.phase = true) : status next run'.origin = .claimed := by
  have claimed := kept.claimed other run' here held
  by_cases same : run'.origin = run.origin
  · rw [same, turn.later]
    have now_ : now = .claimed := by rw [← turn.now, ← same, claimed]
    rcases leg.moved with still | ⟨waits, -⟩ | ⟨-, -, phase, was, holding⟩
    · rw [still, now_]
    · rw [now_] at waits
      cases waits
    · subst was
      exact absurd (kept.sole id other _ run' turn.active here holding held same.symm) apart
  · rcases turn.others run'.origin same with still | ⟨-, absent, -⟩
    · rw [still, claimed]
    · rw [claimed] at absent
      cases absent

theorem Kept.turn (kept : Kept bus) (turn : Turn bus next id run before after now later row lands wins)
    (leg : Leg (bus.lastAudit + 1) before after now later row lands wins lie) : Kept next where
  runs other run' here := by
    rcases turn.elsewhere here with ⟨apart, old⟩ | ⟨rfl, phase, -, rfl⟩
    · have known := kept.runs other run' old
      refine ⟨known.1.trans turn.counts.2.1, ?_⟩
      by_cases same : run'.origin = run.origin
      · rw [same, turn.later]
        exact turn.later_there leg kept
      · rcases turn.others run'.origin same with still | ⟨-, -, waits⟩
        · rw [still]
          exact known.2
        · rw [waits]
          nofun
    · refine ⟨turn.numbered kept, ?_⟩
      rw [turn.later]
      exact turn.later_there leg kept
  rows other pair here := by
    have counts := turn.counts
    rcases turn.rows other pair here with old | ⟨recorded, own, new⟩
    · have known := kept.rows other pair old
      exact ⟨known.1.trans counts.1, known.2.trans counts.2.1⟩
    · rw [new, own, counts.2.2 (by rw [recorded]; rfl)]
      exact ⟨le_refl _, turn.numbered kept⟩
  proposals other there := by
    rw [turn.lastProposal]
    refine kept.proposals other ?_
    by_cases same : .approval other = run.origin
    · rw [same, turn.now]
      exact turn.now_there leg kept
    · rcases turn.others _ same with still | ⟨undone, -⟩
      · rwa [still] at there
      · cases undone
  landed entry member := by
    rcases turn.entries member with old | ⟨-, rfl⟩
    · exact (kept.landed entry old).trans turn.counts.2.1
    · exact turn.numbered kept
  won entry member := by
    rcases turn.winners member with old | ⟨-, rfl⟩
    · exact (kept.won entry old).trans turn.counts.2.1
    · exact turn.numbered kept
  claimed other run' here held := by
    rcases turn.elsewhere here with ⟨apart, old⟩ | ⟨rfl, phase, rfl, rfl⟩
    · exact turn.claimed_elsewhere leg kept apart old held
    · rw [turn.later]
      rcases leg.holding held with ⟨-, claimed⟩ | ⟨still, before, rfl, holding⟩
      · exact claimed
      · rw [still, ← turn.now]
        exact kept.claimed id { run with phase := before } turn.active holding
  sole first second run' run'' here here' held held' same := by
    -- The run that turns holds its claim anew, when the row still waited, or held it before.
    have alone : ∀ (other : Nat) other' phase, id ≠ other → after = some phase → holds phase = true → bus.active[other]? = some other' →
        holds other'.phase = true → other'.origin = run.origin → False := by
      intro other other' phase apart there holding old held alike
      subst there
      rcases leg.holding holding with ⟨waits, -⟩ | ⟨-, before, rfl, was⟩
      · have claimed := kept.claimed other other' old held
        rw [alike, turn.now, waits] at claimed
        cases claimed
      · exact apart (kept.sole id other _ other' turn.active old was held alike.symm)
    rcases turn.elsewhere here with ⟨apart, old⟩ | ⟨rfl, phase, there, rfl⟩
    · rcases turn.elsewhere here' with ⟨-, old'⟩ | ⟨rfl, phase, there, rfl⟩
      · exact kept.sole first second run' run'' old old' held held' same
      · exact (alone first run' phase apart there held' old held same).elim
    · rcases turn.elsewhere here' with ⟨apart, old'⟩ | ⟨rfl, -⟩
      · exact (alone second run'' phase apart there held old' held' same.symm).elim
      · rfl
  unrecorded other run' here place pair listed := by
    rcases turn.rows place pair listed with old | ⟨recorded, own, -⟩
    · rcases turn.elsewhere here with ⟨-, there⟩ | ⟨rfl, phase, -, rfl⟩
      · exact kept.unrecorded other run' there place pair old
      · cases before with
        | some phase' => exact kept.unrecorded id _ turn.active place pair old
        | none =>
          have below := (kept.rows place pair old).2
          have number := turn.number rfl
          omega
    · rcases turn.elsewhere here with ⟨apart, -⟩ | ⟨-, phase, there, -⟩
      · rw [own]
        exact apart
      · rw [leg.recorded (by rw [recorded]; rfl)] at there
        cases there

end Turns

theorem Kept.step (kept : Kept bus) (moves : bus.step event = some (next, ())) : Kept next := by
  rcases step_turned kept moves with outside | ⟨id, run, before, after, now, later, row, lands, wins, lie, turn, leg, -⟩
  · exact kept.outside outside
  · exact kept.turn turn leg

/-! ## What lands, lands once -/

/-- Of the runs of one row, a list names one: entries are only of rows that are taken, and
while a run has the row's claim they are its own, in phases that are `past` the first. -/
structure Once (bus : CommandBus) (entries : List (Nat × RunOrigin)) (past : Phase → Bool) : Prop where
  taken : ∀ entry ∈ entries, (status bus entry.2).taken = true
  holder : ∀ entry ∈ entries, ∀ (id : Nat) run, bus.active[id]? = some run → holds run.phase = true → run.origin = entry.2 →
    entry.1 = id ∧ past run.phase = true
  once : ∀ entry ∈ entries, ∀ entry' ∈ entries, entry.2 = entry'.2 → entry.1 = entry'.1

/-- How a turn and a list go together; `adds`: the turn adds an entry. -/
structure Fit (before after : Option Phase) (now later : Status) (adds : Bool) (past : Phase → Bool) : Prop where
  grants : adds = true → later.taken = true ∧ (now = .waiting ∨ ∃ phase, before = some phase ∧ holds phase = true)
  stays : ∀ phase, after = some phase → holds phase = true →
    (adds = true ∨ ∃ phase', before = some phase' ∧ holds phase' = true ∧ past phase' = true) → past phase = true
  frees : now.taken = true → later.taken = false → adds = false ∧ ∃ phase, before = some phase ∧ holds phase = true ∧ past phase = false

theorem Once.outside {entries : List (Nat × RunOrigin)} {past : Phase → Bool} (once : Once bus entries past) (outside : Outside bus next) :
    Once next entries past where
  taken entry member := by
    have taken := once.taken entry member
    rwa [outside.claimed taken]
  holder entry member id run here := once.holder entry member id run (outside.run here)
  once := once.once

section Turns
variable {run : Run} {before after : Option Phase} {now later : Status} {row : Option Outcome} {lands wins lie : Bool}
  {entries entries' : List (Nat × RunOrigin)} {past : Phase → Bool} {adds : Bool}

theorem Once.turn (once : Once bus entries past) (kept : Kept bus) (turn : Turn bus next id run before after now later row lands wins)
    (leg : Leg (bus.lastAudit + 1) before after now later row lands wins lie) (fit : Fit before after now later adds past)
    (grows : entries' = entries ++ if adds = true then [(id, run.origin)] else []) : Once next entries' past := by
  have added : ∀ entry ∈ entries', entry ∈ entries ∨ adds = true ∧ entry = (id, run.origin) := by
    intro entry member
    rw [grows] at member
    rcases List.mem_append.mp member with old | new
    · exact .inl old
    · cases adds with
      | false => cases new
      | true => exact .inr ⟨rfl, List.mem_singleton.mp new⟩
  -- What there is of the row that turns is the run's own, when it had the claim.
  have own : ∀ entry ∈ entries, entry.2 = run.origin → ∀ phase, before = some phase → holds phase = true → entry.1 = id ∧ past phase = true := by
    intro entry member same phase was holding
    subst was
    exact once.holder entry member id _ turn.active holding same.symm
  have unwaiting : ∀ entry ∈ entries, entry.2 = run.origin → now ≠ .waiting := by
    intro entry member same waits
    have taken := once.taken entry member
    rw [same, turn.now, waits] at taken
    cases taken
  have alone : adds = true → ∀ entry ∈ entries, entry.2 = run.origin → entry.1 = id := by
    intro adding entry member same
    rcases (fit.grants adding).2 with waits | ⟨phase, was, holding⟩
    · exact absurd waits (unwaiting entry member same)
    · exact (own entry member same phase was holding).1
  constructor
  · intro entry member
    rcases added entry member with old | ⟨adding, rfl⟩
    · have taken := once.taken entry old
      by_cases same : entry.2 = run.origin
      · rw [same, turn.later]
        rw [same, turn.now] at taken
        cases freed : later.taken with
        | true => rfl
        | false =>
          obtain ⟨-, phase, was, holding, early⟩ := fit.frees taken freed
          rw [(own entry old same phase was holding).2] at early
          cases early
      · rcases turn.others entry.2 same with still | ⟨-, absent, -⟩
        · rwa [still]
        · rw [absent] at taken
          cases taken
    · rw [turn.later]
      exact (fit.grants adding).1
  · intro entry member other run' here held same
    rcases added entry member with old | ⟨adding, rfl⟩
    · rcases turn.elsewhere here with ⟨-, there⟩ | ⟨rfl, phase, rfl, rfl⟩
      · exact once.holder entry old other run' there held same
      · rcases leg.holding held with ⟨waits, -⟩ | ⟨-, before, rfl, holding⟩
        · exact absurd waits (unwaiting entry old same.symm)
        · obtain ⟨mine, was⟩ := own entry old same.symm before rfl holding
          exact ⟨mine, fit.stays phase rfl held (.inr ⟨before, rfl, holding, was⟩)⟩
    · rcases turn.elsewhere here with ⟨apart, there⟩ | ⟨rfl, phase, rfl, rfl⟩
      · have claimed := kept.claimed other run' there held
        rcases (fit.grants adding).2 with waits | ⟨phase, rfl, holding⟩
        · rw [same, turn.now, waits] at claimed
          cases claimed
        · exact absurd (kept.sole id other _ run' turn.active there holding held same.symm) apart
      · exact ⟨rfl, fit.stays phase rfl held (.inl adding)⟩
  · intro entry member entry' member' same
    rcases added entry member with old | ⟨adding, rfl⟩
    · rcases added entry' member' with old' | ⟨adding, rfl⟩
      · exact once.once entry old entry' old' same
      · exact alone adding entry old same
    · rcases added entry' member' with old' | ⟨-, rfl⟩
      · exact (alone adding entry' old' same.symm).symm
      · rfl

end Turns

/-- Something of the run has landed. -/
def pastLanding : Phase → Bool
  | .running landed => landed != 0
  | .recording _ _ => true
  | _ => false

/-- All of the run has landed. -/
def pastSuccess : Phase → Bool
  | .recording _ outcome => outcome == .ok
  | _ => false

section Fits
variable {fresh : Nat} {before after : Option Phase} {now later : Status} {row : Option Outcome} {lands wins lie : Bool} {past : Phase → Bool}

/-- A turn that adds nothing and keeps the claim's holder where it was, or ends it. -/
theorem fit_still (early : ∀ phase phase', before = some phase → after = some phase' → past phase = true → past phase' = true)
    (keeps : now.taken = true → later.taken = true) : Fit before after now later false past where
  grants := nofun
  stays phase there _ held := by
    rcases held with none_ | ⟨phase', was, -, past_⟩
    · cases none_
    · exact early phase' phase was there past_
  frees taken freed := by
    rw [keeps taken] at freed
    cases freed

theorem fit_first (keeps : now.taken = true → later.taken = true) : Fit none after now later false past :=
  fit_still (fun _ _ was => by cases was) keeps

theorem fit_last (keeps : now.taken = true → later.taken = true) : Fit before none now later false past :=
  fit_still (fun _ _ _ there => by cases there) keeps

/-- A turn of a run of which nothing has gone that far. -/
theorem fit_early {phase : Phase} (early : past phase = false) (keeps : now.taken = true → later.taken = true) :
    Fit (some phase) after now later false past := by
  refine fit_still (fun phase' phase'' was _ past_ => ?_) keeps
  obtain rfl := Option.some.inj was
  rw [early] at past_
  cases past_

/-- A turn that adds an entry of a run that has the claim. -/
theorem fit_adds {phase phase' : Phase} (held : holds phase = true) (late : past phase' = true) (claimed : now = .claimed) :
    Fit (some phase) (some phase') now now true past where
  grants _ := ⟨by rw [claimed]; rfl, .inr ⟨phase, rfl, held⟩⟩
  stays phase'' there _ _ := by
    obtain rfl := Option.some.inj there
    exact late
  frees taken freed := by
    rw [taken] at freed
    cases freed

theorem fit_transact {row : Nat} : Fit (some .admitted) none .waiting (.done row) true past where
  grants _ := ⟨rfl, .inl rfl⟩
  stays _ there := nomatch there
  frees taken := nomatch taken

theorem fit_release {audits : Bool} (early : past (.releasing audits) = false) (next : after = none ∨ after = some .auditing) :
    Fit (some (.releasing audits)) after .claimed .waiting false past where
  grants := nofun
  stays phase there held := by
    rcases next with rfl | rfl
    · cases there
    · obtain rfl := Option.some.inj there
      cases held
  frees _ _ := ⟨rfl, _, rfl, rfl, early⟩

theorem fit_landing (leg : Leg fresh before after now later row lands wins lie) (honest : lie = false)
    (claimed : ∀ phase, before = some phase → holds phase = true → now = .claimed) : Fit before after now later lands pastLanding := by
  cases leg with
  | begins => exact fit_first id
  | transacts => exact fit_transact
  | ends => exact fit_last id
  | fails => exact fit_early rfl id
  | claims => exact fit_early rfl fun _ => rfl
  | steps => exact fit_adds rfl rfl (claimed _ rfl rfl)
  | finishes => exact fit_adds rfl rfl (claimed _ rfl rfl)
  | stops =>
    cases lands with
    | true => exact fit_adds rfl rfl (claimed _ rfl rfl)
    | false => exact fit_still (fun _ _ _ there _ => by obtain rfl := Option.some.inj there; rfl) id
  | gives => exact fit_early rfl id
  | lies => cases honest
  | records => exact fit_last fun _ => rfl
  | releases next => exact fit_release rfl next
  | keeps => exact fit_early rfl id
  | audits => exact fit_last id

theorem fit_success (leg : Leg fresh before after now later row lands wins lie)
    (claimed : ∀ phase, before = some phase → holds phase = true → now = .claimed) : Fit before after now later wins pastSuccess := by
  cases leg with
  | begins => exact fit_first id
  | transacts => exact fit_transact
  | ends => exact fit_last id
  | fails => exact fit_early rfl id
  | claims => exact fit_early rfl fun _ => rfl
  | steps => exact fit_early rfl id
  | finishes => exact fit_adds rfl rfl (claimed _ rfl rfl)
  | stops => exact fit_early rfl id
  | gives => exact fit_early rfl id
  | lies => exact fit_early rfl id
  | records => exact fit_last fun _ => rfl
  | releases next => exact fit_release rfl next
  | keeps => exact fit_early rfl id
  | audits => exact fit_last id

end Fits

/-- A run that has the claim has it of a row that is claimed. -/
theorem Turn.now_claimed {run : Run} {before after : Option Phase} {now later : Status} {row : Option Outcome} {lands wins : Bool}
    (turn : Turn bus next id run before after now later row lands wins) (kept : Kept bus) (phase : Phase) (was : before = some phase)
    (held : holds phase = true) : now = .claimed := by
  subst was
  rw [← turn.now]
  exact kept.claimed id { run with phase } turn.active held

theorem success_step (kept : Kept bus) (once : Once bus bus.succeeded pastSuccess) (moves : bus.step event = some (next, ())) :
    Once next next.succeeded pastSuccess := by
  rcases step_turned kept moves with outside | ⟨id, run, before, after, now, later, row, lands, wins, lie, turn, leg, -⟩
  · rw [outside.succeeded]
    exact once.outside outside
  · exact once.turn kept turn leg (fit_success leg (turn.now_claimed kept)) turn.succeeded

theorem landing_step (kept : Kept bus) (once : Once bus bus.effects pastLanding) (honest : Honest bus event)
    (moves : bus.step event = some (next, ())) : Once next next.effects pastLanding := by
  rcases step_turned kept moves with outside | ⟨id, run, before, after, now, later, row, lands, wins, lie, turn, leg, lies⟩
  · rw [outside.effects]
    exact once.outside outside
  · have truthful : lie = false := by
      cases lie with
      | false => rfl
      | true => exact absurd honest (lies rfl)
    exact once.turn kept turn leg (fit_landing leg truthful (turn.now_claimed kept)) turn.effects

/-! ## Rows marked with what landed -/

/-- A row is marked with exactly the recorded run that landed something of it, and that run
is recorded as a success exactly if all of it landed. -/
structure Marks (bus : CommandBus) : Prop where
  own : ∀ (id : Nat) run, bus.active[id]? = some run → ∀ entry ∈ bus.effects, entry.1 = id →
    entry.2 = run.origin ∧ pastLanding run.phase = true
  landed : ∀ (id : Nat) run, bus.active[id]? = some run → pastLanding run.phase = true → (id, run.origin) ∈ bus.effects
  whole : ∀ (id : Nat) run, bus.active[id]? = some run → ((id, run.origin) ∈ bus.succeeded ↔ pastSuccess run.phase = true)
  marked : ∀ origin row, status bus origin = .done row ↔ ∃ pair, brief bus row = some pair ∧ (pair.1, origin) ∈ bus.effects
  outcome : ∀ origin row pair, status bus origin = .done row → brief bus row = some pair → (pair.2 = .ok ↔ (pair.1, origin) ∈ bus.succeeded)

section Legs
variable {fresh : Nat} {before after : Option Phase} {now later : Status} {row : Option Outcome} {lands wins : Bool}

theorem Leg.landing (leg : Leg fresh before after now later row lands wins false) {phase : Phase} (there : after = some phase) :
    pastLanding phase = true ↔ lands = true ∨ ∃ phase', before = some phase' ∧ pastLanding phase' = true := by
  subst there
  cases leg with
  | releases next =>
    rcases next with gone | failed
    · cases gone
    · obtain rfl := Option.some.inj failed
      simp [pastLanding]
  | _ => simp [pastLanding]

theorem Leg.success (leg : Leg fresh before after now later row lands wins false) {phase : Phase} (there : after = some phase) :
    pastSuccess phase = true ↔ wins = true ∨ ∃ phase', before = some phase' ∧ pastSuccess phase' = true := by
  subst there
  cases leg with
  | releases next =>
    rcases next with gone | failed
    · cases gone
    · obtain rfl := Option.some.inj failed
      simp [pastSuccess]
  | _ => simp [pastSuccess]

/-- A run that is recorded marks its row, or has landed nothing. -/
theorem Leg.records_cases {outcome : Outcome} (leg : Leg fresh before after now later (some outcome) lands wins false) :
    (∃ phase, before = some phase) ∧ ((later = .done fresh ∧ (∀ row, now ≠ .done row) ∧
        (lands = true ∨ ∃ phase, before = some phase ∧ pastLanding phase = true) ∧
        (outcome = .ok ↔ wins = true ∨ ∃ phase, before = some phase ∧ pastSuccess phase = true)) ∨
      later = now ∧ lands = false ∧ wins = false ∧ ∀ phase, before = some phase → pastLanding phase = false) := by
  cases leg with
  | transacts => exact ⟨⟨_, rfl⟩, .inl ⟨rfl, nofun, .inl rfl, by simp⟩⟩
  | records => exact ⟨⟨_, rfl⟩, .inl ⟨rfl, nofun, .inr ⟨_, rfl, rfl⟩, by simp [pastSuccess]⟩⟩
  | audits => exact ⟨⟨_, rfl⟩, .inr ⟨rfl, rfl, rfl, fun phase was => by obtain rfl := Option.some.inj was; rfl⟩⟩

/-- A run that is not recorded marks nothing. -/
theorem Leg.unrecorded (leg : Leg fresh before after now later none lands wins false) (row : Nat) : later = .done row ↔ now = .done row := by
  cases leg with
  | claims => constructor <;> nofun
  | releases => constructor <;> nofun
  | _ => rfl

end Legs

theorem Marks.outside (marks : Marks bus) (kept : Kept bus) (outside : Outside bus next) : Marks next := by
  -- A new row is of a run that landed nothing.
  have listed : ∀ origin row pair, brief next row = some pair → (pair.1, origin) ∈ next.effects → brief bus row = some pair := by
    intro origin row pair here member
    rcases outside.rows row pair here with old | ⟨-, own, fresh⟩
    · exact old
    · rw [outside.effects] at member
      have below := kept.landed _ member
      rw [own, fresh] at below
      exact absurd below (Nat.not_succ_le_self _)
  have known : ∀ row pair, brief bus row = some pair → brief next row = some pair := by
    intro row pair here
    rcases outside.briefs row with same | ⟨new, -⟩
    · rwa [same]
    · have below := (kept.rows row pair here).1
      omega
  have settled : ∀ origin row, status next origin = .done row ↔ status bus origin = .done row := by
    intro origin row
    rcases outside.statuses origin with same | ⟨absent, waits⟩ | ⟨waits, closes⟩
    · rw [same]
    · rw [absent, waits]
      constructor <;> nofun
    · rw [waits, closes]
      constructor <;> nofun
  refine ⟨?_, ?_, ?_, ?_, ?_⟩
  · intro id run here entry member
    rw [outside.effects] at member
    exact marks.own id run (outside.run here) entry member
  · intro id run here past
    rw [outside.effects]
    exact marks.landed id run (outside.run here) past
  · intro id run here
    rw [outside.succeeded]
    exact marks.whole id run (outside.run here)
  · intro origin row
    rw [settled, marks.marked, outside.effects]
    constructor
    · rintro ⟨pair, here, member⟩
      exact ⟨pair, known row pair here, member⟩
    · rintro ⟨pair, here, member⟩
      exact ⟨pair, listed origin row pair here (outside.effects ▸ member), member⟩
  · intro origin row pair done here
    have before := (settled origin row).mp done
    rw [outside.succeeded]
    obtain ⟨pair', there, -⟩ := (marks.marked origin row).mp before
    have same := known row pair' there
    rw [here] at same
    obtain rfl := Option.some.inj same
    exact marks.outcome origin row pair before there

section Turns
variable {run : Run} {before after : Option Phase} {now later : Status} {row : Option Outcome} {lands wins : Bool}

/-- No row is of the run that turns, before it turns. -/
theorem Turn.unlisted (turn : Turn bus next id run before after now later row lands wins) (kept : Kept bus) {place : Nat} {pair : Nat × Outcome}
    (here : brief bus place = some pair) : pair.1 ≠ id := by
  cases before with
  | some phase => exact kept.unrecorded id _ turn.active place pair here
  | none =>
    have below := (kept.rows place pair here).2
    have number := turn.number rfl
    omega

/-- What others landed stays as it was. -/
theorem Turn.effects_elsewhere (turn : Turn bus next id run before after now later row lands wins) {other : Nat} (apart : other ≠ id)
    (origin : RunOrigin) : (other, origin) ∈ next.effects ↔ (other, origin) ∈ bus.effects := by
  constructor
  · intro member
    rcases turn.entries member with old | ⟨-, new⟩
    · exact old
    · exact absurd (congrArg Prod.fst new) apart
  · intro member
    rw [turn.effects]
    exact List.mem_append_left _ member

theorem Turn.succeeded_elsewhere (turn : Turn bus next id run before after now later row lands wins) {other : Nat} (apart : other ≠ id)
    (origin : RunOrigin) : (other, origin) ∈ next.succeeded ↔ (other, origin) ∈ bus.succeeded := by
  constructor
  · intro member
    rcases turn.winners member with old | ⟨-, new⟩
    · exact old
    · exact absurd (congrArg Prod.fst new) apart
  · intro member
    rw [turn.succeeded]
    exact List.mem_append_left _ member

/-- What the run that turns has landed afterwards. -/
theorem Turn.effects_own (turn : Turn bus next id run before after now later row lands wins)
    (leg : Leg (bus.lastAudit + 1) before after now later row lands wins false) (kept : Kept bus) (marks : Marks bus) (origin : RunOrigin) :
    (id, origin) ∈ next.effects ↔
      origin = run.origin ∧ (lands = true ∨ ∃ phase, before = some phase ∧ pastLanding phase = true) := by
  constructor
  · intro member
    rcases turn.entries member with old | ⟨landing, new⟩
    · cases before with
      | some phase =>
        obtain ⟨same, past⟩ := marks.own id _ turn.active _ old rfl
        exact ⟨same, .inr ⟨phase, rfl, past⟩⟩
      | none =>
        have below := kept.landed _ old
        have number := turn.number rfl
        simp only [number] at below
        omega
    · exact ⟨congrArg Prod.snd new, .inl landing⟩
  · rintro ⟨rfl, landing | ⟨phase, rfl, past⟩⟩
    · rw [turn.effects, landing]
      exact List.mem_append_right _ List.mem_cons_self
    · rw [turn.effects]
      exact List.mem_append_left _ (marks.landed id { run with phase } turn.active past)

theorem Turn.succeeded_own (turn : Turn bus next id run before after now later row lands wins)
    (kept : Kept bus) (marks : Marks bus) :
    (id, run.origin) ∈ next.succeeded ↔ wins = true ∨ ∃ phase, before = some phase ∧ pastSuccess phase = true := by
  constructor
  · intro member
    rcases turn.winners member with old | ⟨winning, -⟩
    · cases before with
      | some phase => exact .inr ⟨phase, rfl, (marks.whole id { run with phase } turn.active).mp old⟩
      | none =>
        have below := kept.won _ old
        have number := turn.number rfl
        simp only [number] at below
        omega
    · exact .inl winning
  · rintro (winning | ⟨phase, rfl, past⟩)
    · rw [turn.succeeded, winning]
      exact List.mem_append_right _ List.mem_cons_self
    · rw [turn.succeeded]
      exact List.mem_append_left _ ((marks.whole id { run with phase } turn.active).mpr past)

/-- Rows that are there keep the mark they have, or have none. -/
theorem Turn.settled (turn : Turn bus next id run before after now later row lands wins)
    (leg : Leg (bus.lastAudit + 1) before after now later row lands wins false) (origin : RunOrigin) {place : Nat}
    (old : place ≠ bus.lastAudit + 1) : status next origin = .done place ↔ status bus origin = .done place := by
  by_cases own : origin = run.origin
  · subst own
    rw [turn.later, turn.now]
    cases row with
    | none => exact leg.unrecorded place
    | some outcome =>
      rcases leg.records_cases.2 with ⟨done, undone, -⟩ | ⟨still, -⟩
      · rw [done]
        constructor
        · intro same
          exact absurd (Status.done.inj same).symm old
        · intro same
          exact absurd same (undone place)
      · rw [still]
  · rcases turn.others origin own with still | ⟨-, absent, waits⟩
    · rw [still]
    · rw [absent, waits]
      constructor <;> nofun

/-- The row that is added marks what its run landed of. -/
theorem Marks.added (marks : Marks bus) (kept : Kept bus) (turn : Turn bus next id run before after now later row lands wins)
    (leg : Leg (bus.lastAudit + 1) before after now later row lands wins false) (recorded : row.isSome = true) (origin : RunOrigin) :
    status next origin = .done (bus.lastAudit + 1) ↔ (id, origin) ∈ next.effects := by
  obtain ⟨outcome, rfl⟩ := Option.isSome_iff_exists.mp recorded
  have unmarked : ∀ origin, status bus origin ≠ .done (bus.lastAudit + 1) := by
    intro origin done
    obtain ⟨pair, here, -⟩ := (marks.marked origin _).mp done
    exact absurd (kept.rows _ pair here).1 (Nat.not_succ_le_self _)
  rw [turn.effects_own leg kept marks]
  by_cases own : origin = run.origin
  · subst own
    rw [turn.later]
    rcases leg.records_cases.2 with ⟨done, -, landed, -⟩ | ⟨still, quiet, -, early⟩
    · exact ⟨fun _ => ⟨rfl, landed⟩, fun _ => done⟩
    · constructor
      · intro done
        rw [still, ← turn.now] at done
        exact absurd done (unmarked run.origin)
      · rintro ⟨-, landing | ⟨phase, was, past⟩⟩
        · rw [quiet] at landing
          cases landing
        · rw [early phase was] at past
          cases past
  · constructor
    · intro done
      rcases turn.others origin own with still | ⟨-, -, waits⟩
      · rw [still] at done
        exact absurd done (unmarked origin)
      · rw [waits] at done
        cases done
    · rintro ⟨same, -⟩
      exact absurd same own

theorem Turn.brief_old (turn : Turn bus next id run before after now later row lands wins) {place : Nat} (old : place ≠ bus.lastAudit + 1) :
    brief next place = brief bus place := by
  rw [turn.briefs, if_neg fun both => old both.2]

theorem Turn.brief_new (turn : Turn bus next id run before after now later row lands wins) (kept : Kept bus) :
    brief next (bus.lastAudit + 1) = row.map fun outcome => (id, outcome) := by
  rw [turn.briefs]
  cases row with
  | some outcome => rw [if_pos ⟨rfl, rfl⟩]
  | none =>
    rw [if_neg (by simp)]
    cases here : brief bus (bus.lastAudit + 1) with
    | none => rfl
    | some pair => exact absurd (kept.rows _ pair here).1 (Nat.not_succ_le_self _)

theorem Marks.turn (marks : Marks bus) (kept : Kept bus) (turn : Turn bus next id run before after now later row lands wins)
    (leg : Leg (bus.lastAudit + 1) before after now later row lands wins false) : Marks next := by
  have marked : ∀ origin place, status next origin = .done place ↔ ∃ pair, brief next place = some pair ∧ (pair.1, origin) ∈ next.effects := by
    intro origin place
    by_cases new : place = bus.lastAudit + 1
    · subst new
      rw [turn.brief_new kept]
      cases row with
      | some outcome =>
        rw [marks.added kept turn leg rfl]
        simp
      | none =>
        have undone : status next origin ≠ .done (bus.lastAudit + 1) := by
          intro done
          have before : status bus origin = .done (bus.lastAudit + 1) := by
            by_cases own : origin = run.origin
            · subst own
              rw [turn.later, leg.unrecorded] at done
              rw [turn.now, done]
            · rcases turn.others origin own with still | ⟨-, -, waits⟩
              · rwa [still] at done
              · rw [waits] at done
                cases done
          obtain ⟨pair, here, -⟩ := (marks.marked origin _).mp before
          exact absurd (kept.rows _ pair here).1 (Nat.not_succ_le_self _)
        simp [undone]
    · rw [turn.settled leg origin new, marks.marked, turn.brief_old new]
      refine exists_congr fun pair => and_congr_right fun here => ?_
      exact (turn.effects_elsewhere (turn.unlisted kept here) origin).symm
  refine ⟨?_, ?_, ?_, marked, ?_⟩
  · intro other run' here entry member same
    rcases turn.elsewhere here with ⟨apart, old⟩ | ⟨rfl, phase, there, rfl⟩
    · obtain ⟨number, origin⟩ := entry
      have elsewhere : number ≠ id := fun alike => apart (alike.symm.trans same)
      have member' := (turn.effects_elsewhere elsewhere origin).mp member
      exact marks.own other run' old _ member' same
    · obtain ⟨number, origin⟩ := entry
      obtain rfl : number = id := same
      obtain ⟨alike, landing⟩ := (turn.effects_own leg kept marks origin).mp member
      exact ⟨alike, (leg.landing there).mpr landing⟩
  · intro other run' here past
    rcases turn.elsewhere here with ⟨apart, old⟩ | ⟨rfl, phase, there, rfl⟩
    · exact (turn.effects_elsewhere (Ne.symm apart) _).mpr (marks.landed other run' old past)
    · exact (turn.effects_own leg kept marks _).mpr ⟨rfl, (leg.landing there).mp past⟩
  · intro other run' here
    rcases turn.elsewhere here with ⟨apart, old⟩ | ⟨rfl, phase, there, rfl⟩
    · rw [turn.succeeded_elsewhere (Ne.symm apart)]
      exact marks.whole other run' old
    · exact (turn.succeeded_own kept marks).trans (leg.success there).symm
  · intro origin place pair done here
    by_cases new : place = bus.lastAudit + 1
    · subst new
      rw [turn.brief_new kept] at here
      obtain ⟨outcome, rfl, rfl⟩ := Option.map_eq_some_iff.mp here
      obtain ⟨same, landed⟩ := (turn.effects_own leg kept marks origin).mp ((marks.added kept turn leg rfl origin).mp done)
      subst same
      rcases leg.records_cases.2 with ⟨-, -, -, whole⟩ | ⟨-, quiet, -, early⟩
      · exact whole.trans (turn.succeeded_own kept marks).symm
      · rcases landed with landing | ⟨phase, was, past⟩
        · rw [quiet] at landing
          cases landing
        · rw [early phase was] at past
          cases past
    · rw [turn.brief_old new] at here
      rw [turn.succeeded_elsewhere (turn.unlisted kept here)]
      exact marks.outcome origin place pair ((turn.settled leg origin new).mp done) here

end Turns

/-! ## Decisions -/

theorem Leg.lands_taken {fresh : Nat} {before after : Option Phase} {now later : Status} {row : Option Outcome} {wins lie : Bool}
    (leg : Leg fresh before after now later row true wins lie) : now = .waiting ∨ ∃ phase, before = some phase ∧ holds phase = true := by
  cases leg with
  | transacts => exact .inl rfl
  | steps => exact .inr ⟨_, rfl, rfl⟩
  | finishes => exact .inr ⟨_, rfl, rfl⟩
  | stops => exact .inr ⟨_, rfl, rfl⟩
  | lies => exact .inr ⟨_, rfl, rfl⟩

/-- What is declined or superseded stays so, and nothing of it lands. -/
theorem closed_step (kept : Kept bus) (closed : status bus origin = .closed) (moves : bus.step event = some (next, ())) :
    status next origin = .closed ∧ next.effects.filter (·.2 = origin) = bus.effects.filter (·.2 = origin) := by
  rcases step_turned kept moves with outside | ⟨id, run, before, after, now, later, row, lands, wins, lie, turn, leg, -⟩
  · rw [outside.effects]
    refine ⟨?_, rfl⟩
    rcases outside.statuses origin with same | ⟨absent, -⟩ | ⟨waits, -⟩
    · rw [same, closed]
    · rw [closed] at absent
      cases absent
    · rw [closed] at waits
      cases waits
  · by_cases own : origin = run.origin
    · subst own
      have now_ : now = .closed := by rw [← turn.now, closed]
      constructor
      · rw [turn.later]
        rcases leg.moved with same | ⟨waits, -⟩ | ⟨held, -⟩
        · rw [same, now_]
        · rw [now_] at waits
          cases waits
        · rw [now_] at held
          cases held
      · rw [turn.effects]
        cases lands with
        | false => simp
        | true =>
          rcases leg.lands_taken with waits | ⟨phase, was, holding⟩
          · rw [now_] at waits
            cases waits
          · have claimed := turn.now_claimed kept phase was holding
            rw [now_] at claimed
            cases claimed
    · constructor
      · rcases turn.others origin own with still | ⟨-, absent, -⟩
        · rw [still, closed]
        · rw [closed] at absent
          cases absent
      · rw [turn.effects]
        cases lands with
        | false => simp
        | true => simp [Ne.symm own]

/-! ## Runs -/

def run (bus : CommandBus) (events : List RunEvent) : CommandBus := Machine.run CommandBus.step bus events

theorem start_kept : Kept .start where
  runs id run here := by simp [start] at here
  rows row pair here := by simp [brief, start] at here
  proposals id there := by simp [status, start, proposalStatus] at there
  landed _ member := nomatch member
  won _ member := nomatch member
  claimed id run here := by simp [start] at here
  sole id id' run run' here := by simp [start] at here
  unrecorded id run here := by simp [start] at here

theorem start_once (past : Phase → Bool) : Once .start [] past := ⟨nofun, nofun, nofun⟩

theorem start_marks : Marks .start where
  own id run here := by simp [start] at here
  landed id run here := by simp [start] at here
  whole id run here := by simp [start] at here
  marked origin row := by
    constructor
    · intro done
      cases origin <;> simp [status, start, undoneStatus, proposalStatus] at done
    · rintro ⟨pair, -, member⟩
      cases member
  outcome origin row pair done := by cases origin <;> simp [status, start, undoneStatus, proposalStatus] at done

theorem marks_step (kept : Kept bus) (marks : Marks bus) (honest : Honest bus event) (moves : bus.step event = some (next, ())) :
    Marks next := by
  rcases step_turned kept moves with outside | ⟨id, run, before, after, now, later, row, lands, wins, lie, turn, leg, lies⟩
  · exact marks.outside kept outside
  · have truthful : lie = false := by
      cases lie with
      | false => rfl
      | true => exact absurd honest (lies rfl)
    exact marks.turn kept turn (truthful ▸ leg)

structure Sound (bus : CommandBus) : Prop where
  kept : Kept bus
  once : Once bus bus.effects pastLanding
  marks : Marks bus

theorem run_sound {events : List RunEvent} (honest : Machine.Admits CommandBus.step Honest .start events) : Sound (run .start events) := by
  have all : Sound (run .start events) ∧ True := Machine.run_allowed (fun _ _ => True) (fun _ => trivial) (fun _ _ => trivial) Sound
    (fun _ _ _ _ sound honest moves =>
      ⟨⟨sound.kept.step moves, landing_step sound.kept sound.once honest moves, marks_step sound.kept sound.marks honest moves⟩, trivial⟩)
    ⟨start_kept, start_once _, start_marks⟩ honest
  exact all.1

/-- What landed of a row. -/
def landedOf (origin : RunOrigin) (bus : CommandBus) : List (Nat × RunOrigin) := bus.effects.filter (·.2 = origin)

theorem closed_run (kept : Kept bus) (closed : status bus origin = .closed) (events : List RunEvent) :
    landedOf origin (run bus events) = landedOf origin bus := by
  have all : (Kept (run bus events) ∧ status (run bus events) origin = .closed) ∧ landedOf origin (run bus events) = landedOf origin bus :=
    Machine.run_related (fun before after => landedOf origin after = landedOf origin before) (fun _ => rfl)
      (fun first second => Eq.trans second first) (fun bus => Kept bus ∧ status bus origin = .closed)
      (fun _ _ _ _ valid moves =>
        ⟨⟨valid.1.step moves, (closed_step valid.1 valid.2 moves).1⟩, (closed_step valid.1 valid.2 moves).2⟩)
      ⟨kept, closed⟩ events
  exact all.2

/-- A proposal that a person declined or a newer one replaced. -/
def Decided (bus : CommandBus) (proposal : Nat) : Prop :=
  ∃ row, bus.proposals[proposal]? = some row ∧ (row.decision = .declined ∨ row.decision = .superseded)

theorem Decided.closed {proposal : Nat} (decided : Decided bus proposal) : status bus (.approval proposal) = .closed := by
  obtain ⟨row, here, declined | superseded⟩ := decided
  · simp only [status, here, proposalStatus, declined]
  · simp only [status, here, proposalStatus, superseded]

/-- A row is undone by the run that the log has as `row`. -/
def UndoneBy (bus : CommandBus) (audit row : Nat) : Prop :=
  ∃ entry, bus.audit[audit]? = some entry ∧ entry.undoneBy = some row ∧ row ≠ undoPending

theorem undoneBy_iff {audit row : Nat} : UndoneBy bus audit row ↔ status bus (.undo audit) = .done row := by
  rw [UndoneBy, status]
  cases here : bus.audit[audit]? with
  | none => simp [undoneStatus]
  | some entry =>
    cases undone : entry.undoneBy with
    | none => simp [undoneStatus, undone]
    | some by_ =>
      by_cases pending : by_ = undoPending
      · subst pending
        simp [undoneStatus, undone, eq_comm]
      · simp only [undoneStatus, undone, if_neg pending, Status.done.injEq, Option.some.injEq, exists_eq_left', ne_eq]
        constructor
        · exact And.left
        · rintro rfl
          exact ⟨rfl, pending⟩

/-- When no first call of a run in steps says that nothing changed and still returns a change:
one run at most lands anything of a row's inverse or of a proposal; a row is undone by a
recorded run exactly if that run landed of its inverse, and the run is a success exactly if
all of it landed; nothing lands of a proposal that is declined or superseded. -/
theorem lands_once (events : List RunEvent) (honest : Machine.Admits CommandBus.step Honest .start events) :
    (∀ entry ∈ (run .start events).effects, ∀ entry' ∈ (run .start events).effects, entry.2 = entry'.2 → entry.1 = entry'.1) ∧
      (∀ audit row, UndoneBy (run .start events) audit row ↔
        ∃ undo, (run .start events).audit[row]? = some undo ∧ (undo.run, .undo audit) ∈ (run .start events).effects) ∧
      (∀ audit row undo, UndoneBy (run .start events) audit row → (run .start events).audit[row]? = some undo →
        (undo.outcome = .ok ↔ (undo.run, .undo audit) ∈ (run .start events).succeeded)) ∧
      ∀ proposal, Decided (run .start events) proposal → ∀ later,
        landedOf (.approval proposal) (run .start (events ++ later)) = landedOf (.approval proposal) (run .start events) := by
  have sound := run_sound honest
  refine ⟨sound.once.once, ?_, ?_, ?_⟩
  · intro audit row
    rw [undoneBy_iff, sound.marks.marked]
    constructor
    · rintro ⟨pair, here, member⟩
      obtain ⟨undo, there, rfl⟩ := Option.map_eq_some_iff.mp here
      exact ⟨undo, there, member⟩
    · rintro ⟨undo, there, member⟩
      exact ⟨(undo.run, undo.outcome), by rw [brief, there]; rfl, member⟩
  · intro audit row undo undone there
    exact sound.marks.outcome (.undo audit) row (undo.run, undo.outcome) (undoneBy_iff.mp undone) (by rw [brief, there]; rfl)
  · intro proposal decided later
    rw [run, Machine.run_append]
    exact closed_run sound.kept decided.closed later

/-- An undo in two steps, and a proposal that is declined. -/
def undoneInSteps : List RunEvent :=
  [.call .ok (some "oxplow.kv.unset"), .propose "oxplow.kv.set", .undo 1 (.steps 1) false, .claim 2 true, .answer 2 (.ok ⟨false, ["unset"], none⟩),
    .decline 1, .answer 2 (.ok ⟨true, [], none⟩), .record 2 true]

theorem lands_once_steps : UndoneBy (run .start undoneInSteps) 1 2 ↔
    ∃ undo, (run .start undoneInSteps).audit[2]? = some undo ∧ (undo.run, .undo 1) ∈ (run .start undoneInSteps).effects :=
  (lands_once undoneInSteps (by decide)).2.1 1 2

/-- The first step of an undo lands and is refused, its claim is given up, and another undo
lands too. -/
def undoneTwice : List RunEvent :=
  [.call .ok (some "oxplow.kv.unset"), .undo 1 (.steps 1) false, .claim 2 true, .answer 2 (.ok ⟨true, ["unset"], none⟩), .release 2 true,
    .undo 1 (.steps 1) false, .claim 3 true, .answer 3 (.ok ⟨false, ["unset"], none⟩)]

theorem lands_twice : ¬ ∀ events, ∀ entry ∈ (run .start events).effects, ∀ entry' ∈ (run .start events).effects,
    entry.2 = entry'.2 → entry.1 = entry'.1 := by
  intro all
  have first : (2, RunOrigin.undo 1) ∈ (run .start undoneTwice).effects := by decide
  have second : (3, RunOrigin.undo 1) ∈ (run .start undoneTwice).effects := by decide
  exact nomatch all undoneTwice _ first _ second rfl

end Oxplow.Proofs.ClaimRuns
