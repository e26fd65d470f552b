import Std.Data.ExtTreeMap

/-! `proposal_store.rs`, `command_audit_store.rs`, `commands/undo.rs`, and how `commands/mod.rs`
and `commands/steps.rs` run an undo or an approval: the row is marked with the run, or claimed
before it and then finished or released. What a handler answers is an input. -/

namespace Oxplow.Commands

/-! ## The tables -/

inductive ProposalDecision
  | pending
  | approved
  | declined
  | superseded
  deriving DecidableEq

structure Proposal where
  key : String
  decision : ProposalDecision
  /-- The approving run's row. -/
  auditId : Option Nat
  supersededBy : Option Nat
  deriving DecidableEq

inductive Outcome
  | ok
  | error
  deriving DecidableEq

structure CommandAudit where
  /-- The run it was. -/
  run : Nat
  outcome : Outcome
  /-- The command that undoes it. -/
  inverse : Option String
  undoneBy : Option Nat
  deriving DecidableEq

/-- What the store refuses. -/
inductive DomainError
  | notFound
  | invalid
  | invariant
  deriving DecidableEq

/-! ## Runs -/

structure HandlerOutput where
  unchanged : Bool
  events : List String
  inverse : Option String
  deriving DecidableEq

/-- An answer that says nothing changed returns no events and no inverse. -/
def HandlerOutput.honest (out : HandlerOutput) : Bool := !(out.unchanged && (!out.events.isEmpty || out.inverse.isSome))

inductive Answer
  | ok (out : HandlerOutput)
  | failed
  /-- It needs a confirmation. -/
  | asks
  deriving DecidableEq

inductive Resolved
  | tx
  | external
  /-- A call and `more` after it, each landing as it runs. -/
  | steps (more : Nat)
  deriving DecidableEq

inductive RunOrigin
  | undo (audit : Nat)
  | approval (proposal : Nat)
  deriving DecidableEq

inductive Phase
  | admitted
  /-- Its row is claimed, and `landed` calls landed. -/
  | running (landed : Nat)
  | recording (out : HandlerOutput) (outcome : Outcome)
  /-- The claim is to be given up; `audits`: the failure is recorded next. -/
  | releasing (audits : Bool)
  /-- A run that landed nothing is to be recorded. -/
  | auditing
  deriving DecidableEq

structure Run where
  origin : RunOrigin
  resolved : Resolved
  /-- The command keeps its inverse. -/
  undoable : Bool
  phase : Phase
  deriving DecidableEq

structure CommandBus where
  audit : Std.ExtTreeMap Nat CommandAudit
  proposals : Std.ExtTreeMap Nat Proposal
  /-- The runs in flight. -/
  active : Std.ExtTreeMap Nat Run
  lastAudit : Nat
  lastProposal : Nat
  lastRun : Nat
  /-- What landed: each call that ran, with its run and what the run was. -/
  effects : List (Nat × RunOrigin)
  /-- The runs whose command ran to success. -/
  succeeded : List (Nat × RunOrigin)

inductive RunEvent
  /-- A call is recorded. -/
  | call (outcome : Outcome) (inverse : Option String)
  /-- A run that asks is kept for a person. -/
  | propose (key : String)
  | decline (proposal : Nat)
  | undo (audit : Nat) (resolved : Resolved) (undoable : Bool)
  | approve (proposal : Nat) (resolved : Resolved) (undoable : Bool)
  /-- The pipeline turns a run away before it claims anything. -/
  | refuse (run : Nat) (audits : Bool)
  /-- A run in one transaction. -/
  | transact (run : Nat) (answer : Answer)
  | claim (run : Nat) (stored : Bool)
  | answer (run : Nat) (answer : Answer)
  | record (run : Nat) (stored : Bool)
  | release (run : Nat) (stored : Bool)
  | auditOnly (run : Nat) (stored : Bool)
  /-- The caller of a run goes away. -/
  | cutOff (run : Nat)
  | crash
  deriving DecidableEq

namespace CommandBus

def start : CommandBus := ⟨∅, ∅, ∅, 0, 0, 0, [], []⟩

/-! ## `proposal_store.rs` -/

def setProposal (bus : CommandBus) (id : Nat) (proposal : Proposal) : CommandBus :=
  { bus with proposals := bus.proposals.insert id proposal }

/-- What a new proposal of `key` makes of another. -/
def supersede (key : String) (by_ : Nat) (proposal : Proposal) : Proposal :=
  if proposal.key = key ∧ proposal.decision = .pending then { proposal with decision := .superseded, supersededBy := some by_ } else proposal

def insertTx (bus : CommandBus) (key : String) : CommandBus :=
  let id := bus.lastProposal + 1
  { bus with
    proposals := (bus.proposals.map fun _ proposal => supersede key id proposal).insert id ⟨key, .pending, none, none⟩
    lastProposal := id }

def decideTx (bus : CommandBus) (id : Nat) (decision : ProposalDecision) (auditId : Option Nat) : Except DomainError CommandBus :=
  match bus.proposals[id]? with
  | none => .error .notFound
  | some proposal =>
    if proposal.decision ≠ .pending then .error .invalid else .ok (bus.setProposal id { proposal with decision, auditId })

def approveTx (bus : CommandBus) (id auditId : Nat) : Except DomainError CommandBus := bus.decideTx id .approved (some auditId)

def claimTx (bus : CommandBus) (id : Nat) : Except DomainError CommandBus := bus.decideTx id .approved none

def declineTx (bus : CommandBus) (id : Nat) : Except DomainError CommandBus := bus.decideTx id .declined none

def finishClaimTx (bus : CommandBus) (id auditId : Nat) : Except DomainError CommandBus :=
  match bus.proposals[id]? with
  | some proposal =>
    if proposal.decision = .approved ∧ proposal.auditId = none then .ok (bus.setProposal id { proposal with auditId := some auditId })
    else .error .invariant
  | none => .error .invariant

def releaseClaimTx (bus : CommandBus) (id : Nat) : CommandBus :=
  match bus.proposals[id]? with
  | some proposal =>
    if proposal.decision = .approved ∧ proposal.auditId = none then bus.setProposal id { proposal with decision := .pending } else bus
  | none => bus

/-! ## `command_audit_store.rs` -/

/-- `undone_by` while an undo is running. -/
def undoPending : Nat := 0

def setAudit (bus : CommandBus) (id : Nat) (row : CommandAudit) : CommandBus := { bus with audit := bus.audit.insert id row }

/-- A row goes in. -/
def insertAudit (bus : CommandBus) (row : CommandAudit) : CommandBus :=
  { bus with audit := bus.audit.insert (bus.lastAudit + 1) row, lastAudit := bus.lastAudit + 1 }

def markUndoneTx (bus : CommandBus) (id undoneBy : Nat) : Except DomainError CommandBus :=
  match bus.audit[id]? with
  | some row => if row.undoneBy = none then .ok (bus.setAudit id { row with undoneBy := some undoneBy }) else .error .invariant
  | none => .error .invariant

/-- The row whose claim is pending takes another `undone_by`. -/
def replaceClaim (bus : CommandBus) (id : Nat) (undoneBy : Option Nat) : CommandBus :=
  match bus.audit[id]? with
  | some row => if row.undoneBy = some undoPending then bus.setAudit id { row with undoneBy } else bus
  | none => bus

def finishUndoClaimTx (bus : CommandBus) (original doneBy : Nat) : CommandBus := bus.replaceClaim original (some doneBy)

/-! ## `undo.rs` -/

def claim (bus : CommandBus) : RunOrigin → Except DomainError CommandBus
  | .undo audit => bus.markUndoneTx audit undoPending
  | .approval proposal => bus.claimTx proposal

def release (bus : CommandBus) : RunOrigin → CommandBus
  | .undo audit => bus.replaceClaim audit none
  | .approval proposal => bus.releaseClaimTx proposal

/-- A run in one transaction marks its row with it. -/
def mark (bus : CommandBus) (auditId : Nat) : RunOrigin → Except DomainError CommandBus
  | .undo audit => bus.markUndoneTx audit auditId
  | .approval proposal => bus.approveTx proposal auditId

/-- A run that claimed its row names itself there. -/
def finish (bus : CommandBus) (auditId : Nat) : RunOrigin → Except DomainError CommandBus
  | .undo audit => .ok (bus.finishUndoClaimTx audit auditId)
  | .approval proposal => bus.finishClaimTx proposal auditId

/-- An audited run that can still be undone. -/
def undoable (row : CommandAudit) : Bool := row.outcome = .ok && row.undoneBy.isNone && row.inverse.isSome

/-! ## `mod.rs`, `steps.rs` -/

def setRun (bus : CommandBus) (id : Nat) (run : Run) : CommandBus := { bus with active := bus.active.insert id run }

def endRun (bus : CommandBus) (id : Nat) : CommandBus := { bus with active := bus.active.erase id }

def proceed (bus : CommandBus) (id : Nat) (run : Run) (phase : Phase) : CommandBus := bus.setRun id { run with phase }

def begin (bus : CommandBus) (origin : RunOrigin) (resolved : Resolved) (undoable : Bool) : CommandBus :=
  { bus with active := bus.active.insert (bus.lastRun + 1) ⟨origin, resolved, undoable, .admitted⟩, lastRun := bus.lastRun + 1 }

def land (bus : CommandBus) (id : Nat) (run : Run) : CommandBus := { bus with effects := bus.effects ++ [(id, run.origin)] }

def succeed (bus : CommandBus) (id : Nat) (run : Run) : CommandBus := { bus with succeeded := bus.succeeded ++ [(id, run.origin)] }

/-- The row of a run, as `record_tx` writes it. -/
def rowOf (id : Nat) (run : Run) (out : HandlerOutput) (outcome : Outcome) : CommandAudit :=
  ⟨id, outcome, if run.undoable = true then out.inverse else none, none⟩

/-- The run as it is recorded failed, if it is, without having landed anything. -/
def fail (bus : CommandBus) (id : Nat) (run : Run) (audits : Bool) : CommandBus :=
  if audits = true then bus.proceed id run .auditing else bus.endRun id

/-- The handler, the record and the mark in one transaction. -/
def transact (bus : CommandBus) (id : Nat) (run : Run) : Answer → CommandBus
  | .ok out =>
    let recorded := bus.insertAudit (rowOf id run out .ok)
    match recorded.mark recorded.lastAudit run.origin with
    | .ok marked => ((marked.land id run).succeed id run).endRun id
    -- Beaten to it: nothing ran.
    | .error _ => bus.endRun id
  | .failed => bus.fail id run true
  | .asks => bus.fail id run false

/-- The claim is made, or the run ends: an external one is recorded as failed. -/
def claimed (bus : CommandBus) (id : Nat) (run : Run) (stored : Bool) : CommandBus :=
  match bus.claim run.origin with
  | .ok next => if stored = true then next.proceed id run (.running 0) else bus.fail id run (run.resolved == .external)
  | .error _ => bus.fail id run (run.resolved == .external)

/-- A step that failed after `landed` others landed. -/
def stopped (bus : CommandBus) (id : Nat) (run : Run) (landed : Nat) (audits : Bool) : CommandBus :=
  if landed = 0 then bus.proceed id run (.releasing audits) else bus.proceed id run (.recording ⟨false, [], none⟩ .error)

/-- A handler that runs outside the transaction of the record answers. -/
def answered (bus : CommandBus) (id : Nat) (run : Run) (landed : Nat) : Answer → CommandBus
  | .ok out =>
    match run.resolved with
    | .steps more =>
      -- The step has landed when its answer is looked at.
      let stands := bus.land id run
      if out.honest = false then stands.stopped id run landed true
      else if landed = more then (stands.succeed id run).proceed id run (.recording ⟨false, [], none⟩ .ok)
      else stands.proceed id run (.running (landed + 1))
    | _ => ((bus.land id run).succeed id run).proceed id run (.recording out .ok)
  | .failed => bus.stopped id run landed true
  | .asks => bus.stopped id run landed false

/-- The record and the end of the claim in one transaction. -/
def recorded (bus : CommandBus) (id : Nat) (run : Run) (out : HandlerOutput) (outcome : Outcome) (stored : Bool) : CommandBus :=
  let next := bus.insertAudit (rowOf id run out outcome)
  match next.finish next.lastAudit run.origin with
  | .ok finished => if stored = true then finished.endRun id else bus.endRun id
  | .error _ => bus.endRun id

def released (bus : CommandBus) (id : Nat) (run : Run) (audits stored : Bool) : CommandBus :=
  (if stored = true then bus.release run.origin else bus).fail id run audits

/-- `audit_only`. -/
def auditedOnly (bus : CommandBus) (id : Nat) (stored : Bool) : CommandBus :=
  (if stored = true then bus.insertAudit ⟨id, .error, none, none⟩ else bus).endRun id

def step (bus : CommandBus) : RunEvent → Option (CommandBus × Unit)
  | .call outcome inverse =>
    some ({ bus.insertAudit ⟨bus.lastRun + 1, outcome, inverse, none⟩ with lastRun := bus.lastRun + 1 }, ())
  | .propose key => some (bus.insertTx key, ())
  | .decline proposal => (bus.declineTx proposal).toOption.map fun next => (next, ())
  | .undo audit resolved keeps =>
    match bus.audit[audit]? with
    | some row => if undoable row = true then some (bus.begin (.undo audit) resolved keeps, ()) else none
    | none => none
  | .approve proposal resolved keeps =>
    match bus.proposals[proposal]? with
    | some row => if row.decision = .pending then some (bus.begin (.approval proposal) resolved keeps, ()) else none
    | none => none
  | .refuse id audits =>
    match bus.active[id]? with
    | some run => if run.phase = .admitted then some (bus.fail id run audits, ()) else none
    | none => none
  | .transact id answer =>
    match bus.active[id]? with
    | some run => if run.phase = .admitted ∧ run.resolved = .tx then some (bus.transact id run answer, ()) else none
    | none => none
  | .claim id stored =>
    match bus.active[id]? with
    | some run => if run.phase = .admitted ∧ run.resolved ≠ .tx then some (bus.claimed id run stored, ()) else none
    | none => none
  | .answer id answer =>
    match bus.active[id]? with
    | some run =>
      match run.phase with
      | .running landed => some (bus.answered id run landed answer, ())
      | _ => none
    | none => none
  | .record id stored =>
    match bus.active[id]? with
    | some run =>
      match run.phase with
      | .recording out outcome => some (bus.recorded id run out outcome stored, ())
      | _ => none
    | none => none
  | .release id stored =>
    match bus.active[id]? with
    | some run =>
      match run.phase with
      | .releasing audits => some (bus.released id run audits stored, ())
      | _ => none
    | none => none
  | .auditOnly id stored =>
    match bus.active[id]? with
    | some run => if run.phase = .auditing then some (bus.auditedOnly id stored, ()) else none
    | none => none
  | .cutOff id => some (bus.endRun id, ())
  | .crash => some ({ bus with active := ∅ }, ())

end CommandBus

end Oxplow.Commands
