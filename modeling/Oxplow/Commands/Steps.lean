import Oxplow.Jobs.CanonicalJson
import Oxplow.Library.Transaction

/-! `commands/steps.rs`, `commands/compose.rs`: a composite command is composed once and routed into
a tree of calls, which run in one transaction and give the call that undoes them. The run's
authority, its confirmation and the policy are taken to let every call through. -/

namespace Oxplow.Steps
open Jobs (Json)
open Library.Outcome

/-- The deepest a composite may nest. -/
def maxNesting : Nat := 8

def sequenceId : String := "oxplow.command.sequence"

inductive CommandError where
  | unknown (name : String)
  | invalid (field : Option String) (message : String)
  | failed (message : String)

structure CommandCall where
  name : String
  input : Json

variable {σ ε φ : Type}

/-- What a handler produced; `afterCommit` runs once the run has committed. -/
structure HandlerOutput (ε φ : Type) where
  result : Json
  inverse : Option CommandCall
  events : List ε
  afterCommit : List φ
  unchanged : Bool

/-- What a composite runs for one input. -/
structure Composition (ε : Type) where
  calls : List CommandCall
  result : Option Json
  events : List ε

abbrev Composer (σ ε : Type) := σ → Json → Except CommandError (Composition ε)

/-- A handler in the transaction takes the state and leaves one, the event log aside. -/
abbrev TxHandler (σ ε φ : Type) := σ → Json → Except CommandError (HandlerOutput ε φ × σ)

inductive Handler (σ ε φ : Type) where
  | tx (run : TxHandler σ ε φ)
  | external
  | compose (composer : Composer σ ε)

structure CommandSpec where
  undoable : Bool
  readsOnly : Bool

structure Command (σ ε φ : Type) where
  spec : CommandSpec
  /-- Its input schema. -/
  validator : Json → Except CommandError Unit
  handler : Handler σ ε φ

/-! ## `oxplow.command.sequence` -/

def malformed (message : String) : CommandError := .invalid none message

def sequenceCall : Json → Except CommandError CommandCall
  | .object [("name", .string name), ("input", input)] => .ok ⟨name, input⟩
  | .object [("input", input), ("name", .string name)] => .ok ⟨name, input⟩
  | _ => .error (malformed "a call is an object with `name` and `input`")

def sequenceInput : Json → Except CommandError (List CommandCall)
  | .object [("calls", .array calls)] => calls.mapM sequenceCall
  | _ => .error (malformed "missing field `calls`")

def callJson (call : CommandCall) : Json := .object [("name", .string call.name), ("input", call.input)]

/-- The call that runs these, one after the other. -/
def sequenceOf (calls : List CommandCall) : CommandCall := ⟨sequenceId, .object [("calls", .array (calls.map callJson))]⟩

def sequenceComposer : Composer σ ε := fun _ input => do
  let calls ← sequenceInput input
  pure ⟨calls, none, []⟩

def sequenceCommand : Command σ ε φ where
  spec := ⟨true, false⟩
  validator input := (sequenceInput input).map fun _ => ()
  handler := .compose sequenceComposer

theorem sequenceInput_calls (calls : List CommandCall) : sequenceInput (sequenceOf calls).input = .ok calls := by
  have each : (calls.map callJson).mapM sequenceCall = .ok calls := by
    induction calls with
    | nil => rfl
    | cons call calls ih =>
      rw [List.map_cons, List.mapM_cons, ih]
      rfl
  exact each

/-! ## Routing -/

mutual
/-- A composition as routed: its calls, the run's own result and its own events. -/
inductive Composed (σ ε φ : Type) where
  | mk (calls : List (ComposedCall σ ε φ)) (result : Option Json) (events : List ε)

/-- A call with the command that runs it; a composite's with its own composition. -/
inductive ComposedCall (σ ε φ : Type) where
  | leaf (command : Command σ ε φ) (call : CommandCall)
  | composite (command : Command σ ε φ) (call : CommandCall) (nested : Composed σ ε φ)
end

def ComposedCall.command : ComposedCall σ ε φ → Command σ ε φ
  | .leaf command _ => command
  | .composite command _ _ => command

def ComposedCall.call : ComposedCall σ ε φ → CommandCall
  | .leaf _ call => call
  | .composite _ call _ => call

/-- With the first call that leaves the transaction. -/
structure Routed (σ ε φ : Type) where
  composed : Composed σ ε φ
  outside : Option Nat

abbrev Registry (σ ε φ : Type) := String → Option (Command σ ε φ)

/-- An input's problem is placed at the call's input. -/
def atInput (callAt : String) : CommandError → CommandError
  | .invalid field message => .invalid (some (callAt ++ field.getD "")) message
  | other => other

section Router
variable (registry : Registry σ ε φ)

/-- How a nested composite routes: its composer, its input, its name and the place of its call. -/
abbrev RouteNested (σ ε φ : Type) := Composer σ ε → Json → String → String → Except CommandError (Routed σ ε φ)

/-- A call routed, and whether it leaves the transaction. -/
def routeCall (routeNested : RouteNested σ ε φ) (at_ : String) (i : Nat) (call : CommandCall) :
    Except CommandError (ComposedCall σ ε φ × Bool) := do
  let nameField := s!"{at_}/calls/{i}/name"
  let callAt := s!"{at_}/calls/{i}/input"
  let command ← (registry call.name).elim (.error (.unknown call.name)) .ok
  ensure (command.spec.readsOnly = false)
    (.invalid (some nameField) s!"`{call.name}` only reads; a composite composes commands that write")
  (command.validator call.input).mapError (atInput callAt)
  match command.handler with
  | .tx _ => pure (.leaf command call, false)
  | .external => pure (.leaf command call, true)
  | .compose composer => do
    let inner ← routeNested composer call.input call.name callAt
    ensure (inner.outside = none) (.invalid (some nameField)
      s!"`{call.name}` runs steps outside the transaction, so it can't be one step of another composite")
    pure (.composite command call inner.composed, false)

def routeCalls (routeNested : RouteNested σ ε φ) (at_ : String) : Nat → List CommandCall →
    Except CommandError (List (ComposedCall σ ε φ) × Option Nat)
  | _, [] => pure ([], none)
  | i, call :: calls => do
    let (routed, leaves) ← routeCall registry routeNested at_ i call
    let (rest, outside) ← routeCalls routeNested at_ (i + 1) calls
    pure (routed :: rest, if leaves then some i else outside)

/-- A composite routed with so many levels left; every composer reads the state the run starts in. -/
def routeFor (s : σ) : Nat → RouteNested σ ε φ
  | 0, _, _, name, _ => .error (malformed
      s!"`{name}` is nested more than {maxNesting} composites deep — does a command compose itself?")
  | levels + 1, composer, input, _, at_ => do
    let composition ← composer s input
    let (calls, outside) ← routeCalls registry (routeFor s levels) at_ 0 composition.calls
    pure ⟨.mk calls composition.result composition.events, outside⟩

end Router

/-! ## Running -/

/-- An answer that says it changed nothing returns no events and no inverse. -/
def honest (out : HandlerOutput ε φ) (name : String) : Except CommandError (HandlerOutput ε φ) := do
  ensure (out.unchanged = false ∨ out.events.isEmpty ∧ out.inverse.isNone)
    (.failed s!"`{name}` said it changed nothing but returned events or an inverse")
  pure out

/-- What the calls of a composite have come to. -/
structure Children (ε φ : Type) where
  children : List Json
  events : List ε
  afters : List φ
  inverses : List (Option CommandCall)

/-- The answer of a call, before those of the calls after it. -/
def Children.after (c : ComposedCall σ ε φ) (out : HandlerOutput ε φ) (rest : Children ε φ) : Children ε φ where
  children := .object [("name", .string c.call.name), ("result", out.result)] :: rest.children
  events := out.events ++ rest.events
  afters := out.afterCommit ++ rest.afters
  inverses := (if out.unchanged then [] else [out.inverse.filter fun _ => c.command.spec.undoable]) ++ rest.inverses

/-- All of them, or none where one is missing. -/
def collect : List (Option CommandCall) → Option (List CommandCall)
  | [] => some []
  | call :: calls => call.bind fun call => (collect calls).map (call :: ·)

def Children.answer (ran : Children ε φ) (result : Option Json) (events : List ε) : HandlerOutput ε φ where
  result := .object [("result", result.getD .null), ("children", .array ran.children)]
  inverse := if ran.inverses.isEmpty then none else (collect ran.inverses.reverse).map sequenceOf
  events := ran.events ++ events
  afterCommit := ran.afters
  unchanged := ran.inverses.isEmpty && events.isEmpty

mutual
def runTree : Composed σ ε φ → σ → Except CommandError (HandlerOutput ε φ × σ)
  | .mk calls result events, s => do
    let (ran, after) ← runCalls calls s
    pure (ran.answer result events, after)

def runCalls : List (ComposedCall σ ε φ) → σ → Except CommandError (Children ε φ × σ)
  | [], s => pure (⟨[], [], [], []⟩, s)
  | c :: calls, s => do
    let (out, next) ← runCall c s
    let out ← honest out c.call.name
    let (rest, after) ← runCalls calls next
    pure (.after c out rest, after)

def runCall : ComposedCall σ ε φ → σ → Except CommandError (HandlerOutput ε φ × σ)
  | .composite _ _ nested, s => runTree nested s
  | .leaf command call, s =>
    match command.handler with
    | .tx run => run s call.input
    | _ => .error (.failed s!"`{call.name}` can't run in the transaction")
end

/-! ## The bus -/

inductive RunOrigin
  | call
  | undo

/-- The registered commands; the sequence is the bus's own. -/
structure CommandBus (σ ε φ : Type) where
  commands : Registry σ ε φ
  sequence : commands sequenceId = some sequenceCommand

/-- A call that changed nothing is rolled back; an undo is recorded anyway. -/
def commit (origin : RunOrigin) (name : String) (before : σ) (ran : HandlerOutput ε φ × σ) :
    Except CommandError (HandlerOutput ε φ × σ) :=
  match origin with
  | .undo => pure ran
  | .call => (honest ran.1 name).map fun out => (out, if out.unchanged then before else ran.2)

/-- A run in one transaction. What leaves it runs otherwise, and is not part of this. -/
def CommandBus.run (bus : CommandBus σ ε φ) (origin : RunOrigin) (call : CommandCall) (s : σ) :
    Except CommandError (HandlerOutput ε φ × σ) := do
  let command ← (bus.commands call.name).elim (.error (.unknown call.name)) .ok
  command.validator call.input
  match command.handler with
  | .tx run => run s call.input >>= commit origin call.name s
  | .external => .error (.failed "outside the transaction")
  | .compose composer => do
    let routed ← routeFor bus.commands s maxNesting composer call.input "" ""
    ensure (routed.outside = none) (.failed "outside the transaction")
    runTree routed.composed s >>= commit origin call.name s

end Oxplow.Steps
