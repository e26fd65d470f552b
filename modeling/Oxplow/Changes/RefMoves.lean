import Mathlib.Data.Finset.Card
import Oxplow.Library.Readers
import Oxplow.Library.Machine
import Oxplow.Library.Table

/-! `ref_moves.rs`, and the listener of `change_reactor.rs` that keeps the working files'
lists current: what a stream's relist needs to look at goes through a shared map, the wake-up
for it through one of two channels. -/

namespace Oxplow.Changes
open Library

/-- `trees::MAX_PATHS_ASKED`. -/
def maxPathsAsked : Nat := 5000

/-- `broadcast::channel(256)`. -/
def channelCapacity : Nat := 256

/-- What a stream's working-files relist needs to look at. -/
inductive WorkingMove where
  | paths (paths : Finset String)
  /-- Anything may have changed: look at the whole tree. -/
  | full
  deriving DecidableEq

/-- Looking at `looked` looks at all of `named`. -/
def WorkingMove.Covers : WorkingMove → WorkingMove → Prop
  | .full, _ => True
  | .paths looked, .paths named => ∀ path ∈ named, path ∈ looked
  | .paths _, .full => False

/-- What a listener hears. -/
inductive Moved where
  | stream (stream : Nat)
  /-- The listener fell behind: any stream may have moved. -/
  | missed
  deriving DecidableEq

def Moved.ofReceived : Received Nat → Moved
  | .message id => .stream id
  | .lagged => .missed

inductive Channel where
  | refs
  | index
  deriving DecidableEq

/-- A stream as the store lists it. -/
structure StreamRow where
  id : Nat
  archived : Bool
  deriving DecidableEq

/-- Where `follow_working_files` stands. -/
inductive Following where
  | waits
  /-- It lists each stream whole: the first pass, and the streams that are due. -/
  | lists (rest : List Nat)
  | drainsRefs (heard : List Moved)
  | drainsIndex (heard : List Moved)
  /-- It fell behind, and asks for the streams. -/
  | asksStreams
  | sweeps (rest : List Nat)
  | sweepLists (stream : Nat) (rest : List Nat)
  | relists (rest : List Nat)
  | relistLists (stream : Nat) (what : WorkingMove) (rest : List Nat)
  deriving DecidableEq

structure Moves where
  /-- What each stream's next relist needs to look at. -/
  working : Table Nat WorkingMove
  /-- The moves that are in the map and whose message is not sent. -/
  unsent : List (Channel × Nat)
  refs : Receiver Nat
  index : Receiver Nat
  /-- The streams listed by paths since their whole list was last made, and when each last moved. -/
  unreconciled : Table Nat Nat
  phase : Following
  deriving DecidableEq

/-- What a run shows: a move's map update, the start of a listing, and the streams a listener
that fell behind goes through. -/
inductive Note where
  | moved (stream : Nat) (what : WorkingMove)
  | listed (stream : Nat) (what : WorkingMove)
  | swept (streams : List Nat)
  deriving DecidableEq

inductive MoveStep where
  | pathsMoved (stream : Nat) (paths : List String)
  | indexMoved (stream : Nat)
  | moved (stream : Nat)
  /-- One of the moves sends its message. -/
  | send (move : Nat)
  /-- The listener hears a message on a channel it waits for. -/
  | recv (channel : Channel)
  /-- The listener's timer runs out: the streams that are due, in the map's order. -/
  | due (now : Nat) (ready : List Nat)
  /-- The listener's `try_recv`. -/
  | drain
  /-- The store's answer to the listener that fell behind; `none` when the read failed. -/
  | streams (rows : Option (List StreamRow))
  /-- The listener's `take_working`. -/
  | take
  /-- The listener lists the stream it is at, and has listed it by `now`. -/
  | list (now : Nat)
  /-- The listener has gone through its streams. -/
  | turn
  deriving DecidableEq

namespace Moves

/-- The listener has subscribed, and its first pass is over `streams`. -/
def start (streams : List Nat) : Moves := ⟨[], [], .empty, .empty, [], .lists streams⟩

/-- What `paths_moved` leaves of a stream's entry. -/
def extended (entry : Option WorkingMove) (paths : Finset String) : WorkingMove :=
  match entry.getD (.paths ∅) with
  | .full => .full
  | .paths held => if maxPathsAsked < (held ∪ paths).card then .full else .paths (held ∪ paths)

def pathsMoved (s : Moves) (stream : Nat) (paths : Finset String) : Moves :=
  { s with
    working := s.working.insert stream (extended (s.working.get stream) paths)
    unsent := s.unsent ++ [(.index, stream)] }

/-- `index_moved` and `moved`, which differ in the channel they send on. -/
def fullMoved (s : Moves) (channel : Channel) (stream : Nat) : Moves :=
  { s with working := s.working.insert stream .full, unsent := s.unsent ++ [(channel, stream)] }

def receiver (s : Moves) : Channel → Receiver Nat
  | .refs => s.refs
  | .index => s.index

def withReceiver (s : Moves) (receiver : Receiver Nat) : Channel → Moves
  | .refs => { s with refs := receiver }
  | .index => { s with index := receiver }

def send (s : Moves) (channel : Channel) (stream : Nat) : Moves :=
  s.withReceiver ((s.receiver channel).send channelCapacity stream) channel

/-- The table without the stream's row: `HashMap::remove`. -/
def without {ρ : Type} (table : Table Nat ρ) (stream : Nat) : Table Nat ρ := table.delete (· == stream)

/-- The streams heard of, sorted, each once. -/
def heardStreams (heard : List Moved) : List Nat :=
  ((heard.filterMap fun
    | .stream stream => some stream
    | .missed => none).insertionSort (· ≤ ·)).dedup

/-- What the listener does with what it has heard. -/
def heardAll (heard : List Moved) : Following := if heard.contains .missed then .asksStreams else .relists (heardStreams heard)

/-- The streams whose whole list is due. -/
def dueAt (after now : Nat) (unreconciled : Table Nat Nat) : List Nat :=
  (unreconciled.keys.dedup).filter fun stream => (unreconciled.get stream).any fun at_ => decide (at_ + after ≤ now)

variable (reconcileAfter : Nat)

def step (s : Moves) : MoveStep → Option (Moves × Option Note)
  | .pathsMoved stream paths => some (s.pathsMoved stream paths.toFinset, some (.moved stream (.paths paths.toFinset)))
  | .indexMoved stream => some (s.fullMoved .index stream, some (.moved stream .full))
  | .moved stream => some (s.fullMoved .refs stream, some (.moved stream .full))
  | .send i => do
    let (channel, stream) ← s.unsent[i]?
    some ({ s.send channel stream with unsent := s.unsent.eraseIdx i }, none)
  | .recv channel =>
    match s.phase, (s.receiver channel).receive with
    | .waits, some (got, receiver) => some ({ s.withReceiver receiver channel with phase := .drainsRefs [.ofReceived got] }, none)
    | _, _ => none
  | .due now ready =>
    match s.phase with
    | .waits =>
      if ready ≠ [] ∧ ready.Perm (dueAt reconcileAfter now s.unreconciled) then some ({ s with phase := .lists ready }, none)
      else none
    | _ => none
  | .drain =>
    match s.phase with
    | .drainsRefs heard =>
      match s.refs.receive with
      | some (got, refs) => some ({ s with refs, phase := .drainsRefs (heard ++ [.ofReceived got]) }, none)
      | none => some ({ s with phase := .drainsIndex heard }, none)
    | .drainsIndex heard =>
      match s.index.receive with
      | some (got, index) => some ({ s with index, phase := .drainsIndex (heard ++ [.ofReceived got]) }, none)
      | none => some ({ s with phase := heardAll heard }, none)
    | _ => none
  | .streams rows =>
    match s.phase with
    | .asksStreams =>
      let streams := ((rows.getD []).filter (!·.archived)).map (·.id)
      some ({ s with phase := .sweeps streams }, some (.swept streams))
    | _ => none
  | .take =>
    match s.phase with
    | .sweeps (stream :: rest) =>
      some ({ s with
        working := without s.working stream
        unreconciled := without s.unreconciled stream
        phase := .sweepLists stream rest }, none)
    | .relists (stream :: rest) =>
      some ({ s with
        working := without s.working stream
        phase := .relistLists stream ((s.working.get stream).getD .full) rest }, none)
    | _ => none
  | .list now =>
    match s.phase with
    | .lists (stream :: rest) =>
      some ({ s with unreconciled := without s.unreconciled stream, phase := .lists rest }, some (.listed stream .full))
    | .sweepLists stream rest => some ({ s with phase := .sweeps rest }, some (.listed stream .full))
    | .relistLists stream .full rest =>
      some ({ s with unreconciled := without s.unreconciled stream, phase := .relists rest }, some (.listed stream .full))
    | .relistLists stream (.paths paths) rest =>
      some ({ s with unreconciled := s.unreconciled.insert stream now, phase := .relists rest }, some (.listed stream (.paths paths)))
    | _ => none
  | .turn =>
    match s.phase with
    | .lists [] | .sweeps [] | .relists [] => some ({ s with phase := .waits }, none)
    | _ => none

/-- A listener that turns has gone through its streams. -/
theorem step_turn {reconcileAfter : Nat} {s next : Moves} {note : Option Note} (steps : s.step reconcileAfter .turn = some (next, note)) :
    (s.phase = .lists [] ∨ s.phase = .sweeps [] ∨ s.phase = .relists []) ∧ { s with phase := .waits } = next ∧ none = note := by
  simp only [step] at steps
  split at steps
  next phase => exact ⟨.inl phase, Prod.mk.inj (Option.some.inj steps)⟩
  next phase => exact ⟨.inr (.inl phase), Prod.mk.inj (Option.some.inj steps)⟩
  next phase => exact ⟨.inr (.inr phase), Prod.mk.inj (Option.some.inj steps)⟩
  next => cases steps

end Moves

end Oxplow.Changes
