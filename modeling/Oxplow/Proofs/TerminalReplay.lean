import Oxplow.Library.Machine
import Oxplow.Terminals.Replay

/-! What a re-attach replays and what is broadcast after it are the output from where the
replay starts, unless it falls between a chunk's push and its broadcast. -/

namespace Oxplow.Proofs.TerminalReplay
open Library Terminals

/-! ## The ring holds the end of the output -/

section Ring
variable {ring : RingBuffer} {chunk : Chunk}

theorem evict_suffix (chunks : List Chunk) (bytes : Nat) : (RingBuffer.evict chunks bytes).snapshot <:+ chunks.flatten := by
  fun_induction RingBuffer.evict chunks bytes with
  | case1 old next rest bytes full ih =>
    apply ih.trans
    rw [List.flatten_cons]
    exact List.suffix_append _ _
  | case2 old next rest bytes fits => exact List.suffix_refl _
  | case3 chunks bytes single => exact List.suffix_refl _

theorem trim_suffix : ring.trim.snapshot <:+ ring.snapshot := by
  unfold RingBuffer.trim
  split
  · rename_i only shape
    split
    · simp only [RingBuffer.snapshot, shape, List.flatten_singleton]
      exact List.drop_suffix _ _
    · exact List.suffix_refl _
  · exact List.suffix_refl _

theorem push_suffix : (ring.push chunk).snapshot <:+ ring.snapshot ++ chunk := by
  apply trim_suffix.trans
  have evicted := evict_suffix (ring.chunks ++ [chunk]) (ring.bytes + chunk.length)
  simpa [RingBuffer.snapshot] using evicted

/-- The preamble aside, a replay is the end of the ring. -/
theorem replay_suffix : ring.replay.bytes <:+ ring.snapshot := by
  simp only [RingBuffer.replay]
  split
  · exact List.suffix_refl _
  · split
    · exact List.suffix_refl _
    · exact List.drop_suffix _ _

end Ring

/-! ## Runs -/

variable {s next : Forwarder} {event : ForwarderStep} {out : Unit}

/-- The replayed bytes, the bytes broadcast since and the chunk about to be are the output
from where the replay starts. -/
def Seamless (s : Forwarder) : Prop :=
  ∀ a ∈ s.attached, a.replay.bytes ++ (s.sent.drop a.sentBefore ++ s.held.getD []) = s.output.drop a.start

/-- No re-attach comes between a chunk's push and its broadcast, and the forwarder keeps up. -/
def Clear (s : Forwarder) : ForwarderStep → Prop
  | .lag => ∀ chunk ∈ s.events.head?, chunk = []
  | .reattach => ∀ chunk ∈ s.held, chunk = []
  | _ => True

structure Kept (s : Forwarder) : Prop where
  ring : s.ring.snapshot <:+ s.output
  sent : s.output = s.sent ++ s.held.getD []
  before : ∀ a ∈ s.attached, a.sentBefore ≤ s.sent.length ∧ a.start ≤ s.output.length
  seamless : Seamless s

theorem kept_start : Kept .start := by
  apply Kept.mk <;> simp [Forwarder.start, RingBuffer.new, RingBuffer.snapshot, Seamless]

theorem drop_grown {output more : List UInt8} {n : Nat} (le : n ≤ output.length) :
    (output ++ more).drop n = output.drop n ++ more := List.drop_append_of_le_length le

theorem Kept.push (kept : Kept s) {chunk : Chunk} {events : List Chunk} (idle : s.held = none) :
    Kept { s with events := events, ring := s.ring.push chunk, held := some chunk, output := s.output ++ chunk } where
  ring := by
    apply push_suffix.trans
    obtain ⟨front, whole⟩ := kept.ring
    exact ⟨front, by rw [← whole, List.append_assoc]⟩
  sent := by
    have same : s.output = s.sent := by simpa [idle] using kept.sent
    rw [same]
    rfl
  before := by
    intro a member
    obtain ⟨sent, start⟩ := kept.before a member
    refine ⟨sent, ?_⟩
    rw [List.length_append]
    exact Nat.le_add_right_of_le start
  seamless := by
    intro a member
    have whole := kept.seamless a member
    rw [idle, Option.getD_none, List.append_nil] at whole
    rw [Option.getD_some, drop_grown (kept.before a member).2, ← whole, List.append_assoc]

theorem Kept.broadcast (kept : Kept s) {chunk : Chunk} (held : s.held = some chunk) :
    Kept { s with held := none, sent := s.sent ++ chunk } where
  ring := kept.ring
  sent := by
    have whole := kept.sent
    rw [held, Option.getD_some] at whole
    rw [whole]
    exact (List.append_nil _).symm
  before := by
    intro a member
    obtain ⟨sent, start⟩ := kept.before a member
    refine ⟨?_, start⟩
    rw [List.length_append]
    exact Nat.le_add_right_of_le sent
  seamless := by
    intro a member
    have whole := kept.seamless a member
    rw [held, Option.getD_some] at whole
    rw [Option.getD_none, List.append_nil, drop_grown (kept.before a member).1]
    exact whole

/-- What a re-attach is sent ends where the broadcasts go on. -/
theorem Kept.reattach (kept : Kept s) (clear : Clear s .reattach) :
    Kept { s with attached :=
      s.attached ++ [⟨s.ring.replay, s.output.length - s.ring.replay.bytes.length, s.sent.length⟩] } where
  ring := kept.ring
  sent := kept.sent
  before := by
    intro a member
    rcases List.mem_append.mp member with old | new
    · exact kept.before a old
    · obtain rfl := List.mem_singleton.mp new
      exact ⟨Nat.le_refl _, Nat.sub_le _ _⟩
  seamless := by
    intro a member
    rcases List.mem_append.mp member with old | new
    · exact kept.seamless a old
    · obtain rfl := List.mem_singleton.mp new
      have nothing : s.held.getD [] = [] := by
        cases held : s.held with
        | none => rfl
        | some chunk => exact clear chunk held
      have tail : s.ring.replay.bytes <:+ s.output := replay_suffix.trans kept.ring
      rw [nothing, List.drop_length, List.append_nil, List.append_nil]
      exact List.suffix_iff_eq_drop.mp tail

theorem Kept.step (kept : Kept s) (clear : Clear s event) (moves : s.step event = some (next, out)) : Kept next := by
  cases event with
  | emit chunk =>
    obtain ⟨rfl, _⟩ := Prod.mk.inj (Option.some.inj moves)
    exact ⟨kept.ring, kept.sent, kept.before, kept.seamless⟩
  | push =>
    simp only [Forwarder.step] at moves
    split at moves
    · rename_i idle _
      obtain ⟨rfl, _⟩ := Prod.mk.inj (Option.some.inj moves)
      exact kept.push idle
    · exact absurd moves (Option.some_ne_none _).symm
  | broadcast =>
    obtain ⟨chunk, held, same⟩ := Option.map_eq_some_iff.mp moves
    obtain ⟨rfl, _⟩ := Prod.mk.inj same
    exact kept.broadcast held
  | lag =>
    simp only [Forwarder.step] at moves
    split at moves
    · rename_i chunk events _ waits
      obtain ⟨rfl, _⟩ := Prod.mk.inj (Option.some.inj moves)
      have empty : chunk = [] := clear chunk (by rw [waits]; rfl)
      subst empty
      simp only [List.append_nil]
      exact ⟨kept.ring, kept.sent, kept.before, kept.seamless⟩
    · exact absurd moves (Option.some_ne_none _).symm
  | reattach =>
    obtain ⟨rfl, _⟩ := Prod.mk.inj (Option.some.inj moves)
    exact kept.reattach clear

/-- In a run of clear steps a re-attached pane has the output once, with no gap. -/
theorem reattach_seamless (events : List ForwarderStep) (clear : Machine.Admits Forwarder.step Clear .start events) :
    Seamless (Machine.run Forwarder.step .start events) := by
  refine (Machine.run_allowed (fun _ _ => True) (fun _ => trivial) (fun _ _ => trivial) Kept ?_ kept_start clear).1.seamless
  intro s event next out kept clear moves
  exact ⟨kept.step clear moves, trivial⟩

/-- A pane attaches between two chunks. -/
def betweenChunks : List ForwarderStep := [.emit [104, 105], .push, .broadcast, .reattach, .emit [33], .push, .broadcast]

theorem reattach_seamless_betweenChunks : Seamless (Machine.run Forwarder.step .start betweenChunks) := by
  apply reattach_seamless
  refine ⟨trivial, trivial, trivial, ?_, trivial, trivial, trivial, trivial⟩
  intro chunk held
  exact absurd held (Option.some_ne_none _).symm

/-- A pane attaches when a chunk is in the ring and not broadcast. -/
def betweenPushAndBroadcast : List ForwarderStep := [.emit [104, 105], .push, .reattach, .broadcast]

theorem reattach_repeats : ¬ Seamless (Machine.run Forwarder.step .start betweenPushAndBroadcast) := by
  intro holds
  have shown := holds ⟨⟨[], [104, 105]⟩, 0, 0⟩ (List.mem_singleton.mpr (by rfl))
  exact absurd shown (by decide)

end Oxplow.Proofs.TerminalReplay
