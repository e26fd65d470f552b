import Std.Data.ExtTreeMap
import Oxplow.Library.Overlay

/-! `terminal_sessions.rs`: the replay buffer of a terminal, the forwarder that fills it and
broadcasts the output, and what a re-attaching pane is sent. -/

namespace Oxplow.Terminals

abbrev Chunk := List UInt8

def maxRingBytes : Nat := 4194304

def replayLines : Nat := 6000

/-! ## The ring -/

structure RingBuffer where
  chunks : List Chunk
  bytes : Nat

namespace RingBuffer

def new : RingBuffer := ⟨[], 0⟩

/-- The oldest chunks go while there are more than one and too many bytes. -/
def evict : List Chunk → Nat → RingBuffer
  | old :: next :: rest, bytes =>
    if maxRingBytes < bytes then evict (next :: rest) (bytes - old.length) else ⟨old :: next :: rest, bytes⟩
  | chunks, bytes => ⟨chunks, bytes⟩

/-- A single chunk over the cap is trimmed from the left. -/
def trim (ring : RingBuffer) : RingBuffer :=
  match ring.chunks with
  | [only] =>
    if maxRingBytes < ring.bytes then
      let trimmed := only.drop (only.length - maxRingBytes)
      ⟨[trimmed], trimmed.length⟩
    else ring
  | _ => ring

def push (ring : RingBuffer) (chunk : Chunk) : RingBuffer := (evict (ring.chunks ++ [chunk]) (ring.bytes + chunk.length)).trim

def snapshot (ring : RingBuffer) : List UInt8 := ring.chunks.flatten

end RingBuffer

/-! ## The modes that output leaves -/

def escape : UInt8 := 27
def bracket : UInt8 := 91
def question : UInt8 := 63
def semicolon : UInt8 := 59
def setMode : UInt8 := 104
def resetMode : UInt8 := 108
def newline : UInt8 := 10

def u32Max : Nat := 4294967295

/-- The numbers between semicolons, and what follows them. A number stops at the largest one. -/
def modeParams : List UInt8 → Option Nat → List Nat × List UInt8
  | [], n => (n.toList, [])
  | byte :: rest, n =>
    if 48 ≤ byte ∧ byte ≤ 57 then
      modeParams rest (some (min (min (n.getD 0 * 10) u32Max + (byte.toNat - 48)) u32Max))
    else if byte = semicolon then
      let later := modeParams rest none
      (n.toList ++ later.1, later.2)
    else (n.toList, byte :: rest)

theorem modeParams_length (bytes : List UInt8) (n : Option Nat) : (modeParams bytes n).2.length ≤ bytes.length := by
  induction bytes generalizing n with
  | nil => exact Nat.le_refl 0
  | cons byte rest ih =>
    unfold modeParams
    split
    · exact Nat.le_succ_of_le (ih _)
    · split
      · exact Nat.le_succ_of_le (ih _)
      · exact Nat.le_refl _

abbrev Modes := Std.ExtTreeMap Nat Bool

/-- The last word on each mode. -/
def modesOf (modes : Modes) : List UInt8 → Modes
  | first :: second :: third :: fourth :: rest =>
    let here := modeParams (fourth :: rest) none
    have shorter := modeParams_length (fourth :: rest) none
    if first = escape ∧ second = bracket ∧ third = question then
      match at_ : here.2 with
      | last :: after =>
        if last = setMode ∨ last = resetMode then
          have : after.length < rest.length + 4 := by
            have taken : after.length + 1 ≤ rest.length + 1 := by simpa [here, at_] using shorter
            omega
          modesOf (here.1.foldl (fun modes mode => modes.insert mode (last = setMode)) modes) after
        else modesOf modes (second :: third :: fourth :: rest)
      | [] => modesOf modes (second :: third :: fourth :: rest)
    else modesOf modes (second :: third :: fourth :: rest)
  | _ => modes
termination_by bytes => bytes.length

def alternateScreens : List Nat := [47, 1047, 1049]

def asciiBytes (text : String) : List UInt8 := text.toList.map fun c => c.toNat.toUInt8

/-- Autowrap and a shown cursor are on in a fresh terminal. -/
def modeSequence (entry : Nat × Bool) : List UInt8 :=
  let defaultOn : Bool := entry.1 = 7 || entry.1 = 25
  if entry.2 ≠ defaultOn ∧ entry.1 ∉ alternateScreens then
    [escape, bracket, question] ++ asciiBytes (toString entry.1) ++ [if entry.2 then setMode else resetMode]
  else []

/-- The sequences that set the modes again, or nothing while an alternate screen is up. -/
def modesLeftBy (head : List UInt8) : Option (List UInt8) :=
  let modes := modesOf ∅ head
  if alternateScreens.any fun mode => modes[mode]? = some true then none
  else some (modes.toList.flatMap modeSequence)

/-! ## The replay -/

/-- Where the lines to replay start, of the bytes read from the end. -/
def cutBefore : List UInt8 → Nat → Option Nat
  | [], _ => none
  | byte :: earlier, lines =>
    if byte = newline then
      if replayLines < lines + 1 then some (earlier.length + 1) else cutBefore earlier (lines + 1)
    else cutBefore earlier lines

/-- What a pane is sent: the modes that the dropped head left on, and the bytes of the ring. -/
structure Replay where
  preamble : List UInt8
  bytes : List UInt8

def RingBuffer.replay (ring : RingBuffer) : Replay :=
  let all := ring.snapshot
  match cutBefore all.reverse 0 with
  | none => ⟨[], all⟩
  | some cut =>
    match modesLeftBy (all.take cut) with
    | none => ⟨[], all⟩
    | some preamble => ⟨preamble, all.drop cut⟩

/-! ## The forwarder -/

/-- A re-attach: what it replayed, where in the output that starts, and what had been broadcast. -/
structure Attached where
  replay : Replay
  start : Nat
  sentBefore : Nat

structure Forwarder where
  /-- The PTY's chunks that the forwarder has not taken. -/
  events : List Chunk
  ring : RingBuffer
  /-- A chunk in the ring that is not broadcast yet. -/
  held : Option Chunk
  /-- The session's output that the forwarder is past. -/
  output : List UInt8
  /-- The bytes of the data events broadcast. -/
  sent : List UInt8
  attached : List Attached

inductive ForwarderStep
  | emit (chunk : Chunk)
  | push
  | broadcast
  /-- The forwarder fell behind, and a chunk is gone. -/
  | lag
  | reattach

namespace Forwarder

def start : Forwarder := ⟨[], .new, none, [], [], []⟩

def step (s : Forwarder) : ForwarderStep → Option (Forwarder × Unit)
  | .emit chunk => some ({ s with events := s.events ++ [chunk] }, ())
  | .push =>
    match s.held, s.events with
    | none, chunk :: events =>
      some ({ s with events, ring := s.ring.push chunk, held := some chunk, output := s.output ++ chunk }, ())
    | _, _ => none
  | .broadcast => s.held.map fun chunk => ({ s with held := none, sent := s.sent ++ chunk }, ())
  | .lag =>
    match s.held, s.events with
    | none, chunk :: events => some ({ s with events, output := s.output ++ chunk }, ())
    | _, _ => none
  | .reattach =>
    let replay := s.ring.replay
    some ({ s with attached := s.attached ++ [⟨replay, s.output.length - replay.bytes.length, s.sent.length⟩] }, ())

end Forwarder
end Oxplow.Terminals

/-! The private modes of a terminal, as the output it reads sets them. -/

namespace Oxplow.Terminals
open Library

/-- How far a sequence that sets private modes has come. -/
inductive Reading
  | other
  | escaped
  | control
  | params (numbers : List Nat) (number : Option Nat)

/-- The modes that a sequence sets, each on or off. -/
abbrev Settings := List (Nat × Bool)

def isDigit (byte : UInt8) : Bool := 48 ≤ byte && byte ≤ 57

/-- The number with one more digit; it stops at the largest one. -/
def grown (number : Option Nat) (byte : UInt8) : Nat := min (number.getD 0 * 10 + (byte.toNat - 48)) u32Max

def Reading.next : Reading → UInt8 → Reading
  | .other, byte => if byte = escape then .escaped else .other
  | .escaped, byte => if byte = escape then .escaped else if byte = bracket then .control else .other
  | .control, byte => if byte = escape then .escaped else if byte = question then .params [] none else .other
  | .params numbers number, byte =>
    if byte = escape then .escaped
    else if isDigit byte then .params numbers (some (grown number byte))
    else if byte = semicolon then .params (numbers ++ number.toList) none
    else .other

def Reading.told : Reading → UInt8 → Settings
  | .params numbers number, byte =>
    if byte = setMode ∨ byte = resetMode then (numbers ++ number.toList).map fun mode => (mode, byte = setMode) else []
  | _, _ => []

/-- What the sequences set that are read to their end. -/
def settings : Reading → List UInt8 → Settings
  | _, [] => []
  | reading, byte :: rest => reading.told byte ++ settings (reading.next byte) rest

/-- A control character inside a sequence is carried out, and the sequence goes on behind it; only
an escape starts another, and two of them cancel it. -/
def carriedOut (byte : UInt8) : Bool := (byte < 32 && byte ≠ 24 && byte ≠ 26 && byte ≠ escape) || byte = 127

/-- What output sets when a terminal reads it. -/
def terminalSettings (output : List UInt8) : Settings := settings .other (output.filter fun byte => !carriedOut byte)

/-- The modes that are on in a fresh terminal. -/
def defaultOn (mode : Nat) : Bool := mode = 7 || mode = 25

/-- A mode of a fresh terminal behind these settings. -/
def Settings.mode (told : Settings) (mode : Nat) : Bool := ((Overlay.newest Prod.fst told mode).map Prod.snd).getD (defaultOn mode)

def Settings.alternateUp (told : Settings) : Bool := alternateScreens.any told.mode

/-- The bytes of a replay. -/
def Replay.sent (replay : Replay) : List UInt8 := replay.preamble ++ replay.bytes

/-- The ring before its last lines, and these. -/
structure Cut (all head tail : List UInt8) : Prop where
  parts : all = head ++ tail
  broken : head.getLast? = some newline
  lines : tail.count newline = replayLines

end Oxplow.Terminals
