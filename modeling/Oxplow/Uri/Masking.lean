import Oxplow.Harnesses.Claude
import Oxplow.Uri.Uri

/-! `uri/mod.rs`: code in a text is blanked before references are read out of it. The scanner
goes byte by byte; what it looks for is ASCII, so a text is its characters here. -/

namespace Oxplow.Uri
open Harnesses (isWhitespace)

/-- `str::split_inclusive('\n')`. -/
def splitInclusive : List Char → List (List Char)
  | [] => []
  | c :: rest =>
    if c = '\n' then [c] :: splitInclusive rest
    else
      match splitInclusive rest with
      | [] => [[c]]
      | line :: lines => (c :: line) :: lines

/-- A leading code fence on a line: 3+ backticks or 3+ tildes after optional whitespace. -/
def leadingFence (line : List Char) : Option (Char × Nat) :=
  (line.dropWhile isWhitespace).head?.bind fun c =>
    if c != '`' && c != '~' then none
    else
      let run := ((line.dropWhile isWhitespace).takeWhile (· == c)).length
      if 3 ≤ run then some (c, run) else none

def spaces (n : Nat) : List Char := List.replicate n ' '

/-- The line with every byte except line terminators replaced by a space. -/
def blankLine (line : List Char) : List Char :=
  line.flatMap fun c => if c = '\n' ∨ c = '\r' then [c] else spaces c.utf8Size

/-! ## Code spans -/

def isTick (c : Char) : Bool := c == '`'

def byteLen (text : List Char) : Nat := (text.map Char.utf8Size).sum

/-- What is before the end of the next run of exactly `n` backticks, and what is after it. -/
def closing (n : Nat) : Nat → List Char → Option (List Char × List Char)
  | 0, _ => none
  | _ + 1, [] => none
  | fuel + 1, c :: rest =>
    if isTick c then
      let run := (c :: rest).takeWhile isTick
      let after := (c :: rest).dropWhile isTick
      if run.length = n then some (run, after)
      else (closing n fuel after).map fun found => (run ++ found.1, found.2)
    else (closing n fuel rest).map fun found => (c :: found.1, found.2)

def maskFrom : Nat → List Char → List Char
  | 0, text => text
  | _ + 1, [] => []
  | fuel + 1, c :: rest =>
    if isTick c then
      let run := (c :: rest).takeWhile isTick
      let after := (c :: rest).dropWhile isTick
      match closing run.length after.length after with
      | some found => spaces (run.length + byteLen found.1) ++ maskFrom fuel found.2
      -- Unterminated: the remainder is copied.
      | none => c :: rest
    else c :: maskFrom fuel rest

/-- A line with its inline code spans masked. -/
def maskInlineCode (line : List Char) : List Char := maskFrom line.length line

/-! ## Fenced blocks -/

/-- The lines masked, with the fence of the block they are in. -/
def maskLines : Option (Char × Nat) → List (List Char) → List Char
  | _, [] => []
  | some (fc, flen), line :: lines =>
    blankLine line ++ maskLines
      (match leadingFence line with
      | some (c, len) => if c = fc ∧ flen ≤ len then none else some (fc, flen)
      | none => some (fc, flen)) lines
  | none, line :: lines =>
    match leadingFence line with
    | some fence => blankLine line ++ maskLines (some fence) lines
    | none => maskInlineCode line ++ maskLines none lines

def maskCodeRegions (body : List Char) : List Char := maskLines none (splitInclusive body)

end Oxplow.Uri
