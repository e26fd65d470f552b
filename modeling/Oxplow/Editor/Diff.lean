import Mathlib.Data.List.Basic

/-! `editor-diff.ts`: the working tree against HEAD line by line, for the marks in an editor's
gutter. A loop has fuel, and gives nothing when it runs out before it ends. -/

namespace Oxplow.Editor

/-- How a line changed; a line that did not is `none`. -/
inductive LineKind where
  | added
  | modified
  deriving DecidableEq

structure LineDiff where
  kinds : List (Option LineKind)
  /-- Entry `n`: a pure deletion happened just before new line `n`. -/
  deletedBefore : List Bool
  deriving DecidableEq

variable {α : Type} [DecidableEq α]

/-! ## The table -/

/-- The entries of a row of `dp`, from the row above it and the entry to their left. -/
def fillRow (line : α) : List α → List Nat → Nat → List Nat
  | other :: lines, diagonal :: up :: above, left =>
    let entry := if line = other then diagonal + 1 else max up left
    entry :: fillRow line lines (up :: above) entry
  | _, _, _ => []

def nextRow (newLines : List α) (above : List Nat) (line : α) : List Nat := 0 :: fillRow line newLines above 0

/-- The rows of `dp` from one row on. -/
def fillRows (newLines : List α) : List α → List Nat → List (List Nat)
  | [], row => [row]
  | line :: lines, row => row :: fillRows newLines lines (nextRow newLines row line)

def fillTable (oldLines newLines : List α) : List (List Nat) :=
  fillRows newLines oldLines (List.replicate (newLines.length + 1) 0)

/-- `dp[i][j]`. -/
def entry (dp : List (List Nat)) (i j : Nat) : Nat := (dp.getD i []).getD j 0

/-! ## The loops -/

/-- The loops that go back through the table from `dp[i][j]`, marking old and new lines. -/
def backtrack (oldLines newLines : List α) (dp : List (List Nat)) :
    Nat → Nat → Nat → List Bool → List Bool → Option (List Bool × List Bool)
  | 0, _, _, _, _ => none
  | fuel + 1, i + 1, j + 1, deleted, added =>
    if oldLines[i]? = newLines[j]? then backtrack oldLines newLines dp fuel i j deleted added
    else if entry dp (i + 1) j ≤ entry dp i (j + 1) then backtrack oldLines newLines dp fuel i (j + 1) (deleted.set i true) added
    else backtrack oldLines newLines dp fuel (i + 1) j deleted (added.set j true)
  | fuel + 1, i + 1, 0, deleted, added => backtrack oldLines newLines dp fuel i 0 (deleted.set i true) added
  | fuel + 1, 0, j + 1, deleted, added => backtrack oldLines newLines dp fuel 0 j deleted (added.set j true)
  | _ + 1, 0, 0, deleted, added => some (deleted, added)

/-- How many marked lines there are from `at_` on. -/
def run (marks : List Bool) (at_ : Nat) : Nat := ((marks.drop at_).takeWhile id).length

/-- `kinds[k] = kind` from `start` up to `stop`. -/
def fillKinds (kinds : List (Option LineKind)) (start stop : Nat) (kind : LineKind) : List (Option LineKind) :=
  kinds.take start ++ List.replicate (stop - start) (some kind) ++ kinds.drop stop

/-- Where the walk over the marks stands, and what it has written. -/
structure Walk where
  oi : Nat
  nj : Nat
  kinds : List (Option LineKind)
  deletedBefore : List Bool

/-- A pass of the walk: a hunk, or a pair of lines the backtrack kept. -/
def Walk.advance (deleted added : List Bool) (s : Walk) : Walk :=
  let addedCount := run added s.nj
  let deletedCount := run deleted s.oi
  if 0 < addedCount then
    { s with
      oi := s.oi + deletedCount
      nj := s.nj + addedCount
      kinds := fillKinds s.kinds s.nj (s.nj + addedCount) (if 0 < deletedCount then .modified else .added) }
  else if 0 < deletedCount then { s with oi := s.oi + deletedCount, deletedBefore := s.deletedBefore.set s.nj true }
  else
    { s with
      oi := if s.oi < deleted.length then s.oi + 1 else s.oi
      nj := if s.nj < added.length then s.nj + 1 else s.nj }

def walk (deleted added : List Bool) : Nat → Walk → Option Walk
  | 0, _ => none
  | fuel + 1, s => if s.oi < deleted.length ∨ s.nj < added.length then walk deleted added fuel (s.advance deleted added) else some s

def maxDiffedLines : Nat := 5000

def diffLineKinds (fuel : Nat) (oldLines newLines : List α) : Option LineDiff :=
  let kinds : List (Option LineKind) := List.replicate newLines.length none
  let deletedBefore := List.replicate (newLines.length + 1) false
  if maxDiffedLines < oldLines.length ∨ maxDiffedLines < newLines.length then some { kinds, deletedBefore }
  else do
    let (deleted, added) ← backtrack oldLines newLines (fillTable oldLines newLines) fuel oldLines.length newLines.length
      (List.replicate oldLines.length false) (List.replicate newLines.length false)
    let s ← walk deleted added fuel { oi := 0, nj := 0, kinds, deletedBefore }
    return { kinds := s.kinds, deletedBefore := s.deletedBefore }

example : diffLineKinds 9 ["a", "b", "", "c"] ["a", "", "d", "e"] =
    some ⟨[none, none, some .modified, some .modified], [false, true, false, false, false]⟩ := by decide

end Oxplow.Editor
