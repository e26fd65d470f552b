import Mathlib.Data.List.Basic

/-! `anchor.ts`: where a comment's quote is in a text that has changed. A text is its UTF-16
code units. -/

namespace Oxplow.Comments

abbrev Text := List UInt16

/-- Up to this much of what surrounds a quote is kept with it. -/
def contextLen : Nat := 32

/-- Half of what is searched around the hint. -/
def fuzzyWindow : Nat := 64

def minFuzzyQuoteLen : Nat := 4

/-- Without a hint, no longer text is searched. -/
def noHintFuzzyLimit : Nat := 20000

structure AnchorInput where
  quote : Text
  before : Option Text
  after : Option Text
  hintOffset : Option Int

inductive Confidence where
  | exact
  | fuzzy
  | none
  deriving DecidableEq

structure ResolveResult where
  offset : Option Nat
  length : Nat
  confidence : Confidence
  deriving DecidableEq

/-- `String.slice`: an offset below zero counts from the end. -/
def place (text : Text) (offset : Int) : Nat :=
  if offset < 0 then (text.length + offset).toNat else min offset.toNat text.length

def slice (text : Text) (start stop : Int) : Text := (text.take (place text stop)).drop (place text start)

def extractContext (text : Text) (start stop : Nat) : Text × Text :=
  (slice text (max 0 (start - contextLen : Int)) start, slice text stop (min text.length (stop + contextLen)))

/-! ## Where the quote is -/

/-- `String.indexOf`. -/
def indexOf (text quote : Text) (start : Nat) : Option Nat :=
  (List.range' start (text.length + 1 - start)).find? fun i => quote.isPrefixOf (text.drop i)

/-- At most `fuel` offsets. -/
def offsetsFrom (text quote : Text) : Nat → Nat → List Nat
  | 0, _ => []
  | fuel + 1, start =>
    match indexOf text quote start with
    | none => []
    | some idx => idx :: offsetsFrom text quote fuel (idx + 1)

def allOffsets (text quote : Text) : List Nat := offsetsFrom text quote (text.length + 1) 0

/-- How far two texts agree. -/
def agreement : Text → Text → Nat
  | a :: as, b :: bs => if a = b then agreement as bs + 1 else 0
  | _, _ => 0

def contextScore (text : Text) (off qlen : Nat) (before after : Option Text) : Nat :=
  agreement (before.getD []).reverse (text.take off).reverse + agreement (after.getD []) (text.drop (off + qlen))

def hintDistance (a : AnchorInput) (off : Nat) : Nat := a.hintOffset.elim 0 fun hint => (off - hint : Int).natAbs

/-- The best offset so far, with its score and its distance. -/
def pickBetter (text : Text) (a : AnchorInput) (best : Option (Nat × Nat × Nat)) (off : Nat) : Option (Nat × Nat × Nat) :=
  let score := contextScore text off a.quote.length a.before a.after
  let dist := hintDistance a off
  match best with
  | none => some (off, score, dist)
  | some (_, bestScore, bestDist) => if bestScore < score ∨ score = bestScore ∧ dist < bestDist then some (off, score, dist) else best

def pickBest (text : Text) (offsets : List Nat) (a : AnchorInput) : Option Nat := (offsets.foldl (pickBetter text a) none).map (·.1)

/-! ## Where it nearly is -/

structure Cell where
  cost : Nat
  start : Nat

def Cell.next (same : Bool) (diag up left : Cell) : Cell :=
  let sub := diag.cost + if same = true then 0 else 1
  let del := up.cost + 1
  let ins := left.cost + 1
  if sub ≤ del ∧ sub ≤ ins then ⟨sub, diag.start⟩ else if del ≤ ins then ⟨del, up.start⟩ else ⟨ins, left.start⟩

/-- The cells of a row after `left`; the row above is given from the column of `left`. -/
def cells (c : UInt16) (left : Cell) : List Cell → Text → List Cell
  | diag :: up :: above, h :: hay =>
    let here := Cell.next (c == h) diag up left
    here :: cells c here (up :: above) hay
  | _, _ => []

/-- The last row of the table, from row `i` on. -/
def lastRow (hay : Text) (i : Nat) (above : List Cell) : Text → List Cell
  | [] => above
  | c :: pattern => lastRow hay (i + 1) (⟨i + 1, 0⟩ :: cells c ⟨i + 1, 0⟩ above hay) pattern

def firstRow (hay : Text) : List Cell := (List.range (hay.length + 1)).map fun j => ⟨0, j⟩

/-- The end of the nearest match and its distance, among the cells from column `j` on. -/
def nearestEnd (j bestDist : Nat) (bestEnd : Option Nat) : List Cell → Option Nat × Nat
  | [] => (bestEnd, bestDist)
  | cell :: cells => if cell.cost < bestDist then nearestEnd (j + 1) cell.cost (some j) cells else nearestEnd (j + 1) bestDist bestEnd cells

structure Match where
  start : Nat
  stop : Nat
  dist : Nat
  deriving DecidableEq

def fuzzySubstring (pattern hay : Text) (maxDist : Nat) : Option Match :=
  if pattern = [] ∨ hay = [] then none
  else
    let last := lastRow hay 0 (firstRow hay) pattern
    match nearestEnd 1 (maxDist + 1) none last.tail with
    | (none, _) => none
    | (some bestEnd, bestDist) => if maxDist < bestDist then none else last[bestEnd]?.map fun cell => ⟨cell.start, bestEnd, bestDist⟩

/-- The part of the text that is searched. -/
def fuzzyRange (text : Text) (a : AnchorInput) (needle : Text) : Option (Int × Int) :=
  match a.hintOffset with
  | some hint =>
    let w := max a.quote.length fuzzyWindow
    let start := hint - (a.before.getD []).length
    some (max 0 (start - w), min text.length (start + needle.length + w))
  | none => if noHintFuzzyLimit < text.length then none else some (0, text.length)

def fuzzyResolve (text : Text) (a : AnchorInput) : Option (Nat × Nat) :=
  let before := a.before.getD []
  let after := a.after.getD []
  if a.quote.length < minFuzzyQuoteLen ∧ before = [] ∧ after = [] then none
  else
    let needle := before ++ a.quote ++ after
    let maxDist := needle.length / 4
    if maxDist < 1 then none
    else
      (fuzzyRange text a needle).bind fun range =>
        (fuzzySubstring needle (slice text range.1 range.2) maxDist).bind fun m =>
          let matchStart := range.1.toNat + m.start
          let matchEnd := range.1.toNat + m.stop
          let qStart := min (matchStart + before.length) matchEnd
          let qLen := min a.quote.length (matchEnd - qStart)
          if qLen = 0 then none else some (qStart, qLen)

def resolveAnchor (text : Text) (a : AnchorInput) : ResolveResult :=
  let length := a.quote.length
  if length = 0 then ⟨none, 0, .none⟩
  else
    match allOffsets text a.quote with
    | [] =>
      match fuzzyResolve text a with
      | some (offset, length) => ⟨some offset, length, .fuzzy⟩
      | none => ⟨none, length, .none⟩
    | [offset] => ⟨some offset, length, .exact⟩
    | offsets => ⟨pickBest text offsets a, length, .exact⟩

end Oxplow.Comments
