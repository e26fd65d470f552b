import Oxplow.Metrics.Series

/-! `metric_visibility.rs`: which captures' facts count at another capture, resolved from the
commit-stamped snapshots. -/

namespace Oxplow.Metrics
open Library

/-- A row of `snapshot` with a revision. -/
structure StampedSnapshot where
  id : Nat
  streamId : Nat
  branch : Option String
  commit : String
  createdAt : Int
  deriving DecidableEq

def stampBefore (a b : StampedSnapshot) : Prop := a.createdAt < b.createdAt ∨ a.createdAt = b.createdAt ∧ a.id ≤ b.id

instance : DecidableRel stampBefore := fun _ _ => inferInstanceAs (Decidable (_ ∨ _))

/-- Oldest first: the first match at or after a capture is its absorbing commit. -/
def commitStampedSnapshots (rows : List StampedSnapshot) : List StampedSnapshot := rows.insertionSort stampBefore

/-- Ancestry among the revisions with an index: for each, the indexes of its
ancestors-or-self, 64 to a word. -/
structure Ancestry where
  index : Table String Nat
  ancestors : List (List Nat)
  deriving DecidableEq

def Ancestry.isAncestorOrEqual (ancestry : Ancestry) (ancestor descendant : String) : Option Bool := do
  let a ← ancestry.index.get ancestor
  let d ← ancestry.index.get descendant
  some (((ancestry.ancestors.getD d []).getD (a / 64) 0).testBit (a % 64))

/-- What `resolve` asks of the revision graph. -/
structure AncestryOracle where
  /-- The ancestry among at least these commits. -/
  ancestry : List String → Ancestry
  commitTime : String → Option Int

namespace Visibility

/-- A map filled in a pass over the captures. -/
def collect {ρ : Type} (answer : Capture → Option ρ) (captures : List Capture) : Table Nat ρ :=
  captures.foldl (fun table c =>
    match answer c with
    | some row => table.insert c.id row
    | none => table) []

def values {ρ : Type} (table : Table Nat ρ) : List ρ := table.keys.dedup.filterMap table.get

/-- The stamp whose commit absorbed a capture's work: its own snapshot's, or else the
first on its stream and branch at or after it. -/
def absorbing (stamped : List StampedSnapshot) (c : Capture) : Option StampedSnapshot :=
  let own := c.snapshotId.bind fun sid => stamped.find? fun s => s.id == sid && s.streamId == c.streamId
  own.or (c.branch.bind fun _ =>
    stamped.find? fun s => s.streamId == c.streamId && s.branch == c.branch && decide (c.capturedAt ≤ s.createdAt))

/-- The first commit with a capture's code, and when it was absorbed. -/
def effectiveOf (stamped : List StampedSnapshot) (oracle : AncestryOracle) (c : Capture) : Option (String × Int) :=
  -- A clean tree's code is in the stamped commit already.
  if c.vcsRevExact then c.closestVcsRev.map fun sha => (sha, c.capturedAt)
  else (absorbing stamped c).bind fun s => (oracle.commitTime s.commit).map fun time => (s.commit, max time s.createdAt)

def resolve (captures : List Capture) (stamped : List StampedSnapshot) (oracle : AncestryOracle) : Visibility :=
  let base := collect (·.closestVcsRev) captures
  let effective := collect (effectiveOf stamped oracle) captures
  let anchors := (((values effective).map (·.1) ++ values base).insertionSort (· ≤ ·)).dedup
  ⟨effective.get, base.get, (oracle.ancestry anchors).isAncestorOrEqual⟩

end Visibility

end Oxplow.Metrics
