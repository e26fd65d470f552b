import Oxplow.Metrics.Series

/-! The seed of a branch's live set in the metric cube: the replay of the captures visible to
it, and the query that stands for the replay of a per-subject measure. -/

namespace Oxplow.Metrics

variable {V : Type} [DecidableEq V]

/-- The subject keys a capture restates. -/
def restatedKeys (scope : CaptureScope) (own : List (MappedRow V)) (scanned : List String) : List String :=
  let keys := match scope with
    | .perPath => scanned
    | .perSubject | .complete => own.filterMap fun f => foldKey scope f
  -- A fact without a path can only be superseded by the producer's next one.
  if own.any fun f => (foldKey scope f).isNone then keys ++ [scalarSubject] else keys

/-- One capture of the replay. -/
def replayCapture (scope : CaptureScope) (facts : List (MappedRow V)) (scanned : Nat → List String) (tree : LiveTree V) (e : Capture) :
    LiveTree V :=
  let own := facts.filter (·.capture.id == e.id)
  tree.apply scope e.producer (restatedKeys scope own (scanned e.id)) own

/-- A row of the live set: producer, subject key and fact. -/
abbrev SeedRow := String × String × Nat

/-- `ORDER BY producer, subject_key, fact_id`. -/
def seedBefore (a b : SeedRow) : Prop := a.1 < b.1 ∨ a.1 = b.1 ∧ (a.2.1 < b.2.1 ∨ a.2.1 = b.2.1 ∧ a.2.2 ≤ b.2.2)

instance : DecidableRel seedBefore := fun _ _ => inferInstanceAs (Decidable (_ ∨ _ ∧ (_ ∨ _)))

namespace Store

/-- What replaying captures leaves live. -/
def replaySeed (s : Store V) (items : Nat → Option String) (scope : CaptureScope) (m : Nat) (scanned : Nat → List String)
    (earlier : List Capture) : List SeedRow :=
  let facts := (s.heldFacts m (.ids (earlier.map (·.id)))).map (·.mapped items)
  (earlier.foldl (replayCapture scope facts scanned) []).map fun live => (live.producer, live.key, live.fact.id)

/-- The facts joined with their captures, each with its key. -/
def joinedFacts (s : Store V) (m : Nat) (captureIds : List Nat) (scalarKey : String) : List (Capture × String × Nat) :=
  s.facts.filterMap fun f => do
    let c ← s.capture? f.captureId
    if f.measureId == m && captureIds.contains c.id then some (c, (f.subject.or f.path).getD scalarKey, f.id) else none

/-- Every fact of the latest capture of each producer and key. -/
def liveSeedPerSubject (s : Store V) (m : Nat) (captureIds : List Nat) (scalarKey : String) : List SeedRow :=
  let joined := s.joinedFacts m captureIds scalarKey
  let latest := joined.filter fun (c, key, _) => joined.all fun (other, key', _) =>
    !(other.producer == c.producer && key' == key && laterThan other c)
  (latest.map fun (c, key, id) => (c.producer, key, id)).insertionSort seedBefore

/-- The live set a new branch's partition starts from: the stream's captures before `first`
that it sees. -/
def seedRows (s : Store V) (items : Nat → Option String) (m : Nat) (scope : CaptureScope) (caps : List Capture) (first : Capture)
    (visibility : Visibility) (scanned : Nat → List String) : List SeedRow :=
  let earlier := (caps.takeWhile fun e => laterThan first e).filter fun e => visibility.sees e first
  if earlier.isEmpty then []
  else if scope = .perSubject then s.liveSeedPerSubject m (earlier.map (·.id)) scalarSubject
  else s.replaySeed items scope m scanned earlier

end Store

end Oxplow.Metrics
