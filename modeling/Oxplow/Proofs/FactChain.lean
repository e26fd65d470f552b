import Oxplow.Metrics.FactStore

/-! What one restatement of a part does to the store, and what holding a fact means. -/

namespace Oxplow.Proofs.FactChain
open Library Metrics

variable {V : Type}

/-! ## Lookups -/

variable {s : Store V} {c : Capture}

theorem capture?_of_mem (unique : (s.captures.map (·.id)).Nodup) (member : c ∈ s.captures) : s.capture? c.id = some c :=
  find?_of_unique unique member

variable {id : Nat}

theorem capture?_eq_some (found : s.capture? id = some c) : c ∈ s.captures ∧ c.id = id :=
  ⟨List.mem_of_find?_eq_some found, by simpa using List.find?_some found⟩

@[simp] theorem toCapture_id (c : NewMetricCapture) (id : Nat) : (c.toCapture id).id = id := rfl

theorem lineAtHold_eq (s : Store V) (holder : Nat) (f : Fact V) :
    s.lineAtHold holder f = (newest (fun time => s.lines.get (f.id, time)) holder).join.or f.line := by
  unfold Store.lineAtHold
  cases newest (fun time => s.lines.get (f.id, time)) holder with
  | none => rfl
  | some move => cases move <;> rfl

variable {f : Fact V}

theorem storedFor_iff :
    s.storedFor c f = true ↔ ∃ fc ∈ s.captures, fc.id = f.captureId ∧ fc.origin = c.origin ∧ fc.status = .done := by
  simp [Store.storedFor, and_assoc]

/-- Holder `c` holds `f` of the part, from where its row says on. -/
structure Holding (s : Store V) (c : Capture) (part : Part) (link : Link) (f : Fact V) : Prop where
  covered : part.covers f.toNewFact = true
  started : link.fromCaptureId ≤ f.captureId
  born : f.captureId ≤ c.id
  lasting : ∀ last, f.lastCaptureId = some last → c.id ≤ last
  stored : s.storedFor c f = true

theorem holds_iff {part : Part} {link : Link} : s.holds c part link f = true ↔ Holding s c part link f := by
  unfold Store.holds
  simp only [Bool.and_eq_true, decide_eq_true_eq, Option.all_eq_true]
  constructor
  · rintro ⟨⟨⟨⟨covered, started⟩, born⟩, lasting⟩, stored⟩
    exact ⟨covered, started, born, lasting, stored⟩
  · intro holding
    exact ⟨⟨⟨⟨holding.covered, holding.started⟩, holding.born⟩, holding.lasting⟩, holding.stored⟩

theorem mem_held {part : Part} :
    f ∈ s.held c part ↔ ∃ link, s.link part c.id = some link ∧ f ∈ s.facts ∧ Holding s c part link f := by
  unfold Store.held
  cases linked : s.link part c.id with
  | none => simp
  | some link => simp [List.mem_filter, holds_iff]

/-! ## The facts inserted -/

/-- `facts` as rows of capture `captureId`, their ids counted from `start`. -/
def numbered (captureId : Nat) : Nat → List (NewFact V) → List (Fact V)
  | _, [] => []
  | start, f :: facts => { f with id := start, captureId, lastCaptureId := none } :: numbered captureId (start + 1) facts

theorem insertFacts_eq (s : Store V) (captureId : Nat) (facts : List (NewFact V)) :
    s.insertFacts captureId facts =
      { s with facts := s.facts ++ numbered captureId s.nextFact facts, nextFact := s.nextFact + facts.length } := by
  unfold Store.insertFacts
  induction facts generalizing s with
  | nil => simp [numbered]
  | cons f facts ih =>
    rw [List.foldl_cons, ih]
    simp [Store.insertFact, numbered, Nat.add_assoc, Nat.add_comm 1]

theorem mem_numbered {captureId start : Nat} {facts : List (NewFact V)} (member : f ∈ numbered captureId start facts) :
    f.captureId = captureId ∧ f.lastCaptureId = none ∧ f.toNewFact ∈ facts ∧ start ≤ f.id ∧ f.id < start + facts.length := by
  induction facts generalizing start with
  | nil => simp [numbered] at member
  | cons g facts ih =>
    rcases List.mem_cons.mp member with rfl | member
    · simp
    · obtain ⟨capture, last, source, low, high⟩ := ih member
      refine ⟨capture, last, by simp [source], by omega, ?_⟩
      simp only [List.length_cons]
      omega

@[simp] theorem numbered_columns (captureId start : Nat) (facts : List (NewFact V)) :
    (numbered captureId start facts).map (·.toNewFact) = facts := by
  induction facts generalizing start with
  | nil => rfl
  | cons f facts ih => simp [numbered, ih]

theorem numbered_unique (captureId start : Nat) (facts : List (NewFact V)) :
    ((numbered captureId start facts).map (·.id)).Nodup := by
  induction facts generalizing start with
  | nil => simp [numbered]
  | cons f facts ih =>
    refine List.nodup_cons.mpr ⟨?_, ih (start + 1)⟩
    intro repeated
    obtain ⟨g, member, same⟩ := List.mem_map.mp repeated
    have later := (mem_numbered member).2.2.2.1
    have same : g.id = start := same
    omega

/-! ## One restatement -/

/-- A fact as a restatement that closes `closed` leaves it. -/
def closing (closed : List Nat) (last : Nat) (f : Fact V) : Fact V :=
  if closed.contains f.id then { f with lastCaptureId := some last } else f

@[simp] theorem closing_columns (closed : List Nat) (last : Nat) (f : Fact V) :
    (closing closed last f).toNewFact = f.toNewFact := by
  unfold closing
  split <;> rfl

@[simp] theorem closing_id (closed : List Nat) (last : Nat) (f : Fact V) : (closing closed last f).id = f.id := by
  unfold closing
  split <;> rfl

@[simp] theorem closing_captureId (closed : List Nat) (last : Nat) (f : Fact V) :
    (closing closed last f).captureId = f.captureId := by
  unfold closing
  split <;> rfl

section Restate
variable (s : Store V) (k : Nat) (part : Part) (r : Restatement V)

@[simp] theorem restate_captures : (s.restate k part r).captures = s.captures := by
  unfold Store.restate
  rw [insertFacts_eq]
  cases r.link <;> cases part <;> rfl

@[simp] theorem restate_facts : (s.restate k part r).facts =
    s.facts.map (closing r.closed r.last) ++ numbered k s.nextFact r.stored := by
  unfold Store.restate
  rw [insertFacts_eq]
  cases r.link <;> cases part <;> rfl

@[simp] theorem restate_nextFact : (s.restate k part r).nextFact = s.nextFact + r.stored.length := by
  unfold Store.restate
  rw [insertFacts_eq]
  cases r.link <;> cases part <;> rfl

@[simp] theorem restate_nextCapture : (s.restate k part r).nextCapture = s.nextCapture := by
  unfold Store.restate
  rw [insertFacts_eq]
  cases r.link <;> cases part <;> rfl

@[simp] theorem restate_fileSnapshots : (s.restate k part r).fileSnapshots = s.fileSnapshots := by
  unfold Store.restate
  rw [insertFacts_eq]
  cases r.link <;> cases part <;> rfl

theorem restate_lines : (s.restate k part r).lines = (s.insertMoves k r.moved).lines := by
  unfold Store.restate
  rw [insertFacts_eq]
  cases r.link <;> cases part <;> rfl

theorem insertLink_link (link : Link) (other : Part) (id : Nat) :
    (s.insertLink k part link).link other id = if other = part ∧ id = k then some link else s.link other id := by
  cases part <;> cases other <;> simp only [Store.insertLink, Store.link, Table.get_insert, Prod.mk.injEq,
    Part.measure.injEq, Part.file.injEq, reduceCtorEq, false_and, if_false]
  · congr 1
    simp [and_comm]
  · congr 1
    simp [and_comm]

theorem restate_link (other : Part) (id : Nat) :
    (s.restate k part r).link other id =
      if other = part ∧ id = k then r.link.or (s.link part k) else s.link other id := by
  unfold Store.restate
  rw [insertFacts_eq]
  cases r.link with
  | none =>
    simp only [Option.none_or]
    split
    next same => rw [same.1, same.2]; cases part <;> rfl
    next => cases other <;> rfl
  | some link =>
    rw [insertLink_link]
    simp only [Option.some_or]
    split
    next => rfl
    next => cases other <;> rfl

theorem insertMoves_get_of_ne {time : Nat} (other : time ≠ k) (moved : List (Nat × Option Int)) :
    (s.insertMoves k moved).lines.get (id, time) = s.lines.get (id, time) := by
  have absent : ∀ entry ∈ moved.map (fun move => ((move.1, k), move.2)), entry.1 ≠ (id, time) := by
    intro entry member same
    obtain ⟨move, _, rfl⟩ := List.mem_map.mp member
    exact other (congrArg Prod.snd same).symm
  have loop := Table.get_foldl_insert_of_not_mem absent s.lines
  rw [List.foldl_map] at loop
  exact loop

theorem insertMoves_get_of_not_mem {time : Nat} {moved : List (Nat × Option Int)} (still : id ∉ moved.map (·.1)) :
    (s.insertMoves k moved).lines.get (id, time) = s.lines.get (id, time) := by
  have absent : ∀ entry ∈ moved.map (fun move => ((move.1, k), move.2)), entry.1 ≠ (id, time) := by
    intro entry member same
    obtain ⟨move, inside, rfl⟩ := List.mem_map.mp member
    exact still (List.mem_map.mpr ⟨move, inside, congrArg Prod.fst same⟩)
  have loop := Table.get_foldl_insert_of_not_mem absent s.lines
  rw [List.foldl_map] at loop
  exact loop

theorem insertMoves_get_of_mem {line : Option Int} {moved : List (Nat × Option Int)} (distinct : (moved.map (·.1)).Nodup)
    (member : (id, line) ∈ moved) : (s.insertMoves k moved).lines.get (id, k) = some line := by
  have keys : ((moved.map fun move => ((move.1, k), move.2)).map (·.1)).Nodup := by
    have keys := distinct.map (f := fun id => (id, k)) (fun a b same => congrArg Prod.fst same)
    simpa [List.map_map, Function.comp_def] using keys
  have loop := Table.get_foldl_insert_of_mem keys (List.mem_map.mpr ⟨(id, line), member, rfl⟩) s.lines
  rw [List.foldl_map] at loop
  exact loop

end Restate
end Oxplow.Proofs.FactChain
