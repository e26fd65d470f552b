import Oxplow.Proofs.PruneReads

/-! What the memo of producers and slice keys answers with is what the database answers,
whichever way the reads' steps fall between the writers' commits and their invalidations. -/

namespace Oxplow.Proofs.MemoReads
open Library Metrics FactChain Restatement WriteParts RecordRuns Rehome

variable {V : Type}

/-! ## What a write adds to the rows -/

/-- A fact's columns, and the capture that stores it. -/
def columns (f : Fact V) : NewFact V × Nat := (f.toNewFact, f.captureId)

theorem numbered_rows (k start : Nat) (facts : List (NewFact V)) : (numbered k start facts).map columns = facts.map (·, k) := by
  induction facts generalizing start with
  | nil => rfl
  | cons f facts ih => simp [numbered, columns, ih]

theorem restate_rows (s : Store V) (k : Nat) (part : Part) (r : Restatement V) :
    (s.restate k part r).facts.map columns = s.facts.map columns ++ r.stored.map (·, k) := by
  rw [restate_facts, List.map_append, numbered_rows, List.map_map]
  congr 2
  funext f
  simp [columns]

section Written
variable [DecidableEq V]

theorem chainRestatement_stored (s : Store V) (k : Nat) (base : Option Nat) (m : Nat) (new : List (NewFact V)) :
    ∀ f ∈ (s.chainRestatement k base m new).stored, f ∈ new := by
  intro f stored
  unfold Store.chainRestatement at stored
  cases linked : base.bind (s.link (.measure m)) with
  | none =>
    simp only [linked] at stored
    split at stored
    · cases stored
    · exact stored
  | some link =>
    obtain ⟨b, rfl, _⟩ := Option.bind_eq_some_iff.mp linked
    simp only [linked] at stored
    split at stored
    · split at stored
      · cases stored
      · exact stored
    · exact (matchAll_news _ _ _).mem_iff.mpr (List.mem_append_right _ stored)

theorem pathRestatement_stored (s : Store V) (k : Nat) (capture : NewMetricCapture) (m : Nat) (path : String)
    (new : List (NewFact V)) : ∀ f ∈ (s.pathRestatement k capture m path new).stored, f ∈ new := by
  intro f stored
  unfold Store.pathRestatement at stored
  cases linked : (s.previousHold k capture (.file m path)).bind (s.link (.file m path)) with
  | none =>
    simp only [linked] at stored
    exact stored
  | some link =>
    obtain ⟨b, based, _⟩ := Option.bind_eq_some_iff.mp linked
    rw [based] at linked
    simp only [based, linked] at stored
    split at stored
    · exact stored
    · exact (matchAll_news _ _ _).mem_iff.mpr (List.mem_append_right _ stored)

/-- What a part's restatement stores was given for it. -/
theorem partRestatement_stored (s : Store V) (K : Capture) (base : Option Nat) (new : Part → List (NewFact V)) (part : Part) :
    ∀ f ∈ (partRestatement s K base new part).stored, f ∈ new part := by
  cases part with
  | measure m => exact chainRestatement_stored s K.id base m _
  | file m path => exact pathRestatement_stored s K.id K.toNewMetricCapture m path _

theorem writeParts_stored (K : Capture) (base : Option Nat) (new : Part → List (NewFact V)) (parts : List Part) (s : Store V) :
    ∃ stored : List (NewFact V),
      (parts.foldl (writePart K base new) s).facts.map columns = s.facts.map columns ++ stored.map (·, K.id) ∧
        ∀ f ∈ stored, ∃ part, f ∈ new part := by
  induction parts generalizing s with
  | nil => exact ⟨[], by simp, by simp⟩
  | cons part parts ih =>
    obtain ⟨stored, rows, given⟩ := ih (writePart K base new s part)
    refine ⟨(partRestatement s K base new part).stored ++ stored, ?_, ?_⟩
    · rw [List.foldl_cons, rows]
      unfold writePart
      rw [restate_rows, List.map_append, List.append_assoc]
    · intro f member
      rcases List.mem_append.mp member with here | later
      · exact ⟨part, partRestatement_stored s K base new part f here⟩
      · exact given f later

/-- A write leaves the columns of every row, and adds rows of the new capture out of those it was given. -/
theorem written_rows (scope : Nat → Option CaptureScope) (s : Store V) (capture : NewMetricCapture) (facts : List (NewFact V)) :
    ∃ stored : List (NewFact V),
      (written scope s capture facts).facts.map columns = s.facts.map columns ++ stored.map (·, s.nextCapture) ∧
        ∀ f ∈ stored, f ∈ facts := by
  have bare : (bareStore scope s capture facts).facts.map columns =
      s.facts.map columns ++ (routedTo scope capture facts none).map (·, s.nextCapture) := by
    unfold bareStore
    rw [insertFacts_eq, List.map_append, numbered_rows]
    rfl
  by_cases done : capture.status = .done
  · unfold written
    rw [write_eq done]
    obtain ⟨stored, rows, given⟩ := writeParts_stored (capture.toCapture s.nextCapture)
      ((bareStore scope s capture facts).previousDone s.nextCapture (capture.toCapture s.nextCapture).toNewMetricCapture)
      (fun part => routedTo scope capture facts (some part))
      (restatedParts scope (bareStore scope s capture facts) (capture.toCapture s.nextCapture) capture facts)
      (bareStore scope s capture facts)
    refine ⟨routedTo scope capture facts none ++ stored, ?_, ?_⟩
    · refine rows.trans ?_
      rw [bare, List.map_append, List.append_assoc]
      rfl
    · intro f member
      rcases List.mem_append.mp member with unrouted | routed
      · exact (List.mem_filter.mp unrouted).1
      · obtain ⟨part, routed⟩ := given f routed
        exact (List.mem_filter.mp routed).1
  · rw [written_unfinished capture facts done]
    exact ⟨_, bare, fun f member => (List.mem_filter.mp member).1⟩

/-- What no row of the new capture can be, some row is after a write just if one was before. -/
theorem exists_written {scope : Nat → Option CaptureScope} {s : Store V} {capture : NewMetricCapture} {facts : List (NewFact V)}
    {P : NewFact V → Nat → Prop} (apart : ∀ f ∈ facts, ¬ P f s.nextCapture) :
    (∃ f ∈ (written scope s capture facts).facts, P f.toNewFact f.captureId) ↔ ∃ f ∈ s.facts, P f.toNewFact f.captureId := by
  obtain ⟨stored, rows, given⟩ := written_rows scope s capture facts
  have exists_rows : ∀ rows : List (Fact V), (∃ f ∈ rows, P f.toNewFact f.captureId) ↔
      ∃ row ∈ rows.map columns, P row.1 row.2 := by
    simp [columns]
  rw [exists_rows, exists_rows, rows]
  constructor
  · rintro ⟨row, member, holds⟩
    rcases List.mem_append.mp member with old | new
    · exact ⟨row, old, holds⟩
    · obtain ⟨f, inStored, rfl⟩ := List.mem_map.mp new
      exact absurd holds (apart f (given f inStored))
  · rintro ⟨row, member, holds⟩
    exact ⟨row, List.mem_append_left _ member, holds⟩

end Written

/-! ## The queries -/

variable {s : Store V} {m : Nat}

theorem mem_producersForMeasure {name : String} :
    name ∈ s.producersForMeasure m ↔
    ∃ c ∈ s.captures, (∃ f ∈ s.facts, f.captureId = c.id ∧ f.measureId = m) ∧ c.producer = name := by
  simp [Store.producersForMeasure, and_assoc]

variable {since through : Nat}

theorem mem_sliceKeys {key : FactSliceKey} :
    key ∈ s.sliceKeys m since through ↔
    ∃ f ∈ s.facts, (f.measureId = m ∧ since < f.captureId ∧ f.captureId ≤ through) ∧ s.sliceKey f = some key := by
  simp [Store.sliceKeys, and_assoc]

/-- Two queries give the same rows in some order if they give the same rows. -/
theorem producers_perm {s' : Store V} {m' : Nat}
    (same : ∀ name, name ∈ s.producersForMeasure m ↔ name ∈ s'.producersForMeasure m') :
    (s.producersForMeasure m).Perm (s'.producersForMeasure m') :=
  (List.perm_ext_iff_of_nodup (List.nodup_dedup _) (List.nodup_dedup _)).mpr same

theorem sliceKeys_perm {s' : Store V} {since' through' : Nat}
    (same : ∀ key, key ∈ s.sliceKeys m since through ↔ key ∈ s'.sliceKeys m since' through') :
    (s.sliceKeys m since through).Perm (s'.sliceKeys m since' through') :=
  (List.perm_ext_iff_of_nodup (List.nodup_dedup _) (List.nodup_dedup _)).mpr same

theorem le_through {f : Fact V} (member : f ∈ s.facts) : f.captureId ≤ s.through f.measureId := by
  have listed : f.captureId ∈ (s.facts.filter (·.measureId == f.measureId)).map (·.captureId) :=
    List.mem_map.mpr ⟨f, List.mem_filter.mpr ⟨member, by simp⟩, rfl⟩
  unfold Store.through
  generalize (s.facts.filter (·.measureId == f.measureId)).map (·.captureId) = ids at listed
  induction ids with
  | nil => cases listed
  | cons id ids ih =>
    rcases List.mem_cons.mp listed with rfl | later
    · exact Nat.le_max_left _ _
    · exact Nat.le_trans (ih later) (Nat.le_max_right _ _)

theorem through_lt {scope : Nat → Option CaptureScope} (valid : Valid scope s) (started : 0 < s.nextCapture) (m : Nat) :
    s.through m < s.nextCapture := by
  unfold Store.through
  have small : ∀ id ∈ (s.facts.filter (·.measureId == m)).map (·.captureId), id < s.nextCapture := by
    intro id member
    obtain ⟨f, inFacts, rfl⟩ := List.mem_map.mp member
    obtain ⟨c, captured, same⟩ := valid.factCaptured f (List.mem_filter.mp inFacts).1
    exact same ▸ valid.captureOld c captured
  generalize (s.facts.filter (·.measureId == m)).map (·.captureId) = ids at small
  induction ids with
  | nil => exact started
  | cons id ids ih =>
    apply Nat.max_lt.mpr
    exact ⟨small id List.mem_cons_self, ih fun id member => small id (List.mem_cons_of_mem _ member)⟩

/-- Beyond the last capture of the measure there is nothing more to cover. -/
theorem sliceKeys_beyond {covers : Nat} (beyond : s.through m ≤ covers) :
    (s.sliceKeys m 0 covers).Perm (s.sliceKeys m 0 (s.through m)) := by
  apply sliceKeys_perm
  intro key
  simp only [mem_sliceKeys]
  constructor
  · rintro ⟨f, member, ⟨rfl, later, _⟩, found⟩
    exact ⟨f, member, ⟨rfl, later, le_through member⟩, found⟩
  · rintro ⟨f, member, ⟨rfl, later, upTo⟩, found⟩
    exact ⟨f, member, ⟨rfl, later, Nat.le_trans upTo beyond⟩, found⟩

section Written
variable [DecidableEq V] {scope : Nat → Option CaptureScope} {s : Store V} (valid : Valid scope s) (capture : NewMetricCapture)
  (facts : List (NewFact V))
include valid

/-- A write without facts of a measure brings it no producer. -/
theorem written_producersForMeasure (none : ∀ f ∈ facts, f.measureId ≠ m) :
    ((written scope s capture facts).producersForMeasure m).Perm (s.producersForMeasure m) := by
  apply producers_perm
  intro name
  have stored : ∀ id, (∃ f ∈ (written scope s capture facts).facts, f.captureId = id ∧ f.measureId = m) ↔
      ∃ f ∈ s.facts, f.captureId = id ∧ f.measureId = m := fun id =>
    @exists_written _ _ scope s capture facts (fun f captureId => captureId = id ∧ f.measureId = m)
      fun f given same => none f given same.2
  simp only [mem_producersForMeasure, (written_spec valid capture facts).2.2, stored]
  constructor
  · rintro ⟨c, member, ⟨f, inFacts, captured, measure⟩, rfl⟩
    rcases List.mem_append.mp member with old | new
    · exact ⟨c, old, ⟨f, inFacts, captured, measure⟩, rfl⟩
    · obtain ⟨d, before, same⟩ := valid.factCaptured f inFacts
      have early := valid.captureOld d before
      rw [same, captured, List.mem_singleton.mp new, toCapture_id] at early
      exact absurd early (Nat.lt_irrefl _)
  · rintro ⟨c, member, stored, rfl⟩
    exact ⟨c, List.mem_append_left _ member, stored, rfl⟩

/-- A write adds no slice to the captures before it. -/
theorem written_sliceKeys (before : through < s.nextCapture) :
    ((written scope s capture facts).sliceKeys m since through).Perm (s.sliceKeys m since through) := by
  apply sliceKeys_perm
  intro key
  have old : ∀ f : Fact V, f.captureId ≤ through → (written scope s capture facts).sliceKey f = s.sliceKey f := by
    intro f early
    unfold Store.sliceKey
    rw [(written_spec valid capture facts).2.1.capture?_of_ne]
    rw [toCapture_id]
    omega
  have stored := @exists_written _ _ scope s capture facts
    (fun f captureId => (f.measureId = m ∧ since < captureId ∧ captureId ≤ through) ∧
      (s.capture? captureId).map (fun c => (⟨c.producer, f.rule, f.severity, f.dimsJson⟩ : FactSliceKey)) = some key)
    fun f _ row => absurd row.1.2.2 (Nat.not_le.mpr before)
  rw [mem_sliceKeys, mem_sliceKeys]
  refine Iff.trans ?_ stored
  constructor
  · rintro ⟨f, member, range, found⟩
    exact ⟨f, member, range, (old f range.2.2).symm.trans found⟩
  · rintro ⟨f, member, range, found⟩
    exact ⟨f, member, range, (old f range.2.2).trans found⟩

end Written

/-- A prune of captures that are gone already changes no row. -/
theorem pruned_nothing {scope : Nat → Option CaptureScope} (valid : Valid scope s) {doomed : List Nat}
    (gone : ∀ c ∈ s.captures, c.id ∉ doomed) :
    (s.pruneDoomed doomed).captures = s.captures ∧ (s.pruneDoomed doomed).facts = s.facts := by
  have stays : ∀ f ∈ s.facts, f.captureId ∉ doomed := by
    intro f member
    obtain ⟨c, captured, same⟩ := valid.factCaptured f member
    exact same ▸ gone c captured
  constructor
  · rw [pruned_captures, List.filter_eq_self]
    intro c member
    simp [gone c member]
  · have kept : s.facts.map (rehomed s doomed) = s.facts := by
      conv_rhs => rw [← List.map_id s.facts]
      apply List.map_congr_left
      intro f member
      apply rehomed_of_none
      by_contra moved
      obtain ⟨home, found⟩ := Option.ne_none_iff_exists'.mp moved
      obtain ⟨_, _, _, _, at_, _⟩ := home_eq_some valid doomed found
      exact stays f member at_.gone
    rw [pruned_facts, kept, List.filter_eq_self]
    intro f member
    simp [stays f member]

end Oxplow.Proofs.MemoReads
