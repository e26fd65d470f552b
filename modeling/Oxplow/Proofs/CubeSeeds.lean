import Oxplow.Library.Replay
import Oxplow.Metrics.CubeSeed
import Oxplow.Proofs.PruneReads

/-! The seed of a per-subject measure is its replay. A per-subject capture restates the keys of
its own facts, so what stands of it is what no later capture of its producer has a fact
for. -/

namespace Oxplow.Proofs.CubeSeeds
open Library Metrics FactChain Restatement StoreInvariant RecordRuns PruneReads

variable {V : Type} {scope : Nat → Option CaptureScope}

/-! ## The facts of a per-subject measure -/

/-- The key of a row: its subject, or else its path, or else the scalar's. -/
def rowKey (row : FactRow V) : String := (row.subject.or row.path).getD scalarSubject

section
variable {s : Store V} (valid : Valid scope s) {m : Nat} (perSubject : scope m = some .perSubject)
include valid perSubject

theorem measure_unlinked (id : Nat) : s.link (.measure m) id = none := by
  apply Option.eq_none_iff_forall_ne_some.mpr
  intro link linked
  have complete : scope m = some .complete := valid.linkScoped _ _ _ linked
  rw [perSubject] at complete
  cases complete

theorem file_unlinked (path : String) (id : Nat) : s.link (.file m path) id = none := by
  apply Option.eq_none_iff_forall_ne_some.mpr
  intro link linked
  have perPath : scope m = some .perPath := valid.linkScoped _ _ _ linked
  rw [perSubject] at perPath
  cases perPath

/-- A capture holds no facts but the ones it stored. -/
theorem heldFacts_own (holders : Holders) : s.heldFacts m holders = (s.ownRows m holders).insertionSort rowBefore := by
  have chained : s.chainedRows m holders = [] := by
    apply List.flatMap_eq_nil_iff.mpr
    intro c _
    rw [Store.held, measure_unlinked valid perSubject]
    rfl
  have pathed : s.pathedRows m holders = [] := by
    apply List.flatMap_eq_nil_iff.mpr
    intro c _
    rw [List.map_eq_nil_iff, List.filter_eq_nil_iff]
    intro f _ held
    rw [Store.heldByPath] at held
    split at held
    · rw [file_unlinked valid perSubject] at held
      cases held
    · cases held
  rw [Store.heldFacts, chained, pathed, List.append_nil, List.append_nil]

theorem ownRows_joined (captureIds : List Nat) : s.joinedFacts m captureIds scalarSubject =
    (s.ownRows m (.ids captureIds)).map fun row => (row.capture, rowKey row, row.id) := by
  rw [Store.joinedFacts, Store.ownRows, List.map_filterMap]
  apply List.filterMap_congr
  intro f _
  cases found : s.capture? f.captureId with
  | none => rfl
  | some c =>
    by_cases wanted : (f.measureId == m && captureIds.contains c.id) = true
    · have measure : f.measureId = m := beq_iff_eq.mp (Bool.and_eq_true_iff.mp wanted).1
      have free : s.pathHolding c f = false := by
        rw [Store.pathHolding, measure]
        split
        · rw [file_unlinked valid perSubject]
          rfl
        · rfl
      simp only [Option.bind_eq_bind, Option.bind_some, Holders.wants, measure_unlinked valid perSubject, free, wanted]
      rfl
    · simp only [Option.bind_eq_bind, Option.bind_some, Holders.wants, wanted, Bool.false_and, Bool.false_eq_true, if_false, Option.map_none]

end

variable {s : Store V}

theorem mem_ownRows {m : Nat} {holders : Holders} {row : FactRow V} (member : row ∈ s.ownRows m holders) :
    row.capture ∈ s.captures ∧ holders.wants row.capture = true := by
  obtain ⟨f, _, made⟩ := List.mem_filterMap.mp member
  cases found : s.capture? f.captureId with
  | none => simp [found] at made
  | some c =>
    simp only [found, Option.bind_eq_bind, Option.bind_some, Option.ite_none_right_eq_some, Option.some.injEq, Bool.and_eq_true] at made
    obtain ⟨⟨⟨⟨_, wanted⟩, _⟩, _⟩, rfl⟩ := made
    exact ⟨(capture?_eq_some found).1, wanted⟩

theorem ownRows_ids (valid : Valid scope s) (m : Nat) (holders : Holders) : ((s.ownRows m holders).map (·.id)).Nodup := by
  have made : ∀ (facts : List (Fact V)) (read : Fact V → Option (FactRow V)), (∀ f row, read f = some row → row.id = f.id) →
      ((facts.filterMap read).map (·.id)).Sublist (facts.map (·.id)) := by
    intro facts read same
    induction facts with
    | nil => exact .slnil
    | cons f facts ih =>
      rw [List.map_cons]
      cases found : read f with
      | none =>
        rw [List.filterMap_cons_none found]
        exact ih.cons _
      | some row =>
        rw [List.filterMap_cons_some found, List.map_cons, same f row found]
        exact ih.cons_cons _
  refine List.Sublist.nodup (made s.facts _ ?_) valid.factIds
  intro f row found
  cases captured : s.capture? f.captureId with
  | none => simp [captured] at found
  | some c =>
    simp only [captured, Option.bind_eq_bind, Option.bind_some, Option.ite_none_right_eq_some, Option.some.injEq] at found
    rw [← found.2]
    rfl

/-! ## The replay -/

/-- An entry is restated by a capture of its producer that has a fact with its key. -/
def restates (facts : List (MappedRow V)) (e : Capture) (live : LiveFact V) : Bool :=
  live.producer == e.producer && (restatedKeys .perSubject (facts.filter (·.capture.id == e.id)) []).contains live.key

def ownEntries (facts : List (MappedRow V)) (e : Capture) : List (LiveFact V) :=
  (facts.filter (·.capture.id == e.id)).map fun f => ⟨e.producer, rowKey f.toFactRow, f⟩

theorem replayCapture_eq (facts : List (MappedRow V)) (scanned : Nat → List String) :
    replayCapture .perSubject facts scanned = restateRows (restates facts) (ownEntries facts) := by
  funext tree e
  rfl

theorem mem_restatedKeys {own : List (MappedRow V)} {scanned : List String} {key : String} :
    key ∈ restatedKeys .perSubject own scanned ↔ ∃ f ∈ own, rowKey f.toFactRow = key := by
  have keyed : ∀ f : MappedRow V, rowKey f.toFactRow = (foldKey .perSubject f).getD scalarSubject := fun _ => rfl
  have listed : key ∈ restatedKeys .perSubject own scanned ↔
      (∃ f ∈ own, foldKey .perSubject f = some key) ∨ (∃ f ∈ own, foldKey .perSubject f = none) ∧ key = scalarSubject := by
    rw [restatedKeys]
    split
    · rename_i scalar
      obtain ⟨f, member, none⟩ := List.any_eq_true.mp scalar
      rw [List.mem_append, List.mem_filterMap, List.mem_singleton]
      exact or_congr_right (and_iff_right ⟨f, member, Option.isNone_iff_eq_none.mp none⟩).symm
    · rename_i noScalar
      rw [List.mem_filterMap]
      refine (or_iff_left ?_).symm
      rintro ⟨⟨f, member, none⟩, _⟩
      exact noScalar (List.any_eq_true.mpr ⟨f, member, Option.isNone_iff_eq_none.mpr none⟩)
  rw [listed]
  constructor
  · rintro (⟨f, member, same⟩ | ⟨⟨f, member, none⟩, same⟩)
    · exact ⟨f, member, by rw [keyed, same, Option.getD_some]⟩
    · exact ⟨f, member, by rw [keyed, none, Option.getD_none, same]⟩
  · rintro ⟨f, member, same⟩
    rw [keyed] at same
    cases key' : foldKey .perSubject f with
    | none =>
      rw [key', Option.getD_none] at same
      exact .inr ⟨⟨f, member, key'⟩, same.symm⟩
    | some key'' =>
      rw [key', Option.getD_some] at same
      exact .inl ⟨f, member, by rw [key', same]⟩

/-! ## The seed -/

theorem laterThan_asymm (a b : Capture) (later : Store.laterThan b a = true) : ¬Store.laterThan a b = true := by
  simp only [Store.laterThan, Bool.or_eq_true, Bool.and_eq_true, decide_eq_true_eq, beq_iff_eq] at later ⊢
  omega

section
variable {s : Store V} (valid : Valid scope s) {m : Nat} (perSubject : scope m = some .perSubject)
  {earlier : List Capture} (recorded : ∀ c ∈ earlier, c ∈ s.captures)
  (ordered : earlier.Pairwise fun a b => Store.laterThan b a = true)

/-- A row as the live set has it. -/
def seedRow (row : FactRow V) : SeedRow := (row.capture.producer, rowKey row, row.id)

/-- No capture of the rows that is later has a row with its producer and key. -/
def latest (rows : List (FactRow V)) (row : FactRow V) : Bool :=
  rows.all fun other => !(other.capture.producer == row.capture.producer && rowKey other == rowKey row &&
    Store.laterThan other.capture row.capture)

include valid perSubject in
/-- The query keeps the rows of the latest capture of their producer and key. -/
theorem liveSeed_perm (captureIds : List Nat) : (s.liveSeedPerSubject m captureIds scalarSubject).Perm
    (((s.ownRows m (.ids captureIds)).filter (latest (s.ownRows m (.ids captureIds)))).map seedRow) := by
  refine (List.perm_insertionSort seedBefore _).trans (List.Perm.of_eq ?_)
  rw [ownRows_joined valid perSubject, List.filter_map, List.map_map]
  congr 1
  apply List.filter_congr
  intro row _
  exact List.all_map

include valid recorded ordered in
theorem earlier_ids : (earlier.map (·.id)).Nodup := by
  apply List.pairwise_map.mpr
  refine ordered.imp_of_mem ?_
  intro a b inA inB later sameId
  have same : a = b := List.inj_on_of_nodup_map valid.captureIds (recorded a inA) (recorded b inB) sameId
  rw [same] at later
  exact laterThan_asymm b b later later

theorem fact_ids (valid : Valid scope s) (items : Nat → Option String) (holders : Holders) :
    ((((s.ownRows m holders).insertionSort rowBefore).map (·.mapped items)).map (·.id)).Nodup := by
  rw [List.map_map]
  exact ((List.perm_insertionSort rowBefore (s.ownRows m holders)).map (·.id)).nodup_iff.mpr (ownRows_ids valid m holders)

include valid perSubject recorded ordered

/-- Seeding a per-subject measure gives what its replay leaves live. -/
theorem liveSeed_replay (items : Nat → Option String) (scanned : Nat → List String) :
    (s.liveSeedPerSubject m (earlier.map (·.id)) scalarSubject).Perm (s.replaySeed items .perSubject m scanned earlier) := by
  let holders := Holders.ids (earlier.map (·.id))
  let facts := ((s.ownRows m holders).insertionSort rowBefore).map (·.mapped items)
  have replayed : s.replaySeed items .perSubject m scanned earlier =
      (standing (restates facts) (ownEntries facts) earlier).map fun live => (live.producer, live.key, live.fact.id) := by
    rw [Store.replaySeed, heldFacts_own valid perSubject, replayCapture_eq, foldl_restateRows]
    rfl
  have mem_facts : ∀ f : MappedRow V, f ∈ facts ↔ ∃ row ∈ s.ownRows m holders, row.mapped items = f := by
    intro f
    rw [List.mem_map]
    exact exists_congr fun row => and_congr_left fun _ => List.mem_insertionSort rowBefore
  have owner : ∀ row ∈ s.ownRows m holders, row.capture ∈ earlier := by
    intro row member
    obtain ⟨captured, wanted⟩ := mem_ownRows member
    obtain ⟨e, inside, sameId⟩ := List.mem_map.mp (List.contains_iff_mem.mp wanted)
    have same : e = row.capture := List.inj_on_of_nodup_map valid.captureIds (recorded e inside) captured sameId
    rwa [← same]
  have whose : ∀ row ∈ s.ownRows m holders, ∀ e ∈ earlier, row.capture.id = e.id → row.capture = e := fun row member e inside sameId =>
    List.inj_on_of_nodup_map valid.captureIds (mem_ownRows member).1 (recorded e inside) sameId
  have restated : ∀ d ∈ earlier, ∀ live : LiveFact V, restates facts d live = true ↔
      live.producer = d.producer ∧ ∃ row ∈ s.ownRows m holders, row.capture = d ∧ rowKey row = live.key := by
    intro d inside live
    rw [restates, Bool.and_eq_true, beq_iff_eq, List.contains_iff_mem, mem_restatedKeys]
    apply and_congr_right
    intro _
    constructor
    · rintro ⟨f, mine, key⟩
      obtain ⟨member, sameId⟩ := List.mem_filter.mp mine
      obtain ⟨row, listed, rfl⟩ := (mem_facts f).mp member
      exact ⟨row, listed, whose row listed d inside (beq_iff_eq.mp sameId), key⟩
    · rintro ⟨row, listed, rfl, key⟩
      exact ⟨row.mapped items, List.mem_filter.mpr ⟨(mem_facts _).mpr ⟨row, listed, rfl⟩, beq_self_eq_true _⟩, key⟩
  have whole : ((earlier.flatMap (ownEntries facts)).map (·.fact)).Perm facts := by
    have covered : ∀ f ∈ facts, f.capture.id ∈ earlier.map (·.id) := by
      intro f member
      obtain ⟨row, listed, rfl⟩ := (mem_facts f).mp member
      exact List.mem_map_of_mem (owner row listed)
    have emptied := flatMap_filter_perm_of_cover (fun f : MappedRow V => f.capture.id) (earlier_ids valid recorded ordered) covered
    rw [List.flatMap_map] at emptied
    refine (List.Perm.of_eq ?_).trans emptied
    rw [List.map_flatMap]
    apply List.flatMap_congr
    intro e _
    rw [ownEntries, List.map_map]
    exact List.map_id _
  refine (liveSeed_perm valid perSubject _).trans ?_
  rw [replayed]
  refine (List.perm_ext_iff_of_nodup ?_ ?_).mpr ?_
  · refine List.Nodup.of_map (fun row : SeedRow => row.2.2) ?_
    rw [List.map_map]
    exact (List.filter_sublist.map _).nodup (ownRows_ids valid m holders)
  · refine List.Nodup.of_map (fun row : SeedRow => row.2.2) ?_
    rw [List.map_map]
    have once : ((earlier.flatMap (ownEntries facts)).map fun live => live.fact.id).Nodup := by
      have ids := (whole.map (·.id)).nodup_iff.mpr (fact_ids valid items holders)
      rwa [List.map_map] at ids
    exact ((standing_sublist earlier).map _).nodup once
  · rintro ⟨producer, key, id⟩
    rw [List.mem_map, List.mem_map]
    constructor
    · rintro ⟨row, stays, same⟩
      obtain ⟨listed, newest⟩ := List.mem_filter.mp stays
      refine ⟨⟨row.capture.producer, rowKey row, row.mapped items⟩, ?_, same⟩
      apply (mem_standing_iff laterThan_asymm ordered).mpr
      refine ⟨row.capture, owner row listed, ?_, ?_⟩
      · apply List.mem_map.mpr
        exact ⟨row.mapped items, List.mem_filter.mpr ⟨(mem_facts _).mpr ⟨row, listed, rfl⟩, beq_self_eq_true _⟩, rfl⟩
      · intro d inside later
        rw [← Bool.not_eq_true, restated d inside]
        rintro ⟨sameProducer, other, listed', rfl, sameKey⟩
        have none := List.all_eq_true.mp newest other listed'
        rw [← sameProducer, sameKey, later, beq_self_eq_true, beq_self_eq_true] at none
        cases none
    · rintro ⟨live, stands, same⟩
      obtain ⟨e, inside, mine, kept⟩ := (mem_standing_iff laterThan_asymm ordered).mp stands
      obtain ⟨f, own, rfl⟩ := List.mem_map.mp mine
      obtain ⟨member, sameId⟩ := List.mem_filter.mp own
      obtain ⟨row, listed, rfl⟩ := (mem_facts f).mp member
      have captured := whose row listed e inside (beq_iff_eq.mp sameId)
      subst captured
      refine ⟨row, List.mem_filter.mpr ⟨listed, ?_⟩, same⟩
      apply List.all_eq_true.mpr
      intro other listed'
      rw [Bool.not_eq_true', ← Bool.not_eq_true]
      intro newer
      simp only [Bool.and_eq_true, beq_iff_eq] at newer
      obtain ⟨⟨sameProducer, sameKey⟩, later⟩ := newer
      have free := kept other.capture (owner other listed') later
      rw [← Bool.not_eq_true, restated other.capture (owner other listed')] at free
      exact free ⟨sameProducer.symm, other, listed', rfl, sameKey⟩

end

/-! ## Any history -/

section
variable [DecidableEq V] (scope) (refused : Store V → NewMetricCapture → List (NewFact V) → Bool)

/-- A store that writes, prunes and snapshots have led to. -/
inductive Reached : Store V → Prop where
  | empty : Reached .empty
  | record {s : Store V} (reached : Reached s) (capture : NewMetricCapture) (facts : List (NewFact V)) :
      Reached (s.record scope refused capture facts)
  | prune {s : Store V} (reached : Reached s) (doomed : List Nat) : Reached (s.pruneDoomed doomed)
  | files {s : Store V} (reached : Reached s) (files : List FileSnapshot) : Reached { s with fileSnapshots := files }

variable {scope refused}

theorem Reached.valid (reached : Reached scope refused s) : Valid scope s := by
  induction reached with
  | empty => exact empty_valid
  | record _ capture facts ih => exact recordAll_valid ih [(capture, facts)]
  | prune _ doomed ih => exact pruned_valid ih
  | files _ files ih => exact withFiles_valid ih files

/-- Of any list of a store's captures, in order, the query selects the facts that their replay
leaves live. -/
theorem seed_replay {s : Store V} (reached : Reached scope refused s) {m : Nat} (perSubject : scope m = some .perSubject)
    {earlier : List Capture} (recorded : ∀ c ∈ earlier, c ∈ s.captures)
    (ordered : earlier.Pairwise fun a b => Store.laterThan b a = true) (items : Nat → Option String) (scanned : Nat → List String) :
    (s.liveSeedPerSubject m (earlier.map (·.id)) scalarSubject).Perm (s.replaySeed items .perSubject m scanned earlier) :=
  liveSeed_replay reached.valid perSubject recorded ordered items scanned

/-- The seed of a new branch is the replay of the captures before its first that it sees. -/
theorem seedRows_replay {s : Store V} (reached : Reached scope refused s) {m : Nat} {covered : CaptureScope} (measured : scope m = some covered)
    {caps : List Capture} (recorded : ∀ c ∈ caps, c ∈ s.captures) (ordered : caps.Pairwise fun a b => Store.laterThan b a = true)
    (first : Capture) (visibility : Visibility) (items : Nat → Option String) (scanned : Nat → List String) :
    (s.seedRows items m covered caps first visibility scanned).Perm (s.replaySeed items covered m scanned
      ((caps.takeWhile fun e => Store.laterThan first e).filter fun e => visibility.sees e first)) := by
  have part := (List.filter_sublist (p := fun e => visibility.sees e first)).trans
    (List.takeWhile_sublist (fun e => Store.laterThan first e) (l := caps))
  rw [Store.seedRows]
  split
  · rename_i empty
    rw [List.isEmpty_iff.mp empty]
    exact .nil
  · split
    · rename_i perSubject
      subst perSubject
      exact liveSeed_replay reached.valid measured (fun c member => recorded c (part.subset member)) (ordered.sublist part) items scanned
    · exact .refl _

end

private def testScope (m : Nat) : Option CaptureScope := if m = 2 then some .perSubject else none

private def testCase (subject : String) (value : Nat) : NewFact Nat := { plainFact 2 value none none with subject := some subject }

/-- One run of both cases with a scalar and a located fact, and one of `A` alone. -/
private def tested : Store Nat := Store.record testScope nothingRefused (Store.record testScope nothingRefused .empty
  (plainCapture .asserted 10) [testCase "A" 1, testCase "B" 1, plainFact 2 7 none none, plainFact 2 3 (some "src/p.rs") none])
  (plainCapture .delta 20) [testCase "A" 2]

theorem seed_replay_rerun : (tested.liveSeedPerSubject 2 (tested.captures.map (·.id)) scalarSubject).Perm
    (tested.replaySeed (fun _ => none) .perSubject 2 (fun _ => []) tested.captures) :=
  seed_replay (.record (.record .empty _ _) _ _) (by decide) (fun _ member => member) (by decide) _ _

private def testFirst : Capture := { plainCapture .delta 30 with id := 3 }

private def testSight : Visibility := ⟨fun _ => none, fun _ => none, fun _ _ => none⟩

theorem seedRows_replay_rerun : (tested.seedRows (fun _ => none) 2 .perSubject tested.captures testFirst testSight fun _ => []).Perm
    (tested.replaySeed (fun _ => none) .perSubject 2 (fun _ => [])
      ((tested.captures.takeWhile fun e => Store.laterThan testFirst e).filter fun e => testSight.sees e testFirst)) :=
  seedRows_replay (.record (.record .empty _ _) _ _) (by decide) (fun _ member => member) (by decide) testFirst testSight _ _

end Oxplow.Proofs.CubeSeeds
