import Oxplow.Proofs.Rehome
import Oxplow.Proofs.RecordRuns

/-! What deleting captures does to reads: every survivor reads what it read, through
whatever arm, just where each fact it holds has a row of its own capture and no
stored line shows through. -/

namespace Oxplow.Proofs.PruneReads
open Library Metrics FactChain Restatement StoreInvariant RecordRuns HeldFacts Rehome

variable {V : Type} {scope : Nat → Option CaptureScope}

section Reads
variable {s : Store V} (valid : Valid scope s) {doomed : List Nat}
include valid

theorem pruned_unique : ((s.pruneDoomed doomed).captures.map (·.id)).Nodup :=
  valid.captureIds.sublist (List.filter_sublist.map _)

omit valid in
theorem survivor_mem {c : Capture} : c ∈ (s.pruneDoomed doomed).captures ↔ c ∈ s.captures ∧ c.id ∉ doomed := by
  rw [pruned_captures, List.mem_filter]
  simp

theorem pruned_capture? {id : Nat} (stays : id ∉ doomed) : (s.pruneDoomed doomed).capture? id = s.capture? id := by
  cases found : s.capture? id with
  | some c =>
    obtain ⟨member, rfl⟩ := capture?_eq_some found
    exact capture?_of_mem (pruned_unique valid) (survivor_mem.mpr ⟨member, stays⟩)
  | none =>
    apply List.find?_eq_none.mpr
    intro c member same
    have absent := List.find?_eq_none.mp found c (survivor_mem.mp member).1
    exact absent same

omit valid in
theorem lost_gone {f : Fact V} (valid : Valid scope s) (lost : (rehomed s doomed f).captureId ∈ doomed) :
    f.captureId ∈ doomed := by
  cases found : s.home doomed f with
  | none => rwa [rehomed_of_none s doomed found] at lost
  | some home =>
    obtain ⟨_, _, _, _, at_, _⟩ := home_eq_some valid doomed found
    exact at_.gone

/-- A chain's facts never move. -/
theorem rehomed_line {m : Nat} (complete : scope m = some .complete) {f : Fact V} (inside : f ∈ s.facts)
    (measure : f.measureId = m) : (rehomed s doomed f).line = f.line := by
  cases found : s.home doomed f with
  | none => rw [rehomed_of_none s doomed found]
  | some home =>
    have still : newest (fun time => s.lines.get (f.id, time)) home = none := by
      apply newest_eq_none
      intro time _
      cases moved : s.lines.get (f.id, time) with
      | none => rfl
      | some move =>
        have perPath := valid.moveScoped f inside time move moved
        rw [measure, complete] at perPath
        cases perPath
    rw [rehomed_of_some s doomed found]
    simp only [Store.lineAtHold, still]

theorem pruned_heldLine (kept : LinesKept s doomed) {c : Capture} (member : c ∈ s.captures) (survives : c.id ∉ doomed)
    {part : Part} {link : Link} (linked : s.link part c.id = some link) {f : Fact V} (inside : f ∈ s.facts)
    (stays : (rehomed s doomed f).captureId ∉ doomed) (holds : s.holds c part link f = true) :
    (s.pruneDoomed doomed).heldLine c.id part (rehomed s doomed f) = s.heldLine c.id part f := by
  cases part with
  | measure m =>
    have complete : scope m = some .complete := valid.linkScoped _ _ _ linked
    have measure : f.measureId = m := by simpa [Part.covers] using (holds_iff.mp holds).covered
    exact rehomed_line valid complete inside measure
  | file m path =>
    refine (pruned_lineAtHold valid inside stays fun home found => home_le valid member survives linked holds found).mpr ?_
    intro home found lineless
    obtain ⟨measure, onPath⟩ : f.measureId = m ∧ f.path = some path := by
      simpa [Part.covers] using (holds_iff.mp holds).covered
    subst measure
    exact kept f inside home found c member survives path onPath link linked holds lineless

omit valid in
theorem heldByPath_iff {m : Nat} {c : Capture} {f : Fact V} : s.heldByPath m c f = true ↔
    ∃ path link, f.path = some path ∧ s.link (.file m path) c.id = some link ∧ s.holds c (.file m path) link f = true := by
  unfold Store.heldByPath
  cases f.path with
  | none => simp
  | some path =>
    cases linked : s.link (.file m path) c.id with
    | none => simp [linked]
    | some link => simp [linked]

theorem pruned_heldByPath {c : Capture} (member : c ∈ s.captures) (survives : c.id ∉ doomed) {m : Nat} {f : Fact V}
    (stays : (rehomed s doomed f).captureId ∉ doomed) :
    (s.pruneDoomed doomed).heldByPath m c (rehomed s doomed f) = s.heldByPath m c f := by
  rw [Bool.eq_iff_iff, heldByPath_iff, heldByPath_iff]
  refine exists_congr fun path => exists_congr fun link => ?_
  rw [rehomed_path, pruned_link, if_neg survives]
  refine and_congr_right fun _ => and_congr_right fun linked => ?_
  rw [pruned_holds valid member survives linked stays]

/-! ## The store stays valid -/

omit valid in
theorem pruned_lines_of_some {key : Nat × Nat} {move : Option Int} (found : (s.pruneDoomed doomed).lines.get key = some move) :
    s.lines.get key = some move := by
  have delete : (s.pruneDoomed doomed).lines.get key =
      if (!(s.pruneDoomed doomed).facts.any (·.id == key.1)) = true then none else (s.rehome doomed).lines.get key :=
    Table.get_delete (s.rehome doomed).lines (fun row => !(s.pruneDoomed doomed).facts.any (·.id == row.1)) key
  have drop : (s.rehome doomed).lines.get key =
      if (s.facts.any fun g => g.id == key.1 && (s.home doomed g).any (key.2 ≤ ·)) = true then none else s.lines.get key :=
    Table.get_delete s.lines (fun row => s.facts.any fun g => g.id == row.1 && (s.home doomed g).any (row.2 ≤ ·)) key
  rw [delete] at found
  split at found
  next => cases found
  next =>
    rw [drop] at found
    split at found
    next => cases found
    next => exact found

omit valid in
theorem pruned_link_some {part : Part} {id : Nat} {link : Link} (linked : (s.pruneDoomed doomed).link part id = some link) :
    id ∉ doomed ∧ s.link part id = some link := by
  rw [pruned_link] at linked
  split at linked
  next => cases linked
  next stays => exact ⟨stays, linked⟩

omit valid in
theorem pruned_fact {g : Fact V} (inside : g ∈ (s.pruneDoomed doomed).facts) :
    ∃ f ∈ s.facts, g = rehomed s doomed f ∧ (rehomed s doomed f).captureId ∉ doomed := by
  rw [pruned_facts] at inside
  obtain ⟨inside, stays⟩ := List.mem_filter.mp inside
  obtain ⟨f, member, rfl⟩ := List.mem_map.mp inside
  exact ⟨f, member, rfl, by simpa using stays⟩

theorem pruned_valid : Valid scope (s.pruneDoomed doomed) where
  captureIds := pruned_unique valid
  captureOld := fun c member => valid.captureOld c (survivor_mem.mp member).1
  factIds := by
    rw [pruned_facts]
    have ids : ((s.facts.map (rehomed s doomed)).map (·.id)).Nodup := by
      simpa [List.map_map, Function.comp_def] using valid.factIds
    exact ids.sublist (List.filter_sublist.map _)
  factOld := by
    intro g inside
    obtain ⟨f, member, rfl, _⟩ := pruned_fact inside
    rw [rehomed_id]
    exact valid.factOld f member
  factCaptured := by
    intro g inside
    obtain ⟨f, member, rfl, stays⟩ := pruned_fact inside
    cases found : s.home doomed f with
    | none =>
      rw [rehomed_of_none s doomed found] at stays ⊢
      obtain ⟨c, captured, id⟩ := valid.factCaptured f member
      exact ⟨c, survivor_mem.mpr ⟨captured, id ▸ stays⟩, id⟩
    | some home =>
      obtain ⟨_, h, _, rfl, at_, _⟩ := home_eq_some valid doomed found
      exact ⟨h, survivor_mem.mpr ⟨at_.member, at_.stays⟩, by rw [rehomed_of_some s doomed found]⟩
  linkCaptured := by
    intro part id link linked
    obtain ⟨stays, linked⟩ := pruned_link_some linked
    obtain ⟨c, member, same, done⟩ := valid.linkCaptured part id link linked
    exact ⟨c, survivor_mem.mpr ⟨member, same ▸ stays⟩, same, done⟩
  linkStart := fun part id link linked => valid.linkStart part id link (pruned_link_some linked).2
  linkScoped := fun part id link linked => valid.linkScoped part id link (pruned_link_some linked).2
  moveOld := fun id time move found => valid.moveOld id time move (pruned_lines_of_some found)
  moveScoped := by
    intro g inside time move found
    obtain ⟨f, member, rfl, _⟩ := pruned_fact inside
    rw [rehomed_id] at found
    rw [rehomed_measure]
    exact valid.moveScoped f member time move (pruned_lines_of_some found)
  apart := fun part c inC d inD origin order later earlier linkedC linkedD =>
    valid.apart part c (survivor_mem.mp inC).1 d (survivor_mem.mp inD).1 origin order later earlier
      (pruned_link_some linkedC).2 (pruned_link_some linkedD).2

/-! ## The reads stay -/

section Kept
variable (held : HeldAtHome s doomed) (kept : LinesKept s doomed)
include held kept

/-- What a survivor holds of a part. -/
theorem pruned_partHeld {c : Capture} (member : c ∈ s.captures) (survives : c.id ∉ doomed) (part : Part) :
    (s.pruneDoomed doomed).partHeld c.id part = s.partHeld c.id part := by
  unfold Store.partHeld Store.held
  rw [pruned_capture? valid survives, capture?_of_mem valid.captureIds member]
  simp only [pruned_link, if_neg survives]
  cases linked : s.link part c.id with
  | none => rfl
  | some link =>
    simp only [← List.filterMap_eq_map, ← List.filterMap_eq_filter, List.filterMap_filterMap]
    refine pruned_filterMap s doomed ?_ ?_
    · intro f inside stays
      rw [Option.guard, Option.guard, pruned_holds valid member survives linked stays]
      split
      next holds =>
        simp only [Option.bind_some, Function.comp, Option.some.injEq]
        rw [pruned_heldLine valid kept member survives linked inside stays holds, rehomed_row]
      next => rfl
    · intro f inside lost
      simp [Option.guard, not_holds_of_lost valid held member survives linked inside lost]

/-- A bulk read of survivors gives the rows it gave. -/
theorem pruned_heldFacts {holders : Holders} (only : ∀ c, holders.wants c = true → c.id ∉ doomed) (m : Nat) :
    (s.pruneDoomed doomed).heldFacts m holders = s.heldFacts m holders := by
  have wanted : (s.pruneDoomed doomed).captures.filter holders.wants = s.captures.filter holders.wants := by
    rw [pruned_captures, List.filter_filter]
    apply List.filter_congr
    intro c _
    cases wants : holders.wants c with
    | false => rfl
    | true => simp [only c wants]
  have unwanted : ∀ {f : Fact V} {c : Capture}, f.captureId ∈ doomed → s.capture? f.captureId = some c →
      holders.wants c = false := by
    intro f c gone found
    rw [← Bool.not_eq_true]
    intro wants
    exact only c wants ((capture?_eq_some found).2 ▸ gone)
  have own : (s.pruneDoomed doomed).ownRows m holders = s.ownRows m holders := by
    unfold Store.ownRows
    refine pruned_filterMap s doomed ?_ ?_
    · intro f inside stays
      cases home : s.home doomed f with
      | none =>
        rw [rehomed_of_none s doomed home] at stays ⊢
        rw [pruned_capture? valid stays]
        cases found : s.capture? f.captureId with
        | none => rfl
        | some c =>
          have id := (capture?_eq_some found).2
          have links : ∀ part, (s.pruneDoomed doomed).link part c.id = s.link part c.id := by
            intro part
            rw [pruned_link, if_neg (id ▸ stays)]
          have holding : (s.pruneDoomed doomed).pathHolding c f = s.pathHolding c f := by
            unfold Store.pathHolding
            cases f.path with
            | none => rfl
            | some path => exact congrArg Option.isSome (links _)
          simp only [Option.bind_eq_bind, Option.bind_some, holding, links]
      | some home =>
        obtain ⟨part, h, link, rfl, at_, _⟩ := home_eq_some valid doomed home
        have moved : (rehomed s doomed f).captureId = h.id := by rw [rehomed_of_some s doomed home]
        have before : (do
            let c ← s.capture? f.captureId
            if (f.measureId == m && holders.wants c && (s.link (.measure m) c.id).isNone && !s.pathHolding c f) = true then
              some (Store.slimRow f f.line c) else none) = none := by
          cases found : s.capture? f.captureId with
          | none => rfl
          | some c => simp [unwanted at_.gone found]
        rw [before, moved, pruned_capture? valid at_.stays, capture?_of_mem valid.captureIds at_.member]
        simp only [Option.bind_eq_bind, Option.bind_some, ite_eq_right_iff, Bool.and_eq_true, beq_iff_eq, reduceCtorEq,
          Bool.not_eq_true']
        rintro ⟨⟨⟨measure, _⟩, unchained⟩, unheld⟩
        rw [pruned_link, if_neg at_.stays] at unchained
        have covered := at_.covered
        cases part with
        | measure m' =>
          have same : m' = m := by
            rw [← measure, rehomed_measure]
            simp only [Part.covers, beq_iff_eq] at covered
            exact covered.symm
          simp [← same, at_.linked] at unchained
        | file m' path =>
          simp only [Part.covers, Bool.and_eq_true, beq_iff_eq] at covered
          simp [Store.pathHolding, covered.1, covered.2, pruned_link, at_.stays, at_.linked] at unheld
    · intro f _ lost
      have gone := lost_gone valid lost
      cases found : s.capture? f.captureId with
      | none => rfl
      | some c => simp [unwanted gone found]
  have chained : (s.pruneDoomed doomed).chainedRows m holders = s.chainedRows m holders := by
    unfold Store.chainedRows
    rw [wanted]
    apply List.flatMap_congr
    intro c selected
    obtain ⟨member, wants⟩ := List.mem_filter.mp selected
    have survives := only c wants
    unfold Store.held
    rw [pruned_link, if_neg survives]
    cases linked : s.link (.measure m) c.id with
    | none => rfl
    | some link =>
      simp only [← List.filterMap_eq_map, ← List.filterMap_eq_filter, List.filterMap_filterMap]
      refine pruned_filterMap s doomed ?_ ?_
      · intro f inside stays
        rw [Option.guard, Option.guard, pruned_holds valid member survives linked stays]
        split
        next holds =>
          have line := pruned_heldLine valid kept member survives linked inside stays holds
          have line : (rehomed s doomed f).line = f.line := line
          simp only [Option.bind_some, Function.comp, Option.some.injEq]
          rw [line, rehomed_slimRow]
        next => rfl
      · intro f inside lost
        simp [Option.guard, not_holds_of_lost valid held member survives linked inside lost]
  have pathed : (s.pruneDoomed doomed).pathedRows m holders = s.pathedRows m holders := by
    unfold Store.pathedRows
    rw [wanted]
    apply List.flatMap_congr
    intro c selected
    obtain ⟨member, wants⟩ := List.mem_filter.mp selected
    have survives := only c wants
    simp only [← List.filterMap_eq_map, ← List.filterMap_eq_filter, List.filterMap_filterMap]
    refine pruned_filterMap s doomed ?_ ?_
    · intro f inside stays
      rw [Option.guard, Option.guard, pruned_heldByPath valid member survives stays]
      split
      next holds =>
        obtain ⟨path, link, _, linked, holds⟩ := heldByPath_iff.mp holds
        have line := pruned_heldLine valid kept member survives linked inside stays holds
        have line : (s.pruneDoomed doomed).lineAtHold c.id (rehomed s doomed f) = s.lineAtHold c.id f := line
        simp only [Option.bind_some, Function.comp, Option.some.injEq]
        rw [line, rehomed_slimRow]
      next => rfl
    · intro f inside lost
      have unheld : s.heldByPath m c f = false := by
        rw [← Bool.not_eq_true]
        intro holds
        obtain ⟨path, link, _, linked, holds⟩ := heldByPath_iff.mp holds
        simp [not_holds_of_lost valid held member survives linked inside lost] at holds
      simp [Option.guard, unheld]
  unfold Store.heldFacts
  rw [own, chained, pathed]

end Kept

/-! ## Where they do not -/

omit valid in
theorem mem_heldFacts {m : Nat} {holders : Holders} {row : FactRow V} : row ∈ s.heldFacts m holders ↔
    row ∈ s.ownRows m holders ∨ row ∈ s.chainedRows m holders ∨ row ∈ s.pathedRows m holders := by
  unfold Store.heldFacts
  rw [List.mem_insertionSort, List.mem_append, List.mem_append, or_assoc]

omit valid in
/-- Every row is some stored fact's. -/
theorem heldFacts_source {m : Nat} {holders : Holders} {row : FactRow V} (member : row ∈ s.heldFacts m holders) :
    ∃ f ∈ s.facts, row.id = f.id := by
  rcases mem_heldFacts.mp member with own | chained | pathed
  · obtain ⟨f, inside, read⟩ := List.mem_filterMap.mp own
    obtain ⟨c, _, read⟩ := Option.bind_eq_some_iff.mp read
    split at read
    next =>
      cases read
      exact ⟨f, inside, rfl⟩
    next => cases read
  · obtain ⟨c, _, inRows⟩ := List.mem_flatMap.mp chained
    obtain ⟨f, inHeld, rfl⟩ := List.mem_map.mp inRows
    obtain ⟨_, _, inside, _⟩ := mem_held.mp inHeld
    exact ⟨f, inside, rfl⟩
  · obtain ⟨c, _, inRows⟩ := List.mem_flatMap.mp pathed
    obtain ⟨f, inHeld, rfl⟩ := List.mem_map.mp inRows
    exact ⟨f, (List.mem_filter.mp inHeld).1, rfl⟩

/-- A fact that a capture holds is a row of its bulk read. -/
theorem row_of_holds {c : Capture} (member : c ∈ s.captures) {part : Part} {link : Link} (linked : s.link part c.id = some link)
    {f : Fact V} (inside : f ∈ s.facts) (holds : s.holds c part link f = true) :
    Store.slimRow f (s.heldLine c.id part f) c ∈ s.heldFacts f.measureId (.ids [c.id]) := by
  have covered := (holds_iff.mp holds).covered
  cases part with
  | measure m =>
    have measure : f.measureId = m := by simpa [Part.covers] using covered
    refine mem_heldFacts.mpr (.inr (.inl ?_))
    rw [chainedRows_one valid member, measure]
    exact List.mem_map.mpr ⟨f, mem_held.mpr ⟨link, linked, inside, holds_iff.mp holds⟩, rfl⟩
  | file m path =>
    obtain ⟨measure, onPath⟩ : f.measureId = m ∧ f.path = some path := by simpa [Part.covers] using covered
    refine mem_heldFacts.mpr (.inr (.inr ?_))
    rw [pathedRows_one valid member, measure]
    exact List.mem_map.mpr ⟨f, List.mem_filter.mpr ⟨inside, heldByPath_iff.mpr ⟨path, link, onPath, linked, holds⟩⟩, rfl⟩

/-- Every survivor's bulk reads give what they gave. -/
def ReadsKept (s : Store V) (doomed : List Nat) : Prop :=
  ∀ c ∈ s.captures, c.id ∉ doomed → ∀ m,
    (s.pruneDoomed doomed).heldFacts m (.ids [c.id]) = s.heldFacts m (.ids [c.id])

theorem survives_of_read (reads : ReadsKept s doomed) {c : Capture} (member : c ∈ s.captures) (survives : c.id ∉ doomed)
    {part : Part} {link : Link} (linked : s.link part c.id = some link) {f : Fact V} (inside : f ∈ s.facts)
    (holds : s.holds c part link f = true) : (rehomed s doomed f).captureId ∉ doomed := by
  have row := row_of_holds valid member linked inside holds
  rw [← reads c member survives] at row
  obtain ⟨g, inPruned, id⟩ := heldFacts_source row
  obtain ⟨f', inside', rfl, stays⟩ := pruned_fact inPruned
  rw [rehomed_id] at id
  have same : f = f' := List.inj_on_of_nodup_map valid.factIds inside inside' id
  exact same ▸ stays

theorem heldAtHome_of_reads (reads : ReadsKept s doomed) : HeldAtHome s doomed := by
  intro f inside gone c member survives part link linked holds
  have stays := survives_of_read valid reads member survives linked inside holds
  cases found : s.home doomed f with
  | none =>
    rw [rehomed_of_none s doomed found] at stays
    exact absurd gone stays
  | some home =>
    obtain ⟨other, _, _, _, at_, _⟩ := home_eq_some valid doomed found
    have same := scoped_part_eq (valid.linkScoped _ _ _ linked) (valid.linkScoped _ _ _ at_.linked)
      (holds_iff.mp holds).covered at_.covered
    exact same ▸ at_.own

theorem linesKept_of_reads (reads : ReadsKept s doomed) : LinesKept s doomed := by
  intro f inside home found c member survives path onPath link linked holds lineless
  have stays := survives_of_read valid reads member survives linked inside holds
  have perPath : scope f.measureId = some .perPath := valid.linkScoped _ _ _ linked
  have row := row_of_holds valid member linked inside holds
  rw [← reads c member survives] at row
  have prunedMember : c ∈ (s.pruneDoomed doomed).captures := survivor_mem.mpr ⟨member, survives⟩
  have prunedLinked : (s.pruneDoomed doomed).link (.file f.measureId path) c.id = some link := by
    rw [pruned_link, if_neg survives]
    exact linked
  -- The row of `f` after comes through the hold.
  have line : s.lineAtHold c.id f = (s.pruneDoomed doomed).lineAtHold c.id (rehomed s doomed f) := by
    have only : ∀ g ∈ (s.pruneDoomed doomed).facts, g.id = f.id → g = rehomed s doomed f := by
      intro g inPruned id
      obtain ⟨f', inside', rfl, _⟩ := pruned_fact inPruned
      rw [rehomed_id] at id
      rw [List.inj_on_of_nodup_map valid.factIds inside' inside id]
    rcases mem_heldFacts.mp row with own | chained | pathed
    · obtain ⟨g, inPruned, read⟩ := List.mem_filterMap.mp own
      obtain ⟨d, captured, read⟩ := Option.bind_eq_some_iff.mp read
      simp only [Option.ite_none_right_eq_some, Bool.and_eq_true, Option.some.injEq, Bool.not_eq_true', beq_iff_eq,
        Holders.wants, List.contains_eq_mem, List.mem_singleton, decide_eq_true_eq] at read
      obtain ⟨⟨⟨⟨_, wanted⟩, _⟩, unheld⟩, same⟩ := read
      have whose := only g inPruned (congrArg FactRow.id same)
      rw [whose] at unheld
      simp [Store.pathHolding, rehomed_path, rehomed_measure, Option.mem_def.mp onPath, wanted, prunedLinked] at unheld
    · rw [chainedRows_one (pruned_valid valid) prunedMember] at chained
      obtain ⟨g, inHeld, _⟩ := List.mem_map.mp chained
      obtain ⟨other, chainLinked, _⟩ := mem_held.mp inHeld
      have complete : scope f.measureId = some .complete := (pruned_valid valid).linkScoped _ _ _ chainLinked
      rw [perPath] at complete
      cases complete
    · rw [pathedRows_one (pruned_valid valid) prunedMember] at pathed
      obtain ⟨g, inHeld, same⟩ := List.mem_map.mp pathed
      have whose := only g (List.mem_filter.mp inHeld).1 (congrArg FactRow.id same)
      rw [whose] at same
      exact (congrArg (fun row => row.line) same).symm
  exact (pruned_lineAtHold valid inside stays fun home found => home_le valid member survives linked holds found).mp line.symm
    home found lineless

theorem readsKept_iff : ReadsKept s doomed ↔ HeldAtHome s doomed ∧ LinesKept s doomed := by
  refine ⟨fun reads => ⟨heldAtHome_of_reads valid reads, linesKept_of_reads valid reads⟩, ?_⟩
  rintro ⟨held, kept⟩ c _ survives m
  refine pruned_heldFacts valid held kept ?_ m
  intro d wanted
  have same : d.id = c.id := by simpa [Holders.wants] using wanted
  exact same ▸ survives

end Reads

/-- Deleting any captures of a written store keeps every survivor's reads just where no
survivor holds a fact a deleted capture stored as is, and no stored line shows through. -/
theorem prune_reads_iff [DecidableEq V] {refused : Store V → NewMetricCapture → List (NewFact V) → Bool}
    (writes : List (NewMetricCapture × List (NewFact V))) (doomed : List Nat) :
    let s := (Store.empty : Store V).recordAll scope refused writes
    ReadsKept s doomed ↔ HeldAtHome s doomed ∧ LinesKept s doomed :=
  readsKept_iff (recordAll_valid empty_valid writes)

/-- A survivor loses a fact that a deleted assertion stored in its range; and the line of a
fact without one changes when the fact moves up. -/
theorem prune_reads_changed :
    let x := fun line => plainFact 1 5 (some "a.rs") line
    let y := plainFact 1 6 (some "a.rs") (some 2)
    let asserted := plainFact 1 7 (some "a.rs") none
    let store := fun writes => (Store.empty : Store Nat).recordAll plainScope nothingRefused writes
    let s := store [(plainCapture .delta 1, [x (some 1), y]), (plainCapture .asserted 2, [asserted]),
      (plainCapture .delta 3, [x (some 1), y])]
    let t := store [(plainCapture .delta 1, [x (some 1), y]), (plainCapture .delta 2, [x (some 3), y]),
      (plainCapture .delta 3, [x none, y])]
    (s.pruneDoomed [2]).heldFacts 1 (.ids [3]) ≠ s.heldFacts 1 (.ids [3]) ∧
      (t.pruneDoomed [1]).heldFacts 1 (.ids [3]) ≠ t.heldFacts 1 (.ids [3]) := by
  decide +kernel

end Oxplow.Proofs.PruneReads
