import Oxplow.Library.Ordered
import Oxplow.Library.Replay
import Oxplow.Proofs.SeriesWrites

/-! A series capture by capture: the points of a capture depend on its own facts, and for a
partial measure on the captures its branch has replayed. -/

namespace Oxplow.Proofs.SeriesPoints
open Library Metrics FactChain PruneReads SeriesWrites

variable {V : Type}

/-! ## The order of captures -/

instance : Std.Total captureBefore := ⟨fun a b => by unfold captureBefore; omega⟩
instance : IsTrans Capture captureBefore := ⟨fun a b c => by unfold captureBefore; omega⟩
instance : Std.Total (rowBefore (V := V)) := ⟨fun a b => by unfold rowBefore; omega⟩
instance : IsTrans (FactRow V) rowBefore := ⟨fun a b c => by unfold rowBefore; omega⟩
instance : Std.Total (pointBefore (V := V)) := ⟨fun a b => by unfold pointBefore; omega⟩
instance : IsTrans (SeriesPoint V) pointBefore := ⟨fun a b c => by unfold pointBefore; omega⟩

/-- Strictly before. -/
def earlier (a b : Capture) : Prop := ¬ captureBefore b a

instance : DecidableRel earlier := fun _ _ => inferInstanceAs (Decidable (¬ _))

theorem earlier_asymm (a b : Capture) : earlier a b → ¬ earlier b a := by
  unfold earlier captureBefore
  omega

theorem earlier_of_before {a b : Capture} (before : captureBefore a b) (apart : a.id ≠ b.id) : earlier a b := by
  unfold earlier captureBefore at *
  omega

variable {c : Capture}

theorem earlier_trans {a b : Capture} : earlier a b → earlier b c → earlier a c := by
  unfold earlier captureBefore
  omega

/-- Sorted captures of distinct ids are in strict order. -/
theorem sorted_strictly {captures : List Capture} (unique : (captures.map (·.id)).Nodup) :
    (captures.insertionSort captureBefore).Pairwise earlier := by
  have sorted := List.pairwise_insertionSort captureBefore captures
  have distinct : ((captures.insertionSort captureBefore).map (·.id)).Nodup :=
    (((List.perm_insertionSort _ captures).map (·.id)).nodup_iff).mpr unique
  exact (sorted.and (List.pairwise_map.mp distinct)).imp fun {_ _} both => earlier_of_before both.1 both.2

/-! ## What the wanted captures hold -/

variable {s : Store V} {m : Nat}

theorem heldFacts_captured {holders : Holders} {row : FactRow V} (member : row ∈ s.heldFacts m holders) :
    row.capture ∈ s.captures := by
  rcases mem_heldFacts.mp member with own | chained | pathed
  · obtain ⟨f, inside, read⟩ := List.mem_filterMap.mp own
    obtain ⟨c, found, read⟩ := Option.bind_eq_some_iff.mp read
    split at read
    next =>
      cases read
      exact (capture?_eq_some found).1
    next => cases read
  · obtain ⟨c, wanted, inRows⟩ := List.mem_flatMap.mp chained
    obtain ⟨f, _, rfl⟩ := List.mem_map.mp inRows
    exact (List.mem_filter.mp wanted).1
  · obtain ⟨c, wanted, inRows⟩ := List.mem_flatMap.mp pathed
    obtain ⟨f, _, rfl⟩ := List.mem_map.mp inRows
    exact (List.mem_filter.mp wanted).1

theorem flatMap_filter_rows {q : Capture → Bool} {rows : Capture → List (FactRow V)}
    (captured : ∀ c, ∀ row ∈ rows c, row.capture = c) (captures : List Capture) :
    (captures.flatMap rows).filter (fun row => q row.capture) = (captures.filter q).flatMap rows := by
  induction captures with
  | nil => rfl
  | cons c captures ih =>
    rw [List.flatMap_cons, List.filter_append, ih, List.filter_cons]
    cases kept : q c with
    | true =>
      have all : (rows c).filter (fun row => q row.capture) = rows c :=
        List.filter_eq_self.mpr fun row member => by rw [captured c row member, kept]
      rw [if_pos rfl, List.flatMap_cons, all]
    | false =>
      have none : (rows c).filter (fun row => q row.capture) = [] :=
        List.filter_eq_nil_iff.mpr fun row member => by simp [captured c row member, kept]
      rw [if_neg (by simp), none, List.nil_append]

/-- A read of fewer captures gives the rows those hold. -/
theorem heldFacts_filter {holders holders' : Holders} {q : Capture → Bool}
    (same : ∀ c ∈ s.captures, holders'.wants c = (holders.wants c && q c)) :
    (s.heldFacts m holders).filter (fun row => q row.capture) = s.heldFacts m holders' := by
  have wanted : (s.captures.filter holders.wants).filter q = s.captures.filter holders'.wants := by
    rw [List.filter_filter]
    apply List.filter_congr
    intro c member
    rw [same c member, Bool.and_comm]
  have own : (s.ownRows m holders).filter (fun row => q row.capture) = s.ownRows m holders' := by
    unfold Store.ownRows
    rw [List.filter_filterMap]
    apply List.filterMap_congr
    intro f _
    cases found : s.capture? f.captureId with
    | none => rfl
    | some c =>
      have wants := same c (capture?_eq_some found).1
      have row : (Store.slimRow f f.line c).capture = c := rfl
      simp only [Option.bind_eq_bind, Option.bind_some, wants]
      split
      next read =>
        rw [Option.filter_some, row]
        cases kept : q c with
        | true => rw [if_pos rfl, if_pos (by simpa using read)]
        | false => rw [if_neg (by simp), if_neg (by simp)]
      next unread =>
        rw [Option.filter_none, if_neg]
        intro read
        apply unread
        simp only [Bool.and_eq_true] at read ⊢
        exact ⟨⟨⟨read.1.1.1, read.1.1.2.1⟩, read.1.2⟩, read.2⟩
  have chained : (s.chainedRows m holders).filter (fun row => q row.capture) = s.chainedRows m holders' := by
    unfold Store.chainedRows
    rw [flatMap_filter_rows ?_, wanted]
    intro c row member
    obtain ⟨f, _, rfl⟩ := List.mem_map.mp member
    rfl
  have pathed : (s.pathedRows m holders).filter (fun row => q row.capture) = s.pathedRows m holders' := by
    unfold Store.pathedRows
    rw [flatMap_filter_rows ?_, wanted]
    intro c row member
    obtain ⟨f, _, rfl⟩ := List.mem_map.mp member
    rfl
  unfold Store.heldFacts
  rw [filter_insertionSort, List.filter_append, List.filter_append, own, chained, pathed]

/-! ## The replay of a partial measure -/

section Replay
variable [LinearOrder V] (texts : Texts) (read : FoldRead V) (captures : List Capture) (facts : List (MappedRow V))
  (scanned : Nat → List String)

/-- The key of the scalars a capture asserts. -/
def scalarKeys (c : Capture) : List String :=
  if (facts.filter (·.capture.id == c.id)).any fun f => (foldKey read.scope f).isNone then [scalarSubject] else []

/-- `c` takes the live fact out. -/
def takesOut (c : Capture) (live : LiveFact V) : Bool :=
  live.producer == c.producer && (scanned c.id ++ scalarKeys read facts c).contains live.key

/-- The facts of `c` that pass the filter, each under its key. -/
def puts (c : Capture) : List (LiveFact V) :=
  ((facts.filter (·.capture.id == c.id)).filter (read.filter.matches texts)).map fun f =>
    ⟨c.producer, (foldKey read.scope f).getD scalarSubject, f⟩

theorem applyCapture_eq : applyCapture texts read facts scanned =
    restateRows (takesOut read facts scanned) (puts texts read facts) := rfl

def sameBranch (c e : Capture) : Bool := e.streamId == c.streamId && e.branch == c.branch

/-- What a branch starts from at its first capture. -/
def seeds (first : Capture) : List Capture :=
  captures.filter fun e => decide (earlier e first) && e.streamId == first.streamId && read.visibility.sees e first

/-- The captures that `c`'s branch has replayed at `c`. -/
def replay (c : Capture) : List Capture :=
  ((captures.find? (sameBranch c)).map fun first => seeds read captures first).getD [] ++
    captures.filter fun e => sameBranch c e && decide (captureBefore e c)

omit [LinearOrder V] in
theorem mem_replay {e : Capture} (member : e ∈ replay read captures c) : e ∈ captures := by
  unfold replay at member
  rcases List.mem_append.mp member with seeded | own
  · cases found : captures.find? (sameBranch c) with
    | none =>
      rw [found] at seeded
      cases seeded
    | some first =>
      rw [found] at seeded
      exact (List.mem_filter.mp seeded).1
  · exact (List.mem_filter.mp own).1

/-- The tree of `c`'s branch at `c`. -/
def treeAt (c : Capture) : LiveTree V := standing (takesOut read facts scanned) (puts texts read facts) (replay read captures c)

variable {captures} (ordered : captures.Pairwise earlier) (unique : (captures.map (·.id)).Nodup)
include ordered unique

theorem seedTree_eq {first : Capture} (member : first ∈ captures) : seedTree texts read captures facts scanned first =
    standing (takesOut read facts scanned) (puts texts read facts) (seeds read captures first) := by
  have same : ∀ e ∈ captures, e.id = first.id → e = first :=
    fun e inside => List.inj_on_of_nodup_map unique inside member
  have front : captures.takeWhile (fun e => e.id == first.id || !decide (captureBefore first e)) =
      captures.filter fun e => e.id == first.id || !decide (captureBefore first e) := by
    apply takeWhile_eq_filter
    refine ordered.imp_of_mem ?_
    intro a b _ inB before within
    rw [Bool.or_eq_true, beq_iff_eq, Bool.not_eq_true', decide_eq_false_iff_not] at within ⊢
    right
    rcases within with itself | outside
    · exact same b inB itself ▸ before
    · exact earlier_trans before outside
  have chosen : (captures.filter fun e => e.id == first.id || !decide (captureBefore first e)).filter
      (fun e => e.id != first.id && e.streamId == first.streamId && read.visibility.sees e first) = seeds read captures first := by
    rw [List.filter_filter]
    apply List.filter_congr
    intro e inside
    by_cases itself : e.id = first.id
    · have equal := same e inside itself
      simp [equal, earlier, captureBefore]
    · have other : (e.id == first.id) = false := beq_eq_false_iff_ne.mpr itself
      have strict : decide (earlier e first) = !decide (captureBefore first e) := by
        rw [← decide_not]
        rfl
      rw [strict, bne, other, Bool.false_or, Bool.not_false, Bool.true_and, Bool.and_comm, Bool.and_assoc]
  unfold seedTree
  simp only
  rw [front, chosen, applyCapture_eq, foldl_restateRows, List.filter_nil, List.nil_append]

/-- At a capture, its branch's own part of the replay is what came before it. -/
theorem ownReplay_eq {done rest : List Capture} (whole : captures = done ++ c :: rest) :
    captures.filter (fun e => sameBranch c e && decide (captureBefore e c)) = (done ++ [c]).filter (sameBranch c) := by
  subst whole
  have pairs := List.pairwise_append.mp ordered
  have before : done.filter (fun e => sameBranch c e && decide (captureBefore e c)) = done.filter (sameBranch c) := by
    apply List.filter_congr
    intro e member
    have first : captureBefore e c := (Std.Total.total e c).resolve_right (pairs.2.2 e member c List.mem_cons_self)
    rw [decide_eq_true first, Bool.and_true]
  have after : rest.filter (fun e => sameBranch c e && decide (captureBefore e c)) = [] := by
    apply List.filter_eq_nil_iff.mpr
    intro e member
    have later : ¬ captureBefore e c := List.rel_of_pairwise_cons pairs.2.1 member
    simp [later]
  have itself : [c].filter (fun e => sameBranch c e && decide (captureBefore e c)) = [c].filter (sameBranch c) := by
    have refl : captureBefore c c := (or_self_iff).mp (Std.Total.total c c)
    simp [List.filter_cons, refl]
  rw [List.append_cons, List.filter_append, List.filter_append, after, List.append_nil, before, itself, List.filter_append]

end Replay

/-! ## The points of each capture -/

section Points
variable [LinearOrder V] (texts : Texts) (read : FoldRead V) (facts : List (MappedRow V)) (scanned : Nat → List String)
  {captures : List Capture} (ordered : captures.Pairwise earlier) (unique : (captures.map (·.id)).Nodup)

/-- The tree of a branch once `done` of its captures are folded. -/
def treeAfter (captures done : List Capture) (c : Capture) : Option (LiveTree V) :=
  (done.find? (sameBranch c)).map fun first => (done.filter (sameBranch c)).foldl (applyCapture texts read facts scanned)
    (seedTree texts read captures facts scanned first)

theorem treeAfter_own (done : List Capture) (c : Capture) : treeAfter texts read facts scanned captures (done ++ [c]) c =
    some (applyCapture texts read facts scanned
      ((treeAfter texts read facts scanned captures done c).getD (seedTree texts read captures facts scanned c)) c) := by
  have itself : [c].filter (sameBranch c) = [c] := by simp [sameBranch]
  unfold treeAfter
  rw [List.find?_append, List.filter_append, itself]
  simp only [List.foldl_append]
  cases found : done.find? (sameBranch c) with
  | some first => rfl
  | none =>
    have none : done.filter (sameBranch c) = [] := by
      apply List.filter_eq_nil_iff.mpr
      exact List.find?_eq_none.mp found
    have first : [c].find? (sameBranch c) = some c := by simp [sameBranch]
    rw [none, first]
    rfl

theorem treeAfter_other (done : List Capture) {e : Capture} (apart : sameBranch e c = false) :
    treeAfter texts read facts scanned captures (done ++ [c]) e = treeAfter texts read facts scanned captures done e := by
  unfold treeAfter
  rw [List.find?_append, List.filter_append, List.find?_cons_of_neg (by simp [apart]), List.filter_cons_of_neg (by simp [apart])]
  simp

theorem treeAfter_same {e : Capture} (same : (e.streamId, e.branch) = (c.streamId, c.branch)) (done : List Capture) :
    treeAfter texts read facts scanned captures done e = treeAfter texts read facts scanned captures done c := by
  have equal : sameBranch e = sameBranch c := by
    funext x
    unfold sameBranch
    rw [(Prod.mk.inj same).1, (Prod.mk.inj same).2]
  unfold treeAfter
  rw [equal]

include ordered unique

theorem treeAfter_snoc {done rest : List Capture} (whole : captures = done ++ c :: rest) :
    treeAfter texts read facts scanned captures (done ++ [c]) c = some (treeAt texts read captures facts scanned c) := by
  have member : c ∈ captures := by rw [whole]; simp
  have itself : sameBranch c c = true := by simp [sameBranch]
  obtain ⟨first, found⟩ : ∃ first, (done ++ [c]).find? (sameBranch c) = some first := by
    apply Option.isSome_iff_exists.mp
    rw [List.find?_isSome]
    exact ⟨c, by simp, itself⟩
  have among : captures.find? (sameBranch c) = some first := by
    rw [whole, List.append_cons, List.find?_append, found, Option.some_or]
  have inside : first ∈ captures := List.mem_of_find?_eq_some among
  unfold treeAfter treeAt replay
  rw [found, among, Option.map_some, Option.map_some, Option.getD_some, ownReplay_eq ordered unique whole, applyCapture_eq,
    foldl_restateRows, seedTree_eq texts read facts scanned ordered unique inside, standing_append]

variable [Field V]

/-- The series of a partial measure, capture by capture. -/
theorem treeStateSeries_eq (order : HashOrder) : treeStateSeries texts read captures facts scanned order =
    captures.flatMap fun c => livePoints texts read c ((treeAt texts read captures facts scanned c).live order c.id) := by
  have fold : ∀ (rest done : List Capture) (folding : Folding V), captures = done ++ rest →
      (∀ c, folding.state.get (c.streamId, c.branch) = treeAfter texts read facts scanned captures done c) →
        (rest.foldl (foldCapture texts read captures facts scanned order) folding).out = folding.out ++
          rest.flatMap fun c => livePoints texts read c ((treeAt texts read captures facts scanned c).live order c.id) := by
    intro rest
    induction rest with
    | nil => exact fun _ _ _ _ => by simp
    | cons c rest ih =>
      intro done folding whole state
      have snoc := treeAfter_snoc texts read facts scanned ordered unique whole
      have tree : applyCapture texts read facts scanned ((folding.state.get (c.streamId, c.branch)).getD
          (seedTree texts read captures facts scanned c)) c = treeAt texts read captures facts scanned c := by
        rw [treeAfter_own, ← state c] at snoc
        exact Option.some.inj snoc
      have step : foldCapture texts read captures facts scanned order folding c =
          ⟨folding.state.insert (c.streamId, c.branch) (treeAt texts read captures facts scanned c), folding.out ++
            livePoints texts read c ((treeAt texts read captures facts scanned c).live order c.id)⟩ := by
        rw [← tree]
        unfold foldCapture
        cases folding.state.get (c.streamId, c.branch) <;> rfl
      rw [List.foldl_cons, step, ih (done ++ [c]) _ (by rw [whole, List.append_cons]), List.flatMap_cons, List.append_assoc]
      intro e
      rw [Table.get_insert]
      split
      next same => rw [treeAfter_same texts read facts scanned same, snoc]
      next apart =>
        have other : sameBranch e c = false := by
          rw [← Bool.not_eq_true]
          intro same
          simp only [sameBranch, Bool.and_eq_true, beq_iff_eq] at same
          exact apart (Prod.ext same.1.symm same.2.symm)
        rw [state e, treeAfter_other texts read facts scanned done other]
  exact (fold captures [] ⟨[], []⟩ rfl fun _ => rfl).trans (List.nil_append _)

end Points

/-! ## A complete measure -/

section Complete
variable [Field V] [LinearOrder V] (texts : Texts) (facts : List (MappedRow V)) (agg : Aggregation) (filter : FactFilter V)
  (groupBy : Option String)

/-- The facts a series counts. -/
def counted : List (MappedRow V) :=
  facts.filter fun f => filter.matches texts f && groupBy.all fun dim => (dimValue texts f dim).isSome

/-- The points of a capture's own facts. -/
def capturePoints (id : Nat) : List (SeriesPoint V) :=
  (grouped texts groupBy ((counted texts facts filter groupBy).filter (·.capture.id == id))).filterMap
    fun (group, fs) => bucketPoint agg group fs

/-- The points of a capture in the series with its zeros, of which `filled` captures get one. -/
def filledPoints (filled : List Capture) (c : Capture) : List (SeriesPoint V) :=
  if fills agg groupBy && (capturePoints texts facts agg filter groupBy c.id).isEmpty && filled.any (·.id == c.id) then
    [c.point ⟨.finite 0, none, none⟩ none]
  else capturePoints texts facts agg filter groupBy c.id

omit [Field V] [LinearOrder V] in
theorem grouped_nil : grouped texts groupBy ([] : List (MappedRow V)) = [] := by
  cases groupBy <;> rfl

/-- The points of a capture are those of its facts. -/
theorem capturePoints_own (id : Nat) : capturePoints texts facts agg filter groupBy id =
    capturePoints texts (facts.filter (·.capture.id == id)) agg filter groupBy id := by
  have rows : (counted texts facts filter groupBy).filter (·.capture.id == id) =
      (counted texts (facts.filter (·.capture.id == id)) filter groupBy).filter (·.capture.id == id) := by
    unfold counted
    rw [List.filter_filter, List.filter_filter, List.filter_filter]
    apply List.filter_congr
    intro f _
    cases f.capture.id == id <;> simp
  unfold capturePoints
  rw [rows]

variable {id : Nat}

theorem capturePoints_nil (none : ∀ f ∈ counted texts facts filter groupBy, f.capture.id ≠ id) :
    capturePoints texts facts agg filter groupBy id = [] := by
  have nothing : (counted texts facts filter groupBy).filter (·.capture.id == id) = [] := by
    apply List.filter_eq_nil_iff.mpr
    intro f member
    simpa using none f member
  unfold capturePoints
  rw [nothing, grouped_nil]
  rfl

variable {facts} {all : List Capture} (ordered : all.Pairwise earlier) (unique : (all.map (·.id)).Nodup)
  (captured : ∀ f ∈ facts, f.capture ∈ all) (sorted : facts.Pairwise fun f g => captureBefore f.capture g.capture)
include ordered unique captured sorted

omit [Field V] [LinearOrder V] in
/-- The captures that have a fact, in the order their first facts come. -/
theorem firstSeen_captures (rows : List (MappedRow V)) (chosen : rows.Sublist facts) :
    firstSeen (rows.map (·.capture.id)) = (all.filter fun c => rows.any (·.capture.id == c.id)).map (·.id) := by
  have inside : ∀ f ∈ rows, f.capture ∈ all := fun f member => captured f (chosen.subset member)
  have distinct : ∀ a ∈ rows.map (·.capture), ∀ b ∈ rows.map (·.capture), a.id = b.id → a = b := by
    intro a inA b inB
    obtain ⟨f, inF, rfl⟩ := List.mem_map.mp inA
    obtain ⟨g, inG, rfl⟩ := List.mem_map.mp inB
    exact List.inj_on_of_nodup_map unique (inside f inF) (inside g inG)
  have captures : firstSeen (rows.map (·.capture)) = all.filter fun c => rows.any (·.capture.id == c.id) := by
    apply eq_of_strictly_ordered earlier_asymm
    · have before : (firstSeen (rows.map (·.capture))).Pairwise captureBefore :=
        (List.pairwise_map.mpr (sorted.sublist chosen)).sublist (firstSeen_sublist _)
      have apart : (firstSeen (rows.map (·.capture))).Pairwise (· ≠ ·) := firstSeen_nodup _
      refine (before.and apart).imp_of_mem ?_
      intro a b inA inB both
      refine earlier_of_before both.1 fun same => both.2 ?_
      exact distinct a (mem_firstSeen.mp inA) b (mem_firstSeen.mp inB) same
    · exact ordered.sublist List.filter_sublist
    · intro c
      rw [mem_firstSeen, List.mem_map, List.mem_filter, List.any_eq_true]
      constructor
      · rintro ⟨f, member, rfl⟩
        exact ⟨inside f member, f, member, beq_self_eq_true _⟩
      · rintro ⟨known, f, member, same⟩
        exact ⟨f, member, List.inj_on_of_nodup_map unique (inside f member) known (beq_iff_eq.mp same)⟩
  rw [← captures, ← firstSeen_map _ distinct, List.map_map]
  rfl

theorem aggregateSeries_eq : aggregateSeries texts facts agg filter groupBy =
    all.flatMap fun c => capturePoints texts facts agg filter groupBy c.id := by
  let rows := counted texts facts filter groupBy
  calc aggregateSeries texts facts agg filter groupBy
      = (firstSeen (rows.map (·.capture.id))).flatMap (capturePoints texts facts agg filter groupBy) := rfl
    _ = (all.filter fun c => rows.any (·.capture.id == c.id)).flatMap
          fun c => capturePoints texts facts agg filter groupBy c.id := by
        rw [firstSeen_captures ordered unique captured sorted rows List.filter_sublist, List.flatMap_map]
    _ = (all.filter fun _ => true).flatMap fun c => capturePoints texts facts agg filter groupBy c.id := by
        apply flatMap_filter_congr
        intro c _
        cases found : rows.any (·.capture.id == c.id) with
        | true => exact .inr rfl
        | false =>
          refine .inl (capturePoints_nil texts facts agg filter groupBy fun f member same => ?_)
          exact List.any_eq_false.mp found f member (beq_iff_eq.mpr same)
    _ = all.flatMap fun c => capturePoints texts facts agg filter groupBy c.id := by rw [List.filter_true]

omit ordered unique sorted in
theorem capturePoints_capture {p : SeriesPoint V} (member : p ∈ capturePoints texts facts agg filter groupBy id) :
    ∃ c ∈ all, c.id = id ∧ ∃ total group, p = c.point total group := by
  obtain ⟨⟨group, rows⟩, inGroups, made⟩ := List.mem_filterMap.mp member
  simp only [bucketPoint, Option.bind_eq_some_iff] at made
  obtain ⟨first, head, made⟩ := made
  have inside : first ∈ (counted texts facts filter groupBy).filter (·.capture.id == id) := by
    have among := List.mem_of_mem_head? head
    unfold grouped at inGroups
    cases groupBy with
    | none =>
      simp only at inGroups
      split at inGroups
      · cases inGroups
      · cases List.mem_singleton.mp inGroups
        exact among
    | some dim =>
      obtain ⟨bucket, inBuckets, same⟩ := List.mem_map.mp inGroups
      cases same
      rw [(mem_buckets.mp inBuckets).1] at among
      exact (List.mem_filter.mp among).1
  obtain ⟨inRows, own⟩ := List.mem_filter.mp inside
  refine ⟨first.capture, captured first (List.mem_filter.mp inRows).1, beq_iff_eq.mp own, ?_⟩
  split at made
  · cases made
  · exact ⟨_, _, (Option.some.inj made).symm⟩

omit ordered unique captured sorted in
theorem capturePoints_single (id : Nat) : (capturePoints texts facts agg filter none id).length ≤ 1 := by
  unfold capturePoints grouped
  simp only
  split
  · exact Nat.zero_le 1
  · exact (List.length_filterMap_le _ _)

omit sorted ordered in
theorem filledPoints_capture {filled : List Capture} (member : c ∈ all) {p : SeriesPoint V}
    (inside : p ∈ filledPoints texts facts agg filter groupBy filled c) : ∃ total group, p = c.point total group := by
  unfold filledPoints at inside
  split at inside
  · exact ⟨_, _, List.mem_singleton.mp inside⟩
  · obtain ⟨d, known, sameId, made⟩ := capturePoints_capture texts agg filter groupBy captured inside
    have same : d = c := List.inj_on_of_nodup_map unique known member sameId
    exact same ▸ made

omit sorted in
/-- One point a capture at most, oldest first. -/
theorem filledPoints_ordered {filled : List Capture} (fill : fills agg groupBy = true) :
    (all.flatMap (filledPoints texts facts agg filter groupBy filled)).Pairwise fun p q => ¬ pointBefore q p := by
  have whole : groupBy = none := by
    unfold fills at fill
    simpa using (Bool.and_eq_true_iff.mp fill).1
  refine List.pairwise_flatMap.mpr ⟨fun c _ => ?_, ordered.imp_of_mem fun {a b} inA inB before p inP q inQ => ?_⟩
  · have single : (filledPoints texts facts agg filter groupBy filled c).length ≤ 1 := by
      unfold filledPoints
      split
      · exact Nat.le_refl 1
      · rw [whole]
        exact capturePoints_single texts agg filter c.id
    generalize filledPoints texts facts agg filter groupBy filled c = points at single
    cases points with
    | nil => exact .nil
    | cons p rest =>
      have none : rest = [] := List.length_eq_zero_iff.mp (Nat.le_zero.mp (Nat.le_of_succ_le_succ single))
      rw [none]
      exact List.pairwise_singleton _ p
  · obtain ⟨_, _, rfl⟩ := filledPoints_capture texts agg filter groupBy unique captured inA inP
    obtain ⟨_, _, rfl⟩ := filledPoints_capture texts agg filter groupBy unique captured inB inQ
    exact before

omit sorted ordered unique in
theorem mem_pointIds (known : ∃ c ∈ all, c.id = id) :
    id ∈ (all.flatMap fun c => capturePoints texts facts agg filter groupBy c.id).map (·.captureId) ↔
      capturePoints texts facts agg filter groupBy id ≠ [] := by
  constructor
  · rintro inside nothing
    obtain ⟨p, inPoints, rfl⟩ := List.mem_map.mp inside
    obtain ⟨c, _, own⟩ := List.mem_flatMap.mp inPoints
    obtain ⟨d, _, sameId, _, _, rfl⟩ := capturePoints_capture texts agg filter groupBy captured own
    rw [← sameId] at own
    exact List.not_mem_nil (nothing ▸ own)
  · intro some
    obtain ⟨p, own⟩ := List.exists_mem_of_ne_nil _ some
    obtain ⟨c, member, rfl⟩ := known
    obtain ⟨d, _, sameId, _, _, rfl⟩ := capturePoints_capture texts agg filter groupBy captured own
    exact List.mem_map.mpr ⟨_, List.mem_flatMap.mpr ⟨c, member, own⟩, sameId⟩

/-- A series with its zeros, capture by capture. -/
theorem splicedSeries_eq {caps : List Capture} (known : ∀ c ∈ caps, c ∈ all) (distinct : (caps.map (·.id)).Nodup)
    (stream : Option Nat) : spliceZeroPoints (aggregateSeries texts facts agg filter groupBy) caps agg groupBy stream =
      all.flatMap (filledPoints texts facts agg filter groupBy (caps.filter fun c => stream.all (c.streamId == ·))) := by
  rw [aggregateSeries_eq texts agg filter groupBy ordered unique captured sorted]
  unfold spliceZeroPoints
  cases fill : fills agg groupBy with
  | false =>
    rw [if_neg (by simp)]
    unfold filledPoints
    simp [fill]
  | true =>
    rw [if_pos rfl]
    let filled := caps.filter fun c => stream.all (c.streamId == ·)
    let points := fun c : Capture => capturePoints texts facts agg filter groupBy c.id
    let zero := fun c : Capture => c.point (V := V) ⟨.finite 0, none, none⟩ none
    let empty := fun c : Capture => (points c).isEmpty && filled.any (·.id == c.id)
    let zeros := (caps.filter fun c => stream.all (c.streamId == ·) && !((all.flatMap points).map (·.captureId)).contains c.id).map zero
    have parts : ∀ c, filledPoints texts facts agg filter groupBy filled c = points c ++ if empty c then [zero c] else [] := by
      intro c
      unfold filledPoints
      cases nothing : (capturePoints texts facts agg filter groupBy c.id).isEmpty <;> cases inside : filled.any (·.id == c.id) <;>
        simp_all [points, empty, zero]
    have emptied : zeros.Perm (all.flatMap fun c => if empty c then [zero c] else []) := by
      rw [flatMap_guard]
      apply List.Perm.map
      apply filter_perm_of_chosen distinct unique
      intro c
      simp only [empty, filled, Bool.and_eq_true, Bool.not_eq_true', List.isEmpty_iff, List.any_eq_true, beq_iff_eq,
        List.mem_filter, List.contains_eq_mem, decide_eq_false_iff_not]
      constructor
      · intro ⟨member, inStream, pointless⟩
        have inside := known c member
        rw [mem_pointIds texts agg filter groupBy captured ⟨c, inside, rfl⟩, not_not] at pointless
        exact ⟨inside, pointless, c, ⟨member, inStream⟩, rfl⟩
      · intro ⟨inside, pointless, d, ⟨member, inStream⟩, sameId⟩
        have same : d = c := List.inj_on_of_nodup_map unique (known d member) inside sameId
        refine ⟨same ▸ member, same ▸ inStream, ?_⟩
        rw [mem_pointIds texts agg filter groupBy captured ⟨c, inside, rfl⟩, not_not]
        exact pointless
    have perm : (all.flatMap points ++ zeros).Perm (all.flatMap (filledPoints texts facts agg filter groupBy filled)) := by
      rw [List.flatMap_congr fun c _ => parts c]
      exact (List.Perm.append_left _ emptied).trans (List.flatMap_append_perm all points _)
    exact insertionSort_eq_of_perm pointBefore perm
      (filledPoints_ordered texts agg filter groupBy ordered unique captured fill)

end Complete

/-! ## The series of a store -/

theorem factsForMeasure_captured {items : Nat → Option String} {stream : Option Nat} {f : MappedRow V}
    (member : f ∈ s.factsForMeasure items m stream) : f.capture ∈ s.captures := by
  obtain ⟨row, inside, rfl⟩ := List.mem_map.mp member
  exact heldFacts_captured inside

theorem factsForMeasure_sorted (s : Store V) (items : Nat → Option String) (m : Nat) (stream : Option Nat) :
    (s.factsForMeasure items m stream).Pairwise fun f g => captureBefore f.capture g.capture := by
  unfold Store.factsForMeasure
  refine List.pairwise_map.mpr ((List.pairwise_insertionSort rowBefore _).imp fun {a b} before => ?_)
  unfold rowBefore at before
  unfold captureBefore
  simp only [FactRow.mapped]
  omega

section Series
variable [Field V] [LinearOrder V] (texts : Texts) (order : HashOrder) (visibility : Visibility) (items : Nat → Option String)
  (s : Store V) (measure : Measure) (spec : SeriesSpec V)

/-- The producers that a series is read from. -/
def slice : List String := s.sliceProducers texts (s.factsForMeasure items measure.id spec.stream) measure spec.filter

/-- The finished captures of some producers in the streams a series is read from, oldest first. -/
def sliceCaptures (producers : List String) : List Capture :=
  (s.capturesForProducers producers).filter fun c => spec.stream.all (c.streamId == ·)

/-- What a replay of a partial measure reads by. -/
def foldRead : FoldRead V := ⟨spec.agg, spec.filter, spec.groupBy, visibility, measure.captureScope⟩

/-- The tree of a capture's branch, where the captures of some producers are replayed. -/
def branchTree (producers : List String) (c : Capture) : LiveTree V :=
  let facts := s.factsForMeasure items measure.id spec.stream
  let captures := sliceCaptures s spec producers
  treeAt texts (foldRead visibility measure spec) captures facts (s.restatedBy measure.captureScope captures facts) c

/-- The points of a capture. -/
def seriesPoints (c : Capture) : List (SeriesPoint V) :=
  let producers := slice texts items s measure spec
  match measure.captureScope with
  | .complete => filledPoints texts (s.factsForMeasure items measure.id spec.stream) spec.agg spec.filter spec.groupBy
      (sliceCaptures s spec producers) c
  | _ => livePoints texts (foldRead visibility measure spec) c ((branchTree texts visibility items s measure spec producers c).live order c.id)

/-- The captures a series has points of: for a complete measure also those that only have facts. -/
def seriesCaptures : List Capture :=
  match measure.captureScope with
  | .complete => s.captures.insertionSort captureBefore
  | _ => sliceCaptures s spec (slice texts items s measure spec)

variable {measure}

theorem seriesPoints_complete (whole : measure.captureScope = .complete) :
    seriesPoints texts order visibility items s measure spec =
      filledPoints texts (s.factsForMeasure items measure.id spec.stream) spec.agg spec.filter spec.groupBy
        (sliceCaptures s spec (slice texts items s measure spec)) := by
  funext c
  unfold seriesPoints
  rw [whole]

theorem seriesPoints_replayed (replayed : measure.captureScope ≠ .complete) (c : Capture) :
    seriesPoints texts order visibility items s measure spec c = livePoints texts (foldRead visibility measure spec) c
      ((branchTree texts visibility items s measure spec (slice texts items s measure spec) c).live order c.id) := by
  unfold seriesPoints
  cases scope : measure.captureScope with
  | complete => exact absurd scope replayed
  | perPath => rfl
  | perSubject => rfl

omit [Field V] in
theorem seriesCaptures_complete (whole : measure.captureScope = .complete) :
    seriesCaptures texts items s measure spec = s.captures.insertionSort captureBefore := by
  unfold seriesCaptures
  rw [whole]

omit [Field V] in
theorem seriesCaptures_replayed (replayed : measure.captureScope ≠ .complete) :
    seriesCaptures texts items s measure spec = sliceCaptures s spec (slice texts items s measure spec) := by
  unfold seriesCaptures
  cases scope : measure.captureScope with
  | complete => exact absurd scope replayed
  | perPath => rfl
  | perSubject => rfl

variable (measure) {s} (unique : (s.captures.map (·.id)).Nodup)
include unique

omit [Field V] [LinearOrder V] in
theorem capturesForProducers_unique (producers : List String) : ((s.capturesForProducers producers).map (·.id)).Nodup := by
  unfold Store.capturesForProducers
  exact ((List.perm_insertionSort captureBefore _).map (·.id)).nodup_iff.mpr (unique.sublist (List.filter_sublist.map _))

omit [Field V] [LinearOrder V] in
theorem sliceCaptures_ordered (producers : List String) : (sliceCaptures s spec producers).Pairwise earlier := by
  unfold sliceCaptures Store.capturesForProducers
  exact (sorted_strictly (unique.sublist (List.filter_sublist.map _))).sublist List.filter_sublist

omit [Field V] [LinearOrder V] in
theorem sliceCaptures_unique (producers : List String) : ((sliceCaptures s spec producers).map (·.id)).Nodup :=
  (capturesForProducers_unique unique producers).sublist (List.filter_sublist.map _)

omit unique [Field V] [LinearOrder V] in
theorem mem_sliceCaptures {producers : List String} :
    c ∈ sliceCaptures s spec producers ↔
    c ∈ s.captures ∧ c.producer ∈ producers ∧ c.status = .done ∧ spec.stream.all (c.streamId == ·) = true := by
  unfold sliceCaptures Store.capturesForProducers
  simp only [List.mem_filter, List.mem_insertionSort, List.contains_eq_mem, Bool.and_eq_true, decide_eq_true_eq, beq_iff_eq]
  rw [and_assoc, and_assoc]

omit [Field V] in
theorem seriesCaptures_ordered : (seriesCaptures texts items s measure spec).Pairwise earlier := by
  by_cases whole : measure.captureScope = .complete
  · rw [seriesCaptures_complete texts items s spec whole]
    exact sorted_strictly unique
  · rw [seriesCaptures_replayed texts items s spec whole]
    exact sliceCaptures_ordered spec unique _

omit [Field V] in
theorem seriesCaptures_unique : ((seriesCaptures texts items s measure spec).map (·.id)).Nodup := by
  by_cases whole : measure.captureScope = .complete
  · rw [seriesCaptures_complete texts items s spec whole]
    exact ((List.perm_insertionSort captureBefore s.captures).map (·.id)).nodup_iff.mpr unique
  · rw [seriesCaptures_replayed texts items s spec whole]
    exact sliceCaptures_unique spec unique _

omit [Field V] unique in
theorem mem_seriesCaptures (member : c ∈ seriesCaptures texts items s measure spec) : c ∈ s.captures := by
  by_cases whole : measure.captureScope = .complete
  · rw [seriesCaptures_complete texts items s spec whole] at member
    exact (List.mem_insertionSort _).mp member
  · rw [seriesCaptures_replayed texts items s spec whole] at member
    exact ((mem_sliceCaptures spec).mp member).1

omit unique in
theorem livePoints_capture {read : FoldRead V} {live : List (MappedRow V)} {p : SeriesPoint V}
    (inside : p ∈ livePoints texts read c live) : ∃ total group, p = c.point total group := by
  unfold livePoints at inside
  cases sliced : read.groupBy with
  | none =>
    rw [sliced] at inside
    have single : ∀ (shown : Bool) (total : Aggregate V), p ∈ (if shown = true then [c.point total none] else []) →
        ∃ total group, p = c.point total group := by
      intro shown total member
      split at member
      · exact ⟨_, _, List.mem_singleton.mp member⟩
      · cases member
    exact single _ _ inside
  | some dim =>
    rw [sliced] at inside
    simp only at inside
    obtain ⟨bucket, _, made⟩ := List.mem_filterMap.mp inside
    split at made
    · cases made
    · exact ⟨_, _, (Option.some.inj made).symm⟩

/-- The points of a capture carry what it is. -/
theorem seriesPoints_capture (member : c ∈ s.captures) {p : SeriesPoint V}
    (inside : p ∈ seriesPoints texts order visibility items s measure spec c) : ∃ total group, p = c.point total group := by
  by_cases whole : measure.captureScope = .complete
  · rw [seriesPoints_complete texts order visibility items s spec whole] at inside
    exact filledPoints_capture texts spec.agg spec.filter spec.groupBy unique (fun f known => factsForMeasure_captured known)
      member inside
  · rw [seriesPoints_replayed texts order visibility items s spec whole] at inside
    exact livePoints_capture texts inside

/-- A series is the points of its captures. -/
theorem foldSeries_eq : s.foldSeries texts order visibility items measure spec =
    (seriesCaptures texts items s measure spec).flatMap (seriesPoints texts order visibility items s measure spec) := by
  have ordered := sliceCaptures_ordered spec unique (slice texts items s measure spec)
  have distinct := sliceCaptures_unique spec unique (slice texts items s measure spec)
  unfold Store.foldSeries seriesCaptures seriesPoints branchTree foldRead
  cases scope : measure.captureScope with
  | complete =>
    have sorted := List.perm_insertionSort captureBefore s.captures
    refine splicedSeries_eq texts spec.agg spec.filter spec.groupBy (sorted_strictly unique)
      ((sorted.map (·.id)).nodup_iff.mpr unique) (fun f member => sorted.mem_iff.mpr (factsForMeasure_captured member))
      (factsForMeasure_sorted s items measure.id spec.stream) ?_ (capturesForProducers_unique unique _) spec.stream
    intro c member
    exact sorted.mem_iff.mpr (List.mem_filter.mp ((List.mem_insertionSort _).mp member)).1
  | perPath =>
    let read : FoldRead V := ⟨spec.agg, spec.filter, spec.groupBy, visibility, .perPath⟩
    exact treeStateSeries_eq texts read _ _ ordered distinct order
  | perSubject =>
    let read : FoldRead V := ⟨spec.agg, spec.filter, spec.groupBy, visibility, .perSubject⟩
    exact treeStateSeries_eq texts read _ _ ordered distinct order

end Series
end Oxplow.Proofs.SeriesPoints
