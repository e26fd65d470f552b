import Mathlib.Data.List.Induction
import Oxplow.Proofs.MemoFresh
import Oxplow.Proofs.SeriesPoints

/-! What retention deletes and where a series ends. The fold takes a capture that found
nothing as a restatement, and the captures retention keeps are found through facts, so a
deleted capture may have been what took an older fact off the series. -/

namespace Oxplow.Proofs.Retention
open Library Metrics FactChain Restatement RecordRuns Rehome PruneReads SeriesFrame SeriesWrites SeriesPoints MemoFresh

variable {V : Type}

/-! ## The last point of a branch -/

/-- The points of the capture that gave a branch's last point. -/
def lastPoints (branch : Option String) (points : List (SeriesPoint V)) : List (SeriesPoint V) :=
  let own := points.filter (·.branch == branch)
  (own.getLast?.map fun last => own.filter (·.captureId == last.captureId)).getD []

/-- The points are of their captures. -/
def OfCapture (points : Capture → List (SeriesPoint V)) (c : Capture) : Prop :=
  ∀ p ∈ points c, p.captureId = c.id ∧ p.branch = c.branch

variable {branch : Option String} {c : Capture}

theorem lastPoints_snoc {before own : List (SeriesPoint V)} (mine : ∀ p ∈ own, p.captureId = c.id ∧ p.branch = c.branch)
    (apart : ∀ p ∈ before, p.captureId ≠ c.id) :
    lastPoints branch (before ++ own) = if c.branch = branch ∧ own ≠ [] then own else lastPoints branch before := by
  unfold lastPoints
  rw [List.filter_append]
  simp only
  by_cases here : c.branch = branch ∧ own ≠ []
  · obtain ⟨same, some⟩ := here
    have all : own.filter (·.branch == branch) = own :=
      List.filter_eq_self.mpr fun p member => by simp [(mine p member).2, same]
    rw [if_pos ⟨same, some⟩, all]
    have last := List.getLast?_eq_some_getLast (l := own) some
    have found : (before.filter (·.branch == branch) ++ own).getLast? = own.getLast? := by
      rw [List.getLast?_append, last, Option.some_or]
    have id := (mine _ (List.getLast_mem some)).1
    have none : (before.filter (·.branch == branch)).filter (·.captureId == c.id) = [] := by
      apply List.filter_eq_nil_iff.mpr
      intro p member
      simpa using apart p (List.mem_filter.mp member).1
    have whole : own.filter (·.captureId == c.id) = own :=
      List.filter_eq_self.mpr fun p member => by simp [(mine p member).1]
    rw [found, last, Option.map_some, Option.getD_some, id, List.filter_append, none, whole, List.nil_append]
  · have none : own.filter (·.branch == branch) = [] := by
      apply List.filter_eq_nil_iff.mpr
      intro p member same
      exact here ⟨(mine p member).2.symm.trans (beq_iff_eq.mp same), List.ne_nil_of_mem member⟩
    rw [if_neg here, none]
    simp only [List.append_nil]

/-- Leaving captures out keeps a branch's last points, where the capture that gave them stays
as it is, and no later one comes to have a point. -/
theorem lastPoints_kept {keep : Capture → Bool} {points points' : Capture → List (SeriesPoint V)} {captures : List Capture}
    (unique : (captures.map (·.id)).Nodup) (mine : ∀ c ∈ captures, OfCapture points c)
    (mine' : ∀ c ∈ captures, keep c = true → OfCapture points' c)
    (kept : ∀ before c after, captures = before ++ c :: after → c.branch = branch →
      (∀ d ∈ after, d.branch = branch → points d = []) → (points c ≠ [] → keep c = true) ∧ (keep c = true → points' c = points c)) :
    lastPoints branch ((captures.filter keep).flatMap points') = lastPoints branch (captures.flatMap points) := by
  induction captures using List.reverseRecOn with
  | nil => rfl
  | append_singleton before c ih =>
    have uniqueBefore : (before.map (·.id)).Nodup := by
      rw [List.map_append] at unique
      exact unique.of_append_left
    have apart : ∀ d ∈ before, d.id ≠ c.id := by
      intro d member same
      rw [List.map_append, List.nodup_append] at unique
      exact unique.2.2 d.id (List.mem_map_of_mem member) c.id (by simp) same
    have apartPoints : ∀ {chosen : List Capture} {points : Capture → List (SeriesPoint V)}, chosen ⊆ before →
        (∀ d ∈ chosen, OfCapture points d) → ∀ p ∈ chosen.flatMap points, p.captureId ≠ c.id := by
      intro chosen points inside own p member
      obtain ⟨d, inChosen, inPoints⟩ := List.mem_flatMap.mp member
      rw [(own d inChosen p inPoints).1]
      exact apart d (inside inChosen)
    have mineBefore : ∀ d ∈ before, OfCapture points d := fun d member => mine d (List.mem_append_left _ member)
    have mineKept : ∀ d ∈ before.filter keep, OfCapture points' d := fun d member =>
      mine' d (List.mem_append_left _ (List.mem_filter.mp member).1) (List.mem_filter.mp member).2
    have inside : c ∈ before ++ [c] := by simp
    have here := kept before c [] rfl
    have rest : ¬ (c.branch = branch ∧ points c ≠ []) →
        lastPoints branch ((before.filter keep).flatMap points') = lastPoints branch (before.flatMap points) := by
      intro empty
      refine ih uniqueBefore mineBefore (fun d member => mine' d (List.mem_append_left _ member)) ?_
      intro first d after whole same none
      refine kept first d (after ++ [c]) (by rw [whole]; simp) same ?_
      intro e member sameE
      rcases List.mem_append.mp member with inAfter | last
      · exact none e inAfter sameE
      · rw [List.mem_singleton.mp last] at sameE ⊢
        by_contra some
        exact empty ⟨sameE, some⟩
    rw [List.flatMap_append, List.flatMap_singleton, lastPoints_snoc (mine c inside) (apartPoints (List.Subset.refl _) mineBefore),
      List.filter_append]
    cases stays : keep c with
    | true =>
      rw [List.filter_cons_of_pos stays, List.filter_nil, List.flatMap_append, List.flatMap_singleton,
        lastPoints_snoc (mine' c inside stays) (apartPoints (List.filter_subset_self _) mineKept)]
      by_cases same : c.branch = branch
      · rw [(here same (by simp)).2 stays]
        split
        next => rfl
        next empty => exact rest empty
      · rw [if_neg fun both => same both.1, if_neg fun both => same both.1]
        exact rest fun both => same both.1
    | false =>
      have empty : ¬ (c.branch = branch ∧ points c ≠ []) := by
        intro both
        have kept := (here both.1 (by simp)).1 both.2
        rw [stays] at kept
        cases kept
      rw [List.filter_cons_of_neg (by simp [stays]), List.filter_nil, List.append_nil, if_neg empty]
      exact rest empty

/-! ## A store and its prune -/

section Store
variable {scope : Nat → Option CaptureScope} {s : Store V} (valid : Valid scope s) {doomed : List Nat}

/-- `c` is not deleted. -/
def survives (doomed : List Nat) (c : Capture) : Bool := !doomed.contains c.id

/-- The store's captures that are not deleted. -/
def survivors (s : Store V) (doomed : List Nat) : Store V := { s with captures := s.captures.filter (survives doomed) }

theorem survives_iff : survives doomed c = true ↔ c.id ∉ doomed := by
  simp [survives]

theorem pruned_capturesForProducers (producers : List String) : (s.pruneDoomed doomed).capturesForProducers producers =
    (s.capturesForProducers producers).filter (survives doomed) := by
  unfold Store.capturesForProducers
  rw [filter_insertionSort, pruned_captures, List.filter_filter, List.filter_filter]
  congr 1
  apply List.filter_congr
  intro c _
  exact Bool.and_comm _ _

include valid

/-- A measure's facts after a prune are those of the captures that are left. -/
theorem pruned_factsForMeasure (held : HeldAtHome s doomed) (kept : LinesKept s doomed) (items : Nat → Option String) (m : Nat)
    (stream : Option Nat) : (s.pruneDoomed doomed).factsForMeasure items m stream =
      (s.factsForMeasure items m stream).filter fun f => survives doomed f.capture := by
  let holders := (stream.map Holders.stream).getD .all
  let ids := (s.captures.filter fun c => holders.wants c && survives doomed c).map (·.id)
  have wanted : ∀ c ∈ s.captures, (Holders.ids ids).wants c = (holders.wants c && survives doomed c) := by
    intro c member
    have among : (Holders.ids ids).wants c = true ↔ c.id ∈ ids := by simp [Holders.wants]
    rw [Bool.eq_iff_iff, among]
    constructor
    · intro inside
      obtain ⟨d, chosen, sameId⟩ := List.mem_map.mp inside
      obtain ⟨known, wants⟩ := List.mem_filter.mp chosen
      have same : d = c := List.inj_on_of_nodup_map valid.captureIds known member sameId
      exact same ▸ wants
    · exact fun wants => List.mem_map_of_mem (List.mem_filter.mpr ⟨member, wants⟩)
  have rows : (s.pruneDoomed doomed).heldFacts m holders = (s.heldFacts m holders).filter fun row => survives doomed row.capture := by
    calc (s.pruneDoomed doomed).heldFacts m holders
        = (s.pruneDoomed doomed).heldFacts m (.ids ids) := by
          apply heldFacts_congr
          intro c member
          obtain ⟨known, stays⟩ := survivor_mem.mp member
          rw [wanted c known, survives_iff.mpr stays, Bool.and_true]
          exact .inr rfl
      _ = s.heldFacts m (.ids ids) := by
          apply pruned_heldFacts valid held kept
          intro c wants
          simp only [Holders.wants, List.contains_eq_mem, decide_eq_true_eq] at wants
          obtain ⟨d, chosen, sameId⟩ := List.mem_map.mp wants
          have stays := (Bool.and_eq_true_iff.mp (List.mem_filter.mp chosen).2).2
          exact sameId ▸ survives_iff.mp stays
      _ = (s.heldFacts m holders).filter fun row => survives doomed row.capture := (heldFacts_filter wanted).symm
  unfold Store.factsForMeasure
  rw [rows, List.filter_map]
  rfl

/-- No fact that has a path moves up to an assertion. -/
def AssertionsKept (s : Store V) (doomed : List Nat) : Prop :=
  ∀ f ∈ s.facts, ∀ home ∈ s.home doomed f, ∀ c ∈ s.captures, c.id = home → c.scanKind = .asserted → f.path = none

theorem pruned_scannedPaths (asserted : AssertionsKept s doomed) (member : c ∈ s.captures) (stays : c.id ∉ doomed) :
    (s.pruneDoomed doomed).scannedPaths c = s.scannedPaths c := by
  unfold Store.scannedPaths
  split
  next => rfl
  next =>
    cases kind : c.scanKind with
    | delta => rfl
    | full => rfl
    | asserted =>
      refine pruned_filterMap s doomed ?_ ?_
      · intro f inside _
        cases found : s.home doomed f with
        | none => rw [rehomed_of_none s doomed found]
        | some home =>
          obtain ⟨_, _, _, _, at_, _⟩ := home_eq_some valid doomed found
          have gone : (f.captureId == c.id) = false := by
            rw [beq_eq_false_iff_ne]
            exact fun same => stays (same ▸ at_.gone)
          rw [rehomed_path, gone, rehomed_of_some s doomed found]
          simp only
          split
          next here => exact asserted f inside home found c member (beq_iff_eq.mp here).symm kind
          next => rfl
      · intro f _ lost
        have gone : (f.captureId == c.id) = false := by
          rw [beq_eq_false_iff_ne]
          exact fun same => stays (same ▸ lost_gone valid lost)
        rw [gone]
        rfl

end Store

/-! ## When the last point stays -/

section Series
variable [Field V] [LinearOrder V] (texts : Texts) (order : HashOrder) (visibility : Visibility) (items : Nat → Option String)
  (s : Store V) (doomed : List Nat) (measure : Measure) (spec : SeriesSpec V)

/-- The producers that the series is read from once the captures are deleted. -/
def sliceAfter : List String :=
  (survivors s doomed).sliceProducers texts
    ((s.factsForMeasure items measure.id spec.stream).filter fun f => survives doomed f.capture) measure spec.filter

/-- `c` is among the captures that are replayed after. -/
def keeps (c : Capture) : Bool := survives doomed c && (sliceAfter texts items s doomed measure spec).contains c.producer

/-- The branch starts from the same captures but for those left out, and what stands at `c` is
neither deleted nor joined by facts that a capture left out took off. -/
def ReplayKept (c : Capture) : Prop :=
  let read := foldRead visibility measure spec
  let facts := s.factsForMeasure items measure.id spec.stream
  let captures := sliceCaptures s spec (slice texts items s measure spec)
  let keep := keeps texts items s doomed measure spec
  replay read (captures.filter keep) c = (replay read captures c).filter keep ∧
    StandingKept (takesOut read facts (s.restatedBy measure.captureScope captures facts)) (puts texts read facts) keep
      (replay read captures c)

/-- No later capture of the branch has a point. -/
def LastOf (branch : Option String) (c : Capture) : Prop :=
  c.branch = branch ∧ ∀ d ∈ seriesCaptures texts items s measure spec, d.branch = branch → earlier c d →
    seriesPoints texts order visibility items s measure spec d = []

/-- Of a complete measure, the run that gave the last point stays, and its producer too where
the run found nothing. -/
def RunKept (branch : Option String) : Prop :=
  ∀ c ∈ s.captures, LastOf texts order visibility items s measure spec branch c →
    seriesPoints texts order visibility items s measure spec c ≠ [] → c.id ∉ doomed ∧
      (capturePoints texts (s.factsForMeasure items measure.id spec.stream) spec.agg spec.filter spec.groupBy c.id = [] →
        c.producer ∈ sliceAfter texts items s doomed measure spec)

/-- Of a partial measure, the capture that gave the last point stays, and from it on the tree
of each capture that stays. -/
def TreesKept (branch : Option String) : Prop :=
  ∀ c ∈ sliceCaptures s spec (slice texts items s measure spec), LastOf texts order visibility items s measure spec branch c →
    (seriesPoints texts order visibility items s measure spec c ≠ [] → keeps texts items s doomed measure spec c = true) ∧
      (keeps texts items s doomed measure spec c = true → ReplayKept texts visibility items s doomed measure spec c)

/-- Deleting `doomed` leaves what the branch's last point stands on. -/
structure Retained (branch : Option String) : Prop where
  held : HeldAtHome s doomed
  lines : LinesKept s doomed
  asserted : AssertionsKept s doomed
  producers : ∀ p ∈ sliceAfter texts items s doomed measure spec, p ∈ slice texts items s measure spec
  complete : measure.captureScope = .complete → RunKept texts order visibility items s doomed measure spec branch
  replayed : measure.captureScope ≠ .complete → TreesKept texts order visibility items s doomed measure spec branch

variable {texts visibility items s doomed measure spec} {scope : Nat → Option CaptureScope} (valid : Valid scope s)
  (held : HeldAtHome s doomed) (lines : LinesKept s doomed)
include valid held lines

omit [Field V] in
theorem pruned_slice : slice texts items (s.pruneDoomed doomed) measure spec = sliceAfter texts items s doomed measure spec := by
  unfold slice sliceAfter
  rw [pruned_factsForMeasure valid held lines]
  unfold Store.sliceProducers Store.producersForCaptureSource survivors survives
  rw [pruned_captures]

omit [Field V] in
theorem pruned_sliceCaptures (producers : ∀ p ∈ sliceAfter texts items s doomed measure spec, p ∈ slice texts items s measure spec) :
    sliceCaptures (s.pruneDoomed doomed) spec (slice texts items (s.pruneDoomed doomed) measure spec) =
      (sliceCaptures s spec (slice texts items s measure spec)).filter (keeps texts items s doomed measure spec) := by
  rw [pruned_slice valid held lines]
  unfold sliceCaptures
  rw [pruned_capturesForProducers]
  unfold Store.capturesForProducers
  simp only [filter_insertionSort, List.filter_filter]
  congr 1
  apply List.filter_congr
  intro c _
  rw [Bool.eq_iff_iff]
  simp only [keeps, Bool.and_eq_true, List.contains_eq_mem, decide_eq_true_eq]
  constructor
  · intro ⟨inStream, stays, inside, done⟩
    exact ⟨⟨stays, inside⟩, inStream, producers c.producer inside, done⟩
  · intro ⟨⟨stays, inside⟩, inStream, _, done⟩
    exact ⟨inStream, stays, inside, done⟩

omit [Field V] [LinearOrder V] in
/-- A survivor's own facts stay. -/
theorem pruned_ownFacts {id : Nat} (stays : id ∉ doomed) :
    ((s.pruneDoomed doomed).factsForMeasure items measure.id spec.stream).filter (·.capture.id == id) =
      (s.factsForMeasure items measure.id spec.stream).filter (·.capture.id == id) := by
  rw [pruned_factsForMeasure valid held lines, List.filter_filter]
  apply List.filter_congr
  intro f _
  by_cases own : f.capture.id = id
  · rw [survives_iff.mpr (own ▸ stays), Bool.and_true]
  · have other : (f.capture.id == id) = false := beq_eq_false_iff_ne.mpr own
    rw [other, Bool.false_and]

omit [Field V] [LinearOrder V] in
/-- What a survivor restates stays. -/
theorem pruned_restatedBy (asserted : AssertionsKept s doomed) {captures : List Capture} (known : ∀ e ∈ captures, e ∈ s.captures)
    {keep : Capture → Bool} (leaves : ∀ e, keep e = true → e.id ∉ doomed) {e : Capture} (member : e ∈ captures)
    (kept : keep e = true) : (s.pruneDoomed doomed).restatedBy measure.captureScope (captures.filter keep)
      ((s.pruneDoomed doomed).factsForMeasure items measure.id spec.stream) e.id =
        s.restatedBy measure.captureScope captures (s.factsForMeasure items measure.id spec.stream) e.id := by
  have stays := leaves e kept
  unfold Store.restatedBy
  cases measure.captureScope with
  | complete => rfl
  | perSubject => simp only [pruned_ownFacts valid held lines stays]
  | perPath =>
    have same : ∀ d ∈ captures, d.id = e.id → d = e :=
      fun d inside => List.inj_on_of_nodup_map valid.captureIds (known d inside) (known e member)
    have chosen : (captures.filter keep).filter (·.id == e.id) = captures.filter (·.id == e.id) := by
      rw [List.filter_filter]
      apply List.filter_congr
      intro d inside
      by_cases own : d.id = e.id
      · rw [same d inside own, kept, Bool.and_true]
      · have other : (d.id == e.id) = false := beq_eq_false_iff_ne.mpr own
        rw [other, Bool.false_and]
    simp only [chosen]
    apply List.flatMap_congr
    intro d inside
    obtain ⟨inCaptures, own⟩ := List.mem_filter.mp inside
    rw [same d inCaptures (beq_iff_eq.mp own)]
    exact pruned_scannedPaths valid asserted (known e member) stays

omit [Field V] in
/-- A branch that replays the same captures but for what no longer stands has the same tree. -/
theorem pruned_branchTree (asserted : AssertionsKept s doomed)
    (producers : ∀ p ∈ sliceAfter texts items s doomed measure spec, p ∈ slice texts items s measure spec)
    (kept : ReplayKept texts visibility items s doomed measure spec c) :
    branchTree texts visibility items (s.pruneDoomed doomed) measure spec (slice texts items (s.pruneDoomed doomed) measure spec) c =
      branchTree texts visibility items s measure spec (slice texts items s measure spec) c := by
  obtain ⟨replayed, stands⟩ := kept
  let captures := sliceCaptures s spec (slice texts items s measure spec)
  let keep := keeps texts items s doomed measure spec
  have known : ∀ e ∈ captures, e ∈ s.captures := fun e member => ((mem_sliceCaptures spec).mp member).1
  have leaves : ∀ e, keep e = true → e.id ∉ doomed := fun e kept => survives_iff.mp (Bool.and_eq_true_iff.mp kept).1
  have chosen : ∀ e ∈ (replay (foldRead visibility measure spec) captures c).filter keep, e ∈ captures ∧ keep e = true := by
    intro e member
    obtain ⟨inReplay, kept⟩ := List.mem_filter.mp member
    exact ⟨mem_replay _ _ inReplay, kept⟩
  unfold branchTree treeAt
  simp only
  rw [pruned_sliceCaptures valid held lines producers, replayed, ← standing_filter stands]
  apply standing_congr
  · intro e member
    obtain ⟨inCaptures, kept⟩ := chosen e member
    funext live
    unfold takesOut scalarKeys
    rw [pruned_restatedBy valid held lines asserted known leaves inCaptures kept, pruned_ownFacts valid held lines (leaves e kept)]
  · intro e member
    obtain ⟨_, kept⟩ := chosen e member
    unfold puts
    rw [pruned_ownFacts valid held lines (leaves e kept)]

/-- A survivor of a complete measure has the points it had, where it keeps its zero. -/
theorem pruned_filledPoints (producers : ∀ p ∈ sliceAfter texts items s doomed measure spec, p ∈ slice texts items s measure spec)
    (member : c ∈ s.captures) (stays : c.id ∉ doomed) : let facts := s.factsForMeasure items measure.id spec.stream
    let filled := sliceCaptures s spec (slice texts items s measure spec)
    (filledPoints texts facts spec.agg spec.filter spec.groupBy filled c ≠ [] →
      capturePoints texts facts spec.agg spec.filter spec.groupBy c.id = [] → c.producer ∈ sliceAfter texts items s doomed measure spec) →
    filledPoints texts ((s.pruneDoomed doomed).factsForMeasure items measure.id spec.stream) spec.agg spec.filter spec.groupBy
      (sliceCaptures (s.pruneDoomed doomed) spec (slice texts items (s.pruneDoomed doomed) measure spec)) c =
        filledPoints texts facts spec.agg spec.filter spec.groupBy filled c := by
  intro facts filled zeroed
  have own : capturePoints texts ((s.pruneDoomed doomed).factsForMeasure items measure.id spec.stream) spec.agg spec.filter
      spec.groupBy c.id = capturePoints texts facts spec.agg spec.filter spec.groupBy c.id := by
    rw [capturePoints_own, pruned_ownFacts valid held lines stays, ← capturePoints_own]
  have among : ∀ {list : List Capture}, (∀ d ∈ list, d ∈ s.captures) → (list.any (·.id == c.id) = true ↔ c ∈ list) := by
    intro list known
    rw [List.any_eq_true]
    constructor
    · intro ⟨d, inside, sameId⟩
      have same : d = c := List.inj_on_of_nodup_map valid.captureIds (known d inside) member (beq_iff_eq.mp sameId)
      exact same ▸ inside
    · exact fun inside => ⟨c, inside, beq_self_eq_true _⟩
  have known : ∀ d ∈ filled, d ∈ s.captures := fun d inside => ((mem_sliceCaptures spec).mp inside).1
  have after : (filled.filter (keeps texts items s doomed measure spec)).any (·.id == c.id) = true ↔
      c ∈ filled ∧ c.producer ∈ sliceAfter texts items s doomed measure spec := by
    rw [among fun d inside => known d (List.mem_filter.mp inside).1, List.mem_filter]
    simp [keeps, survives_iff.mpr stays]
  rw [pruned_sliceCaptures valid held lines producers]
  unfold filledPoints
  rw [own]
  by_cases nothing : capturePoints texts facts spec.agg spec.filter spec.groupBy c.id = []
  · rw [nothing, List.isEmpty_nil, Bool.and_true]
    by_cases zero : fills spec.agg spec.groupBy = true ∧ c ∈ filled
    · have shown : filledPoints texts facts spec.agg spec.filter spec.groupBy filled c ≠ [] := by
        unfold filledPoints
        rw [nothing, zero.1, (among known).mpr zero.2]
        simp
      rw [(among known).mpr zero.2, after.mpr ⟨zero.2, zeroed shown nothing⟩]
    · have none : ∀ {inside : Bool}, (inside = true → c ∈ filled) → (fills spec.agg spec.groupBy && inside) = false := by
        intro inside known
        rw [← Bool.not_eq_true, Bool.and_eq_true]
        exact fun both => zero ⟨both.1, known both.2⟩
      rw [none fun inside => (after.mp inside).1, none (among known).mp]
  · have some : (capturePoints texts facts spec.agg spec.filter spec.groupBy c.id).isEmpty = false := by
      rw [← Bool.not_eq_true, List.isEmpty_iff]
      exact nothing
    rw [some, Bool.and_false, Bool.false_and, Bool.false_and]

omit [Field V] in
theorem pruned_seriesCaptures (producers : ∀ p ∈ sliceAfter texts items s doomed measure spec, p ∈ slice texts items s measure spec) :
    seriesCaptures texts items (s.pruneDoomed doomed) measure spec = (seriesCaptures texts items s measure spec).filter
      (if measure.captureScope = .complete then survives doomed else keeps texts items s doomed measure spec) := by
  by_cases whole : measure.captureScope = .complete
  · rw [if_pos whole, seriesCaptures_complete texts items _ spec whole, seriesCaptures_complete texts items _ spec whole,
      filter_insertionSort, pruned_captures]
    rfl
  · rw [if_neg whole, seriesCaptures_replayed texts items _ spec whole, seriesCaptures_replayed texts items _ spec whole]
    exact pruned_sliceCaptures valid held lines producers

omit held lines in
/-- Deleting captures that the last point of a branch does not stand on keeps it. -/
theorem pruned_lastPoints (retained : Retained texts order visibility items s doomed measure spec branch) :
    lastPoints branch ((s.pruneDoomed doomed).foldSeries texts order visibility items measure spec) =
      lastPoints branch (s.foldSeries texts order visibility items measure spec) := by
  obtain ⟨held, lines, asserted, producers, complete, replayed⟩ := retained
  have validAfter : Valid scope (s.pruneDoomed doomed) := pruned_valid valid
  have captures := pruned_seriesCaptures valid held lines producers
  have ordered := seriesCaptures_ordered texts items measure spec valid.captureIds
  have ofCapture : ∀ {t : Store V}, Valid scope t → ∀ c ∈ t.captures,
      OfCapture (seriesPoints texts order visibility items t measure spec) c := by
    intro t valid c member p inside
    obtain ⟨_, _, rfl⟩ := seriesPoints_capture texts order visibility items measure spec valid.captureIds member inside
    exact ⟨rfl, rfl⟩
  rw [foldSeries_eq texts order visibility items measure spec validAfter.captureIds,
    foldSeries_eq texts order visibility items measure spec valid.captureIds, captures]
  refine lastPoints_kept (seriesCaptures_unique texts items measure spec valid.captureIds)
    (fun c member => ofCapture valid c (mem_seriesCaptures texts items measure spec member)) ?_ ?_
  · intro c member kept
    have inside : c ∈ seriesCaptures texts items (s.pruneDoomed doomed) measure spec := by
      rw [captures]
      exact List.mem_filter.mpr ⟨member, kept⟩
    exact ofCapture validAfter c (mem_seriesCaptures texts items measure spec inside)
  · intro before c after whole same none
    have member : c ∈ seriesCaptures texts items s measure spec := by rw [whole]; simp
    have last : LastOf texts order visibility items s measure spec branch c := by
      refine ⟨same, fun d inside sameD later => ?_⟩
      rw [whole] at inside ordered
      have pairs := List.pairwise_append.mp ordered
      rcases List.mem_append.mp inside with first | rest
      · exact absurd later (earlier_asymm d c (pairs.2.2 d first c List.mem_cons_self))
      · rcases List.mem_cons.mp rest with rfl | inAfter
        · exact absurd later (earlier_asymm d d later)
        · exact none d inAfter sameD
    by_cases scope : measure.captureScope = .complete
    · have known := mem_seriesCaptures texts items measure spec member
      rw [if_pos scope, survives_iff]
      refine ⟨fun some => (complete scope c known last some).1, fun stays => ?_⟩
      rw [seriesPoints_complete texts order visibility items _ spec scope, seriesPoints_complete texts order visibility items _ spec scope]
      apply pruned_filledPoints valid held lines producers known stays
      intro some
      rw [← seriesPoints_complete texts order visibility items s spec scope] at some
      exact (complete scope c known last some).2
    · rw [if_neg scope]
      rw [seriesCaptures_replayed texts items s spec scope] at member
      obtain ⟨kept, tree⟩ := replayed scope c member last
      refine ⟨kept, fun stays => ?_⟩
      rw [seriesPoints_replayed texts order visibility items _ spec scope, seriesPoints_replayed texts order visibility items _ spec scope,
        pruned_branchTree valid held lines asserted producers (tree stays)]

end Series

/-! ## Runs -/

section Runs
variable [Field V] [LinearOrder V] {catalog : Catalog V}

omit [Field V] [LinearOrder V] in
theorem prune_valid {db : SeriesDb V} (valid : Valid catalog.scope db.store) (doomed : List Nat) :
    Valid catalog.scope (db.prune doomed).store := by
  unfold SeriesDb.prune
  split
  · exact valid
  · exact pruned_valid valid

variable (catalog) in
/-- A read leaves the store as it is. -/
theorem read_store (db : SeriesDb V) (measure : Measure) (spec : SeriesSpec V) (window : Option TimeWindow) (order : HashOrder)
    (cubed : Option (List (SeriesPoint V))) :
    (db.seriesInStream catalog measure spec window order cubed).1.store = db.store := by
  unfold SeriesDb.seriesInStream
  cases cubed with
  | some points => rfl
  | none =>
    simp only
    split
    · rfl
    · simp only
      split <;> rfl

theorem step_valid {db next : SeriesDb V} {step : SeriesStep V} {out : List (SeriesPoint V)} (valid : Valid catalog.scope db.store)
    (moves : db.step catalog step = some (next, out)) : Valid catalog.scope next.store := by
  cases step with
  | record capture facts =>
    cases moves
    change Valid catalog.scope (db.store.record catalog.scope catalog.refused capture facts)
    rw [record_eq]
    split
    · exact (written_spec valid capture facts).1
    · exact valid
  | pruneDominated streamId =>
    cases moves
    exact prune_valid valid _
  | pruneAged cutoff =>
    cases moves
    exact prune_valid valid _
  | startEffort start =>
    cases moves
    exact (startEffort_restamps db start).1.valid valid
  | finishEffort id end_ =>
    cases moves
    exact (finishEffort_restamps db id end_).1.valid valid
  | linkEffort id workItem =>
    obtain ⟨_, _, same⟩ := Option.map_eq_some_iff.mp moves
    cases same
    exact valid
  | read m spec window order cubed =>
    cases known : catalog.measure m with
    | none =>
      simp only [SeriesDb.step, known] at moves
      cases moves
      exact valid
    | some row =>
      simp only [SeriesDb.step, known] at moves
      have same := read_store catalog db ⟨m, row.1, row.2⟩ spec window order cubed
      rw [Option.some.inj moves] at same
      exact same ▸ valid

theorem run_valid (files : List FileSnapshot) (steps : List (SeriesStep V)) :
    Valid catalog.scope (Machine.run (SeriesDb.step catalog) (SeriesDb.start files) steps).store := by
  refine Machine.run_invariant (fun (db : SeriesDb V) _ => Valid catalog.scope db.store) ?_ []
    (StoreInvariant.withFiles_valid StoreInvariant.empty_valid files) steps
  intro db log step next out valid moves
  exact step_valid valid moves

end Runs

/-! ## Runs that keep it, and runs that do not -/

section Decide

/-- The parts a fact can be held with. -/
def partsOf (f : Fact V) : List Part := .measure f.measureId :: (f.path.map (.file f.measureId)).toList

theorem mem_partsOf {part : Part} {f : Fact V} (covered : part.covers f.toNewFact = true) : part ∈ partsOf f := by
  cases part with
  | measure m =>
    have same : f.measureId = m := by simpa [Part.covers] using covered
    rw [← same]
    exact List.mem_cons_self
  | file m path =>
    obtain ⟨same, onPath⟩ : f.measureId = m ∧ f.path = some path := by simpa [Part.covers] using covered
    rw [← same]
    apply List.mem_cons_of_mem
    simp [onPath]

instance (s : Store V) (doomed : List Nat) : Decidable (HeldAtHome s doomed) :=
  decidable_of_iff (∀ f ∈ s.facts, f.captureId ∈ doomed → ∀ c ∈ s.captures, c.id ∉ doomed → ∀ part ∈ partsOf f,
    ∀ link ∈ s.link part c.id, s.holds c part link f = true → (s.link part f.captureId).isSome = true) (by
    constructor
    · intro held f inside gone c member survives part link linked holds
      exact held f inside gone c member survives part (mem_partsOf (holds_iff.mp holds).covered) link linked holds
    · exact fun held f inside gone c member survives part _ link linked => held f inside gone c member survives part link linked)

instance (s : Store V) (doomed : List Nat) : Decidable (AssertionsKept s doomed) :=
  inferInstanceAs (Decidable (∀ f ∈ s.facts, ∀ home ∈ s.home doomed f, ∀ c ∈ s.captures, _ → _ → _))

variable [Field V] [LinearOrder V] (texts : Texts) (order : HashOrder) (visibility : Visibility) (items : Nat → Option String)
  (s : Store V) (doomed : List Nat) (measure : Measure) (spec : SeriesSpec V)

instance (c : Capture) : Decidable (ReplayKept texts visibility items s doomed measure spec c) :=
  inferInstanceAs (Decidable (_ ∧ StandingKept _ _ _ _))

instance (branch : Option String) (c : Capture) : Decidable (LastOf texts order visibility items s measure spec branch c) :=
  inferInstanceAs (Decidable (_ ∧ ∀ d ∈ seriesCaptures texts items s measure spec, _ → _ → _))

instance (branch : Option String) : Decidable (RunKept texts order visibility items s doomed measure spec branch) :=
  inferInstanceAs (Decidable (∀ c ∈ s.captures, _ → _ → _ ∧ (_ → _)))

instance (branch : Option String) : Decidable (TreesKept texts order visibility items s doomed measure spec branch) :=
  inferInstanceAs (Decidable (∀ c ∈ sliceCaptures s spec (slice texts items s measure spec), _ → (_ → _) ∧ (_ → _)))

instance (branch : Option String) : Decidable (Retained texts order visibility items s doomed measure spec branch) :=
  decidable_of_iff (HeldAtHome s doomed ∧ LinesKept s doomed ∧ AssertionsKept s doomed ∧
    (∀ p ∈ sliceAfter texts items s doomed measure spec, p ∈ slice texts items s measure spec) ∧
    (measure.captureScope = .complete → RunKept texts order visibility items s doomed measure spec branch) ∧
    (measure.captureScope ≠ .complete → TreesKept texts order visibility items s doomed measure spec branch))
    ⟨fun ⟨held, lines, asserted, producers, complete, replayed⟩ => ⟨held, lines, asserted, producers, complete, replayed⟩,
      fun ⟨held, lines, asserted, producers, complete, replayed⟩ => ⟨held, lines, asserted, producers, complete, replayed⟩⟩

end Decide

/-- A per-path measure. -/
def pathCatalog : Catalog ℚ := { testCatalog with measure := fun m => if m = 1 then some ("oxplow.todo", .perPath) else none }

def testScan (snapshot : Nat) (time : Int) : NewMetricCapture := { testRun "todo" time with snapshotId := some snapshot }

def todoMeasure : Measure := ⟨1, "oxplow.todo", .perPath⟩
def testMeasure : Measure := ⟨1, "oxplow.test_case", .complete⟩

end Oxplow.Proofs.Retention
