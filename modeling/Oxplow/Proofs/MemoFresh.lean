import Mathlib.Algebra.Field.Rat
import Mathlib.Algebra.Order.Ring.Rat
import Oxplow.Metrics.SeriesReads
import Oxplow.Proofs.SeriesWrites

/-! What the memo of folds answers is what a fold would give, as long as no step changes
what a fold reads without moving the token: the token counts captures, and an effort's stamps
are columns of captures that are there. -/

namespace Oxplow.Proofs.MemoFresh
open Library Metrics Efforts Restatement RecordRuns PruneReads SeriesFrame SeriesWrites

variable {V : Type}

section
variable [Field V] [LinearOrder V] (catalog : Catalog V)

/-! ## When a step keeps what was folded -/

/-- Every fact has the values it had of the dimensions that a read of the measure slices or
filters by. -/
def StampsKept (db next : SeriesDb V) (m : Nat) (spec : SeriesSpec V) : Prop :=
  (next.store.factsForMeasure next.efforts.workItems m spec.stream).map
      (fun f => (readDims spec.filter spec.groupBy).map (dimValue catalog.texts f)) =
    (db.store.factsForMeasure db.efforts.workItems m spec.stream).map fun f =>
      (readDims spec.filter spec.groupBy).map (dimValue catalog.texts f)

/-- A new capture is finished or has no fact of the measure; and while no lint hit matches, it
is none of an analyzer's. -/
def WriteKept (db : SeriesDb V) (capture : NewMetricCapture) (facts : List (NewFact V)) (m : Nat) (spec : SeriesSpec V) : Prop :=
  (capture.status ≠ .done → ∀ f ∈ facts, f.measureId ≠ m) ∧
    (capture.status = .done → (catalog.measure m).map (·.1) = some "oxplow.lint_hit" →
      (db.store.factsForMeasure db.efforts.workItems m spec.stream).filter (spec.filter.matches catalog.texts) = [] →
        capture.producer ∉ (written catalog.scope db.store capture facts).producersForCaptureSource "analysis-report")

def StepKept (db : SeriesDb V) (step : SeriesStep V) (m : Nat) (spec : SeriesSpec V) : Prop :=
  match step with
  | .record capture facts => Accepted catalog.refused db.store capture facts → WriteKept catalog db capture facts m spec
  | .startEffort _ | .finishEffort _ _ | .linkEffort _ _ =>
    StampsKept catalog db (Machine.advance (SeriesDb.step catalog) db step) m spec
  | .pruneDominated _ | .pruneAged _ | .read _ _ _ _ _ => True

/-- The step moves the token of each series that the memo would answer with, or keeps what the
series was folded from. -/
def Steady (db : SeriesDb V) (step : SeriesStep V) : Prop :=
  ∀ entry ∈ db.memo.entries, db.memo.token.get entry.1.1 = some (db.token entry.1.1) →
    (Machine.advance (SeriesDb.step catalog) db step).token entry.1.1 = db.token entry.1.1 →
      StepKept catalog db step entry.1.1 entry.1.2

instance (db next : SeriesDb V) (m : Nat) (spec : SeriesSpec V) : Decidable (StampsKept catalog db next m spec) :=
  inferInstanceAs (Decidable (_ = _))

instance (db : SeriesDb V) (capture : NewMetricCapture) (facts : List (NewFact V)) (m : Nat) (spec : SeriesSpec V) :
    Decidable (WriteKept catalog db capture facts m spec) := inferInstanceAs (Decidable (_ ∧ _))

instance (db : SeriesDb V) : (step : SeriesStep V) → (m : Nat) → (spec : SeriesSpec V) → Decidable (StepKept catalog db step m spec)
  | .record _ _, _, _ => inferInstanceAs (Decidable (_ → _))
  | .startEffort _, _, _ | .finishEffort _ _, _, _ | .linkEffort _ _, _, _ => inferInstanceAs (Decidable (StampsKept _ _ _ _ _))
  | .pruneDominated _, _, _ | .pruneAged _, _, _ | .read _ _ _ _ _, _, _ => inferInstanceAs (Decidable True)

instance (db : SeriesDb V) (step : SeriesStep V) : Decidable (Steady catalog db step) :=
  inferInstanceAs (Decidable (∀ entry ∈ db.memo.entries, _ → _ → _))

end

/-! ## Tokens -/

/-- The epoch grows, or it stays and no capture of a measure is lost. -/
def TokensGrow (db next : SeriesDb V) : Prop :=
  db.epoch < next.epoch ∨ db.epoch = next.epoch ∧ ∀ m, (db.token m).count ≤ (next.token m).count ∧
    ((db.token m).count = (next.token m).count → next.token m = db.token m)

theorem tokensGrow_of_same {db next : SeriesDb V} (epoch : next.epoch = db.epoch)
    (same : ∀ m, next.store.captureToken (next.store.producersOf m) = db.store.captureToken (db.store.producersOf m)) :
    TokensGrow db next := by
  refine .inr ⟨epoch.symm, fun m => ?_⟩
  have token : next.token m = db.token m := by
    unfold SeriesDb.token
    rw [same, epoch]
  exact ⟨Nat.le_of_eq (congrArg FoldToken.count token).symm, fun _ => token⟩

theorem record_grows [LinearOrder V] {catalog : Catalog V} {db : SeriesDb V} (valid : Valid catalog.scope db.store) (capture : NewMetricCapture) (facts : List (NewFact V)) :
    TokensGrow db { db with store := written catalog.scope db.store capture facts } := by
  refine .inr ⟨rfl, fun m => ?_⟩
  let counted (s : Store V) (c : Capture) : Bool := c.status == .done && (s.producersOf m).contains c.producer
  have more : (db.store.captures.filter (counted db.store)).Sublist
      ((written catalog.scope db.store capture facts).captures.filter
        (counted (written catalog.scope db.store capture facts))) := by
    rw [(written_spec valid capture facts).2.2, List.filter_append]
    refine (List.monotone_filter_right _ ?_).trans (List.sublist_append_left _ _)
    intro c known
    simp only [counted, Bool.and_eq_true, List.contains_eq_mem, decide_eq_true_eq] at known ⊢
    exact ⟨known.1, written_producers valid capture facts known.2⟩
  refine ⟨more.length_le, fun same => ?_⟩
  have equal := more.eq_of_length same
  unfold SeriesDb.token Store.captureToken
  exact congrArg (fun done : List Capture => FoldToken.mk done.length (done.map (·.id)).max? db.epoch) equal.symm

theorem prune_grows (db : SeriesDb V) (doomed : List Nat) : TokensGrow db (db.prune doomed) := by
  unfold SeriesDb.prune
  split
  · exact tokensGrow_of_same rfl fun _ => rfl
  · exact .inl (Nat.lt_succ_self _)

/-! ## Efforts -/

/-- The captures of a store are stamped anew, and nothing else of it changes. -/
def Restamped (s s' : Store V) : Prop :=
  ∃ restampCapture : Capture → Capture, (∀ c, bare (restampCapture c) = bare c) ∧ s' = restampStore restampCapture s

theorem Restamped.refl (s : Store V) : Restamped s s :=
  ⟨id, fun _ => rfl, by simp [restampStore]⟩

theorem Restamped.trans {s s' s'' : Store V} (first : Restamped s s') (second : Restamped s' s'') : Restamped s s'' := by
  obtain ⟨change, captured, rfl⟩ := first
  obtain ⟨change', captured', rfl⟩ := second
  refine ⟨change' ∘ change, fun c => (captured' (change c)).trans (captured c), ?_⟩
  simp [restampStore]

theorem restamped_updateRows (s : Store V) (selects : Capture → Bool) (effort : Option Nat) :
    Restamped s { s with captures := updateRows selects (fun c => { c with effortId := effort }) s.captures } := by
  refine ⟨fun c => if selects c then { c with effortId := effort } else c, ?_, rfl⟩
  intro c
  dsimp only
  split <;> rfl

theorem finishEffort_restamps (db : SeriesDb V) (id : Nat) (end_ : EffortEnd) :
    Restamped db.store (db.finishEffort id end_).store ∧ (db.finishEffort id end_).epoch = db.epoch ∧
      (db.finishEffort id end_).memo = db.memo := by
  unfold SeriesDb.finishEffort
  simp only
  split
  · exact ⟨restamped_updateRows _ _ _, rfl, rfl⟩
  · exact ⟨.refl _, rfl, rfl⟩

theorem startEffort_restamps (db : SeriesDb V) (start : EffortStart) :
    Restamped db.store (db.startEffort start).store ∧ (db.startEffort start).epoch = db.epoch ∧
      (db.startEffort start).memo = db.memo := by
  unfold SeriesDb.startEffort
  simp only
  cases db.efforts.openForThread start.thread with
  | none => exact ⟨restamped_updateRows _ _ _, rfl, rfl⟩
  | some current =>
    obtain ⟨restamped, epoch, memo⟩ := finishEffort_restamps db current (.at start.at_ .switch)
    exact ⟨restamped.trans (restamped_updateRows _ _ _), epoch, memo⟩

section Stamped
variable {s s' : Store V} (restamped : Restamped s s')
include restamped

theorem Restamped.valid {scope : Nat → Option CaptureScope} (valid : Valid scope s) : Valid scope s' := by
  obtain ⟨change, captured, rfl⟩ := restamped
  have ids : (s.captures.map change).map (·.id) = s.captures.map (·.id) := by
    rw [List.map_map]
    exact List.map_congr_left fun c _ => id_of_bare (captured c)
  have links : ∀ part id, (restampStore change s).link part id = s.link part id := by
    intro part id
    cases part <;> rfl
  exact {
    captureIds := by
      unfold restampStore
      rw [ids]
      exact valid.captureIds
    captureOld := by
      intro c member
      obtain ⟨d, inside, rfl⟩ := List.mem_map.mp member
      rw [id_of_bare (captured d)]
      exact valid.captureOld d inside
    factIds := valid.factIds
    factOld := valid.factOld
    factCaptured := by
      intro f inside
      obtain ⟨c, member, sameId⟩ := valid.factCaptured f inside
      exact ⟨change c, List.mem_map_of_mem member, (id_of_bare (captured c)).trans sameId⟩
    linkCaptured := by
      intro part id link linked
      rw [links] at linked
      obtain ⟨c, member, sameId, done⟩ := valid.linkCaptured part id link linked
      exact ⟨change c, List.mem_map_of_mem member, (id_of_bare (captured c)).trans sameId,
        (status_of_bare (captured c)).1.trans done⟩
    linkStart := fun part id link linked => valid.linkStart part id link (links part id ▸ linked)
    linkScoped := fun part id link linked => valid.linkScoped part id link (links part id ▸ linked)
    moveOld := valid.moveOld
    moveScoped := valid.moveScoped
    apart := by
      intro part c inC d inD origin order later earlier linkedC linkedD
      obtain ⟨c, oldC, rfl⟩ := List.mem_map.mp inC
      obtain ⟨d, oldD, rfl⟩ := List.mem_map.mp inD
      have origins : ∀ e, (change e).origin = e.origin := by
        intro e
        obtain ⟨stream, producer⟩ := origin_of_bare (captured e)
        exact Prod.ext stream producer
      rw [origins, origins] at origin
      rw [links, id_of_bare (captured _)] at linkedC linkedD
      rw [id_of_bare (captured _), id_of_bare (captured _)] at order
      rw [id_of_bare (captured _)]
      exact valid.apart part c oldC d oldD origin order later earlier linkedC linkedD }

theorem Restamped.producersOf (m : Nat) : s'.producersOf m = s.producersOf m := by
  obtain ⟨change, captured, rfl⟩ := restamped
  unfold Store.producersOf
  apply List.filterMap_congr
  intro f _
  rw [restamp_capture? captured]
  cases s.capture? f.captureId with
  | none => rfl
  | some c => simp only [Option.map_some, Option.bind_eq_bind, Option.bind_some, (origin_of_bare (captured c)).2]

theorem Restamped.captureToken (producers : List String) : s'.captureToken producers = s.captureToken producers := by
  obtain ⟨change, captured, rfl⟩ := restamped
  have counted : ((fun c : Capture => c.status == .done && producers.contains c.producer) ∘ change) =
      fun c => c.status == .done && producers.contains c.producer := by
    funext c
    simp only [Function.comp_apply, (status_of_bare (captured c)).1, (origin_of_bare (captured c)).2]
  have ids : ((fun c : Capture => c.id) ∘ change) = fun c => c.id := funext fun c => id_of_bare (captured c)
  unfold Store.captureToken restampStore
  simp only [List.filter_map, counted, List.length_map, List.map_map, ids]

end Stamped

theorem restamped_grows {db next : SeriesDb V} (restamped : Restamped db.store next.store) (epoch : next.epoch = db.epoch) :
    TokensGrow db next :=
  tokensGrow_of_same epoch fun m => by rw [restamped.producersOf, restamped.captureToken]

/-! ## The memo -/

section Memo
variable [Field V] [LinearOrder V] {catalog : Catalog V}

/-- What the memo would answer is what a fold gives. -/
structure Fresh (catalog : Catalog V) (db : SeriesDb V) : Prop where
  valid : Valid catalog.scope db.store
  current : ∀ m token, db.memo.token.get m = some token →
    token.epoch < db.epoch ∨ token.epoch = db.epoch ∧ token.count ≤ (db.token m).count
  folded : ∀ m spec points, db.memo.get m spec (db.token m) = some points → ∀ key scope,
    catalog.measure m = some (key, scope) → ∃ order, points = db.fold catalog order ⟨m, key, scope⟩ spec

/-- A step that leaves the memo keeps it fresh, if it keeps the folds whose token stays. -/
theorem Fresh.of_grows {db next : SeriesDb V} (fresh : Fresh catalog db) (memo : next.memo = db.memo)
    (valid : Valid catalog.scope next.store) (grows : TokensGrow db next)
    (kept : ∀ m spec points, db.memo.get m spec (db.token m) = some points → next.token m = db.token m → ∀ key scope,
      catalog.measure m = some (key, scope) → ∀ order, next.fold catalog order ⟨m, key, scope⟩ spec =
        db.fold catalog order ⟨m, key, scope⟩ spec) : Fresh catalog next where
  valid := valid
  current := by
    intro m token stored
    rw [memo] at stored
    have before := fresh.current m token stored
    rcases grows with moved | ⟨still, counts⟩
    · exact .inl (by omega)
    · have count := (counts m).1
      omega
  folded := by
    intro m spec points answered key scope known
    rw [memo] at answered
    have stored : db.memo.token.get m = some (next.token m) := by
      unfold FoldMemo.get at answered
      split at answered
      next same => exact same
      next => cases answered
    -- The token was stored before, so nothing was counted since.
    have same : next.token m = db.token m := by
      have before := fresh.current m _ stored
      have epoch : (next.token m).epoch = next.epoch := rfl
      rcases grows with moved | ⟨still, counts⟩
      · omega
      · have count := (counts m).1
        exact (counts m).2 (by omega)
    rw [same] at answered
    obtain ⟨order, folded⟩ := fresh.folded m spec points answered key scope known
    exact ⟨order, folded.trans (kept m spec points answered same key scope known order).symm⟩

omit [Field V] in
/-- An answer of the memo is one of its entries. -/
theorem entry_of_get {db : SeriesDb V} {m : Nat} {spec : SeriesSpec V} {points : List (SeriesPoint V)}
    (answered : db.memo.get m spec (db.token m) = some points) :
    db.memo.token.get m = some (db.token m) ∧ ∃ entry ∈ db.memo.entries, entry.1 = (m, spec) := by
  unfold FoldMemo.get at answered
  split at answered
  next same =>
    have listed : (m, spec) ∈ Table.keys db.memo.entries := by
      rw [Table.mem_keys_iff, Table.containsKey, answered]
      rfl
    obtain ⟨entry, member, key⟩ := List.mem_map.mp listed
    exact ⟨same, entry, member, key⟩
  next => cases answered

theorem Fresh.record {db : SeriesDb V} (fresh : Fresh catalog db) {capture : NewMetricCapture} {facts : List (NewFact V)}
    (steady : Steady catalog db (.record capture facts)) :
    Fresh catalog { db with store := db.store.record catalog.scope catalog.refused capture facts } := by
  by_cases accepted : Accepted catalog.refused db.store capture facts
  · have recorded : db.store.record catalog.scope catalog.refused capture facts = written catalog.scope db.store capture facts := by
      rw [record_eq, if_pos accepted]
    have moves : Machine.advance (SeriesDb.step catalog) db (.record capture facts) =
        { db with store := written catalog.scope db.store capture facts } := by
      rw [← recorded]
      rfl
    rw [recorded]
    refine fresh.of_grows rfl (written_spec fresh.valid capture facts).1 (record_grows fresh.valid capture facts) ?_
    intro m spec points answered still key scope known order
    obtain ⟨stored, ⟨_, _⟩, member, rfl⟩ := entry_of_get answered
    obtain ⟨unfinished, reports⟩ := steady _ member stored (moves ▸ still) accepted
    have captures := (written_spec fresh.valid capture facts).2.2
    have validNext := (written_spec fresh.valid capture facts).1
    -- A finished capture of a producer that counts would have been counted.
    have unknown : capture.status = .done →
        capture.producer ∉ (written catalog.scope db.store capture facts).producersOf m := by
      intro done inside
      have counts : (db.token m).count < (SeriesDb.token { db with store := written catalog.scope db.store capture facts } m).count := by
        change (db.store.captures.filter fun c => c.status == .done && (db.store.producersOf m).contains c.producer).length <
          ((written catalog.scope db.store capture facts).captures.filter fun c =>
            c.status == .done && ((written catalog.scope db.store capture facts).producersOf m).contains c.producer).length
        rw [captures, List.filter_append, List.length_append]
        have own : [capture.toCapture db.store.nextCapture].filter (fun c =>
            c.status == .done && ((written catalog.scope db.store capture facts).producersOf m).contains c.producer) =
              [capture.toCapture db.store.nextCapture] := by
          apply List.filter_eq_self.mpr
          intro c member
          rw [List.mem_singleton.mp member]
          simp only [NewMetricCapture.toCapture, Bool.and_eq_true, beq_iff_eq, List.contains_eq_mem, decide_eq_true_eq]
          exact ⟨done, inside⟩
        have old := (List.monotone_filter_right db.store.captures
          (p := fun c => c.status == .done && (db.store.producersOf m).contains c.producer)
          (q := fun c => c.status == .done && ((written catalog.scope db.store capture facts).producersOf m).contains c.producer) ?_).length_le
        · rw [own, List.length_singleton]
          exact Nat.lt_succ_of_le old
        · intro c counted
          simp only [Bool.and_eq_true, List.contains_eq_mem, decide_eq_true_eq] at counted ⊢
          exact ⟨counted.1, written_producers fresh.valid capture facts counted.2⟩
      rw [still] at counts
      exact Nat.lt_irrefl _ counts
    have silent : Silent (written catalog.scope db.store capture facts) m (capture.toCapture db.store.nextCapture) := by
      by_cases done : capture.status = .done
      · refine silent_of_producer validNext.captureIds ?_ (unknown done)
        rw [captures]
        exact List.mem_append_right _ (List.mem_singleton_self _)
      · exact written_silent_unfinished fresh.valid capture facts done (unfinished done)
    refine written_foldSeries fresh.valid capture facts catalog.texts order catalog.visibility db.efforts.workItems ⟨m, key, scope⟩
      spec silent (fun done inside => unknown done (written_producers fresh.valid capture facts inside)) ?_
    intro done lint nothing
    refine reports done ?_ nothing
    rw [known]
    exact congrArg some lint
  · have still : db.store.record catalog.scope catalog.refused capture facts = db.store := by
      rw [record_eq, if_neg accepted]
    rw [still]
    exact fresh

theorem Fresh.prune {db : SeriesDb V} (fresh : Fresh catalog db) (doomed : List Nat) : Fresh catalog (db.prune doomed) := by
  by_cases none : doomed.isEmpty = true
  · unfold SeriesDb.prune
    rw [if_pos none]
    exact fresh
  · have pruned : db.prune doomed = { db with store := db.store.pruneDoomed doomed, epoch := db.epoch + 1 } := by
      unfold SeriesDb.prune
      rw [if_neg none]
    refine fresh.of_grows (by rw [pruned]) (by rw [pruned]; exact pruned_valid fresh.valid) (prune_grows db doomed) ?_
    intro m spec points _ still
    -- The epoch has moved.
    have epoch := congrArg FoldToken.epoch still
    rw [pruned] at epoch
    exact absurd epoch (Nat.succ_ne_self _)

/-- An effort that opens, closes or is linked stamps captures anew, and the stamps a series
reads stay. -/
theorem Fresh.restamp {db : SeriesDb V} (fresh : Fresh catalog db) {next : SeriesDb V} (restamped : Restamped db.store next.store)
    (epoch : next.epoch = db.epoch) (memo : next.memo = db.memo)
    (kept : ∀ entry ∈ db.memo.entries, db.memo.token.get entry.1.1 = some (db.token entry.1.1) →
      next.token entry.1.1 = db.token entry.1.1 → StampsKept catalog db next entry.1.1 entry.1.2) : Fresh catalog next := by
  refine fresh.of_grows memo (restamped.valid fresh.valid) (restamped_grows restamped epoch) ?_
  intro m spec points answered still key scope known order
  obtain ⟨stored, ⟨_, _⟩, member, rfl⟩ := entry_of_get answered
  have stamps := kept _ member stored still
  obtain ⟨change, captured, same⟩ := restamped
  unfold StampsKept at stamps
  unfold SeriesDb.fold
  rw [same] at stamps ⊢
  exact restamp_foldSeries captured db.store catalog.texts order catalog.visibility db.efforts.workItems next.efforts.workItems
    ⟨m, key, scope⟩ spec stamps

/-- A read keeps under the token what it folded. -/
theorem Fresh.read {db : SeriesDb V} (fresh : Fresh catalog db) {m : Nat} {key : String} {scope : CaptureScope}
    (known : catalog.measure m = some (key, scope)) (spec : SeriesSpec V) (window : Option TimeWindow) (order : HashOrder)
    (cubed : Option (List (SeriesPoint V))) :
    Fresh catalog (db.seriesInStream catalog ⟨m, key, scope⟩ spec window order cubed).1 ∧ (cubed = none →
      ∃ order', (db.seriesInStream catalog ⟨m, key, scope⟩ spec window order cubed).2 =
        applyWindow (db.fold catalog order' ⟨m, key, scope⟩ spec) window) := by
  unfold SeriesDb.seriesInStream
  cases cubed with
  | some points => exact ⟨fresh, fun none => by cases none⟩
  | none =>
    simp only
    cases answered : (if (db.store.producersOf m).isEmpty = true then none else db.memo.get m spec (db.token m)) with
    | some hit =>
      have got : db.memo.get m spec (db.token m) = some hit := by
        split at answered
        · cases answered
        · exact answered
      obtain ⟨order', folded⟩ := fresh.folded m spec hit got key scope known
      exact ⟨fresh, fun _ => ⟨order', by rw [folded]⟩⟩
    | none =>
      refine ⟨?_, fun _ => ⟨order, rfl⟩⟩
      simp only
      split
      · exact fresh
      · exact {
          valid := fresh.valid
          current := by
            intro other token stored
            change (db.memo.put m spec (db.token m) _).token.get other = some token at stored
            unfold FoldMemo.put at stored
            split at stored
            · exact fresh.current other token stored
            · rw [Table.get_insert] at stored
              split at stored
              next same =>
                cases stored
                subst same
                exact .inr ⟨rfl, Nat.le_refl _⟩
              next => exact fresh.current other token stored
          folded := by
            intro other shape points got key' scope' known'
            change (db.memo.put m spec (db.token m) _).get other shape (db.token other) = some points at got
            unfold FoldMemo.get at got
            split at got
            next stored =>
              change Table.get ((db.memo.put m spec (db.token m) _).entries) (other, shape) = some points at got
              unfold FoldMemo.put at stored got
              simp only [Table.get_insert] at got
              split at got
              next new =>
                cases got
                cases new
                rw [known] at known'
                cases known'
                exact ⟨order, rfl⟩
              next =>
                split at stored
                next under =>
                  rw [if_pos under] at got
                  refine fresh.folded other shape points ?_ key' scope' known'
                  unfold FoldMemo.get
                  rw [if_pos stored]
                  exact got
                next moved =>
                  rw [if_neg moved, Table.get_delete] at got
                  split at got
                  · cases got
                  next elsewhere =>
                    rw [Table.get_insert] at stored
                    have apart : other ≠ m := by simpa using elsewhere
                    rw [if_neg apart] at stored
                    refine fresh.folded other shape points ?_ key' scope' known'
                    unfold FoldMemo.get
                    rw [if_pos stored]
                    exact got
            next => cases got }

theorem Fresh.step {db : SeriesDb V} (fresh : Fresh catalog db) {step : SeriesStep V} (steady : Steady catalog db step)
    {next : SeriesDb V} {out : List (SeriesPoint V)} (moves : db.step catalog step = some (next, out)) : Fresh catalog next := by
  cases step with
  | record capture facts =>
    cases moves
    exact fresh.record steady
  | pruneDominated streamId =>
    cases moves
    exact fresh.prune _
  | pruneAged cutoff =>
    cases moves
    exact fresh.prune _
  | startEffort start =>
    cases moves
    obtain ⟨restamped, epoch, memo⟩ := startEffort_restamps db start
    exact fresh.restamp restamped epoch memo steady
  | finishEffort id end_ =>
    cases moves
    obtain ⟨restamped, epoch, memo⟩ := finishEffort_restamps db id end_
    exact fresh.restamp restamped epoch memo steady
  | linkEffort id workItem =>
    have advanced := Machine.advance_of_some moves
    obtain ⟨efforts, _, same⟩ := Option.map_eq_some_iff.mp moves
    cases same
    unfold Steady at steady
    rw [advanced] at steady
    refine fresh.restamp (.refl _) rfl rfl ?_
    intro entry member stored still
    have kept := steady entry member stored still
    unfold StepKept at kept
    rw [advanced] at kept
    exact kept
  | read m spec window order cubed =>
    cases known : catalog.measure m with
    | none =>
      simp only [SeriesDb.step, known] at moves
      cases moves
      exact fresh
    | some row =>
      simp only [SeriesDb.step, known] at moves
      have read := (fresh.read known spec window order cubed).1
      rw [Option.some.inj moves] at read
      exact read

theorem start_fresh (files : List FileSnapshot) : Fresh catalog (SeriesDb.start files : SeriesDb V) where
  valid := StoreInvariant.withFiles_valid StoreInvariant.empty_valid files
  current := by
    intro m token stored
    cases stored
  folded := by
    intro m spec points answered
    obtain ⟨stored, _⟩ := entry_of_get answered
    cases stored

end Memo

/-! ## Where they do not -/

/-- One complete measure, the tests of a thread's runs. -/
def testCatalog : Catalog ℚ where
  measure := fun m => if m = 1 then some ("oxplow.test_case", .complete) else none
  texts := ⟨fun _ => none, fun _ => "", fun _ => none, fun _ => none⟩
  visibility := ⟨fun _ => none, fun _ => none, fun _ _ => none⟩
  refused := fun _ _ _ => false

def testRun (producer : String) (time : Int) : NewMetricCapture where
  streamId := 1
  threadId := some 1
  effortId := none
  producer := producer
  status := .done
  basisRef := none
  provenance := "observed"
  source := "nextest"
  snapshotId := none
  closestVcsRev := none
  vcsRevExact := false
  branch := none
  capturedAt := time
  idempotencyKey := none
  scanKind := .delta
  excluded := []

def testFact (value : ℚ) : NewFact ℚ where
  measureId := 1
  value := value
  numerator := none
  denominator := none
  subject := none
  path := some "a.rs"
  line := none
  severity := none
  rule := none
  detail := none
  dimsJson := none

def sumBy (dim : Option String) : SeriesSpec ℚ := ⟨.sum, ⟨none, none, none, none⟩, dim, none⟩

def readBy (dim : Option String) : SeriesStep ℚ := .read 1 (sumBy dim) none (fun _ _ => 0) none

end Oxplow.Proofs.MemoFresh
