import Oxplow.Proofs.MemoReads

/-! The invariant of the memo over whole runs: an answer that was taken under the epoch and
the generation that stand now is right, unless a committed write awaits its invalidation. -/

namespace Oxplow.Proofs.MemoRuns
open Library Metrics Restatement RecordRuns PruneReads MemoReads

variable {V : Type}

/-! ## Right answers -/

/-- The invalidation forgets what is known of the measure. -/
def Touches (m : Nat) : Invalidation → Prop
  | .measures measures => m ∈ measures
  | .all => True

/-- A committed write of the measure has not run its invalidation. -/
def Awaits (db : MemoDb V) (m : Nat) : Prop := ∃ invalidation ∈ db.pending, Touches m invalidation

def generationOf (db : MemoDb V) (m : Nat) : Nat := (db.memo.entry m).generation

/-- The answer is the database's, if no write of the measure landed since it was taken and none
awaits its invalidation. Slice keys are, up to what they cover, until a deletion commits. -/
def Holds (db : MemoDb V) (m : Nat) (generation : Nat) : Answer → Prop
  | .producers names => generation = generationOf db m → ¬ Awaits db m → names.Perm (db.store.producersForMeasure m)
  | .sliceKeys keys covers => .all ∉ db.pending → covers < db.store.nextCapture ∧ keys.Perm (db.store.sliceKeys m 0 covers)

/-- The generation was read off the memo at some time. -/
structure Past (db : MemoDb V) (m : Nat) (generation : MemoGeneration) : Prop where
  epoch : generation.1 ≤ db.memo.epoch
  generation : generation.2 ≤ generationOf db m

structure Right (db : MemoDb V) (m : Nat) (generation : MemoGeneration) (answer : Answer) : Prop where
  past : Past db m generation
  holds : generation.1 = db.memo.epoch → Holds db m generation.2 answer

/-- What an entry keeps. -/
def Keeps (entry : MeasureMemo) : Answer → Prop
  | .producers names => entry.producers = some names
  | .sliceKeys keys covers => entry.sliceKeys = some (keys, covers)

def RightReader (db : MemoDb V) : Reader → Prop
  | .findsProducers _ epoch | .findsSliceKeys _ epoch => epoch ≤ db.memo.epoch
  | .asksProducers m generation => Past db m generation
  | .asksThrough m generation keys since => Right db m generation (.sliceKeys keys since)
  | .asksSliceKeys m generation keys since through =>
    Right db m generation (.sliceKeys keys since) ∧ through < db.store.nextCapture
  | .checks m generation answer | .puts m generation answer => Right db m generation answer

structure Sound (scope : Nat → Option CaptureScope) (db : MemoDb V) : Prop where
  valid : Valid scope db.store
  started : 0 < db.store.nextCapture
  entries : ∀ m answer, Keeps (db.memo.entry m) answer →
    Right db m ((db.memo.entry m).epoch, (db.memo.entry m).generation) answer
  readers : ∀ reader ∈ db.readers, RightReader db reader

/-! ## What keeps answers right -/

/-- Going from `db` to `next` makes no right answer wrong. -/
structure Follows (db next : MemoDb V) : Prop where
  epoch : db.memo.epoch ≤ next.memo.epoch
  generation : ∀ m, generationOf db m ≤ generationOf next m
  captures : db.store.nextCapture ≤ next.store.nextCapture
  holds : db.memo.epoch = next.memo.epoch → ∀ m generation answer, generation ≤ generationOf db m →
    Holds db m generation answer → Holds next m generation answer

section Follows
variable {db next : MemoDb V} (follows : Follows db next)
include follows

theorem Follows.past {m : Nat} {generation : MemoGeneration} (past : Past db m generation) : Past next m generation :=
  ⟨Nat.le_trans past.epoch follows.epoch, Nat.le_trans past.generation (follows.generation m)⟩

theorem Follows.right {m : Nat} {generation : MemoGeneration} {answer : Answer} (right : Right db m generation answer) :
    Right next m generation answer := by
  refine ⟨follows.past right.past, fun current => ?_⟩
  have before := right.past.epoch
  have after := follows.epoch
  refine follows.holds ?_ m _ answer right.past.generation (right.holds ?_)
  · omega
  · omega

theorem Follows.reader {reader : Reader} (right : RightReader db reader) : RightReader next reader := by
  cases reader with
  | findsProducers => exact Nat.le_trans right follows.epoch
  | findsSliceKeys => exact Nat.le_trans right follows.epoch
  | asksProducers => exact follows.past right
  | asksThrough => exact follows.right right
  | asksSliceKeys => exact ⟨follows.right right.1, Nat.lt_of_lt_of_le right.2 follows.captures⟩
  | checks => exact follows.right right
  | puts => exact follows.right right

end Follows

/-- Answers depend on the rows, the generations and the pending invalidations. -/
theorem follows_of_same {db next : MemoDb V} (store : next.store = db.store) (epoch : next.memo.epoch = db.memo.epoch)
    (generation : ∀ m, generationOf next m = generationOf db m) (pending : next.pending = db.pending) : Follows db next where
  epoch := Nat.le_of_eq epoch.symm
  generation m := Nat.le_of_eq (generation m).symm
  captures := Nat.le_of_eq (congrArg Store.nextCapture store).symm
  holds _ m _ answer _ right := by
    cases answer with
    | producers names =>
      intro same settled
      rw [generation] at same
      unfold Awaits at settled
      rw [pending] at settled
      rw [store]
      exact right same settled
    | sliceKeys keys covers =>
      intro settled
      rw [pending] at settled
      rw [store]
      exact right settled

/-- The same memo stays sound, and so do reads that were under way or are right. -/
theorem sound_of_follows {scope : Nat → Option CaptureScope} {db next : MemoDb V} (sound : Sound scope db)
    (follows : Follows db next) (valid : Valid scope next.store) (memo : next.memo = db.memo)
    (readers : ∀ reader ∈ next.readers, reader ∈ db.readers ∨ RightReader next reader) : Sound scope next where
  valid
  started := Nat.lt_of_lt_of_le sound.started follows.captures
  entries m answer keeps := by
    rw [memo] at keeps ⊢
    exact follows.right (sound.entries m answer keeps)
  readers reader member := (readers reader member).elim (fun before => follows.reader (sound.readers reader before)) id

/-! ## A put -/

theorem entry_insert (memo : QueryMemo) (m other : Nat) (entry : MeasureMemo) :
    ({ memo with measures := memo.measures.insert m entry } : QueryMemo).entry other =
      if other = m then entry else memo.entry other := by
  unfold QueryMemo.entry
  rw [Table.get_insert]
  split <;> rfl

/-- The entry of an earlier epoch, emptied for a put. -/
def emptied (memo : QueryMemo) (m epoch : Nat) : MeasureMemo :=
  { MeasureMemo.fresh with generation := (memo.entry m).generation, epoch }

theorem put_entry (memo : QueryMemo) (m other : Nat) (generation : MemoGeneration) (answer : Answer) :
    (memo.put m generation answer).entry other = memo.entry other ∨ other = m ∧ (memo.entry m).generation = generation.2 ∧
      ((memo.put m generation answer).entry other = (memo.entry m).set answer ∧ (memo.entry m).epoch = generation.1 ∨
        (memo.put m generation answer).entry other = (emptied memo m generation.1).set answer) := by
  unfold QueryMemo.put
  by_cases moved : (memo.entry m).generation ≠ generation.2
  · rw [if_pos moved, entry_insert]
    split
    next same => exact .inl (same ▸ rfl)
    next => exact .inl rfl
  · rw [if_neg moved, entry_insert]
    split
    next same =>
      refine .inr ⟨same, not_not.mp moved, ?_⟩
      by_cases stale : (memo.entry m).epoch ≠ generation.1
      · exact .inr (by rw [if_pos stale]; rfl)
      · exact .inl ⟨by rw [if_neg stale], not_not.mp stale⟩
    next => exact .inl rfl

@[simp] theorem set_generation (entry : MeasureMemo) (answer : Answer) : (entry.set answer).generation = entry.generation := by
  cases answer <;> rfl

@[simp] theorem set_epoch (entry : MeasureMemo) (answer : Answer) : (entry.set answer).epoch = entry.epoch := by
  cases answer <;> rfl

theorem keeps_set {entry : MeasureMemo} {answer kept : Answer} (keeps : Keeps (entry.set answer) kept) :
    kept = answer ∨ Keeps entry kept := by
  cases answer with
  | producers names =>
    cases kept with
    | producers => exact .inl (congrArg Answer.producers (Option.some.inj keeps).symm)
    | sliceKeys => exact .inr keeps
  | sliceKeys keys covers =>
    cases kept with
    | producers => exact .inr keeps
    | sliceKeys =>
      obtain ⟨rfl, rfl⟩ := Prod.mk.inj (Option.some.inj keeps)
      exact .inl rfl

theorem put_epoch (memo : QueryMemo) (m : Nat) (generation : MemoGeneration) (answer : Answer) :
    (memo.put m generation answer).epoch = memo.epoch := by
  unfold QueryMemo.put
  by_cases moved : (memo.entry m).generation ≠ generation.2
  · rw [if_pos moved]
  · rw [if_neg moved]

theorem put_generation (memo : QueryMemo) (m other : Nat) (generation : MemoGeneration) (answer : Answer) :
    ((memo.put m generation answer).entry other).generation = (memo.entry other).generation := by
  rcases put_entry memo m other generation answer with same | ⟨rfl, _, ⟨same, _⟩ | same⟩
  · rw [same]
  · rw [same, set_generation]
  · rw [same, set_generation]
    rfl

variable {scope : Nat → Option CaptureScope}

/-- A put keeps every entry right, its own too. -/
theorem put_sound {db : MemoDb V} (sound : Sound scope db) {m : Nat} {generation : MemoGeneration} {answer : Answer}
    (right : Right db m generation answer) {readers : List Reader} (fewer : ∀ reader ∈ readers, reader ∈ db.readers) :
    Sound scope { db with memo := db.memo.put m generation answer, readers } := by
  have follows : Follows db { db with memo := db.memo.put m generation answer, readers } :=
    follows_of_same rfl (put_epoch _ _ _ _) (fun other => put_generation _ m other _ _) rfl
  refine ⟨sound.valid, sound.started, ?_, fun reader member => follows.reader (sound.readers reader (fewer reader member))⟩
  intro other kept keeps
  apply follows.right
  change Keeps ((db.memo.put m generation answer).entry other) kept at keeps
  change Right db other (((db.memo.put m generation answer).entry other).epoch,
    ((db.memo.put m generation answer).entry other).generation) kept
  rcases put_entry db.memo m other generation answer with same | ⟨rfl, current, ⟨same, live⟩ | same⟩
  · rw [same] at keeps ⊢
    exact sound.entries other kept keeps
  · rw [same] at keeps ⊢
    rw [set_epoch, set_generation]
    rcases keeps_set keeps with rfl | before
    · rw [live, current]
      exact right
    · exact sound.entries _ kept before
  · rw [same] at keeps ⊢
    rw [set_epoch, set_generation]
    rcases keeps_set keeps with rfl | before
    · change Right db _ (generation.1, (db.memo.entry _).generation) _
      rw [current]
      exact right
    · cases kept <;> cases before

/-! ## The writers -/

section Record
variable [DecidableEq V]

theorem record_follows {db : MemoDb V} (valid : Valid scope db.store) (capture : NewMetricCapture) (facts : List (NewFact V))
    {measures : List Nat} (named : ∀ f ∈ facts, f.measureId ∈ measures) :
    Follows db { db with store := written scope db.store capture facts, pending := db.pending ++ [.measures measures] } where
  epoch := Nat.le_refl _
  generation _ := Nat.le_refl _
  captures := by
    rw [written_nextCapture]
    exact Nat.le_succ _
  holds := by
    intro _ m generation answer _ right
    cases answer with
    | producers names =>
      intro current settled
      have apart : m ∉ measures := fun member => settled ⟨.measures measures, by simp, member⟩
      have before : ¬ Awaits db m := fun ⟨invalidation, waits, touches⟩ =>
        settled ⟨invalidation, List.mem_append_left _ waits, touches⟩
      have none : ∀ f ∈ facts, f.measureId ≠ m := fun f given measure => apart (measure ▸ named f given)
      have same := written_producersForMeasure valid capture facts none
      exact (right current before).trans same.symm
    | sliceKeys keys covers =>
      intro settled
      obtain ⟨old, same⟩ := right fun waits => settled (List.mem_append_left _ waits)
      refine ⟨?_, same.trans (written_sliceKeys valid capture facts old).symm⟩
      rw [written_nextCapture]
      exact Nat.lt_succ_of_lt old

end Record

theorem pruned_nextCapture (s : Store V) (doomed : List Nat) : (s.pruneDoomed doomed).nextCapture = s.nextCapture := rfl

/-- A deletion leaves no answer to stand on. -/
theorem prune_follows (db : MemoDb V) (doomed : List Nat) :
    Follows db { db with store := db.store.pruneDoomed doomed, pending := db.pending ++ [.all] } where
  epoch := Nat.le_refl _
  generation _ := Nat.le_refl _
  captures := Nat.le_of_eq (pruned_nextCapture _ _).symm
  holds := by
    intro _ m generation answer _ _
    cases answer with
    | producers => exact fun _ settled => absurd ⟨.all, by simp, trivial⟩ settled
    | sliceKeys => exact fun settled => absurd (by simp) settled

/-- A prune that finds its captures gone changes nothing. -/
theorem prune_nothing_follows {db : MemoDb V} (valid : Valid scope db.store) {doomed : List Nat}
    (gone : ∀ c ∈ db.store.captures, c.id ∉ doomed) : Follows db { db with store := db.store.pruneDoomed doomed } where
  epoch := Nat.le_refl _
  generation _ := Nat.le_refl _
  captures := Nat.le_of_eq (pruned_nextCapture _ _).symm
  holds := by
    obtain ⟨captures, facts⟩ := pruned_nothing valid gone
    intro _ m generation answer _ right
    cases answer with
    | producers names =>
      intro current settled
      have same : (db.store.pruneDoomed doomed).producersForMeasure m = db.store.producersForMeasure m := by
        unfold Store.producersForMeasure
        rw [captures, facts]
      rw [same]
      exact right current settled
    | sliceKeys keys covers =>
      intro settled
      have read : (db.store.pruneDoomed doomed).sliceKey = db.store.sliceKey := by
        funext f
        unfold Store.sliceKey Store.capture?
        rw [captures]
      have same : (db.store.pruneDoomed doomed).sliceKeys m 0 covers = db.store.sliceKeys m 0 covers := by
        unfold Store.sliceKeys
        rw [facts, read]
      rw [same]
      exact right settled

/-! ## The invalidations -/

theorem invalidateMeasure_entry (memo : QueryMemo) (m other : Nat) : (memo.invalidateMeasure m).entry other =
    if other = m then { memo.entry m with generation := (memo.entry m).generation + 1, producers := none } else memo.entry other :=
  entry_insert memo m other _

theorem invalidateMeasure_generation (memo : QueryMemo) (m other : Nat) :
    ((memo.invalidateMeasure m).entry other).generation = (memo.entry other).generation + if other = m then 1 else 0 := by
  rw [invalidateMeasure_entry]
  split
  next same => rw [same]
  next => rfl

theorem invalidateMeasures_epoch (memo : QueryMemo) (measures : List Nat) : (memo.invalidateMeasures measures).epoch = memo.epoch := by
  unfold QueryMemo.invalidateMeasures
  induction measures generalizing memo with
  | nil => rfl
  | cons m measures ih => exact (ih _).trans rfl

theorem invalidateMeasures_generation (memo : QueryMemo) (measures : List Nat) (other : Nat) :
    ((memo.invalidateMeasures measures).entry other).generation = (memo.entry other).generation + measures.count other := by
  unfold QueryMemo.invalidateMeasures
  induction measures generalizing memo with
  | nil => rfl
  | cons m measures ih =>
    rw [List.foldl_cons, ih, invalidateMeasure_generation, List.count_cons]
    by_cases same : other = m
    · simp [same]
      omega
    · simp [same, Ne.symm same]

/-- An invalidation keeps of its measures' entries the slice keys. -/
theorem invalidateMeasures_sliceKeys (memo : QueryMemo) (measures : List Nat) (m : Nat) :
    ((memo.invalidateMeasures measures).entry m).epoch = (memo.entry m).epoch ∧
      ((memo.invalidateMeasures measures).entry m).sliceKeys = (memo.entry m).sliceKeys := by
  unfold QueryMemo.invalidateMeasures
  induction measures generalizing memo with
  | nil => exact ⟨rfl, rfl⟩
  | cons first measures ih =>
    obtain ⟨epoch, sliceKeys⟩ := ih (memo.invalidateMeasure first)
    rw [List.foldl_cons, epoch, sliceKeys, invalidateMeasure_entry]
    split
    next same => exact same ▸ ⟨rfl, rfl⟩
    next => exact ⟨rfl, rfl⟩

/-- Producers it keeps are another measure's. -/
theorem invalidateMeasures_producers {memo : QueryMemo} {measures : List Nat} {m : Nat} {names : List String}
    (kept : ((memo.invalidateMeasures measures).entry m).producers = some names) :
    (memo.invalidateMeasures measures).entry m = memo.entry m := by
  unfold QueryMemo.invalidateMeasures at kept ⊢
  induction measures generalizing memo with
  | nil => rfl
  | cons first measures ih =>
    have later := ih kept
    rw [List.foldl_cons] at kept ⊢
    rw [later] at kept ⊢
    rw [invalidateMeasure_entry] at kept ⊢
    split at kept
    next => cases kept
    next other => exact if_neg other

/-- What waited besides the one taken out still waits. -/
theorem mem_eraseIdx_of_ne {α : Type} {items : List α} {i : Nat} {taken a : α} (at_ : items[i]? = some taken) (member : a ∈ items)
    (other : a ≠ taken) : a ∈ items.eraseIdx i := by
  obtain ⟨inside, same⟩ := List.getElem?_eq_some_iff.mp at_
  have perm := List.getElem_cons_eraseIdx_perm inside
  rw [same] at perm
  rcases List.mem_cons.mp (perm.mem_iff.mpr member) with rfl | rest
  · exact absurd rfl other
  · exact rest

theorem invalidate_follows {db : MemoDb V} {i : Nat} {invalidation : Invalidation} (waits : db.pending[i]? = some invalidation) :
    Follows db { db with memo := db.memo.invalidate invalidation, pending := db.pending.eraseIdx i } := by
  cases invalidation with
  | all =>
    refine ⟨Nat.le_succ _, fun _ => Nat.le_refl _, Nat.le_refl _, fun same => ?_⟩
    change db.memo.epoch = db.memo.epoch + 1 at same
    omega
  | measures measures =>
    refine ⟨Nat.le_of_eq (invalidateMeasures_epoch _ _).symm, ?_, Nat.le_refl _, ?_⟩
    · intro m
      change _ ≤ ((db.memo.invalidateMeasures measures).entry m).generation
      rw [invalidateMeasures_generation]
      exact Nat.le_add_right _ _
    · intro _ m generation answer past right
      cases answer with
      | producers names =>
        intro current settled
        change generation = ((db.memo.invalidateMeasures measures).entry m).generation at current
        change generation ≤ (db.memo.entry m).generation at past
        rw [invalidateMeasures_generation] at current
        have unwritten : measures.count m = 0 := by omega
        refine right (by rw [current, unwritten]; rfl) fun ⟨other, waiting, touches⟩ => ?_
        refine settled ⟨other, mem_eraseIdx_of_ne waits waiting ?_, touches⟩
        rintro rfl
        exact List.count_eq_zero.mp unwritten touches
      | sliceKeys keys covers =>
        intro settled
        exact right fun waiting => settled (mem_eraseIdx_of_ne waits waiting (by simp))

/-! ## The reads -/

@[simp] theorem get_generation {α : Type} (memo : QueryMemo) (epoch m : Nat) (field : MeasureMemo → Option α) :
    (memo.get epoch m field).1 = (epoch, (memo.entry m).generation) := by
  unfold QueryMemo.get QueryMemo.entry
  cases memo.measures.get m <;> rfl

theorem get_hit {α : Type} {memo : QueryMemo} {epoch m : Nat} {field : MeasureMemo → Option α} {value : α}
    (hit : (memo.get epoch m field).2 = some value) : (memo.entry m).epoch = epoch ∧ field (memo.entry m) = some value := by
  unfold QueryMemo.get at hit
  unfold QueryMemo.entry
  cases found : memo.measures.get m with
  | none => simp [found] at hit
  | some entry =>
    simp only [found, Option.filter_some] at hit
    split at hit
    next current => exact ⟨by simpa using current, hit⟩
    next => cases hit

theorem mem_extendKeys {keys fresh : List FactSliceKey} {key : FactSliceKey} :
    key ∈ extendKeys keys fresh ↔ key ∈ keys ∨ key ∈ fresh := by
  unfold extendKeys
  induction fresh generalizing keys with
  | nil => simp
  | cons first fresh ih =>
    rw [List.foldl_cons, ih]
    split
    next known =>
      rw [List.contains_iff_mem] at known
      constructor
      · rintro (before | later)
        · exact .inl before
        · exact .inr (List.mem_cons_of_mem _ later)
      · rintro (before | here)
        · exact .inl before
        · rcases List.mem_cons.mp here with rfl | later
          · exact .inl known
          · exact .inr later
    next => simp [or_assoc]

theorem extendKeys_nodup {keys : List FactSliceKey} (distinct : keys.Nodup) (fresh : List FactSliceKey) :
    (extendKeys keys fresh).Nodup := by
  unfold extendKeys
  induction fresh generalizing keys with
  | nil => exact distinct
  | cons first fresh ih =>
    apply ih
    dsimp only
    split
    next => exact distinct
    next unknown =>
      rw [List.contains_iff_mem] at unknown
      exact List.nodup_append.mpr ⟨distinct, List.nodup_singleton _, fun key member other same equal =>
        unknown (by rw [← List.mem_singleton.mp same, ← equal]; exact member)⟩

/-- The keys up to one capture and those from it to another are the keys up to the later of the two. -/
theorem extendKeys_perm {s : Store V} {m since through : Nat} {keys fresh : List FactSliceKey}
    (known : keys.Perm (s.sliceKeys m 0 since)) (read : fresh.Perm (s.sliceKeys m since through)) :
    (extendKeys keys fresh).Perm (s.sliceKeys m 0 (max through since)) := by
  have distinct : keys.Nodup := known.nodup_iff.mpr (List.nodup_dedup _)
  apply (List.perm_ext_iff_of_nodup (extendKeys_nodup distinct fresh) (List.nodup_dedup _)).mpr
  intro key
  rw [mem_extendKeys, known.mem_iff, read.mem_iff]
  change _ ↔ key ∈ s.sliceKeys m 0 (max through since)
  simp only [mem_sliceKeys]
  constructor
  · rintro (⟨f, member, ⟨measure, later, upTo⟩, found⟩ | ⟨f, member, ⟨measure, later, upTo⟩, found⟩)
    · exact ⟨f, member, ⟨measure, later, Nat.le_trans upTo (Nat.le_max_right _ _)⟩, found⟩
    · exact ⟨f, member, ⟨measure, by omega, Nat.le_trans upTo (Nat.le_max_left _ _)⟩, found⟩
  · rintro ⟨f, member, ⟨measure, later, upTo⟩, found⟩
    by_cases early : f.captureId ≤ since
    · exact .inl ⟨f, member, ⟨measure, later, early⟩, found⟩
    · exact .inr ⟨f, member, ⟨measure, by omega, by omega⟩, found⟩

theorem sliceKeys_none (s : Store V) (m : Nat) : s.sliceKeys m 0 0 = [] := by
  apply List.eq_nil_iff_forall_not_mem.mpr
  intro key member
  obtain ⟨f, _, ⟨_, later, upTo⟩, _⟩ := mem_sliceKeys.mp member
  omega

/-- A read that puts leaves the memo with its answer; every other step of a read leaves it alone. -/
theorem reader_step {db : MemoDb V} (sound : Sound scope db) {reader : Reader} (right : RightReader db reader) {rows : Rows}
    {memo : QueryMemo} {out : Reader ⊕ Answer} (steps : reader.step db.memo db.store rows = some (memo, out)) :
    (memo = db.memo ∧ ∀ next, out = .inl next → RightReader db next) ∨
      ∃ m generation answer, Right db m generation answer ∧ memo = db.memo.put m generation answer ∧ out = .inr answer := by
  cases reader with
  | findsProducers m epoch =>
    cases rows with
    | none =>
      refine .inl ?_
      simp only [Reader.step] at steps
      split at steps
      next => exact ⟨(Prod.mk.inj (Option.some.inj steps)).1.symm, by rintro next rfl; cases steps⟩
      next generation missed =>
        obtain ⟨rfl, rfl⟩ := Prod.mk.inj (Option.some.inj steps)
        refine ⟨rfl, fun next same => ?_⟩
        cases same
        have given := get_generation db.memo epoch m (·.producers)
        rw [missed] at given
        change generation = _ at given
        rw [given]
        exact ⟨right, Nat.le_refl _⟩
    | producers => cases steps
    | sliceKeys => cases steps
  | findsSliceKeys m epoch =>
    cases rows with
    | none =>
      obtain ⟨rfl, rfl⟩ := Prod.mk.inj (Option.some.inj steps)
      refine .inl ⟨rfl, fun next same => ?_⟩
      cases same
      let hit := (db.memo.get epoch m (·.sliceKeys)).2.getD ([], 0)
      change Right db m (db.memo.get epoch m (·.sliceKeys)).1 (.sliceKeys hit.1 hit.2)
      rw [get_generation]
      unfold hit
      cases hit : (db.memo.get epoch m (·.sliceKeys)).2 with
      | none =>
        refine ⟨⟨right, Nat.le_refl _⟩, fun _ _ => ⟨sound.started, ?_⟩⟩
        rw [Option.getD_none, sliceKeys_none]
      | some known =>
        obtain ⟨current, kept⟩ := get_hit hit
        have entry := sound.entries m (.sliceKeys known.1 known.2) kept
        rw [current] at entry
        exact entry
    | producers => cases steps
    | sliceKeys => cases steps
  | asksProducers m generation =>
    cases rows with
    | producers names =>
      simp only [Reader.step] at steps
      split at steps
      next read =>
        obtain ⟨rfl, rfl⟩ := Prod.mk.inj (Option.some.inj steps)
        refine .inl ⟨rfl, fun next same => ?_⟩
        cases same
        exact ⟨right, fun _ _ _ => read⟩
      next => cases steps
    | none => cases steps
    | sliceKeys => cases steps
  | asksThrough m generation keys since =>
    cases rows with
    | none =>
      obtain ⟨rfl, rfl⟩ := Prod.mk.inj (Option.some.inj steps)
      refine .inl ⟨rfl, fun next same => ?_⟩
      cases same
      exact ⟨right, through_lt sound.valid sound.started m⟩
    | producers => cases steps
    | sliceKeys => cases steps
  | asksSliceKeys m generation keys since through =>
    cases rows with
    | sliceKeys fresh =>
      simp only [Reader.step] at steps
      split at steps
      next read =>
        obtain ⟨rfl, rfl⟩ := Prod.mk.inj (Option.some.inj steps)
        refine .inl ⟨rfl, fun next same => ?_⟩
        cases same
        refine ⟨right.1.past, fun current settled => ?_⟩
        obtain ⟨old, known⟩ := right.1.holds current settled
        exact ⟨Nat.max_lt.mpr ⟨right.2, old⟩, extendKeys_perm known read⟩
      next => cases steps
    | none => cases steps
    | producers => cases steps
  | checks m generation answer =>
    cases rows with
    | none =>
      obtain ⟨rfl, rfl⟩ := Prod.mk.inj (Option.some.inj steps)
      refine .inl ⟨rfl, fun next same => ?_⟩
      split at same
      next => cases same
      next =>
        cases same
        exact right
    | producers => cases steps
    | sliceKeys => cases steps
  | puts m generation answer =>
    cases rows with
    | none =>
      obtain ⟨rfl, rfl⟩ := Prod.mk.inj (Option.some.inj steps)
      exact .inr ⟨m, generation, answer, right, rfl, rfl⟩
    | producers => cases steps
    | sliceKeys => cases steps

/-! ## Whole runs -/

theorem start_sound (files : List FileSnapshot) : Sound scope (MemoDb.start files : MemoDb V) where
  valid := StoreInvariant.withFiles_valid StoreInvariant.empty_valid files
  started := Nat.one_pos
  entries m answer keeps := by cases answer <;> cases keeps
  readers reader member := by cases member

/-- A step of the reads alone. -/
theorem readers_sound {db : MemoDb V} (sound : Sound scope db) {readers : List Reader}
    (right : ∀ reader ∈ readers, reader ∈ db.readers ∨ RightReader db reader) : Sound scope { db with readers } := by
  have follows : Follows db { db with readers } := follows_of_same rfl rfl (fun _ => rfl) rfl
  exact sound_of_follows sound follows sound.valid rfl fun reader member => (right reader member).imp_right follows.reader

theorem invalidate_sound {db : MemoDb V} (sound : Sound scope db) {i : Nat} {invalidation : Invalidation}
    (waits : db.pending[i]? = some invalidation) :
    Sound scope { db with memo := db.memo.invalidate invalidation, pending := db.pending.eraseIdx i } := by
  have follows := invalidate_follows waits
  refine ⟨sound.valid, sound.started, ?_, fun reader member => follows.reader (sound.readers reader member)⟩
  intro m answer keeps
  cases invalidation with
  | all => exact follows.right (sound.entries m answer keeps)
  | measures measures =>
    change Keeps ((db.memo.invalidateMeasures measures).entry m) answer at keeps
    change Right _ m (((db.memo.invalidateMeasures measures).entry m).epoch,
      ((db.memo.invalidateMeasures measures).entry m).generation) answer
    cases answer with
    | producers names =>
      have same := invalidateMeasures_producers keeps
      rw [same] at keeps ⊢
      exact follows.right (sound.entries m _ keeps)
    | sliceKeys keys covers =>
      obtain ⟨epoch, kept⟩ := invalidateMeasures_sliceKeys db.memo measures m
      have right := follows.right (sound.entries m (.sliceKeys keys covers) (kept.symm.trans keeps))
      rw [epoch]
      exact ⟨⟨right.past.epoch, Nat.le_refl _⟩, right.holds⟩

section Runs
variable [DecidableEq V] {refused : Store V → NewMetricCapture → List (NewFact V) → Bool}

theorem record_sound {db : MemoDb V} (sound : Sound scope db) {capture : NewMetricCapture} {facts : List (NewFact V)}
    {measures : List Nat} (named : ∀ f ∈ facts, f.measureId ∈ measures) {store : Store V} {id : Nat}
    (recorded : db.store.recordFactsTx scope refused capture facts = some (store, id)) :
    Sound scope { db with store, pending := db.pending ++ [.measures measures] } := by
  unfold Store.recordFactsTx at recorded
  split at recorded
  next repeated =>
    obtain ⟨rfl, rfl⟩ := Prod.mk.inj (Option.some.inj recorded)
    have follows : Follows db { db with pending := db.pending ++ [.measures measures] } := by
      refine ⟨Nat.le_refl _, fun _ => Nat.le_refl _, Nat.le_refl _, ?_⟩
      intro _ m generation answer _ right
      cases answer with
      | producers =>
        intro current settled
        apply right current
        rintro ⟨other, waits, touches⟩
        exact settled ⟨other, List.mem_append_left _ waits, touches⟩
      | sliceKeys =>
        intro settled
        exact right fun waits => settled (List.mem_append_left _ waits)
    exact sound_of_follows sound follows sound.valid rfl fun reader member => .inl member
  next =>
    split at recorded
    next => cases recorded
    next =>
      obtain ⟨rfl, rfl⟩ := Prod.mk.inj (Option.some.inj recorded)
      exact sound_of_follows sound (record_follows sound.valid capture facts named)
        (written_spec sound.valid capture facts).1 rfl fun reader member => .inl member

omit [DecidableEq V] in
theorem prune_sound {db : MemoDb V} (sound : Sound scope db) (doomed : List Nat) :
    Sound scope { db with
      store := db.store.pruneDoomed doomed
      pending := if 0 < db.store.captures.countP (fun c => doomed.contains c.id) then db.pending ++ [.all] else db.pending } := by
  have valid : Valid scope (db.store.pruneDoomed doomed) := pruned_valid sound.valid
  split
  next => exact sound_of_follows sound (prune_follows db doomed) valid rfl fun reader member => .inl member
  next none =>
    have gone : ∀ c ∈ db.store.captures, c.id ∉ doomed := by
      intro c member inside
      exact none (List.countP_pos_iff.mpr ⟨c, member, by simpa using inside⟩)
    exact sound_of_follows sound (prune_nothing_follows sound.valid gone) valid rfl fun reader member => .inl member

theorem step_sound {db next : MemoDb V} (sound : Sound scope db) {event : MemoStep V} {answer : Option Answer}
    (steps : db.step scope refused event = some (next, answer)) : Sound scope next := by
  cases event with
  | readProducers m =>
    cases steps
    apply readers_sound sound
    intro reader member
    rcases List.mem_append.mp member with before | new
    · exact .inl before
    · obtain rfl := List.mem_singleton.mp new
      exact .inr (Nat.le_refl _)
  | readSliceKeys m =>
    cases steps
    apply readers_sound sound
    intro reader member
    rcases List.mem_append.mp member with before | new
    · exact .inl before
    · obtain rfl := List.mem_singleton.mp new
      exact .inr (Nat.le_refl _)
  | read i rows =>
    obtain ⟨reader, at_, steps⟩ := Option.bind_eq_some_iff.mp steps
    obtain ⟨⟨memo, out⟩, stepped, steps⟩ := Option.bind_eq_some_iff.mp steps
    have right := sound.readers reader (List.mem_of_getElem? at_)
    rcases reader_step sound right stepped with ⟨rfl, later⟩ | ⟨m, generation, put, taken, rfl, rfl⟩
    · cases out with
      | inl stage =>
        cases steps
        apply readers_sound sound
        intro other member
        rcases List.mem_or_eq_of_mem_set member with before | rfl
        · exact .inl before
        · exact .inr (later _ rfl)
      | inr given =>
        cases steps
        exact readers_sound sound fun other member => .inl (List.mem_of_mem_eraseIdx member)
    · cases steps
      exact put_sound sound taken fun other member => List.mem_of_mem_eraseIdx member
  | record capture facts measures =>
    obtain ⟨_, named, steps⟩ := Option.bind_eq_some_iff.mp steps
    obtain ⟨⟨store, id⟩, recorded, steps⟩ := Option.bind_eq_some_iff.mp steps
    cases steps
    refine record_sound sound ?_ recorded
    simpa [guard] using named
  | prune doomed =>
    cases steps
    exact prune_sound sound doomed
  | invalidate i =>
    obtain ⟨invalidation, waits, steps⟩ := Option.bind_eq_some_iff.mp steps
    cases steps
    exact invalidate_sound sound waits
  | restart =>
    cases steps
    refine ⟨sound.valid, sound.started, ?_, fun reader member => by cases member⟩
    intro m answer keeps
    cases answer <;> cases keeps

theorem run_sound (files : List FileSnapshot) (events : List (MemoStep V)) :
    Sound scope (Machine.run (MemoDb.step scope refused) (MemoDb.start files) events) :=
  Machine.run_invariant (fun db _ => Sound scope db) (fun _ _ _ _ _ sound steps => step_sound sound steps) []
    (start_sound files) events

/-- Once no committed write awaits its invalidation, the memo answers for the producers of a
measure what the database answers, and for its slice keys what it answers up to the capture
they cover; extended by the rows after that capture they are all the database answers. -/
theorem memo_settled (files : List FileSnapshot) (events : List (MemoStep V)) :
    let db := Machine.run (MemoDb.step scope refused) (MemoDb.start files) events
    db.pending = [] → ∀ m,
      (∀ names, (db.memo.get db.memo.epoch m (·.producers)).2 = some names → names.Perm (db.store.producersForMeasure m)) ∧
      ∀ keys since, (db.memo.get db.memo.epoch m (·.sliceKeys)).2 = some (keys, since) →
        keys.Perm (db.store.sliceKeys m 0 since) ∧
        ∀ fresh, fresh.Perm (db.store.sliceKeys m since (db.store.through m)) →
          (extendKeys keys fresh).Perm (db.store.sliceKeys m 0 (db.store.through m)) := by
  intro db settled m
  have sound : Sound scope db := run_sound files events
  have awaits : ¬ Awaits db m := by
    rintro ⟨invalidation, waits, _⟩
    rw [settled] at waits
    cases waits
  have undeleted : Invalidation.all ∉ db.pending := by
    rw [settled]
    exact List.not_mem_nil
  constructor
  · intro names hit
    obtain ⟨current, kept⟩ := get_hit hit
    exact (sound.entries m (.producers names) kept).holds current rfl awaits
  · intro keys since hit
    obtain ⟨current, kept⟩ := get_hit hit
    obtain ⟨_, known⟩ := (sound.entries m (.sliceKeys keys since) kept).holds current undeleted
    refine ⟨known, fun fresh read => ?_⟩
    refine (extendKeys_perm known read).trans ?_
    by_cases beyond : db.store.through m ≤ since
    · rw [Nat.max_eq_right beyond]
      exact sliceKeys_beyond beyond
    · rw [Nat.max_eq_left (Nat.le_of_not_le beyond)]

end Runs

def ruled (rule : String) : NewFact Nat := { plainFact 2 1 none none with rule := some rule }

def slice (rule : String) : FactSliceKey := ⟨"gate", some rule, none, none⟩

/-- The slice keys are memoized, a capture with another slice is recorded and invalidated, and
the producers are memoized. -/
def laggingRun : List (MemoStep Nat) :=
  [.record (plainCapture .full 10) [ruled "a"] [2], .invalidate 0,
   .readSliceKeys 2, .read 0 .none, .read 0 .none, .read 0 (.sliceKeys [slice "a"]), .read 0 .none, .read 0 .none,
   .record (plainCapture .full 20) [ruled "b"] [2], .invalidate 0,
   .readProducers 2, .read 0 .none, .read 0 (.producers ["gate"]), .read 0 .none, .read 0 .none]

def lagging : MemoDb Nat := Machine.run (MemoDb.step plainScope nothingRefused) (MemoDb.start []) laggingRun

theorem memo_settled_lagging : ["gate"].Perm (lagging.store.producersForMeasure 2) ∧
    (extendKeys [slice "a"] [slice "b"]).Perm (lagging.store.sliceKeys 2 0 (lagging.store.through 2)) :=
  have settled := @memo_settled Nat plainScope _ nothingRefused [] laggingRun (by decide) 2
  ⟨settled.1 ["gate"] (by decide), (settled.2 [slice "a"] 1 (by decide)).2 [slice "b"] (by decide)⟩

/-- Memoized slice keys are not all the database has, though every invalidation has run. -/
theorem memoized_keys_lag : lagging.pending = [] ∧
    (lagging.memo.get lagging.memo.epoch 2 (·.sliceKeys)).2 = some ([slice "a"], 1) ∧
    ¬ [slice "a"].Perm (lagging.store.sliceKeys 2 0 (lagging.store.through 2)) := by
  decide

end Oxplow.Proofs.MemoRuns
