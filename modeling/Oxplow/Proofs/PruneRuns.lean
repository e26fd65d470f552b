import Oxplow.Proofs.HoldReadback
import Oxplow.Proofs.PruneReads

/-! Scans read back what they were given across writes and prunes. A prune can leave a
file's newest hold with facts that a deleted hold closed or moved; while every file is
carried on from facts as its newest hold left them, each surviving scan reads back its
own. -/

namespace Oxplow.Proofs.PruneRuns
open Library Metrics FactChain Restatement StoreInvariant Readback RecordRuns HoldReadback Rehome PruneReads

variable {V : Type} [DecidableEq V] {scope : Nat → Option CaptureScope}

/-- `K` states a file's facts whole, or carries them on from a hold whose matched facts are
open and have not moved since, with nothing stored since and no stored line in sight. -/
def Steady (s : Store V) (K : Capture) (m : Nat) (path : String) (new : List (NewFact V)) : Prop :=
  ∀ b ∈ s.previousHold K.id K.toNewMetricCapture (.file m path), ∀ link ∈ s.link (.file m path) b,
    restatesWhole (Store.matchPath new (s.pathHeld b m path)) (s.pathHeld b m path) new link.depth = true ∨
      (∀ f ∈ s.facts, (Part.file m path).covers f.toNewFact = true → s.storedFor K f = true → f.captureId ≤ b) ∧
      ∀ pair ∈ (Store.matchPath new (s.pathHeld b m path)).pairs, ¬ LineShows s pair ∧
        (∀ f ∈ s.facts, f.id = pair.1.id → f.lastCaptureId = none) ∧
        (pair.1.line = pair.2.line → ∀ move ∈ s.lines.keys, move.1 = pair.1.id → move.2 ≤ b)

instance (s : Store V) (K : Capture) (m : Nat) (path : String) (new : List (NewFact V)) :
    Decidable (Steady s K m path new) :=
  inferInstanceAs (Decidable (∀ b ∈ s.previousHold _ _ _, ∀ link ∈ s.link _ b, _ ∨ _ ∧ _))


section Written
variable {s : Store V} (valid : Valid scope s) {capture : NewMetricCapture} {facts : List (NewFact V)}
include valid

/-- A file stated steadily is read back as it was given. -/
theorem written_pathHeld_of_steady {m : Nat} {path : String} (perPath : scope m = some .perPath)
    (done : capture.status = .done) (scan : capture.scanKind ≠ .asserted)
    (given : ∃ f ∈ facts, (Part.file m path).covers f = true)
    (steady : Steady s (capture.toCapture s.nextCapture) m path (facts.filter (Part.file m path).covers)) :
    (((written scope s capture facts).pathHeld s.nextCapture m path).map (·.toNewFact)).Perm
      (facts.filter (Part.file m path).covers) := by
  let K := capture.toCapture s.nextCapture
  let new := facts.filter (Part.file m path).covers
  have covered : ∀ f ∈ new, (Part.file m path).covers f = true := fun f member => (List.mem_filter.mp member).2
  obtain ⟨before, r, as_, same⟩ := written_file valid perPath done scan given
  refine (RestatedAs.pathHeld_perm as_).mpr ?_
  by_cases whole : ∀ b link, before.previousHold K.id K.toNewMetricCapture (.file m path) = some b →
      before.link (.file m path) b = some link →
      restatesWhole (Store.matchPath new (before.pathHeld b m path)) (before.pathHeld b m path) new link.depth = true
  · exact restate_pathHeld_whole as_.valid as_.writing covered
      (fun f inside inFile => ((as_.fresh valid capture facts inside inFile).2).ne) whole
  · simp only [not_forall] at whole
    obtain ⟨id, held, previous, linked, some_⟩ := whole
    obtain ⟨b, row, rfl, on⟩ := base_of_previousHold previous
    have one : row = held := Option.some.inj (on.linked.symm.trans linked)
    subst one
    have rows := same.held b.id on.older
    rw [rows] at some_
    obtain ⟨early, pairs⟩ := (steady b.id (same.previous ▸ previous) row (same.links b.id ▸ linked)).resolve_left some_
    refine (restate_pathHeld_extended as_.valid as_.writing covered previous on (by rwa [rows]) ?_ ?_).mpr ⟨?_, ?_⟩
    · rw [rows]
      intro pair paired f inHeld id
      obtain ⟨_, _, inside, holding⟩ := mem_held.mp inHeld
      exact (pairs pair paired).2.1 f ((same.facts f holding.covered).mp inside) id
    · rw [rows]
      intro pair paired still time after _
      obtain ⟨f, inside, inFile, id⟩ := pair_source paired
      rw [id, same.moves f inside inFile time]
      cases moved : s.lines.get (f.id, time) with
      | none => rfl
      | some move =>
        have key : (f.id, time) ∈ s.lines.keys := (Table.mem_keys_iff _ _).mpr (by simp [Table.containsKey, moved])
        have early := (pairs pair paired).2.2 still _ key id.symm
        simp only at early
        omega
    · refine storedSince_nil fun f inside inFile stored => ?_
      have old := (same.facts f inFile).mp inside
      exact early f old inFile (same.stored f old inFile ▸ stored)
    · rw [rows]
      intro pair paired shows
      obtain ⟨f, inside, inFile, id⟩ := pair_source paired
      refine (pairs pair paired).1 ⟨shows.1, shows.2.1, ?_⟩
      rw [storedLine_of_mem same.unique inside id, ← storedLine_of_mem same.unique' ((same.facts f inFile).mpr inside) id]
      exact shows.2.2

end Written

/-! ## Facts are held at their own captures -/

/-- A finished scan has a row for every part it stores a fact of. -/
def HeldAtCapture (scope : Nat → Option CaptureScope) (s : Store V) : Prop :=
  ∀ f ∈ s.facts, ∀ part, Scoped scope part → part.covers f.toNewFact = true → ∀ c ∈ s.captures, c.id = f.captureId →
    c.status = .done → c.scanKind ≠ .asserted → (s.link part c.id).isSome = true

variable {s : Store V}

theorem written_heldAtCapture (valid : Valid scope s) (held : HeldAtCapture scope s) (capture : NewMetricCapture)
    (facts : List (NewFact V)) : HeldAtCapture scope (written scope s capture facts) := by
  intro f inside part fits covered c member id done scan
  have spec := written_spec valid capture facts
  rw [spec.2.2] at member
  rcases List.mem_append.mp member with old | new
  · obtain ⟨change, news, whole, keeps, born, _, _⟩ := spec.2.1.facts
    have before := valid.captureOld c old
    rw [spec.2.1.links part c.id (show c.id ≠ s.nextCapture by omega)]
    rw [whole] at inside
    rcases List.mem_append.mp inside with inside | inside
    · obtain ⟨g, was, rfl⟩ := List.mem_map.mp inside
      obtain ⟨columns, _, captureId⟩ := keeps g
      exact held g was part fits (columns ▸ covered) c old (id.trans captureId) done scan
    · have own : f.captureId = s.nextCapture := born f inside
      omega
  · rw [List.mem_singleton.mp new] at id done scan ⊢
    have kind : capture.scanKind ≠ .asserted := by
      intro asserted
      refine scan ?_
      simp [NewMetricCapture.toCapture, asserted]
    exact written_stored_linked valid capture facts done fits (.inr kind) inside covered id.symm

omit [DecidableEq V] in
theorem pruned_heldAtCapture (valid : Valid scope s) (held : HeldAtCapture scope s) (doomed : List Nat) :
    HeldAtCapture scope (s.pruneDoomed doomed) := by
  intro g inside part fits covered c member id done scan
  obtain ⟨member, survives⟩ := survivor_mem.mp member
  obtain ⟨f, was, rfl, stays⟩ := pruned_fact inside
  rw [rehomed_covers] at covered
  rw [pruned_link, if_neg survives]
  cases found : s.home doomed f with
  | none =>
    rw [rehomed_of_none s doomed found] at id
    exact held f was part fits covered c member id done scan
  | some home =>
    obtain ⟨other, h, link, rfl, at_, _⟩ := home_eq_some valid doomed found
    rw [rehomed_of_some s doomed found] at id
    have parts := scoped_part_eq fits (valid.linkScoped _ _ _ at_.linked) covered at_.covered
    rw [show c.id = h.id from id, parts, at_.linked]
    rfl

/-! ## Runs -/

section Runs
variable {refused : Store V → NewMetricCapture → List (NewFact V) → Bool}

/-- The captures that the events of a run record. -/
def recordedBy (scope : Nat → Option CaptureScope) (refused : Store V → NewMetricCapture → List (NewFact V) → Bool) :
    Pruning V → List (Event V) → List (Recorded V)
  | _, [] => []
  | p, event :: events =>
    let later := recordedBy scope refused (p.step scope refused event) events
    match event with
    | .record capture facts =>
      if Accepted refused p.store capture facts then ⟨p.store.nextCapture, capture, facts⟩ :: later else later
    | _ => later

/-- A scan states every file steadily; a prune shows no stored line. -/
def StepSteady (scope : Nat → Option CaptureScope) (refused : Store V → NewMetricCapture → List (NewFact V) → Bool)
    (p : Pruning V) : Event V → Prop
  | .record capture facts => Accepted refused p.store capture facts → capture.status = .done → capture.scanKind ≠ .asserted →
      ∀ f ∈ facts, scope f.measureId = some .perPath → ∀ path ∈ f.path,
        Steady p.store (capture.toCapture p.store.nextCapture) f.measureId path
          (facts.filter (Part.file f.measureId path).covers)
  | .find _ => True
  | .delete prune => ∀ doomed ∈ p.found[prune]?, LinesKept p.store doomed

instance (p : Pruning V) : (event : Event V) → Decidable (StepSteady scope refused p event)
  | .record _ facts => inferInstanceAs (Decidable (_ → _ → _ → ∀ f ∈ facts, _ → ∀ path ∈ f.path, Steady _ _ _ _ _))
  | .find _ => inferInstanceAs (Decidable True)
  | .delete prune => inferInstanceAs (Decidable (∀ doomed ∈ p.found[prune]?, LinesKept p.store doomed))

/-- Every step of the run is steady. -/
def RunSteady (scope : Nat → Option CaptureScope) (refused : Store V → NewMetricCapture → List (NewFact V) → Bool) :
    Pruning V → List (Event V) → Prop
  | _, [] => True
  | p, event :: events => StepSteady scope refused p event ∧ RunSteady scope refused (p.step scope refused event) events

instance : (p : Pruning V) → (events : List (Event V)) → Decidable (RunSteady scope refused p events)
  | _, [] => inferInstanceAs (Decidable True)
  | p, event :: events =>
    have : Decidable (RunSteady scope refused (p.step scope refused event) events) := instDecidableRunSteady _ events
    inferInstanceAs (Decidable (StepSteady scope refused p event ∧ RunSteady scope refused (p.step scope refused event) events))

/-- A recorded scan that is still there reads back each file it was given facts of. -/
def ReadsBack (scope : Nat → Option CaptureScope) (s : Store V) (entry : Recorded V) : Prop :=
  (∃ c ∈ s.captures, c.id = entry.id) → entry.capture.status = .done → entry.capture.scanKind ≠ .asserted →
    ∀ m path, scope m = some .perPath → (∃ f ∈ entry.facts, (Part.file m path).covers f = true) →
      ((s.pathHeld entry.id m path).map (·.toNewFact)).Perm (entry.facts.filter (Part.file m path).covers)

/-- What holds of every run whose steps are steady. -/
structure Kept (scope : Nat → Option CaptureScope) (p : Pruning V) (log : List (Recorded V)) : Prop where
  valid : Valid scope p.store
  held : HeldAtCapture scope p.store
  found : ∀ doomed ∈ p.found, ∀ id ∈ doomed, id < p.store.nextCapture ∧
    ∀ c ∈ p.store.captures, c.id = id → c.status = .done ∧ c.scanKind ≠ .asserted
  old : ∀ entry ∈ log, entry.id < p.store.nextCapture
  reads : ∀ entry ∈ log, ReadsBack scope p.store entry

omit [DecidableEq V] in
/-- A capture that a baseline dominates is a finished scan. -/
theorem dominated_scan {stream id : Nat} (doomed : id ∈ s.dominated scope stream) :
    ∃ c ∈ s.captures, c.id = id ∧ c.status = .done ∧ c.scanKind ≠ .asserted := by
  obtain ⟨c, selected, same⟩ := List.mem_map.mp doomed
  obtain ⟨member, fits⟩ := List.mem_filter.mp selected
  obtain ⟨baseline, _, fits⟩ := List.any_eq_true.mp fits
  simp only [Bool.and_eq_true, beq_iff_eq, bne_iff_ne, ne_eq] at fits
  exact ⟨c, member, same, fits.1.1.1.1.1.2, fits.1.1.1.1.2⟩

variable {p : Pruning V} {log : List (Recorded V)}

/-- A recorded capture keeps what the run kept, and reads back its own files. -/
theorem kept_record (kept : Kept scope p log) {capture : NewMetricCapture} {facts : List (NewFact V)}
    (accepted : Accepted refused p.store capture facts) (steady : StepSteady scope refused p (.record capture facts)) :
    Kept scope ⟨written scope p.store capture facts, p.found⟩ (log ++ [⟨p.store.nextCapture, capture, facts⟩]) := by
  have spec := written_spec kept.valid capture facts
  have next : (written scope p.store capture facts).nextCapture = p.store.nextCapture + 1 := written_nextCapture capture facts
  refine ⟨spec.1, written_heldAtCapture kept.valid kept.held capture facts, ?_, ?_, ?_⟩
  · intro doomed member id inside
    obtain ⟨before, scans⟩ := kept.found doomed member id inside
    refine ⟨by simp only [next]; omega, ?_⟩
    intro c captured same
    change c ∈ (written scope p.store capture facts).captures at captured
    rw [spec.2.2] at captured
    rcases List.mem_append.mp captured with captured | captured
    · exact scans c captured same
    · rw [List.mem_singleton.mp captured, toCapture_id] at same
      omega
  · intro entry member
    simp only [next]
    rcases List.mem_append.mp member with member | member
    · have before := kept.old entry member
      omega
    · rw [List.mem_singleton.mp member]
      exact Nat.lt_succ_self _
  · intro entry member present done scan m path perPath given
    rcases List.mem_append.mp member with member | member
    · have before := kept.old entry member
      obtain ⟨c, captured, same⟩ := present
      change c ∈ (written scope p.store capture facts).captures at captured
      rw [spec.2.2] at captured
      have stays : ∃ c ∈ p.store.captures, c.id = entry.id := by
        rcases List.mem_append.mp captured with captured | captured
        · exact ⟨c, captured, same⟩
        · rw [List.mem_singleton.mp captured, toCapture_id] at same
          omega
      have read := spec.2.1.partHeld before (.file m path)
      change (((written scope p.store capture facts).partHeld entry.id (.file m path)).map (·.toNewFact)).Perm _
      rw [read]
      exact kept.reads entry member stays done scan m path perPath given
    · obtain rfl := List.mem_singleton.mp member
      refine written_pathHeld_of_steady kept.valid perPath done scan given ?_
      obtain ⟨f, inside, covered⟩ := given
      obtain ⟨rfl, onPath⟩ : f.measureId = m ∧ f.path = some path := by simpa [Part.covers] using covered
      exact steady accepted done scan f inside perPath path onPath

omit [DecidableEq V] in
/-- Deleting what a prune found keeps what the run kept. -/
theorem kept_delete (kept : Kept scope p log) {doomed : List Nat} (planned : doomed ∈ p.found) (lines : LinesKept p.store doomed)
    {found : List (List Nat)} (fewer : ∀ d ∈ found, d ∈ p.found) : Kept scope ⟨p.store.pruneDoomed doomed, found⟩ log := by
  have atHome : HeldAtHome p.store doomed := by
    intro f inside gone c _ _ part link linked holds
    obtain ⟨fc, captured, id⟩ := kept.valid.factCaptured f inside
    obtain ⟨_, scans⟩ := kept.found doomed planned f.captureId gone
    obtain ⟨done, scan⟩ := scans fc captured id
    rw [← id]
    exact kept.held f inside part (kept.valid.linkScoped _ _ _ linked) (holds_iff.mp holds).covered fc captured id done scan
  refine ⟨pruned_valid kept.valid, pruned_heldAtCapture kept.valid kept.held doomed, ?_, kept.old, ?_⟩
  · intro other member id inside
    obtain ⟨before, scans⟩ := kept.found other (fewer other member) id inside
    exact ⟨before, fun c captured => scans c (survivor_mem.mp captured).1⟩
  · rintro entry member ⟨c, captured, same⟩ done scan m path perPath given
    obtain ⟨captured, survives⟩ := survivor_mem.mp captured
    have read := pruned_partHeld kept.valid atHome lines captured survives (.file m path)
    change (((p.store.pruneDoomed doomed).partHeld entry.id (.file m path)).map (·.toNewFact)).Perm _
    rw [← same, read, same]
    exact kept.reads entry member ⟨c, captured, same⟩ done scan m path perPath given

theorem kept_step (kept : Kept scope p log) {event : Event V} (steady : StepSteady scope refused p event) :
    Kept scope (p.step scope refused event) (log ++ recordedBy scope refused p [event]) := by
  cases event with
  | record capture facts =>
    simp only [recordedBy, Pruning.step, record_eq]
    split
    next accepted => exact kept_record kept accepted steady
    next =>
      rw [List.append_nil]
      exact kept
  | find streamId =>
    simp only [recordedBy, Pruning.step, List.append_nil]
    refine ⟨kept.valid, kept.held, ?_, kept.old, kept.reads⟩
    intro doomed member id inside
    rcases List.mem_append.mp member with member | member
    · exact kept.found doomed member id inside
    · rw [List.mem_singleton.mp member] at inside
      obtain ⟨c, captured, rfl, done, scan⟩ := dominated_scan inside
      refine ⟨kept.valid.captureOld c captured, ?_⟩
      intro d other same
      have one : d = c := List.inj_on_of_nodup_map kept.valid.captureIds other captured same
      exact one ▸ ⟨done, scan⟩
  | delete prune =>
    simp only [recordedBy, Pruning.step, List.append_nil]
    split
    next doomed planned =>
      exact kept_delete kept (List.mem_of_getElem? planned) (steady doomed planned)
        (fun d member => List.mem_of_mem_eraseIdx member)
    next => exact kept

theorem recordedBy_cons (p : Pruning V) (event : Event V) (events : List (Event V)) :
    recordedBy scope refused p (event :: events) =
      recordedBy scope refused p [event] ++ recordedBy scope refused (p.step scope refused event) events := by
  cases event with
  | record capture facts =>
    simp only [recordedBy]
    split <;> simp
  | find => simp [recordedBy]
  | delete => simp [recordedBy]

theorem kept_run (kept : Kept scope p log) {events : List (Event V)} (steady : RunSteady scope refused p events) :
    Kept scope (p.run scope refused events) (log ++ recordedBy scope refused p events) := by
  induction events generalizing p log with
  | nil =>
    simp only [recordedBy, List.append_nil]
    exact kept
  | cons event events ih =>
    rw [recordedBy_cons, ← List.append_assoc]
    exact ih (kept_step kept steady.1) steady.2

/-- The database before the first write, with no prune under way. -/
def start : Pruning V := ⟨.empty, []⟩

omit [DecidableEq V] in
theorem start_kept : Kept scope (start : Pruning V) [] := by
  refine ⟨empty_valid, ?_, by simp [start], by simp, by simp⟩
  intro f inside
  cases inside

/-- In a run of writes and prunes whose steps are steady, every recorded scan that has not
been deleted reads back each file it was given facts of. -/
theorem prune_readback {events : List (Event V)} (steady : RunSteady scope refused start events) :
    ∀ entry ∈ recordedBy scope refused start events, ReadsBack scope (start.run scope refused events).store entry := by
  have kept := kept_run (start_kept) steady
  rw [List.nil_append] at kept
  exact kept.reads

end Runs

/-- A scan written after a prune carries on a file from the baseline. -/
theorem prune_readback_baseline :
    let x := plainFact 1 5 (some "a.rs") (some 1)
    let y := plainFact 1 6 (some "a.rs") (some 1)
    let events := [.record (plainCapture .delta 1) [x], .record (plainCapture .full 2) [y], .find 1, .delete 0,
      .record (plainCapture .delta 3) [y]]
    ReadsBack plainScope ((start : Pruning Nat).run plainScope nothingRefused events).store ⟨3, plainCapture .delta 3, [y]⟩ := by
  intro x y events
  exact prune_readback (by decide) _ (by decide)

/-- A prune deletes the scan that closed `x`, and one that moved it; the scan after it finds
`x` again, and carries it on from the effort's scan, closed or at the wrong line. -/
theorem prune_readback_lost :
    let x := plainFact 1 5 (some "a.rs") (some 1)
    let x' := plainFact 1 5 (some "a.rs") (some 7)
    let y := plainFact 1 6 (some "a.rs") (some 1)
    let read := fun second => (((start : Pruning Nat).run plainScope nothingRefused
      [.record { plainCapture .delta 1 with effortId := some 9 } [x], .record (plainCapture .delta 2) [second],
        .record (plainCapture .full 3) [], .find 1, .delete 0, .record (plainCapture .delta 4) [x]]).store.pathHeld 4 1
          "a.rs").map (·.toNewFact)
    ¬ (read y).Perm [x] ∧ ¬ (read x').Perm [x] := by
  decide

end Oxplow.Proofs.PruneRuns
