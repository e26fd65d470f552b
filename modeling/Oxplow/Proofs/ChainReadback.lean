import Oxplow.Proofs.RecordRuns

/-! What a finished capture reads back of a complete-scope measure is what it was
given. A fact of the measure is open just while the newest finished capture of its
stream and producer holds it, so the capture a chain is carried on from holds open
facts only, and nothing of the measure was stored since. -/

namespace Oxplow.Proofs.ChainReadback
open Metrics FactChain Restatement StoreInvariant WriteParts Readback RecordRuns HeldFacts

variable {V : Type} {scope : Nat → Option CaptureScope}

/-- The newest finished capture of its stream and producer. -/
structure Newest (s : Store V) (n : Capture) : Prop where
  member : n ∈ s.captures
  done : n.status = .done
  newest : ∀ c ∈ s.captures, c.origin = n.origin → c.status = .done → c.id ≤ n.id

variable {s : Store V}

theorem newest_exists {c : Capture} (member : c ∈ s.captures) (done : c.status = .done) :
    ∃ n, Newest s n ∧ n.origin = c.origin := by
  let finished := s.captures.filter fun d => d.origin == c.origin && d.status == .done
  have present : c.id ∈ finished.map (·.id) :=
    List.mem_map_of_mem (List.mem_filter.mpr ⟨member, by simp [done]⟩)
  obtain ⟨b, found⟩ : ∃ b, (finished.map (·.id)).max? = some b := by
    cases found : (finished.map (·.id)).max? with
    | some b => exact ⟨b, rfl⟩
    | none =>
      rw [List.max?_eq_none_iff.mp found] at present
      cases present
  obtain ⟨n, inside, rfl, fits, greatest⟩ := newest_capture found
  simp only [Bool.and_eq_true, beq_iff_eq] at fits greatest
  refine ⟨n, ⟨inside, fits.2, ?_⟩, fits.1⟩
  intro d other origin finished
  exact greatest d other ⟨origin.trans fits.1, finished⟩

variable {s' : Store V} {n : Capture}

/-- The newest finished capture is the one a new capture's chains are carried on from. -/
theorem previousDone_newest (valid : Valid scope s) {K : Capture} (captures : s'.captures = s.captures ++ [K])
    (fresh : K.id = s.nextCapture) (newest : Newest s n) (origin : n.origin = K.origin) :
    s'.previousDone K.id K.toNewMetricCapture = some n.id := by
  refine List.max?_eq_some_iff.mpr ⟨?_, ?_⟩
  · refine List.mem_map_of_mem (List.mem_filter.mpr ⟨by simp [captures, newest.member], ?_⟩)
    have old := valid.captureOld n newest.member
    simp only [Bool.and_eq_true, beq_iff_eq, decide_eq_true_eq]
    exact ⟨⟨origin, newest.done⟩, by omega⟩
  · intro id present
    obtain ⟨c, inside, rfl⟩ := List.mem_map.mp present
    obtain ⟨inside, fits⟩ := List.mem_filter.mp inside
    simp only [Bool.and_eq_true, beq_iff_eq, decide_eq_true_eq] at fits
    rw [captures] at inside
    rcases List.mem_append.mp inside with inside | inside
    · exact newest.newest c inside (fits.1.1.trans origin.symm) fits.1.2
    · rw [List.mem_singleton.mp inside] at fits
      omega

/-- `f` is open just while `n` holds it. -/
structure Follows (s : Store V) (part : Part) (n : Capture) (f : Fact V) : Prop where
  holding : f.lastCaptureId = none → ∃ link, s.link part n.id = some link ∧ link.fromCaptureId ≤ f.captureId
  closed : ∀ last, f.lastCaptureId = some last → last < n.id

variable {f : Fact V}

theorem Follows.of_links {part : Part} (follows : Follows s part n f) (same : s'.link part n.id = s.link part n.id) :
    Follows s' part n f :=
  ⟨fun isOpen => same ▸ follows.holding isOpen, follows.closed⟩

/-- The newest finished capture of a stream and producer holds its open facts of
complete-scope measures, and no closed one. -/
def ChainKept (scope : Nat → Option CaptureScope) (s : Store V) : Prop :=
  ∀ m, scope m = some .complete → ∀ f ∈ s.facts, (Part.measure m).covers f.toNewFact = true →
    ∀ n, Newest s n → s.storedFor n f = true → Follows s (.measure m) n f

theorem partHeld_unlinked {part : Part} {id : Nat} (unlinked : s.link part id = none) : s.partHeld id part = [] := by
  unfold Store.partHeld
  split
  next c found =>
    unfold Store.held
    rw [(capture?_eq_some found).2, unlinked]
    rfl
  next => rfl

section Restated
variable {s : Store V} (valid : Valid scope s) {K : Capture} {part : Part} {base : Option Nat} {new : List (NewFact V)}
  {r : Restatement V} (step : Restates s K part base new r)
include valid step

/-- What followed the base follows the capture that restates the part. -/
theorem restate_follows (stands : base = some n.id) (older : n.id < K.id) (inside : f ∈ s.facts)
    (covered : part.covers f.toNewFact = true) (stored : s.storedFor n f = true) (born : f.captureId ≤ n.id)
    (member : n ∈ s.captures) (follows : Follows s part n f) :
    Follows (s.restate K.id part r) part K (closing r.closed r.last f) := by
  refine ⟨?_, ?_⟩
  · intro isOpen
    have unclosed : f.id ∉ r.closed := by
      intro closed
      simp [closing, closed] at isOpen
    have wasOpen : f.lastCaptureId = none := by
      simpa [closing, unclosed] using isOpen
    obtain ⟨link, linked, start⟩ := follows.holding wasOpen
    rw [closing_captureId]
    cases step with
    | first alone links => simp [stands, linked] at alone
    | @whole b held _ _ stands' on _ _ links =>
      have same : b = n := List.inj_on_of_nodup_map valid.captureIds on.member member
        (Option.some.inj (stands'.symm.trans stands))
      subst same
      have heldByBase : f ∈ s.held b part :=
        mem_held.mpr ⟨link, linked, inside, covered, start, born, by simp [wasOpen], stored⟩
      exact absurd (List.mem_map_of_mem heldByBase) unclosed
    | @extended b held _ depth _ stands' on _ _ _ =>
      have same : b.id = n.id := Option.some.inj (stands'.symm.trans stands)
      have oneLink : held = link := Option.some.inj (on.linked.symm.trans (same ▸ linked))
      refine ⟨⟨held.fromCaptureId, depth⟩, ?_, oneLink ▸ start⟩
      rw [restate_link, if_pos ⟨rfl, rfl⟩, Option.some_or]
  · intro last isLast
    unfold closing at isLast
    split at isLast
    next closed =>
      obtain ⟨_, _, _, _, before, _⟩ := step.closed valid.captureIds (by simpa using closed)
      have atLast : r.last = last := Option.some.inj isLast
      omega
    next =>
      have early := follows.closed last isLast
      omega

theorem added_follows (added : f ∈ numbered K.id s.nextFact r.stored) : Follows (s.restate K.id part r) part K f := by
  obtain ⟨captureId, last, source, _, _⟩ := mem_numbered added
  obtain ⟨link, linked, start⟩ := step.stored_linked valid.linkStart (fun none => by simp [none] at source)
  refine ⟨fun _ => ⟨link, ?_, by omega⟩, by simp [last]⟩
  rw [restate_link, if_pos ⟨rfl, rfl⟩, linked, Option.some_or]

end Restated

variable {m : Nat}

/-- Where the base is the newest of the captures that can have stored facts, and closed
facts closed before it, a measure is read back as it was given. -/
theorem restate_chainHeld (valid : Valid scope s) {K : Capture} (writing : Writing s K) {base : Option Nat}
    {new : List (NewFact V)} (covered : ∀ f ∈ new, (Part.measure m).covers f = true) {r : Restatement V}
    (step : Restates s K (.measure m) base new r)
    (fresh : ∀ f ∈ s.facts, (Part.measure m).covers f.toNewFact = true → f.captureId ≠ K.id)
    (unlinked : s.link (.measure m) K.id = none)
    (settled : ∀ b, base = some b → ∀ f ∈ s.facts, (Part.measure m).covers f.toNewFact = true → s.storedFor K f = true →
      f.captureId ≤ b ∧ ∀ last, f.lastCaptureId = some last → last < b) :
    (((s.restate K.id (.measure m) r).partHeld K.id (.measure m)).map (·.toNewFact)).Perm new := by
  have whole : ∀ link, r.link = some link → link.fromCaptureId = K.id →
      (((s.restate K.id (.measure m) r).partHeld K.id (.measure m)).map (·.toNewFact)).Perm new :=
    fun link linked own => .of_eq (partHeld_whole valid writing covered step linked own fresh)
  have empty : r.link = none → new = [] →
      (((s.restate K.id (.measure m) r).partHeld K.id (.measure m)).map (·.toNewFact)).Perm new := by
    intro linked none
    rw [partHeld_unlinked (by rw [restate_link, if_pos ⟨rfl, rfl⟩, linked, Option.none_or, unlinked]), none]
    exact List.Perm.refl _
  cases step with
  | first alone links =>
    rcases links with rfl | ⟨none, rfl⟩
    · exact whole _ rfl rfl
    · exact empty rfl none
  | whole stands on after before links =>
    rcases links with rfl | ⟨none, rfl⟩
    · exact whole _ rfl rfl
    · exact empty rfl none
  | @extended b held last depth found stands on after before matched =>
    have stored : ∀ f, s.storedFor K f = s.storedFor b f := by
      intro f
      unfold Store.storedFor
      rw [on.origin]
    have isOpen : ∀ f ∈ s.held b (.measure m), f.lastCaptureId = none := by
      intro f inHeld
      obtain ⟨_, _, inside, holding⟩ := mem_held.mp inHeld
      obtain ⟨_, closed⟩ := settled b.id stands f inside holding.covered (stored f ▸ holding.stored)
      cases ends : f.lastCaptureId with
      | none => rfl
      | some last =>
        have early := closed last ends
        have late := holding.lasting last ends
        omega
    have since : storedSince s K (.measure m) ⟨held.fromCaptureId, depth⟩ b.id = [] :=
      storedSince_nil fun f inside inPart stored => (settled b.id stands f inside inPart stored).1
    have read := partHeld_extended valid on matched
      (fun _ _ f inHeld _ => isOpen f inHeld) (fun _ _ file => by cases file) writing covered stands after before depth
    simp only at read
    rw [since, List.map_nil, List.nil_append, List.map_congr_left (readBack_measure matched rfl)] at read
    exact read.trans matched.news.symm

/-! ## One recorded capture -/

section Written
variable {s : Store V} (valid : Valid scope s) {capture : NewMetricCapture} {facts : List (NewFact V)}
include valid

/-- Before a capture is recorded, the newest one of its stream and producer holds the
open facts of its measures. -/
theorem older_follows (kept : ChainKept scope s) (complete : scope m = some .complete)
    (captures : s'.captures = s.captures ++ [capture.toCapture s.nextCapture]) (inside : f ∈ s.facts)
    (covered : (Part.measure m).covers f.toNewFact = true) (stored : s'.storedFor (capture.toCapture s.nextCapture) f = true) :
    ∃ n, Newest s n ∧ s'.previousDone s.nextCapture capture = some n.id ∧ s.storedFor n f = true ∧
      f.captureId ≤ n.id ∧ Follows s (.measure m) n f := by
  obtain ⟨fc, captured, id, origin, finished⟩ := storedFor_iff.mp (storedFor_older valid inside captures stored)
  obtain ⟨n, newest, sameOrigin⟩ := newest_exists captured finished
  have storedFor : s.storedFor n f = true := storedFor_iff.mpr ⟨fc, captured, id, sameOrigin.symm, finished⟩
  have previous := previousDone_newest (K := capture.toCapture s.nextCapture) valid captures rfl newest
    (sameOrigin.trans origin)
  exact ⟨n, newest, previous, storedFor, id ▸ newest.newest fc captured sameOrigin.symm finished,
    kept m complete f inside covered n newest storedFor⟩

variable [DecidableEq V]

/-- The facts of a finished capture's measures follow the capture itself. -/
theorem written_follows (kept : ChainKept scope s) (complete : scope m = some .complete) (done : capture.status = .done)
    (inside : f ∈ (written scope s capture facts).facts) (covered : (Part.measure m).covers f.toNewFact = true)
    (stored : (written scope s capture facts).storedFor (capture.toCapture s.nextCapture) f = true) :
    Follows (written scope s capture facts) (.measure m) (capture.toCapture s.nextCapture) f := by
  have captures := (written_spec valid capture facts).2.2
  by_cases restated : Part.measure m ∈
      restatedParts scope (bareStore scope s capture facts) (capture.toCapture s.nextCapture) capture facts
  · obtain ⟨before, r, as_⟩ := written_restated valid capture facts done (scoped_measure complete) (.inl ⟨m, rfl⟩) restated
    have present := (as_.kept.mem_iff covered).mp inside
    rw [restate_facts] at present
    refine Follows.of_links ?_ (as_.kept.links _)
    rcases List.mem_append.mp present with present | present
    · obtain ⟨g, old, rfl⟩ := List.mem_map.mp present
      rw [closing_columns] at covered
      have inOld : g ∈ s.facts := (as_.unchanged.mem_iff covered).mp old
      have storedOf : (written scope s capture facts).storedFor (capture.toCapture s.nextCapture) g = true := by
        simpa [Store.storedFor] using stored
      obtain ⟨n, newest, previous, storedFor, born, follows⟩ := older_follows valid kept complete captures inOld covered storedOf
      have beforeCaptures : before.captures = s.captures ++ [capture.toCapture s.nextCapture] := as_.unchanged.captures
      have stands : partBase before (capture.toCapture s.nextCapture) (.measure m) = some n.id := by
        unfold partBase Store.previousDone
        rw [beforeCaptures, ← captures]
        exact previous
      have storedBefore : before.storedFor n g = true := by
        obtain ⟨fc, captured, rest⟩ := storedFor_iff.mp storedFor
        exact storedFor_iff.mpr ⟨fc, by simp [beforeCaptures, captured], rest⟩
      exact restate_follows as_.valid as_.step stands (valid.captureOld n newest.member) old covered storedBefore born
        (by simp [beforeCaptures, newest.member])
        (follows.of_links ((as_.unchanged.links _).trans (insertCapture_link s capture _ _)))
    · exact added_follows as_.valid as_.step present
  · have untouched := (written_unrestated valid capture facts done (scoped_measure complete) (.inl ⟨m, rfl⟩) restated).1
    have inOld : f ∈ s.facts := (untouched.mem_iff covered).mp inside
    obtain ⟨n, newest, previous, _, _, follows⟩ := older_follows valid kept complete captures inOld covered stored
    have older := valid.captureOld n newest.member
    refine ⟨?_, fun last isLast => Nat.lt_trans (follows.closed last isLast) older⟩
    intro isOpen
    obtain ⟨link, linked, _⟩ := follows.holding isOpen
    have bare := bareStore_untouched (s := s) capture facts done (scoped_measure complete) (.inl ⟨m, rfl⟩)
    refine absurd (mem_restatedParts_measure.mpr (.inr ⟨n.id, ?_, ?_⟩)) restated
    · unfold Store.previousDone
      rw [bare.captures, show (s.insertCapture capture).1.captures = (written scope s capture facts).captures from captures.symm]
      exact previous
    · rw [bare.links, insertCapture_link, linked]
      rfl

theorem written_chainKept (kept : ChainKept scope s) : ChainKept scope (written scope s capture facts) := by
  intro m complete f inside covered n newest stored
  have spec := written_spec valid capture facts
  have captures := spec.2.2
  by_cases mine : n = capture.toCapture s.nextCapture
  · rw [mine] at newest stored ⊢
    have done : capture.status = .done := newest.done
    exact written_follows valid kept complete done inside covered stored
  · have member : n ∈ s.captures := by
      have present := newest.member
      rw [captures] at present
      rcases List.mem_append.mp present with present | present
      · exact present
      · exact absurd (List.mem_singleton.mp present) mine
    have older := valid.captureOld n member
    have newestOld : Newest s n :=
      ⟨member, newest.done, fun c inside => newest.newest c (by rw [captures]; exact List.mem_append_left _ inside)⟩
    -- The new capture is not a finished one of `n`'s stream and producer, so `f` is not its fact.
    have foreign : capture.status = .done → capture.origin ≠ n.origin := by
      intro done same
      have bound := newest.newest (capture.toCapture s.nextCapture) (by simp [captures]) same done
      rw [toCapture_id] at bound
      omega
    have old : f ∈ s.facts := by
      obtain ⟨fc, captured, id, origin, finished⟩ := storedFor_iff.mp stored
      refine written_fact_old valid capture facts inside ?_ ?_
      · intro own
        rw [captures] at captured
        rcases List.mem_append.mp captured with captured | captured
        · have before := valid.captureOld fc captured
          omega
        · rw [List.mem_singleton.mp captured] at origin finished
          exact foreign finished origin
      · intro done other inside same sameOrigin
        have one : other = fc := List.inj_on_of_nodup_map spec.1.captureIds
          (by rw [captures]; exact List.mem_append_left _ inside) captured (same.trans id.symm)
        exact foreign done (sameOrigin.symm.trans (one ▸ origin))
    exact (kept m complete f old covered n newestOld (storedFor_older valid old captures stored)).of_links
      (spec.2.1.links _ _ (show n.id ≠ s.nextCapture by omega))

/-- A finished capture's chain holds the facts of the measure that it was given. -/
theorem written_chainHeld (kept : ChainKept scope s) (facts : List (NewFact V)) (complete : scope m = some .complete)
    (done : capture.status = .done) :
    (((written scope s capture facts).chainHeld s.nextCapture m).map (·.toNewFact)).Perm
      (facts.filter fun f => f.measureId == m) := by
  let K := capture.toCapture s.nextCapture
  let part := Part.measure m
  have covered : ∀ f ∈ facts.filter part.covers, part.covers f = true := fun f member => (List.mem_filter.mp member).2
  change (((written scope s capture facts).partHeld s.nextCapture part).map (·.toNewFact)).Perm (facts.filter part.covers)
  by_cases restated : part ∈ restatedParts scope (bareStore scope s capture facts) K capture facts
  · obtain ⟨before, r, as_⟩ := written_restated valid capture facts done (scoped_measure complete) (.inl ⟨m, rfl⟩) restated
    have fresh : ∀ f ∈ before.facts, part.covers f.toNewFact = true → f.captureId ≠ K.id :=
      fun f inside inPart => ((as_.fresh valid capture facts inside inPart).2).ne
    have unlinked : before.link part K.id = none :=
      (as_.unchanged.links _).trans ((insertCapture_link s capture _ _).trans (valid.link_fresh part))
    rw [as_.kept.partHeld]
    refine restate_chainHeld as_.valid as_.writing covered as_.step fresh unlinked ?_
    intro b stands f inside inPart stored
    have captures := (written_spec valid capture facts).2.2
    have beforeCaptures : before.captures = s.captures ++ [K] := as_.unchanged.captures
    have stored : (written scope s capture facts).storedFor K f = true := by
      unfold Store.storedFor
      rw [captures, ← beforeCaptures]
      exact stored
    obtain ⟨n, newest, previous, _, born, follows⟩ := older_follows valid kept complete captures
      (as_.fresh valid capture facts inside inPart).1 inPart stored
    have same : b = n.id := by
      unfold partBase Store.previousDone at stands
      rw [beforeCaptures, ← captures] at stands
      exact Option.some.inj (stands.symm.trans previous)
    exact ⟨same ▸ born, fun last ends => same ▸ follows.closed last ends⟩
  · obtain ⟨untouched, none⟩ := written_unrestated valid capture facts done (scoped_measure complete) (.inl ⟨m, rfl⟩) restated
    rw [partHeld_unlinked ((untouched.links _).trans ((insertCapture_link s capture _ _).trans (valid.link_fresh part))), none]
    exact List.Perm.refl _

/-- A finished capture reads back the facts of the measure that it was given. -/
theorem written_heldFacts (kept : ChainKept scope s) (facts : List (NewFact V)) (complete : scope m = some .complete)
    (done : capture.status = .done) :
    (((written scope s capture facts).heldFacts m (.ids [s.nextCapture])).map (·.toNewFact)).Perm
      ((facts.filter fun f => f.measureId == m).map slim) := by
  have spec := written_spec valid capture facts
  have member : capture.toCapture s.nextCapture ∈ (written scope s capture facts).captures := by simp [spec.2.2]
  have read := heldFacts_measure spec.1 member complete fun f inside measure own =>
    written_stored_linked valid capture facts done (scoped_measure complete) (.inl ⟨m, rfl⟩) inside
      (by simpa [Part.covers] using measure) own
  have chain := (written_chainHeld valid kept facts complete done).map slim
  rw [List.map_map] at chain
  exact read.trans chain

end Written

/-! ## Sequences of writes -/

section Runs
variable [DecidableEq V] {refused : Store V → NewMetricCapture → List (NewFact V) → Bool}

omit [DecidableEq V] in
theorem empty_chainKept : ChainKept scope (Store.empty : Store V) := by
  intro m _ f inside
  cases inside

theorem recordAll_chainKept (writes : List (NewMetricCapture × List (NewFact V))) :
    ChainKept scope ((Store.empty : Store V).recordAll scope refused writes) :=
  (recordAll_invariant (fun _ _ _ valid kept => written_chainKept valid kept) empty_valid empty_chainKept writes).2

/-- Whatever is written before and after it, each finished capture reads back the facts of a
complete-scope measure that it was given; and what a capture reads back never changes. -/
theorem chain_readback (writes later : List (NewMetricCapture × List (NewFact V))) :
    let s := (Store.empty : Store V).recordAll scope refused writes
    (s.captures = (recorded scope refused Store.empty writes).map fun entry => entry.capture.toCapture entry.id) ∧
    (∀ entry ∈ recorded scope refused Store.empty writes, entry.capture.status = .done → ∀ m, scope m = some .complete →
      ((s.heldFacts m (.ids [entry.id])).map (·.toNewFact)).Perm
        ((entry.facts.filter fun f => f.measureId == m).map slim)) ∧
    ∀ c ∈ s.captures, ∀ m,
      (s.recordAll scope refused later).heldFacts m (.ids [c.id]) = s.heldFacts m (.ids [c.id]) := by
  intro s
  have only : ∀ {id : Nat} {c : Capture}, (Holders.ids [id]).wants c = true → c.id = id := by
    intro id c wanted
    simpa [Holders.wants] using wanted
  refine ⟨recordAll_captures empty_valid writes, ?_, ?_⟩
  · intro entry member done m complete
    obtain ⟨earlier, rest, id, same⟩ := recorded_split member
    have valid : Valid scope ((Store.empty : Store V).recordAll scope refused earlier) := recordAll_valid empty_valid earlier
    have atWrite := written_heldFacts valid (recordAll_chainKept earlier) entry.facts complete done
    have spec := written_spec valid entry.capture entry.facts
    have old : ∀ c, (Holders.ids [entry.id]).wants c = true → c.id <
        (written scope ((Store.empty : Store V).recordAll scope refused earlier) entry.capture entry.facts).nextCapture := by
      intro c wanted
      rw [only wanted, written_nextCapture, id]
      exact Nat.lt_succ_self _
    change ((Store.heldFacts (Store.recordAll scope refused Store.empty writes) m (.ids [entry.id])).map (·.toNewFact)).Perm _
    rw [same, recordAll_heldFacts spec.1 old rest m, id]
    exact atWrite
  · intro c member m
    have valid : Valid scope s := recordAll_valid empty_valid writes
    exact recordAll_heldFacts valid (fun d wanted => only wanted ▸ valid.captureOld c member) later m

/-- A chain carried on by a capture that drops a fact, after an empty one and a failed one. -/
theorem chain_readback_dropped :
    let x := plainFact 0 5 none none
    let y := plainFact 0 6 none none
    let writes := [(plainCapture .full 1, [x]), (plainCapture .full 2, []),
      ({ plainCapture .full 3 with status := .failed }, [y]), (plainCapture .full 4, [x, y, y]), (plainCapture .full 5, [y, x])]
    ((((Store.empty : Store Nat).recordAll plainScope nothingRefused writes).heldFacts 0 (.ids [5])).map (·.toNewFact)).Perm
      (([y, x].filter fun f => f.measureId == 0).map slim) :=
  (chain_readback _ []).2.1 ⟨5, plainCapture .full 5, _⟩ (by decide) rfl 0 rfl

end Runs
end Oxplow.Proofs.ChainReadback
