import Oxplow.Proofs.Restatement

/-! Deleting captures. A fact that a deleted capture stored moves up to the first
survivor that holds it, at the line it has there, and every survivor holds it still:
a later survivor stands on the same chain, or its own starts after that one. -/

namespace Oxplow.Proofs.Rehome
open Library Metrics FactChain Restatement

variable {V : Type} {scope : Nat → Option CaptureScope}

/-- A fact as `rehome` leaves it. -/
def rehomed (s : Store V) (doomed : List Nat) (f : Fact V) : Fact V :=
  match s.home doomed f with
  | some home => { f with captureId := home, line := s.lineAtHold home f }
  | none => f

/-- Where a fact moves up to: the first surviving holder. -/
structure HomeAt (s : Store V) (doomed : List Nat) (f : Fact V) (part : Part) (h : Capture) (link : Link) : Prop where
  gone : f.captureId ∈ doomed
  covered : part.covers f.toNewFact = true
  own : (s.link part f.captureId).isSome = true
  member : h ∈ s.captures
  stays : h.id ∉ doomed
  later : f.captureId < h.id
  linked : s.link part h.id = some link
  started : link.fromCaptureId ≤ f.captureId
  lasting : ∀ last, f.lastCaptureId = some last → h.id ≤ last
  origin : ∀ bc ∈ s.captures, bc.id = f.captureId → h.origin = bc.origin

variable {f : Fact V} {part : Part}

theorem homePart_eq_some {s : Store V} (found : s.homePart f = some part) :
    part.covers f.toNewFact = true ∧ (s.link part f.captureId).isSome = true := by
  unfold Store.homePart at found
  split at found
  next linked =>
    cases found
    exact ⟨by simp [Part.covers], linked⟩
  next =>
    obtain ⟨path, onPath, found⟩ := Option.bind_eq_some_iff.mp found
    split at found
    next linked =>
      cases found
      exact ⟨by simp [Part.covers, onPath], linked⟩
    next => cases found

section Valid
variable {s : Store V} (valid : Valid scope s) (doomed : List Nat)
include valid

/-- A fact's own capture holds it by the one part that covers it. -/
theorem homePart_of_linked (fits : Scoped scope part) (covered : part.covers f.toNewFact = true)
    (own : (s.link part f.captureId).isSome = true) : s.homePart f = some part := by
  have only : ∀ other, s.homePart f = some other → other = part := by
    intro other found
    obtain ⟨inOther, linked⟩ := homePart_eq_some found
    obtain ⟨link, linked⟩ := Option.isSome_iff_exists.mp linked
    exact scoped_part_eq (valid.linkScoped _ _ _ linked) fits inOther covered
  cases found : s.homePart f with
  | some other => rw [only other found]
  | none =>
    unfold Store.homePart at found
    split at found
    next => cases found
    next unchained =>
      cases part with
      | measure m =>
        have measure : f.measureId = m := by simpa [Part.covers] using covered
        exact absurd (measure ▸ own) unchained
      | file m path =>
        obtain ⟨measure, onPath⟩ : f.measureId = m ∧ f.path = some path := by simpa [Part.covers] using covered
        rw [onPath, Option.bind_some, measure, if_pos own] at found
        cases found

theorem home_eq_some {home : Nat} (found : s.home doomed f = some home) :
    ∃ part h link, h.id = home ∧ HomeAt s doomed f part h link ∧ ∀ d ∈ s.captures, d.id ∉ doomed → d.origin = h.origin →
      f.captureId < d.id → (∀ last, f.lastCaptureId = some last → d.id ≤ last) → ∀ row, s.link part d.id = some row →
        row.fromCaptureId ≤ f.captureId → home ≤ d.id := by
  unfold Store.home at found
  obtain ⟨bc, captured, found⟩ := Option.bind_eq_some_iff.mp found
  obtain ⟨inCaptures, own⟩ := capture?_eq_some captured
  simp only [Bool.and_eq_true] at found
  split at found
  next gone =>
    obtain ⟨part, homePart, found⟩ := Option.bind_eq_some_iff.mp found
    obtain ⟨covered, linkedOwn⟩ := homePart_eq_some homePart
    obtain ⟨member, least⟩ := List.min?_eq_some_iff.mp found
    obtain ⟨h, selected, rfl⟩ := List.mem_map.mp member
    obtain ⟨inside', fits⟩ := List.mem_filter.mp selected
    simp only [Bool.and_eq_true, beq_iff_eq, decide_eq_true_eq, Bool.not_eq_true', List.contains_eq_mem,
      decide_eq_false_iff_not, Option.all_eq_true] at fits gone
    obtain ⟨⟨⟨⟨origin, later⟩, starts⟩, lasting⟩, stays⟩ := fits
    cases linked : s.link part h.id with
    | none => simp [linked] at starts
    | some link =>
      refine ⟨part, h, link, rfl, ⟨gone.1, covered, linkedOwn, inside', stays, later, linked, ?_, lasting, ?_⟩, ?_⟩
      · simpa [linked] using starts
      · intro other inOther sameId
        have one : other = bc := List.inj_on_of_nodup_map valid.captureIds inOther inCaptures (sameId.trans own.symm)
        rw [one, origin]
      · intro d inD survives sameOrigin after lasts row linkedD begins
        refine least d.id (List.mem_map_of_mem (List.mem_filter.mpr ⟨inD, ?_⟩))
        simp only [Bool.and_eq_true, beq_iff_eq, decide_eq_true_eq, Bool.not_eq_true', List.contains_eq_mem,
          decide_eq_false_iff_not, Option.all_eq_true]
        exact ⟨⟨⟨⟨sameOrigin.trans origin, after⟩, by simpa [linkedD] using begins⟩, lasts⟩, survives⟩
  next => cases found

/-- A fact with a row of its own that a survivor holds moves up. -/
theorem home_of_held (gone : f.captureId ∈ doomed) {c : Capture} (member : c ∈ s.captures) (survives : c.id ∉ doomed)
    {link : Link} (linked : s.link part c.id = some link) (holding : Holding s c part link f)
    (own : (s.link part f.captureId).isSome = true) : ∃ home, s.home doomed f = some home := by
  obtain ⟨bc, captured, id, origin, _⟩ := storedFor_iff.mp holding.stored
  have found : s.capture? f.captureId = some bc := id ▸ capture?_of_mem valid.captureIds captured
  have homePart := homePart_of_linked valid (valid.linkScoped _ _ _ linked) holding.covered own
  have born := holding.born
  have after : f.captureId < c.id := by
    rcases Nat.lt_or_eq_of_le born with before | same
    · exact before
    · exact absurd (same ▸ gone) survives
  have lasts : f.lastCaptureId.all (f.captureId < ·) = true := by
    rw [Option.all_eq_true]
    intro last ends
    have lasting := holding.lasting last ends
    simpa using (show f.captureId < last by omega)
  unfold Store.home
  rw [found, Option.bind_eq_bind, Option.bind_some, if_pos (by simp [gone, lasts]), homePart]
  simp only [Option.bind_eq_bind, Option.bind_some]
  have candidate : c.id ∈ (s.captures.filter fun hc => hc.origin == bc.origin && decide (f.captureId < hc.id) &&
      (s.link part hc.id).any (fun row => decide (row.fromCaptureId ≤ f.captureId)) &&
      f.lastCaptureId.all (fun last => decide (hc.id ≤ last)) && !doomed.contains hc.id).map (·.id) := by
    refine List.mem_map_of_mem (List.mem_filter.mpr ⟨member, ?_⟩)
    simp only [Bool.and_eq_true, beq_iff_eq, decide_eq_true_eq, Bool.not_eq_true', List.contains_eq_mem,
      decide_eq_false_iff_not, Option.all_eq_true]
    exact ⟨⟨⟨⟨origin.symm, after⟩, by simpa [linked] using holding.started⟩, holding.lasting⟩, survives⟩
  cases least : ((s.captures.filter fun hc => hc.origin == bc.origin && decide (f.captureId < hc.id) &&
      (s.link part hc.id).any (fun row => decide (row.fromCaptureId ≤ f.captureId)) &&
      f.lastCaptureId.all (fun last => decide (hc.id ≤ last)) && !doomed.contains hc.id).map (·.id)).min? with
  | some home => exact ⟨home, rfl⟩
  | none =>
    rw [List.min?_eq_none_iff.mp least] at candidate
    cases candidate

end Valid

/-! ## The store after -/

section Rows
variable (s : Store V) (doomed : List Nat)

@[simp] theorem rehomed_id (f : Fact V) : (rehomed s doomed f).id = f.id := by
  unfold rehomed
  split <;> rfl

@[simp] theorem rehomed_last (f : Fact V) : (rehomed s doomed f).lastCaptureId = f.lastCaptureId := by
  unfold rehomed
  split <;> rfl

@[simp] theorem rehomed_measure (f : Fact V) : (rehomed s doomed f).measureId = f.measureId := by
  unfold rehomed
  split <;> rfl

@[simp] theorem rehomed_path (f : Fact V) : (rehomed s doomed f).path = f.path := by
  unfold rehomed
  split <;> rfl

@[simp] theorem rehomed_covers (part : Part) (f : Fact V) :
    part.covers (rehomed s doomed f).toNewFact = part.covers f.toNewFact := by
  cases part <;> simp [Part.covers]

/-- But for the line a fact keeps its columns. -/
theorem rehomed_row (f : Fact V) (line : Option Int) (c : Capture) :
    Store.factRow (rehomed s doomed f) line c = Store.factRow f line c := by
  unfold rehomed
  split <;> rfl

theorem rehomed_slimRow (f : Fact V) (line : Option Int) (c : Capture) :
    Store.slimRow (rehomed s doomed f) line c = Store.slimRow f line c := by
  unfold rehomed
  split <;> rfl

theorem rehomed_of_none (none : s.home doomed f = none) : rehomed s doomed f = f := by
  unfold rehomed
  rw [none]

theorem rehomed_of_some {home : Nat} (found : s.home doomed f = some home) :
    rehomed s doomed f = { f with captureId := home, line := s.lineAtHold home f } := by
  unfold rehomed
  rw [found]

theorem pruned_captures : (s.pruneDoomed doomed).captures = s.captures.filter fun c => !doomed.contains c.id := rfl

theorem pruned_facts : (s.pruneDoomed doomed).facts =
    (s.facts.map (rehomed s doomed)).filter fun f => !doomed.contains f.captureId := rfl

theorem pruned_link (part : Part) (id : Nat) :
    (s.pruneDoomed doomed).link part id = if id ∈ doomed then none else s.link part id := by
  cases part <;> simp [Store.pruneDoomed, Store.deleteCaptures, Store.rehome, Store.link, Table.get_delete]

/-- Reading facts through a test that sees no lost fact. -/
theorem pruned_filterMap {β : Type} {read read' : Fact V → Option β}
    (same : ∀ f ∈ s.facts, (rehomed s doomed f).captureId ∉ doomed → read' (rehomed s doomed f) = read f)
    (lost : ∀ f ∈ s.facts, (rehomed s doomed f).captureId ∈ doomed → read f = none) :
    (s.pruneDoomed doomed).facts.filterMap read' = s.facts.filterMap read := by
  rw [pruned_facts, List.filterMap_filter, List.filterMap_map]
  apply List.filterMap_congr
  intro f member
  by_cases gone : (rehomed s doomed f).captureId ∈ doomed
  · simp [gone, lost f member gone]
  · simp [gone, same f member gone]

end Rows

section Reads
variable {s : Store V} (valid : Valid scope s) {doomed : List Nat}
include valid

omit valid in
theorem pruned_storedFor (c : Capture) (stays : f.captureId ∉ doomed) :
    (s.pruneDoomed doomed).storedFor c f = s.storedFor c f := by
  rw [Bool.eq_iff_iff, storedFor_iff, storedFor_iff]
  constructor
  · rintro ⟨fc, inside, rest⟩
    exact ⟨fc, (List.mem_filter.mp inside).1, rest⟩
  · rintro ⟨fc, inside, id, rest⟩
    exact ⟨fc, List.mem_filter.mpr ⟨inside, by simpa [id] using stays⟩, id, rest⟩

variable {c : Capture} {link : Link}

/-- A survivor holds just what it held. -/
theorem pruned_holds (member : c ∈ s.captures) (survives : c.id ∉ doomed) (linked : s.link part c.id = some link)
    (stays : (rehomed s doomed f).captureId ∉ doomed) :
    (s.pruneDoomed doomed).holds c part link (rehomed s doomed f) = s.holds c part link f := by
  cases found : s.home doomed f with
  | none =>
    rw [rehomed_of_none s doomed found] at stays ⊢
    unfold Store.holds
    rw [pruned_storedFor c stays]
  | some home =>
    obtain ⟨other, h, row, rfl, at_, least⟩ := home_eq_some valid doomed found
    have captureId : (rehomed s doomed f).captureId = h.id := by rw [rehomed_of_some s doomed found]
    have fits := valid.linkScoped _ _ _ linked
    have otherFits := valid.linkScoped _ _ _ at_.linked
    -- Both stand for the same part, for it covers the fact.
    have parts : part.covers f.toNewFact = true → part = other :=
      fun covered => scoped_part_eq fits otherFits covered at_.covered
    have homeDone : h.status = .done := by
      obtain ⟨d, inside, id, done⟩ := valid.linkCaptured _ _ _ at_.linked
      have one : d = h := List.inj_on_of_nodup_map valid.captureIds inside at_.member id
      exact one ▸ done
    have later := at_.later
    rw [Bool.eq_iff_iff, holds_iff, holds_iff]
    constructor
    · intro holding
      have covered : part.covers f.toNewFact = true := by simpa using holding.covered
      obtain rfl := parts covered
      have stored : s.storedFor c (rehomed s doomed f) = true := pruned_storedFor c stays ▸ holding.stored
      obtain ⟨d, inside, id, origin, _⟩ := storedFor_iff.mp stored
      have one : d = h := List.inj_on_of_nodup_map valid.captureIds inside at_.member (id.trans captureId)
      have sameOrigin : c.origin = h.origin := one ▸ origin.symm
      have started := captureId ▸ holding.started
      have born := captureId ▸ holding.born
      refine ⟨covered, ?_, by omega, by simpa using holding.lasting, ?_⟩
      · rcases Nat.lt_or_eq_of_le born with before | same
        · rcases valid.apart part c member h at_.member sameOrigin before link row linked at_.linked with chain | after
          · exact chain ▸ at_.started
          · omega
        · rw [← same, at_.linked] at linked
          cases linked
          exact at_.started
      · obtain ⟨own, ownLinked⟩ := Option.isSome_iff_exists.mp at_.own
        obtain ⟨bc, captured, bcId, done⟩ := valid.linkCaptured _ _ _ ownLinked
        exact storedFor_iff.mpr ⟨bc, captured, bcId, (at_.origin bc captured bcId).symm.trans sameOrigin.symm, done⟩
    · intro holding
      obtain rfl := parts holding.covered
      obtain ⟨bc, captured, bcId, origin, _⟩ := storedFor_iff.mp holding.stored
      have sameOrigin : c.origin = h.origin := origin.symm.trans (at_.origin bc captured bcId).symm
      have born := holding.born
      have started := holding.started
      have after : f.captureId < c.id := by
        rcases Nat.lt_or_eq_of_le born with before | same
        · exact before
        · exact absurd (same ▸ at_.gone) survives
      have first := least c member survives sameOrigin after holding.lasting link linked started
      refine ⟨by simpa using holding.covered, by omega, by omega, by simpa using holding.lasting, ?_⟩
      rw [pruned_storedFor c stays]
      exact storedFor_iff.mpr ⟨h, at_.member, captureId.symm, sameOrigin.symm, homeDone⟩

theorem pruned_moves (inside : f ∈ s.facts) (stays : (rehomed s doomed f).captureId ∉ doomed) (time : Nat) :
    (s.pruneDoomed doomed).lines.get (f.id, time) =
      if (s.home doomed f).any (time ≤ ·) then none else s.lines.get (f.id, time) := by
  have present : (s.pruneDoomed doomed).facts.any (·.id == f.id) = true := by
    refine List.any_eq_true.mpr ⟨rehomed s doomed f, ?_, by simp⟩
    exact List.mem_filter.mpr ⟨List.mem_map_of_mem inside, by simpa using stays⟩
  have only : (s.facts.any fun g => g.id == f.id && (s.home doomed g).any (time ≤ ·)) = (s.home doomed f).any (time ≤ ·) := by
    rw [Bool.eq_iff_iff, List.any_eq_true]
    constructor
    · rintro ⟨g, member, passed⟩
      simp only [Bool.and_eq_true, beq_iff_eq] at passed
      have equal : g = f := List.inj_on_of_nodup_map valid.factIds member inside passed.1
      exact equal ▸ passed.2
    · intro passed
      exact ⟨f, inside, by simp [passed]⟩
  have delete : (s.pruneDoomed doomed).lines.get (f.id, time) =
      if (!(s.pruneDoomed doomed).facts.any (·.id == f.id)) = true then none else (s.rehome doomed).lines.get (f.id, time) :=
    Table.get_delete (s.rehome doomed).lines (fun row => !(s.pruneDoomed doomed).facts.any (·.id == row.1)) (f.id, time)
  have drop : (s.rehome doomed).lines.get (f.id, time) =
      if (s.facts.any fun g => g.id == f.id && (s.home doomed g).any (time ≤ ·)) = true then none
      else s.lines.get (f.id, time) :=
    Table.get_delete s.lines (fun row => s.facts.any fun g => g.id == row.1 && (s.home doomed g).any (row.2 ≤ ·)) (f.id, time)
  rw [delete, present, Bool.not_true, if_neg Bool.false_ne_true, drop, only]

/-- A fact that moved up shows a later survivor the line it has at its new home where the
line it was stored with showed before. -/
theorem pruned_lineAtHold {holder : Nat} (inside : f ∈ s.facts) (stays : (rehomed s doomed f).captureId ∉ doomed)
    (early : ∀ home, s.home doomed f = some home → home ≤ holder) :
    (s.pruneDoomed doomed).lineAtHold holder (rehomed s doomed f) = s.lineAtHold holder f ↔
      ∀ home, s.home doomed f = some home →
        newest (fun time => if time ≤ home then none else s.lines.get (f.id, time)) holder = some none →
          s.lineAtHold home f = f.line := by
  have rows := pruned_moves valid inside stays
  cases found : s.home doomed f with
  | none =>
    simp only [found, Option.any_none, Bool.false_eq_true, if_false] at rows
    refine ⟨fun _ _ stands => (by cases stands), fun _ => ?_⟩
    rw [rehomed_of_none s doomed found, lineAtHold_eq, lineAtHold_eq]
    simp only [rows]
  | some home =>
    simp only [found, Option.any_some, decide_eq_true_eq] at rows
    have split := newest_split (fun time => s.lines.get (f.id, time)) (early home found)
    rw [rehomed_of_some s doomed found, lineAtHold_eq, lineAtHold_eq s holder, lineAtHold_eq s home]
    simp only [rows, split, Option.some.injEq, forall_eq']
    cases newest (fun time => if time ≤ home then none else s.lines.get (f.id, time)) holder with
    | none => simp
    | some move => cases move <;> simp [lineAtHold_eq s home]

/-- Each fact of a deleted capture that a survivor holds has a row of its own capture. -/
def HeldAtHome (s : Store V) (doomed : List Nat) : Prop :=
  ∀ f ∈ s.facts, f.captureId ∈ doomed → ∀ c ∈ s.captures, c.id ∉ doomed → ∀ part link, s.link part c.id = some link →
    s.holds c part link f = true → (s.link part f.captureId).isSome = true

/-- Where a survivor sees a fact that moved up at the line it was stored with, for it lost
its line since, that is the line it has at its new home. -/
def LinesKept (s : Store V) (doomed : List Nat) : Prop :=
  ∀ f ∈ s.facts, ∀ home ∈ s.home doomed f, ∀ c ∈ s.captures, c.id ∉ doomed → ∀ path ∈ f.path,
    ∀ link ∈ s.link (.file f.measureId path) c.id, s.holds c (.file f.measureId path) link f = true →
      newest (fun time => if time ≤ home then none else s.lines.get (f.id, time)) c.id = some none →
        s.lineAtHold home f = f.line

instance (s : Store V) (doomed : List Nat) : Decidable (LinesKept s doomed) :=
  inferInstanceAs (Decidable (∀ f ∈ s.facts, ∀ home ∈ s.home doomed f, ∀ c ∈ s.captures, _ → ∀ path ∈ f.path,
    ∀ link ∈ s.link (.file f.measureId path) c.id, _ → _ → _))

/-- A fact that goes with its capture was not held by a survivor. -/
theorem not_holds_of_lost (held : HeldAtHome s doomed) (member : c ∈ s.captures) (survives : c.id ∉ doomed)
    (linked : s.link part c.id = some link) (inside : f ∈ s.facts) (lost : (rehomed s doomed f).captureId ∈ doomed) :
    s.holds c part link f = false := by
  rw [← Bool.not_eq_true]
  intro holds
  have gone : f.captureId ∈ doomed := by
    cases found : s.home doomed f with
    | none => rwa [rehomed_of_none s doomed found] at lost
    | some home =>
      obtain ⟨_, _, _, _, at_, _⟩ := home_eq_some valid doomed found
      exact at_.gone
  obtain ⟨home, found⟩ := home_of_held valid doomed gone member survives linked (holds_iff.mp holds)
    (held f inside gone c member survives part link linked holds)
  obtain ⟨_, h, _, rfl, at_, _⟩ := home_eq_some valid doomed found
  rw [rehomed_of_some s doomed found] at lost
  exact at_.stays lost

/-- The first survivor that holds a fact is no later than any that does. -/
theorem home_le (member : c ∈ s.captures) (survives : c.id ∉ doomed) (linked : s.link part c.id = some link)
    (holds : s.holds c part link f = true) {home : Nat} (found : s.home doomed f = some home) : home ≤ c.id := by
  obtain ⟨other, h, row, rfl, at_, least⟩ := home_eq_some valid doomed found
  have holding := holds_iff.mp holds
  obtain rfl := scoped_part_eq (valid.linkScoped _ _ _ linked) (valid.linkScoped _ _ _ at_.linked) holding.covered at_.covered
  obtain ⟨bc, captured, bcId, origin, _⟩ := storedFor_iff.mp holding.stored
  have after : f.captureId < c.id := by
    rcases Nat.lt_or_eq_of_le holding.born with before | same
    · exact before
    · exact absurd (same ▸ at_.gone) survives
  exact least c member survives (origin.symm.trans (at_.origin bc captured bcId).symm) after holding.lasting link linked
    holding.started

end Reads
end Oxplow.Proofs.Rehome
