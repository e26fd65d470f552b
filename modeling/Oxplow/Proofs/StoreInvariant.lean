import Oxplow.Proofs.StoreFrame

/-! Every write keeps the store valid. -/

namespace Oxplow.Proofs.StoreInvariant
open Metrics FactChain Restatement

variable {V : Type} {scope : Nat → Option CaptureScope}

theorem empty_valid : Valid scope (Store.empty : Store V) where
  captureIds := List.nodup_nil
  captureOld := by simp [Store.empty]
  factIds := List.nodup_nil
  factOld := by simp [Store.empty]
  factCaptured := by simp [Store.empty]
  linkCaptured := by
    intro part id link found
    cases part <;> cases found
  linkStart := by
    intro part id link found
    cases part <;> cases found
  linkScoped := by
    intro part id link found
    cases part <;> cases found
  moveOld := by
    intro id time move found
    cases found
  moveScoped := by simp [Store.empty]
  apart := by simp [Store.empty]

/-- Nothing a write keeps is about the files. -/
theorem withFiles_valid {s : Store V} (valid : Valid scope s) (files : List FileSnapshot) :
    Valid scope { s with fileSnapshots := files } := { valid with }

theorem insertCapture_link (s : Store V) (c : NewMetricCapture) (part : Part) (id : Nat) :
    (s.insertCapture c).1.link part id = s.link part id := by
  cases part <;> rfl

theorem insertCapture_valid {s : Store V} (valid : Valid scope s) (c : NewMetricCapture) :
    Valid scope (s.insertCapture c).1 where
  captureIds := by
    have fresh : s.nextCapture ∉ s.captures.map (·.id) := by
      intro repeated
      obtain ⟨d, member, same⟩ := List.mem_map.mp repeated
      have old := valid.captureOld d member
      omega
    simp only [Store.insertCapture, List.map_append, List.map_cons, List.map_nil, toCapture_id]
    exact valid.captureIds.append (List.nodup_singleton _) (by simpa using fresh)
  captureOld := by
    intro d member
    rcases List.mem_append.mp member with member | member
    · exact Nat.lt_succ_of_lt (valid.captureOld d member)
    · rw [List.mem_singleton.mp member]
      exact Nat.lt_succ_self _
  factIds := valid.factIds
  factOld := valid.factOld
  factCaptured := by
    intro f member
    obtain ⟨d, inside, same⟩ := valid.factCaptured f member
    exact ⟨d, List.mem_append_left _ inside, same⟩
  linkCaptured := by
    intro part id link linked
    rw [insertCapture_link] at linked
    obtain ⟨d, inside, same, done⟩ := valid.linkCaptured part id link linked
    exact ⟨d, List.mem_append_left _ inside, same, done⟩
  linkStart := fun part id link linked => valid.linkStart part id link (insertCapture_link s c part id ▸ linked)
  linkScoped := fun part id link linked => valid.linkScoped part id link (insertCapture_link s c part id ▸ linked)
  moveOld := valid.moveOld
  moveScoped := valid.moveScoped
  apart := by
    intro part first inFirst second inSecond origin order later earlier linkedFirst linkedSecond
    rw [insertCapture_link] at linkedFirst linkedSecond
    -- The new capture has no row yet.
    have old : ∀ d ∈ (s.insertCapture c).1.captures, ∀ link, s.link part d.id = some link → d ∈ s.captures := by
      intro d member link linked
      rcases List.mem_append.mp member with member | member
      · exact member
      · rw [List.mem_singleton.mp member, toCapture_id, valid.link_fresh] at linked
        cases linked
    exact valid.apart part first (old first inFirst later linkedFirst) second (old second inSecond earlier linkedSecond)
      origin order later earlier linkedFirst linkedSecond

theorem insertFacts_valid {s : Store V} (valid : Valid scope s) {K : Capture} (member : K ∈ s.captures)
    (facts : List (NewFact V)) : Valid scope (s.insertFacts K.id facts) := by
  rw [insertFacts_eq]
  have link : ∀ part id, (({ s with facts := s.facts ++ numbered K.id s.nextFact facts, nextFact := s.nextFact + facts.length } :
      Store V).link part id) = s.link part id := by
    intro part id
    cases part <;> rfl
  exact {
    captureIds := valid.captureIds
    captureOld := valid.captureOld
    factIds := by
      simp only [List.map_append]
      refine valid.factIds.append (numbered_unique _ _ _) ?_
      intro id old new
      obtain ⟨f, inside, rfl⟩ := List.mem_map.mp old
      obtain ⟨g, fresh, same⟩ := List.mem_map.mp new
      have bound := valid.factOld f inside
      have start := (mem_numbered fresh).2.2.2.1
      omega
    factOld := by
      intro f inside
      rcases List.mem_append.mp inside with inside | inside
      · exact Nat.lt_of_lt_of_le (valid.factOld f inside) (Nat.le_add_right _ _)
      · exact (mem_numbered inside).2.2.2.2
    factCaptured := by
      intro f inside
      rcases List.mem_append.mp inside with inside | inside
      · exact valid.factCaptured f inside
      · exact ⟨K, member, (mem_numbered inside).1.symm⟩
    linkCaptured := fun part id row linked => valid.linkCaptured part id row (link part id ▸ linked)
    linkStart := fun part id row linked => valid.linkStart part id row (link part id ▸ linked)
    linkScoped := fun part id row linked => valid.linkScoped part id row (link part id ▸ linked)
    moveOld := fun id time move found => Nat.lt_of_lt_of_le (valid.moveOld id time move found) (Nat.le_add_right _ _)
    moveScoped := by
      intro f inside time move found
      rcases List.mem_append.mp inside with inside | inside
      · exact valid.moveScoped f inside time move found
      · have old := valid.moveOld f.id time move found
        have fresh := (mem_numbered inside).2.2.2.1
        omega
    apart := by
      intro part c inC d inD origin order later earlier linkedC linkedD
      rw [link] at linkedC linkedD
      exact valid.apart part c inC d inD origin order later earlier linkedC linkedD }

/-- `K` is the newest capture, it is finished, and its facts are being written. -/
structure Writing (s : Store V) (K : Capture) : Prop where
  member : K ∈ s.captures
  newest : ∀ c ∈ s.captures, c.id ≤ K.id
  done : K.status = .done

/-- A fact that moves is held by the base. -/
theorem moved_held {s : Store V} {K : Capture} {part : Part} {base : Option Nat} {new : List (NewFact V)}
    {r : Restatement V} (step : Restates s K part base new r) (unique : (s.captures.map (·.id)).Nodup) :
    ∀ move ∈ r.moved, ∃ b link, Base s K part b link ∧ ∃ f ∈ s.held b part, f.id = move.1 := by
  intro move member
  cases step with
  | first => simp at member
  | whole => simp at member
  | @extended b held _ _ found stands on after before matched =>
    obtain ⟨⟨row, f⟩, paired, moved⟩ := List.mem_filterMap.mp member
    have had := matched.had.mem_iff.mpr (List.mem_append_left _ (List.mem_map_of_mem paired))
    rw [partHeld_eq unique on.member] at had
    obtain ⟨g, inHeld, rfl⟩ := List.mem_map.mp had
    refine ⟨b, held, on, g, inHeld, ?_⟩
    simp only [Option.ite_none_left_eq_some, Option.some.injEq] at moved
    rw [← moved.2]
    rfl

theorem movesOf_held {s : Store V} {K : Capture} {part : Part} {base : Option Nat} {new : List (NewFact V)}
    {r : Restatement V} (step : Restates s K part base new r) (unique : (s.captures.map (·.id)).Nodup) :
    ∀ move ∈ r.moved, ∃ f ∈ s.facts, part.covers f.toNewFact = true ∧ f.id = move.1 := by
  intro move member
  obtain ⟨_, _, _, f, inHeld, same⟩ := moved_held step unique move member
  obtain ⟨_, _, inside, holding⟩ := mem_held.mp inHeld
  exact ⟨f, inside, holding.covered, same⟩

theorem restate_valid {s : Store V} (valid : Valid scope s) {K : Capture} (writing : Writing s K) {part : Part}
    (fits : Scoped scope part) {base : Option Nat} {new : List (NewFact V)} {r : Restatement V}
    (step : Restates s K part base new r) : Valid scope (s.restate K.id part r) := by
  -- A row of the new store is an old one or the one put in for `K`.
  have rows : ∀ other id link, (s.restate K.id part r).link other id = some link →
      s.link other id = some link ∨ other = part ∧ id = K.id ∧ r.link = some link := by
    intro other id link linked
    rw [restate_link] at linked
    split at linked
    next same =>
      rcases Option.or_eq_some_iff.mp linked with put | ⟨_, old⟩
      · exact .inr ⟨same.1, same.2, put⟩
      · exact .inl (by rw [same.1, same.2, old])
    next => exact .inl linked
  constructor
  · simpa using valid.captureIds
  · simpa using valid.captureOld
  · simp only [restate_facts, List.map_append, List.map_map, Function.comp_def, closing_id]
    refine valid.factIds.append (numbered_unique _ _ _) ?_
    intro id old new
    obtain ⟨f, inside, rfl⟩ := List.mem_map.mp old
    obtain ⟨g, fresh, same⟩ := List.mem_map.mp new
    have bound := valid.factOld f inside
    have start := (mem_numbered fresh).2.2.2.1
    omega
  · intro f inside
    rw [restate_nextFact]
    rw [restate_facts] at inside
    rcases List.mem_append.mp inside with inside | inside
    · obtain ⟨g, old, rfl⟩ := List.mem_map.mp inside
      rw [closing_id]
      exact Nat.lt_of_lt_of_le (valid.factOld g old) (Nat.le_add_right _ _)
    · exact (mem_numbered inside).2.2.2.2
  · intro f inside
    rw [restate_captures]
    rw [restate_facts] at inside
    rcases List.mem_append.mp inside with inside | inside
    · obtain ⟨g, old, rfl⟩ := List.mem_map.mp inside
      rw [closing_captureId]
      exact valid.factCaptured g old
    · exact ⟨K, writing.member, (mem_numbered inside).1.symm⟩
  · intro other id link linked
    rw [restate_captures]
    rcases rows other id link linked with old | ⟨_, rfl, _⟩
    · exact valid.linkCaptured other id link old
    · exact ⟨K, writing.member, rfl, writing.done⟩
  · intro other id link linked
    rcases rows other id link linked with old | ⟨_, rfl, put⟩
    · exact valid.linkStart other id link old
    · rcases step.link_start put with own | ⟨b, held, on, same⟩
      · exact own.le
      · have start := valid.linkStart part b.id held on.linked
        have older := on.older
        omega
  · intro other id link linked
    rcases rows other id link linked with old | ⟨rfl, _, _⟩
    · exact valid.linkScoped other id link old
    · exact fits
  · intro id time move found
    rw [restate_nextFact]
    rw [restate_lines] at found
    refine Nat.lt_of_lt_of_le ?_ (Nat.le_add_right _ _)
    by_cases moved : id ∈ r.moved.map (·.1)
    · obtain ⟨entry, member, rfl⟩ := List.mem_map.mp moved
      obtain ⟨f, inside, _, same⟩ := movesOf_held step valid.captureIds entry member
      exact same ▸ valid.factOld f inside
    · rw [insertMoves_get_of_not_mem s K.id moved] at found
      exact valid.moveOld id time move found
  · intro f inside time move found
    rw [restate_lines] at found
    rw [restate_facts] at inside
    by_cases moved : f.id ∈ r.moved.map (·.1)
    · obtain ⟨entry, member, same⟩ := List.mem_map.mp moved
      obtain ⟨g, old, covered, id⟩ := movesOf_held step valid.captureIds entry member
      obtain ⟨m, path, rfl⟩ := step.moved_file (List.ne_nil_of_mem member)
      rcases List.mem_append.mp inside with inside | inside
      · obtain ⟨f', was, rfl⟩ := List.mem_map.mp inside
        have equal : g = f' := List.inj_on_of_nodup_map valid.factIds old was (id.trans (same.trans (closing_id _ _ f')))
        have measure : g.measureId = m := by
          simp only [Part.covers, Bool.and_eq_true, beq_iff_eq] at covered
          exact covered.1
        rw [closing_columns, ← equal, measure]
        exact fits
      · have fresh := (mem_numbered inside).2.2.2.1
        have bound := valid.factOld g old
        omega
    · rw [insertMoves_get_of_not_mem s K.id moved] at found
      rcases List.mem_append.mp inside with inside | inside
      · obtain ⟨f', was, rfl⟩ := List.mem_map.mp inside
        rw [closing_id] at found
        rw [closing_columns]
        exact valid.moveScoped f' was time move found
      · have fresh := (mem_numbered inside).2.2.2.1
        have old := valid.moveOld f.id time move found
        omega
  · intro other c inC d inD origin order later earlier linkedC linkedD
    rw [restate_captures] at inC inD
    have notNewest := writing.newest c inC
    rcases rows other d.id earlier linkedD with oldD | ⟨_, same, _⟩
    · rcases rows other c.id later linkedC with oldC | ⟨rfl, same, put⟩
      · exact valid.apart other c inC d inD origin order later earlier oldC oldD
      · have whose : c = K := List.inj_on_of_nodup_map valid.captureIds inC writing.member same
        subst whose
        rcases step.link_start put with own | ⟨b, held, on, start⟩
        · exact .inr (own ▸ order)
        · have bound := on.newest d inD origin.symm order (by simp [oldD])
          rcases Nat.lt_or_eq_of_le bound with before | reached
          · have chain := valid.apart other b on.member d inD (on.origin.trans origin) before held earlier on.linked oldD
            rw [start]
            exact chain
          · have whose : d = b := List.inj_on_of_nodup_map valid.captureIds inD on.member reached
            subst whose
            rw [on.linked] at oldD
            cases oldD
            exact .inl start
    · omega

end Oxplow.Proofs.StoreInvariant

/-! A capture's write, part by part: each part is restated once, by itself, and the
others leave its facts, its rows and its line moves alone. -/

namespace Oxplow.Proofs.WriteParts
open Library Metrics FactChain Restatement StoreFrame StoreInvariant

variable {V : Type} {scope : Nat → Option CaptureScope}

/-- Between `s` and `s'` nothing of the part changed. -/
structure Untouched (part : Part) (s s' : Store V) : Prop where
  captures : s'.captures = s.captures
  facts : s'.facts.filter (fun f => part.covers f.toNewFact) = s.facts.filter (fun f => part.covers f.toNewFact)
  links : ∀ id, s'.link part id = s.link part id
  moves : ∀ f ∈ s.facts, part.covers f.toNewFact = true → ∀ time, s'.lines.get (f.id, time) = s.lines.get (f.id, time)

namespace Untouched

theorem refl (part : Part) (s : Store V) : Untouched part s s := ⟨rfl, rfl, fun _ => rfl, fun _ _ _ _ => rfl⟩

theorem mem_iff {part : Part} {s s' : Store V} (untouched : Untouched part s s') {f : Fact V}
    (covered : part.covers f.toNewFact = true) : f ∈ s'.facts ↔ f ∈ s.facts := by
  have same := congrArg (f ∈ ·) untouched.facts
  simpa [List.mem_filter, covered] using same

theorem trans {part : Part} {s s' s'' : Store V} (first : Untouched part s s') (second : Untouched part s' s'') :
    Untouched part s s'' where
  captures := second.captures.trans first.captures
  facts := second.facts.trans first.facts
  links := fun id => (second.links id).trans (first.links id)
  moves := fun f member covered time => (second.moves f ((first.mem_iff covered).mpr member) covered time).trans
    (first.moves f member covered time)

section
variable {part : Part} {s s' : Store V} (untouched : Untouched part s s')
include untouched

theorem holds (c : Capture) (link : Link) (f : Fact V) : s'.holds c part link f = s.holds c part link f := by
  unfold Store.holds Store.storedFor
  rw [untouched.captures]

theorem held (c : Capture) : s'.held c part = s.held c part := by
  unfold Store.held
  rw [untouched.links c.id]
  cases s.link part c.id with
  | none => rfl
  | some link =>
    have narrow : ∀ t : Store V, t.facts.filter (t.holds c part link) =
        (t.facts.filter fun f => part.covers f.toNewFact).filter (t.holds c part link) := by
      intro t
      rw [List.filter_filter]
      apply List.filter_congr
      intro f _
      cases holding : t.holds c part link f with
      | false => rfl
      | true => simp [(holds_iff.mp holding).covered]
    simp only
    rw [narrow s', narrow s, untouched.facts]
    exact List.filter_congr (fun f _ => untouched.holds c link f)

theorem heldLine {f : Fact V} (member : f ∈ s.facts) (covered : part.covers f.toNewFact = true) (holder : Nat) :
    s'.heldLine holder part f = s.heldLine holder part f := by
  cases part with
  | measure => rfl
  | file =>
    unfold Store.heldLine Store.lineAtHold
    simp only
    rw [newest_congr (fun time _ => untouched.moves f member covered time)]

theorem partHeld (id : Nat) : s'.partHeld id part = s.partHeld id part := by
  unfold Store.partHeld Store.capture?
  rw [untouched.captures]
  cases s.captures.find? (·.id == id) with
  | none => rfl
  | some c =>
    simp only
    rw [untouched.held]
    apply List.map_congr_left
    intro f member
    obtain ⟨_, _, inside, holding⟩ := mem_held.mp member
    rw [untouched.heldLine inside holding.covered]

theorem previousHold (k : Nat) (capture : NewMetricCapture) : s'.previousHold k capture part = s.previousHold k capture part := by
  unfold Store.previousHold
  rw [untouched.captures]
  simp only [untouched.links]

end
end Untouched

variable {s : Store V}

theorem insertFacts_untouched {part : Part} {facts : List (NewFact V)} (k : Nat) (outside : ∀ f ∈ facts, part.covers f = false) :
    Untouched part s (s.insertFacts k facts) := by
  rw [insertFacts_eq]
  refine ⟨rfl, ?_, fun id => by cases part <;> rfl, fun _ _ _ _ => rfl⟩
  have none : (numbered k s.nextFact facts).filter (fun f => part.covers f.toNewFact) = [] := by
    apply List.filter_eq_nil_iff.mpr
    intro f member
    simp [outside _ (mem_numbered member).2.2.1]
  rw [List.filter_append, none, List.append_nil]

/-- What a restatement stores is part of what the capture restates. -/
theorem stored_subset {K : Capture} {part : Part} {base : Option Nat} {new : List (NewFact V)} {r : Restatement V}
    (step : Restates s K part base new r) : ∀ f ∈ r.stored, f ∈ new := by
  cases step with
  | first => exact fun f member => member
  | whole => exact fun f member => member
  | extended _ _ _ _ matched => exact fun f member => matched.news.mem_iff.mpr (List.mem_append_right _ member)

/-- Restating one part leaves another alone. -/
theorem restate_untouched (valid : Valid scope s) {K : Capture} {part other : Part} (fits : Scoped scope part)
    (otherFits : Scoped scope other) (differ : part ≠ other) {base : Option Nat} {new : List (NewFact V)}
    (covered : ∀ f ∈ new, other.covers f = true) {r : Restatement V} (step : Restates s K other base new r) :
    Untouched part s (s.restate K.id other r) := by
  have outside : ∀ f : NewFact V, part.covers f = true → other.covers f = true → False :=
    fun f inPart inOther => differ (scoped_part_eq fits otherFits inPart inOther)
  refine ⟨restate_captures s K.id other r, ?_, ?_, ?_⟩
  · have none : (numbered K.id s.nextFact r.stored).filter (fun f => part.covers f.toNewFact) = [] := by
      apply List.filter_eq_nil_iff.mpr
      intro f member inPart
      exact outside _ inPart (covered _ (stored_subset step _ (mem_numbered member).2.2.1))
    rw [restate_facts, List.filter_append, none, List.append_nil, List.filter_map]
    have columns : ((fun f : Fact V => part.covers f.toNewFact) ∘ closing r.closed r.last) =
        fun f => part.covers f.toNewFact := by
      funext f
      simp
    rw [columns]
    conv_rhs => rw [← List.map_id (s.facts.filter fun f => part.covers f.toNewFact)]
    apply List.map_congr_left
    intro f member
    obtain ⟨inside, inPart⟩ := List.mem_filter.mp member
    unfold closing
    split
    next closed =>
      obtain ⟨b, link, on, _, _, g, held, same⟩ := step.closed valid.captureIds (by simpa using closed)
      obtain ⟨_, _, inFacts, holding⟩ := mem_held.mp held
      have equal : g = f := List.inj_on_of_nodup_map valid.factIds inFacts inside same
      exact absurd holding.covered (fun inOther => outside _ inPart (equal ▸ inOther))
    next => rfl
  · intro id
    rw [restate_link, if_neg (fun same => differ same.1)]
  · intro f member inPart time
    rw [restate_lines]
    apply insertMoves_get_of_not_mem
    intro moved
    obtain ⟨move, inMoves, id⟩ := List.mem_map.mp moved
    obtain ⟨g, inFacts, inOther, same⟩ := movesOf_held step valid.captureIds move inMoves
    have equal : g = f := List.inj_on_of_nodup_map valid.factIds inFacts member (same.trans id)
    exact outside _ inPart (equal ▸ inOther)

/-! ## The loops -/

section Loop
variable [DecidableEq V]

/-- The capture a part is restated from. -/
def partBase (s : Store V) (K : Capture) : Part → Option Nat
  | .measure _ => s.previousDone K.id K.toNewMetricCapture
  | .file m path => s.previousHold K.id K.toNewMetricCapture (.file m path)

/-- The restatement `write` makes of a part. -/
def partRestatement (s : Store V) (K : Capture) (base : Option Nat) (new : Part → List (NewFact V)) : Part → Restatement V
  | .measure m => s.chainRestatement K.id base m (new (.measure m))
  | .file m path => s.pathRestatement K.id K.toNewMetricCapture m path (new (.file m path))

def writePart (K : Capture) (base : Option Nat) (new : Part → List (NewFact V)) (s : Store V) (part : Part) : Store V :=
  s.restate K.id part (partRestatement s K base new part)

/-- Writing facts adds no capture and no file snapshot. -/
theorem writeParts_rows (K : Capture) (base : Option Nat) (new : Part → List (NewFact V)) (parts : List Part) (s : Store V) :
    let s' := parts.foldl (writePart K base new) s
    s'.captures = s.captures ∧ s'.nextCapture = s.nextCapture ∧ s'.fileSnapshots = s.fileSnapshots := by
  induction parts generalizing s with
  | nil => exact ⟨rfl, rfl, rfl⟩
  | cons part parts ih =>
    obtain ⟨captures, next, snapshots⟩ := ih (writePart K base new s part)
    exact ⟨captures.trans (restate_captures _ _ _ _), next.trans (restate_nextCapture _ _ _ _),
      snapshots.trans (restate_fileSnapshots _ _ _ _)⟩

theorem partRestatement_restates (valid : Valid scope s) (K : Capture) (new : Part → List (NewFact V)) {part : Part}
    (covered : ∀ f ∈ new part, part.covers f = true) :
    Restates s K part (partBase s K part) (new part)
      (partRestatement s K (s.previousDone K.id K.toNewMetricCapture) new part) := by
  cases part with
  | measure m => exact chainRestatement_restates valid.captureIds valid.linkCaptured covered
  | file m path => exact pathRestatement_restates valid.captureIds covered

/-- Before its own restatement and after it a part is left alone. -/
structure RestatedOnce (scope : Nat → Option CaptureScope) (K : Capture) (base : Option Nat)
    (new : Part → List (NewFact V)) (part : Part) (s s' before : Store V) : Prop where
  valid : Valid scope before
  writing : Writing before K
  unchanged : Untouched part s before
  based : base = before.previousDone K.id K.toNewMetricCapture
  kept : Untouched part (writePart K base new before part) s'

/-- Restating distinct parts one after the other restates each once. -/
theorem writeParts_spec {K : Capture} {base : Option Nat} {new : Part → List (NewFact V)} {parts : List Part}
    (distinct : parts.Nodup) (fits : ∀ part ∈ parts, Scoped scope part)
    (covered : ∀ part ∈ parts, ∀ f ∈ new part, part.covers f = true) (valid : Valid scope s) (writing : Writing s K)
    (based : base = s.previousDone K.id K.toNewMetricCapture) : let s' := parts.foldl (writePart K base new) s
    (Valid scope s' ∧ Writing s' K ∧ Frame s s' K) ∧
      (∀ part, Scoped scope part → part ∉ parts → Untouched part s s') ∧
      ∀ part ∈ parts, ∃ before, RestatedOnce scope K base new part s s' before := by
  induction parts generalizing s with
  | nil => exact ⟨⟨valid, writing, Frame.refl s K⟩, fun part _ _ => .refl part s, by simp⟩
  | cons first parts ih =>
    have fresh := (List.nodup_cons.mp distinct).1
    have firstFits := fits first (by simp)
    have step := partRestatement_restates valid K new (covered first (by simp))
    rw [← based] at step
    have nextValid := restate_valid valid writing firstFits step
    have nextWriting : Writing (writePart K base new s first) K :=
      ⟨by simpa [writePart] using writing.member, by simpa [writePart] using writing.newest, writing.done⟩
    have frame := restate_frame valid firstFits step
    have others : ∀ part, Scoped scope part → part ≠ first → Untouched part s (writePart K base new s first) :=
      fun part fits differ => restate_untouched valid fits firstFits differ (covered first (by simp)) step
    have nextBased : base = (writePart K base new s first).previousDone K.id K.toNewMetricCapture := by
      simpa [writePart, Store.previousDone] using based
    obtain ⟨⟨lastValid, lastWriting, lastFrame⟩, outside, inside⟩ := ih distinct.of_cons
      (fun part member => fits part (by simp [member])) (fun part member => covered part (by simp [member]))
      nextValid nextWriting nextBased
    refine ⟨⟨lastValid, lastWriting, frame.trans lastFrame⟩, ?_, ?_⟩
    · intro part partFits absent
      simp only [List.mem_cons, not_or] at absent
      exact (others part partFits absent.1).trans (outside part partFits absent.2)
    · intro part member
      rcases List.mem_cons.mp member with rfl | member
      · exact ⟨s, valid, writing, .refl part s, based, outside part firstFits fresh⟩
      · have differ : part ≠ first := fun same => fresh (same ▸ member)
        obtain ⟨before, once⟩ := inside part member
        exact ⟨before, once.valid, once.writing, (others part (fits part (by simp [member])) differ).trans once.unchanged,
          once.based, once.kept⟩

/-- The facts of a capture that `write` routes to a part, or to none. -/
def routedTo (scope : Nat → Option CaptureScope) (capture : NewMetricCapture) (facts : List (NewFact V))
    (part : Option Part) : List (NewFact V) :=
  facts.filter fun f => decide (route scope capture f = part)

/-- The parts a capture's write restates. -/
def restatedParts (scope : Nat → Option CaptureScope) (s : Store V) (K : Capture) (capture : NewMetricCapture)
    (facts : List (NewFact V)) : List Part :=
  let links := match s.previousDone K.id K.toNewMetricCapture with
    | some b => (s.chains.keys.filter (·.1 = b)).map (·.2)
    | none => []
  (chainedMeasures (facts.map (route scope capture)) links).map Part.measure ++
    (pathedFiles (facts.map (route scope capture))).map fun file => Part.file file.1 file.2

theorem write_eq {capture : NewMetricCapture} {facts : List (NewFact V)} {id : Nat} (done : capture.status = .done) :
    let K := capture.toCapture id
    let bare := s.insertFacts id (routedTo scope capture facts none)
    s.write scope id capture facts = (restatedParts scope bare K capture facts).foldl
      (writePart K (bare.previousDone id K.toNewMetricCapture) fun part => routedTo scope capture facts (some part)) bare := by
  unfold Store.write restatedParts
  simp only [done, ne_eq, not_true_eq_false, if_false, List.foldl_append, List.foldl_map]
  rfl

end Loop
end Oxplow.Proofs.WriteParts
