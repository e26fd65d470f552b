import Oxplow.Proofs.Restatement

/-! A write for one capture leaves what older captures read as it was: it adds facts of
its own, closes facts no earlier than a capture that held them, and records moves
from itself on. -/

namespace Oxplow.Proofs.StoreFrame
open Library Metrics FactChain Restatement

variable {V : Type}

/-- `change` alters at most when a fact is last held. -/
def KeepsColumns (change : Fact V → Fact V) : Prop :=
  ∀ f, (change f).toNewFact = f.toNewFact ∧ (change f).id = f.id ∧ (change f).captureId = f.captureId

/-- The fact is none of `K`'s stream and producer. -/
def Foreign (s : Store V) (K : Capture) (f : Fact V) : Prop :=
  f.captureId ≠ K.id ∧ ∀ fc ∈ s.captures, fc.id = f.captureId → fc.origin ≠ K.origin

/-- Between `s` and `s'` only capture `K` was written. -/
structure Frame (s s' : Store V) (K : Capture) : Prop where
  captures : ∃ extra, s'.captures = s.captures ++ extra ∧ ∀ c ∈ extra, c = K
  links : ∀ part id, id ≠ K.id → s'.link part id = s.link part id
  moves : ∀ id time, time ≠ K.id → s'.lines.get (id, time) = s.lines.get (id, time)
  facts : ∃ change news, s'.facts = s.facts.map change ++ news ∧ KeepsColumns change ∧ (∀ f ∈ news, f.captureId = K.id) ∧
    (∀ f ∈ s.facts, Foreign s K f → change f = f) ∧
    ∀ f ∈ s.facts, ∀ c ∈ s.captures, c.id < K.id → ∀ part link, s.link part c.id = some link →
      s'.holds c part link (change f) = s.holds c part link f

theorem Frame.refl (s : Store V) (K : Capture) : Frame s s K where
  captures := ⟨[], by simp⟩
  links := fun _ _ _ => rfl
  moves := fun _ _ _ => rfl
  facts := ⟨id, [], by simp, fun _ => ⟨rfl, rfl, rfl⟩, by simp, fun _ _ _ => rfl, fun _ _ _ _ _ _ _ _ => rfl⟩

variable {s : Store V} {K : Capture}

theorem Frame.trans {s' s'' : Store V} (first : Frame s s' K) (second : Frame s' s'' K) : Frame s s'' K := by
  obtain ⟨extra, captures, own⟩ := first.captures
  obtain ⟨extra', captures', own'⟩ := second.captures
  obtain ⟨change, news, facts, keeps, born, others, same⟩ := first.facts
  obtain ⟨change', news', facts', keeps', born', others', same'⟩ := second.facts
  refine ⟨⟨extra ++ extra', by rw [captures', captures, List.append_assoc], ?_⟩, ?_, ?_,
    change' ∘ change, news.map change' ++ news', ?_, ?_, ?_, ?_, ?_⟩
  · intro c member
    rcases List.mem_append.mp member with member | member
    · exact own c member
    · exact own' c member
  · exact fun part id other => (second.links part id other).trans (first.links part id other)
  · exact fun id time other => (second.moves id time other).trans (first.moves id time other)
  · rw [facts', facts]
    simp
  · intro f
    obtain ⟨columns, id, capture⟩ := keeps f
    obtain ⟨columns', id', capture'⟩ := keeps' (change f)
    exact ⟨columns'.trans columns, id'.trans id, capture'.trans capture⟩
  · intro f member
    rcases List.mem_append.mp member with member | member
    · obtain ⟨g, inside, rfl⟩ := List.mem_map.mp member
      rw [(keeps' g).2.2]
      exact born g inside
    · exact born' f member
  · intro f member foreign
    have still := others f member foreign
    have inNext : f ∈ s'.facts := by
      rw [facts]
      exact List.mem_append_left _ (List.mem_map.mpr ⟨f, member, still⟩)
    have foreign' : Foreign s' K f := by
      refine ⟨foreign.1, ?_⟩
      intro fc inside same
      rw [captures] at inside
      rcases List.mem_append.mp inside with inside | inside
      · exact foreign.2 fc inside same
      · exact absurd same.symm (own fc inside ▸ foreign.1)
    simp [still, others' f inNext foreign']
  · intro f member c inside older part link linked
    have inNext : change f ∈ s'.facts := by
      rw [facts]
      exact List.mem_append_left _ (List.mem_map_of_mem member)
    have captured : c ∈ s'.captures := by
      rw [captures]
      exact List.mem_append_left _ inside
    have linked' : s'.link part c.id = some link := by rw [first.links part c.id (by omega), linked]
    exact (same' (change f) inNext c captured older part link linked').trans (same f member c inside older part link linked)

variable {c : Capture} {f : Fact V}

/-- A capture holds no fact stored after it. -/
theorem not_holds_of_later {part : Part} {link : Link} (later : c.id < f.captureId) : s.holds c part link f = false := by
  rw [← Bool.not_eq_true, holds_iff]
  intro holding
  have born := holding.born
  omega

section Reads
variable {s s' : Store V} {K : Capture} (frame : Frame s s' K)
include frame

theorem Frame.capture?_of_ne {id : Nat} (other : id ≠ K.id) : s'.capture? id = s.capture? id := by
  obtain ⟨extra, captures, own⟩ := frame.captures
  have none : extra.find? (·.id == id) = none := by
    apply List.find?_eq_none.mpr
    intro c member
    simpa [own c member] using other.symm
  unfold Store.capture?
  rw [captures, List.find?_append, none, Option.or_none]

/-- Reading facts through a test that only old facts pass. -/
theorem Frame.filterMap_facts {β : Type} {read read' : Fact V → Option β}
    (same : ∀ change, KeepsColumns change → (∀ f ∈ s.facts, ∀ c ∈ s.captures, c.id < K.id → ∀ part link,
      s.link part c.id = some link → s'.holds c part link (change f) = s.holds c part link f) →
        ∀ f ∈ s.facts, read' (change f) = read f)
    (unseen : ∀ f, f.captureId = K.id → read' f = none) : s'.facts.filterMap read' = s.facts.filterMap read := by
  obtain ⟨change, news, facts, keeps, born, _, held⟩ := frame.facts
  have nothing : news.filterMap read' = [] := by
    apply List.filterMap_eq_nil_iff.mpr
    exact fun f member => unseen f (born f member)
  rw [facts, List.filterMap_append, nothing, List.append_nil, List.filterMap_map]
  exact List.filterMap_congr (fun f member => same change keeps held f member)

variable {f' : Fact V}

theorem Frame.lineAtHold {holder : Nat} (older : holder < K.id) (id : f'.id = f.id) (line : f'.line = f.line) :
    s'.lineAtHold holder f' = s.lineAtHold holder f := by
  unfold Store.lineAtHold
  rw [id, line, newest_congr (fun time early => frame.moves f.id time (by omega))]

theorem Frame.heldLine {holder : Nat} (older : holder < K.id) (part : Part) (id : f'.id = f.id) (line : f'.line = f.line) :
    s'.heldLine holder part f' = s.heldLine holder part f := by
  cases part with
  | measure => exact line
  | file => exact frame.lineAtHold older id line

theorem Frame.partHeld {id : Nat} (older : id < K.id) (part : Part) : s'.partHeld id part = s.partHeld id part := by
  unfold Store.partHeld
  rw [frame.capture?_of_ne (by omega)]
  cases found : s.capture? id with
  | none => rfl
  | some c =>
    obtain ⟨member, rfl⟩ := capture?_eq_some found
    simp only [Store.held, frame.links part c.id (by omega)]
    cases linked : s.link part c.id with
    | none => rfl
    | some link =>
      simp only [← List.filterMap_eq_map, ← List.filterMap_eq_filter, List.filterMap_filterMap]
      refine frame.filterMap_facts ?_ ?_
      · intro change keeps held f inside
        obtain ⟨columns, factId, _⟩ := keeps f
        rw [Option.guard, Option.guard, held f inside c member older part link linked]
        split
        · simp only [Option.bind_some, Function.comp, Option.some.injEq]
          rw [frame.heldLine older part factId (by rw [columns])]
          simp [Store.factRow, columns, factId]
        · rfl
      · intro f own
        simp [Option.guard, not_holds_of_later (show c.id < f.captureId by omega)]

theorem Frame.wanted_captures {holders : Holders} (older : ∀ c, holders.wants c = true → c.id < K.id) :
    s'.captures.filter holders.wants = s.captures.filter holders.wants := by
  obtain ⟨extra, captures, own⟩ := frame.captures
  have none : extra.filter holders.wants = [] := by
    apply List.filter_eq_nil_iff.mpr
    intro c member wanted
    have before := older c wanted
    rw [own c member] at before
    omega
  rw [captures, List.filter_append, none, List.append_nil]

theorem Frame.pathHolding (older : c.id < K.id) (columns : f'.toNewFact = f.toNewFact) :
    s'.pathHolding c f' = s.pathHolding c f := by
  unfold Store.pathHolding
  rw [columns]
  cases f.path with
  | none => rfl
  | some path => exact congrArg Option.isSome (frame.links _ c.id (by omega))

theorem Frame.heldByPath {m : Nat} (older : c.id < K.id) (columns : f'.toNewFact = f.toNewFact)
    (same : ∀ part link, s.link part c.id = some link →
      s'.holds c part link f' = s.holds c part link f) : s'.heldByPath m c f' = s.heldByPath m c f := by
  unfold Store.heldByPath
  rw [columns]
  cases f.path with
  | none => rfl
  | some path =>
    simp only [frame.links _ c.id (by omega)]
    cases linked : s.link (.file m path) c.id with
    | none => rfl
    | some link => exact same _ _ linked

/-- The facts older captures hold, whatever arm of the read they come through. -/
theorem Frame.heldFacts {holders : Holders} (older : ∀ c, holders.wants c = true → c.id < K.id) (m : Nat) :
    s'.heldFacts m holders = s.heldFacts m holders := by
  have own : s'.ownRows m holders = s.ownRows m holders := by
    unfold Store.ownRows
    refine frame.filterMap_facts ?_ ?_
    · intro change keeps _ f member
      obtain ⟨columns, id, captureId⟩ := keeps f
      rw [captureId]
      by_cases own : f.captureId = K.id
      · have unwanted : ∀ t : Store V, ∀ c, t.capture? K.id = some c → holders.wants c = false := by
          intro t c found
          by_contra wanted
          have before := older c (by simpa using wanted)
          have at_k := (capture?_eq_some found).2
          omega
        rw [own]
        cases found : s.capture? K.id with
        | none =>
          cases found' : s'.capture? K.id with
          | none => rfl
          | some c => simp [unwanted s' c found']
        | some c =>
          cases found' : s'.capture? K.id with
          | none => simp [unwanted s c found]
          | some c' => simp [unwanted s c found, unwanted s' c' found']
      · rw [frame.capture?_of_ne own]
        cases found : s.capture? f.captureId with
        | none => rfl
        | some c =>
          simp only [Option.bind_eq_bind, Option.bind_some]
          cases wanted : holders.wants c with
          | false => simp
          | true =>
            have before := older c wanted
            rw [frame.links _ c.id (by omega), frame.pathHolding before columns]
            simp [Store.slimRow, Store.factRow, columns, id]
    · intro f born
      rw [born]
      cases found : s'.capture? K.id with
      | none => rfl
      | some c =>
        have unwanted : holders.wants c = false := by
          by_contra wanted
          have before := older c (by simpa using wanted)
          have at_k := (capture?_eq_some found).2
          omega
        simp [unwanted]
  have chained : s'.chainedRows m holders = s.chainedRows m holders := by
    unfold Store.chainedRows
    rw [frame.wanted_captures older]
    apply List.flatMap_congr
    intro c member
    obtain ⟨inside, wanted⟩ := List.mem_filter.mp member
    have before := older c wanted
    unfold Store.held
    rw [frame.links _ c.id (by omega)]
    cases linked : s.link (.measure m) c.id with
    | none => rfl
    | some link =>
      simp only [← List.filterMap_eq_map, ← List.filterMap_eq_filter, List.filterMap_filterMap]
      refine frame.filterMap_facts ?_ ?_
      · intro change keeps held f present
        obtain ⟨columns, id, _⟩ := keeps f
        rw [Option.guard, Option.guard, held f present c inside before _ link linked]
        split
        · simp [Store.slimRow, Store.factRow, columns, id]
        · rfl
      · intro f born
        simp [Option.guard, not_holds_of_later (show c.id < f.captureId by omega)]
  have pathed : s'.pathedRows m holders = s.pathedRows m holders := by
    unfold Store.pathedRows
    rw [frame.wanted_captures older]
    apply List.flatMap_congr
    intro c member
    obtain ⟨inside, wanted⟩ := List.mem_filter.mp member
    have before := older c wanted
    simp only [← List.filterMap_eq_map, ← List.filterMap_eq_filter, List.filterMap_filterMap]
    refine frame.filterMap_facts ?_ ?_
    · intro change keeps held f present
      obtain ⟨columns, id, _⟩ := keeps f
      rw [Option.guard, Option.guard, frame.heldByPath before columns (held f present c inside before)]
      split
      · simp only [Option.bind_some, Function.comp, Option.some.injEq]
        rw [frame.lineAtHold before id (by rw [columns])]
        simp [Store.slimRow, Store.factRow, columns, id]
      · rfl
    · intro f born
      have unheld : s'.heldByPath m c f = false := by
        unfold Store.heldByPath
        cases f.path with
        | none => rfl
        | some path =>
          simp only [frame.links _ c.id (by omega)]
          cases s.link (.file m path) c.id with
          | none => rfl
          | some link => exact not_holds_of_later (show c.id < f.captureId by omega)
      simp [Option.guard, unheld]
  unfold Store.heldFacts
  rw [own, chained, pathed]

end Reads

/-! ## Each write is framed -/

theorem insertFacts_frame (s : Store V) (K : Capture) (facts : List (NewFact V)) :
    Frame s (s.insertFacts K.id facts) K := by
  rw [insertFacts_eq]
  exact ⟨⟨[], by simp⟩, fun part _ _ => by cases part <;> rfl, fun _ _ _ => rfl, id, numbered K.id s.nextFact facts,
    by simp, fun _ => ⟨rfl, rfl, rfl⟩, fun f member => (mem_numbered member).1, fun _ _ _ => rfl,
    fun _ _ _ _ _ _ _ _ => rfl⟩

theorem storedFor_append {s' : Store V} (captures : ∃ extra, s'.captures = s.captures ++ extra ∧ ∀ c ∈ extra, c = K) {f' : Fact V}
    (captureId : f'.captureId = f.captureId) (other : f.captureId ≠ K.id) : s'.storedFor c f' = s.storedFor c f := by
  obtain ⟨extra, captures, own⟩ := captures
  have none : extra.any (fun fc => fc.id == f.captureId && fc.origin == c.origin && fc.status == .done) = false := by
    apply List.any_eq_false.mpr
    intro fc member
    simp [own fc member, other.symm]
  unfold Store.storedFor
  rw [captures, captureId, List.any_append, none, Bool.or_false]

/-- Putting in a capture with a new id changes no read. -/
theorem insertCapture_frame {scope : Nat → Option CaptureScope} (valid : Valid scope s) (c : NewMetricCapture) :
    Frame s (s.insertCapture c).1 (c.toCapture s.nextCapture) := by
  have captures : ∃ extra, (s.insertCapture c).1.captures = s.captures ++ extra ∧
      ∀ d ∈ extra, d = c.toCapture s.nextCapture := ⟨_, rfl, by simp⟩
  refine ⟨captures, fun part _ _ => by cases part <;> rfl, fun _ _ _ => rfl, id, [], by simp [Store.insertCapture],
    fun _ => ⟨rfl, rfl, rfl⟩, by simp, fun _ _ _ => rfl, ?_⟩
  intro f member d inside older part link linked
  obtain ⟨fc, captured, same⟩ := valid.factCaptured f member
  have old := valid.captureOld fc captured
  have other : f.captureId ≠ (c.toCapture s.nextCapture).id := by
    rw [toCapture_id]
    omega
  change (s.insertCapture c).1.holds d part link f = s.holds d part link f
  unfold Store.holds
  rw [storedFor_append captures rfl other]

/-- Restating a part for the newest capture leaves older reads alone: a fact it closes
was held by the base, and no older holder comes after the base. -/
theorem restate_frame {scope : Nat → Option CaptureScope} (valid : Valid scope s) {part : Part} (fits : Scoped scope part)
    {base : Option Nat} {new : List (NewFact V)} {r : Restatement V} (step : Restates s K part base new r) :
    Frame s (s.restate K.id part r) K := by
  refine ⟨⟨[], by simp⟩, ?_, ?_, closing r.closed r.last, numbered K.id s.nextFact r.stored, by simp, ?_,
    fun f member => (mem_numbered member).1, ?_, ?_⟩
  · intro other id differ
    rw [restate_link, if_neg (fun same => differ same.2)]
  · intro id time differ
    rw [restate_lines, insertMoves_get_of_ne s K.id differ]
  · exact fun f => ⟨closing_columns _ _ f, closing_id _ _ f, closing_captureId _ _ f⟩
  · intro f member foreign
    unfold closing
    split
    next closed =>
      obtain ⟨b, held, on, _, _, g, inHeld, same⟩ := step.closed valid.captureIds (by simpa using closed)
      obtain ⟨_, _, inFacts, holding⟩ := mem_held.mp inHeld
      have equal : g = f := List.inj_on_of_nodup_map valid.factIds inFacts member same
      subst equal
      obtain ⟨fc, inside, id, origin, _⟩ := storedFor_iff.mp holding.stored
      exact absurd (origin.trans on.origin) (foreign.2 fc inside id)
    next => rfl
  · intro f member c inside older other link linked
    have stored : (s.restate K.id part r).storedFor c (closing r.closed r.last f) = s.storedFor c f := by
      simp [Store.storedFor]
    by_cases closed : r.closed.contains f.id = true
    · obtain ⟨b, held, on, after, _, g, inHeld, same⟩ := step.closed valid.captureIds (by simpa using closed)
      obtain ⟨row, linkedBase, inFacts, holding⟩ := mem_held.mp inHeld
      have equal : g = f := List.inj_on_of_nodup_map valid.factIds inFacts member same
      subst equal
      rw [Bool.eq_iff_iff, holds_iff, holds_iff]
      -- A holder of `g` has its origin and part, so it is no newer than the base.
      have notLater : other.covers g.toNewFact = true → s.storedFor c g = true → c.id ≤ b.id := by
        intro covered storedFor
        obtain ⟨fc, at_fc, id, origin, _⟩ := storedFor_iff.mp storedFor
        obtain ⟨fb, at_fb, id', origin', _⟩ := storedFor_iff.mp holding.stored
        have one : fc = fb := List.inj_on_of_nodup_map valid.captureIds at_fc at_fb (id.trans id'.symm)
        have parts := scoped_part_eq (valid.linkScoped other c.id link linked) fits covered holding.covered
        subst one parts
        exact on.newest c inside (origin.symm.trans (origin'.trans on.origin)) older (by simp [linked])
      constructor
      · intro now
        have covered : other.covers g.toNewFact = true := by simpa using now.covered
        have storedFor : s.storedFor c g = true := stored ▸ now.stored
        have early := notLater covered storedFor
        exact ⟨covered, by simpa using now.started, by simpa using now.born,
          fun last ends => early.trans (holding.lasting last ends), storedFor⟩
      · intro was
        have early := notLater was.covered was.stored
        refine ⟨by simpa using was.covered, by simpa using was.started, by simpa using was.born, ?_, stored ▸ was.stored⟩
        intro last isLast
        unfold closing at isLast
        rw [if_pos closed] at isLast
        have closedAt : r.last = last := Option.some.inj isLast
        omega
    · have same : closing r.closed r.last f = f := by
        unfold closing
        rw [if_neg closed]
      rw [same] at stored ⊢
      unfold Store.holds
      rw [stored]

end Oxplow.Proofs.StoreFrame
