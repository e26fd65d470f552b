import Oxplow.Proofs.StoreInvariant

/-! What a capture reads back of a part it has just restated. Stored whole, it reads
its own rows. Carried on from a base, it reads the matched facts at the lines
recorded, whatever was stored of the part since the base, and what it added. -/

namespace Oxplow.Proofs.Readback
open Library Metrics FactChain Restatement StoreInvariant WriteParts

variable {V : Type} {scope : Nat → Option CaptureScope}

/-- A fact's columns as holder `c` sees them. -/
def columnsAt (s : Store V) (c : Capture) (part : Part) (f : Fact V) : NewFact V :=
  { f.toNewFact with line := s.heldLine c.id part f }

variable {s : Store V}

theorem partHeld_columns (unique : (s.captures.map (·.id)).Nodup) {c : Capture} (member : c ∈ s.captures) (part : Part) :
    (s.partHeld c.id part).map (·.toNewFact) = (s.held c part).map (columnsAt s c part) := by
  rw [partHeld_eq unique member, List.map_map]
  rfl

section Restated
variable {s : Store V} (valid : Valid scope s) {K : Capture} (writing : Writing s K) {part : Part} {base : Option Nat}
  {new : List (NewFact V)} (covered : ∀ f ∈ new, part.covers f = true) {r : Restatement V}
  (step : Restates s K part base new r)
include valid writing covered step

variable {link : Link}

/-- `K` holds the facts it stored, and those in its range that it did not close. -/
theorem held_restate (linked : r.link = some link) :
    (s.restate K.id part r).held K part =
      s.facts.filter (fun f => s.holds K part link f && !r.closed.contains f.id) ++
        numbered K.id s.nextFact r.stored := by
  have start : link.fromCaptureId ≤ K.id := by
    rcases step.link_start linked with own | ⟨b, held, on, same⟩
    · exact own.le
    · have begins := valid.linkStart part b.id held on.linked
      have older := on.older
      omega
  have stored : ∀ f, (s.restate K.id part r).storedFor K f = s.storedFor K f := by
    simp [Store.storedFor]
  have old : ((fun f => (s.restate K.id part r).holds K part link f) ∘ closing r.closed r.last) =
      fun f => s.holds K part link f && !r.closed.contains f.id := by
    funext f
    unfold closing
    simp only [Function.comp]
    split
    next closed =>
      obtain ⟨_, _, _, _, before, _⟩ := step.closed valid.captureIds (by simpa using closed)
      have ended : ¬ K.id ≤ r.last := by omega
      rw [closed, Bool.not_true, Bool.and_false]
      simp [Store.holds, ended]
    next =>
      rename_i open_
      simp only [Bool.not_eq_true] at open_
      simp only [open_, Bool.not_false, Bool.and_true]
      unfold Store.holds
      rw [stored]
  have added : (numbered K.id s.nextFact r.stored).filter (fun f => (s.restate K.id part r).holds K part link f) =
      numbered K.id s.nextFact r.stored := by
    apply List.filter_eq_self.mpr
    intro f member
    obtain ⟨capture, last, source, _, _⟩ := mem_numbered member
    rw [holds_iff]
    refine ⟨covered _ (stored_subset step _ source), by omega, by omega, by simp [last], ?_⟩
    rw [stored, storedFor_iff]
    exact ⟨K, writing.member, capture.symm, rfl, writing.done⟩
  unfold Store.held
  rw [restate_link, if_pos ⟨rfl, rfl⟩, linked, Option.some_or]
  simp only
  rw [restate_facts, List.filter_append, added, List.filter_map, old]
  congr 1
  conv_rhs => rw [← List.map_id (s.facts.filter _)]
  apply List.map_congr_left
  intro f member
  have kept := (Bool.and_eq_true _ _ ▸ (List.mem_filter.mp member).2 : _ ∧ _).2
  unfold closing
  rw [if_neg (by simpa using kept)]
  rfl

omit writing in
/-- The facts it stored are read as they were given: no line move is about them. -/
theorem stored_columns {f : Fact V} (member : f ∈ numbered K.id s.nextFact r.stored) :
    columnsAt (s.restate K.id part r) K part f = f.toNewFact := by
  have still : (s.restate K.id part r).heldLine K.id part f = f.line := by
    cases part with
    | measure => rfl
    | file m path =>
      have later := (mem_numbered member).2.2.2.1
      have none : newest (fun time => (s.restate K.id (.file m path) r).lines.get (f.id, time)) K.id = none := by
        apply newest_eq_none
        intro time _
        have unmoved : f.id ∉ r.moved.map (·.1) := by
          intro moved
          obtain ⟨move, inside, same⟩ := List.mem_map.mp moved
          obtain ⟨g, inFacts, _, id⟩ := movesOf_held step valid.captureIds move inside
          have old := valid.factOld g inFacts
          omega
        rw [restate_lines, insertMoves_get_of_not_mem s K.id unmoved]
        cases found : s.lines.get (f.id, time) with
        | none => rfl
        | some move =>
          have old := valid.moveOld f.id time move found
          omega
      unfold Store.heldLine Store.lineAtHold
      simp only
      rw [none]
  unfold columnsAt
  rw [still]

theorem partHeld_restate (linked : r.link = some link) :
    ((s.restate K.id part r).partHeld K.id part).map (·.toNewFact) =
      (s.facts.filter fun f => s.holds K part link f && !r.closed.contains f.id).map
        (columnsAt (s.restate K.id part r) K part) ++ r.stored := by
  have nextIds : ((s.restate K.id part r).captures.map (·.id)).Nodup := by simpa using valid.captureIds
  have inNext : K ∈ (s.restate K.id part r).captures := by simpa using writing.member
  rw [partHeld_columns nextIds inNext, held_restate valid writing covered step linked, List.map_append]
  congr 1
  rw [List.map_congr_left (fun f member => stored_columns valid covered step member), numbered_columns]

/-- Stored whole, a part is read back as it was given. -/
theorem partHeld_whole (linked : r.link = some link) (own : link.fromCaptureId = K.id)
    (fresh : ∀ f ∈ s.facts, part.covers f.toNewFact = true → f.captureId ≠ K.id) :
    ((s.restate K.id part r).partHeld K.id part).map (·.toNewFact) = new := by
  have none : s.facts.filter (fun f => s.holds K part link f && !r.closed.contains f.id) = [] := by
    apply List.filter_eq_nil_iff.mpr
    intro f member held
    have holding := holds_iff.mp (Bool.and_eq_true _ _ ▸ held : _ ∧ _).1
    have started := holding.started
    have born := holding.born
    exact fresh f member holding.covered (by omega)
  rw [partHeld_restate valid writing covered step linked, none, List.map_nil, List.nil_append]
  cases step with
  | first => rfl
  | whole => rfl
  | extended stands on after before matched =>
    cases linked
    have start := valid.linkStart part _ _ on.linked
    have older := on.older
    have own : (_ : Link).fromCaptureId = K.id := own
    simp only at own
    omega

end Restated

/-- The line a fact was stored with. -/
def storedLine (s : Store V) (id : Nat) : Option Int := (s.facts.find? (·.id == id)).bind (·.line)

variable {f : Fact V}

theorem storedLine_of_mem (unique : (s.facts.map (·.id)).Nodup) (member : f ∈ s.facts) {id : Nat} (same : id = f.id) :
    storedLine s id = f.line := by
  unfold storedLine
  rw [same, find?_of_unique unique member]
  rfl

/-- What is read of a matched fact: the new line where there is one, and else the line it
was stored with, unless it was held at none. -/
def readBack (s : Store V) (pair : FactRow V × NewFact V) : NewFact V :=
  { pair.2 with line := pair.2.line.or (if pair.1.line = none then none else storedLine s pair.1.id) }

theorem withLine_eq {f : NewFact V} {line : Option Int} : { f with line := line } = f ↔ line = f.line := by
  cases f
  simp

variable {pair : FactRow V × NewFact V}

/-- A matched fact is read as the new one, unless the new one has no line and the stored
line shows through. -/
theorem readBack_eq_iff :
    readBack s pair = pair.2 ↔ (pair.2.line = none → pair.1.line = none ∨ storedLine s pair.1.id = none) := by
  unfold readBack
  rw [withLine_eq]
  cases pair.2.line with
  | some line => simp
  | none =>
    simp only [Option.none_or, forall_const]
    split
    next none => simp [none]
    next some => simp [some]

/-- The facts in `K`'s range that were stored after its base. -/
def storedSince (s : Store V) (K : Capture) (part : Part) (link : Link) (b : Nat) : List (Fact V) :=
  s.facts.filter fun f => s.holds K part link f && decide (b < f.captureId)

theorem storedSince_nil {K : Capture} {part : Part} {link : Link} {b : Nat}
    (early : ∀ f ∈ s.facts, part.covers f.toNewFact = true → s.storedFor K f = true → f.captureId ≤ b) :
    storedSince s K part link b = [] := by
  apply List.filter_eq_nil_iff.mpr
  intro f inside later
  simp only [Bool.and_eq_true, decide_eq_true_eq, holds_iff] at later
  have bound := early f inside later.1.covered later.1.stored
  omega

theorem held_unique (unique : (s.facts.map (·.id)).Nodup) (c : Capture) (part : Part) : ((s.held c part).map (·.id)).Nodup := by
  unfold Store.held
  cases s.link part c.id with
  | none => exact List.nodup_nil
  | some link => exact unique.sublist (List.filter_sublist.map _)

theorem held_facts {c : Capture} {part : Part} (held : f ∈ s.held c part) : f ∈ s.facts := by
  obtain ⟨_, _, inside, _⟩ := mem_held.mp held
  exact inside

section Extended
variable {s : Store V} (valid : Valid scope s) {K : Capture} {part : Part} {b : Capture} {held : Link}
  (on : Base s K part b held) {new : List (NewFact V)} {found : Matching (FactRow V) (NewFact V)}
  (matched : Matched part (s.partHeld b.id part) new found) {last : Nat}
include valid on matched

theorem pair_ids_unique : (found.pairs.map (·.1.id) ++ found.rest.map (·.id)).Nodup := by
  have had := (matched.had.map (·.id)).nodup_iff.mp (by
    rw [held_ids valid.captureIds on.member]
    exact held_unique valid.factIds b part)
  simpa [List.map_append, List.map_map, Function.comp_def] using had

/-- The base's facts that are not dropped are the matched ones. -/
theorem kept_perm : (((s.held b part).filter fun f => !(found.rest.map (·.id)).contains f.id).map
    fun f => Store.factRow f (s.heldLine b.id part f) b).Perm (found.pairs.map (·.1)) := by
  have unique := List.nodup_append.mp (pair_ids_unique valid on matched)
  have had := matched.had.filter fun row => !(found.rest.map (·.id)).contains row.id
  have dropped : found.rest.filter (fun row => !(found.rest.map (·.id)).contains row.id) = [] := by
    apply List.filter_eq_nil_iff.mpr
    intro row member
    simpa using ⟨row, member, rfl⟩
  have stays : (found.pairs.map (·.1)).filter (fun row => !(found.rest.map (·.id)).contains row.id) =
      found.pairs.map (·.1) := by
    apply List.filter_eq_self.mpr
    intro row member
    obtain ⟨pair, inside, rfl⟩ := List.mem_map.mp member
    simp only [Bool.not_eq_true', List.contains_eq_mem, decide_eq_false_iff_not]
    intro dropped
    exact unique.2.2 _ (List.mem_map.mpr ⟨pair, inside, rfl⟩) _ dropped rfl
  rw [List.filter_append, dropped, stays, List.append_nil, partHeld_eq valid.captureIds on.member, List.filter_map] at had
  exact had

theorem held_of_pair (paired : pair ∈ found.pairs) : ∃ f ∈ s.held b part, pair.1.id = f.id := by
  have had := matched.had.mem_iff.mpr (List.mem_append_left _ (List.mem_map_of_mem paired))
  rw [partHeld_eq valid.captureIds on.member] at had
  obtain ⟨f, inHeld, same⟩ := List.mem_map.mp had
  exact ⟨f, inHeld, by rw [← same]; rfl⟩

/-- A fact the base holds that is not dropped is matched. -/
theorem paired_of_kept (inHeld : f ∈ s.held b part) (kept : f.id ∉ found.rest.map (·.id)) :
    ∃ pair ∈ found.pairs, pair.1.id = f.id := by
  have row : Store.factRow f (s.heldLine b.id part f) b ∈ found.pairs.map (·.1) := by
    refine (kept_perm valid on matched).mem_iff.mp (List.mem_map.mpr ⟨f, List.mem_filter.mpr ⟨inHeld, ?_⟩, rfl⟩)
    simpa using kept
  obtain ⟨pair, paired, same⟩ := List.mem_map.mp row
  exact ⟨pair, paired, by rw [same]; rfl⟩

omit valid on matched in
theorem movesOf_sublist (pairs : List (FactRow V × NewFact V)) :
    ((movesOf pairs).map (·.1)).Sublist (pairs.map (·.1.id)) := by
  induction pairs with
  | nil => exact List.Sublist.refl _
  | cons pair pairs ih =>
    unfold movesOf at ih ⊢
    by_cases moved : pair.1.line = pair.2.line
    · rw [List.filterMap_cons_none (by simp [moved])]
      exact ih.cons _
    · rw [List.filterMap_cons_some (b := (pair.1.id, pair.2.line)) (by simp [moved])]
      exact ih.cons_cons _

variable (open_ : ∀ pair ∈ found.pairs, ∀ f ∈ s.held b part, f.id = pair.1.id → f.lastCaptureId = none)
  (quiet : ∀ m path, part = .file m path → ∀ pair ∈ found.pairs, pair.1.line = pair.2.line → ∀ time, b.id < time →
    time ≤ K.id → s.lines.get (pair.1.id, time) = none)

include quiet in
omit open_ in
/-- A matched fact is read at the line recorded for it. -/
theorem columnsAt_pair (member : f ∈ s.held b part) (paired : pair ∈ found.pairs)
    (same : Store.factRow f (s.heldLine b.id part f) b = pair.1) {link : Option Link} :
    columnsAt (s.restate K.id part ⟨found.rest.map (·.id), last, movesOf found.pairs, found.added, link⟩) K part f =
      readBack s pair := by
  have id : pair.1.id = f.id := by rw [← same]; rfl
  have line : pair.1.line = s.heldLine b.id part f := by rw [← same]; rfl
  have columns : { f.toNewFact with line := pair.2.line } = pair.2 := by
    have pairSame := matched.same pair paired
    rw [← same] at pairSame
    exact pairSame
  have stored : storedLine s pair.1.id = f.line := storedLine_of_mem valid.factIds (held_facts member) id
  let r : Restatement V := ⟨found.rest.map (·.id), last, movesOf found.pairs, found.added, link⟩
  have read : (s.restate K.id part r).heldLine K.id part f =
      pair.2.line.or (if pair.1.line = none then none else storedLine s pair.1.id) := by
    rw [stored]
    cases part with
    | measure m =>
      have still : pair.1.line = pair.2.line := by
        have unmoved := List.filterMap_eq_nil_iff.mp (matched.still m rfl) pair paired
        simpa using unmoved
      have stays : f.line = pair.2.line := line.symm.trans still
      change f.line = _
      rw [still, stays]
      cases pair.2.line <;> rfl
    | file m path =>
      change (s.restate K.id (.file m path) r).lineAtHold K.id f = _
      have older := on.older
      by_cases moved : pair.1.line = pair.2.line
      · have unmoved : f.id ∉ (movesOf found.pairs).map (·.1) := by
          intro moves
          obtain ⟨move, inMoves, same⟩ := List.mem_map.mp moves
          obtain ⟨other, paired', change'⟩ := List.mem_filterMap.mp inMoves
          simp only [Option.ite_none_left_eq_some, Option.some.injEq] at change'
          have ids : other.1.id = pair.1.id := by rw [id, ← same, ← change'.2]
          have distinct := (List.nodup_append.mp (pair_ids_unique valid on matched)).1
          have equal : other = pair := List.inj_on_of_nodup_map distinct paired' paired ids
          exact change'.1 (equal ▸ moved)
        have newestSame : newest (fun time => (s.restate K.id (.file m path) r).lines.get (f.id, time)) K.id =
            newest (fun time => s.lines.get (f.id, time)) b.id := by
          rw [newest_congr (fun time _ => by
            rw [restate_lines, insertMoves_get_of_not_mem s K.id unmoved])]
          exact newest_of_quiet older.le (fun time after within => id ▸ quiet m path rfl pair paired moved time after within)
        have stays : (s.restate K.id (.file m path) r).lineAtHold K.id f = pair.1.line := by
          rw [line]
          unfold Store.heldLine Store.lineAtHold
          simp only
          rw [newestSame]
        rw [stays, moved]
        cases pair.2.line <;> rfl
      · have recorded : (f.id, pair.2.line) ∈ movesOf found.pairs := by
          refine List.mem_filterMap.mpr ⟨pair, paired, ?_⟩
          simp [moved, id]
        have distinct : ((movesOf found.pairs).map (·.1)).Nodup := by
          have ids := (List.nodup_append.mp (pair_ids_unique valid on matched)).1
          exact ids.sublist (movesOf_sublist found.pairs)
        have newestMove : newest (fun time => (s.restate K.id (.file m path) r).lines.get (f.id, time)) K.id =
            some pair.2.line := by
          apply newest_self
          rw [restate_lines]
          exact insertMoves_get_of_mem s K.id distinct recorded
        unfold Store.lineAtHold
        rw [newestMove]
        cases lines : pair.2.line with
        | some x => rfl
        | none =>
          have held : pair.1.line ≠ none := fun none => moved (none.trans lines.symm)
          simp [held]
  unfold columnsAt readBack
  rw [read, ← columns]

omit valid on in
/-- A matched fact of a measure is read as the new one. -/
theorem readBack_measure {m : Nat} (chain : part = .measure m) : ∀ pair ∈ found.pairs, readBack s pair = pair.2 := by
  intro pair paired
  have still : pair.1.line = pair.2.line := by
    have unmoved := List.filterMap_eq_nil_iff.mp (matched.still m chain) pair paired
    simpa using unmoved
  refine readBack_eq_iff.mpr (fun lineless => .inl ?_)
  rw [still, lineless]

include open_ quiet in
/-- Carried on, a part is read as the matched facts, what was stored of it since the
base, and what was added. -/
theorem partHeld_extended (writing : Writing s K) (covered : ∀ f ∈ new, part.covers f = true) {base : Option Nat}
    (stands : base = some b.id) {last : Nat} (after : b.id ≤ last) (before : last < K.id) (depth : Nat) :
    let r : Restatement V := ⟨found.rest.map (·.id), last, movesOf found.pairs, found.added, some ⟨held.fromCaptureId, depth⟩⟩
    (((s.restate K.id part r).partHeld K.id part).map (·.toNewFact)).Perm
      (found.pairs.map (readBack s) ++ ((storedSince s K part ⟨held.fromCaptureId, depth⟩ b.id).map
        (columnsAt (s.restate K.id part r) K part) ++ found.added)) := by
  intro r
  let link : Link := ⟨held.fromCaptureId, depth⟩
  have step : Restates s K part base new r := .extended stands on after before matched
  rw [partHeld_restate valid writing covered step rfl, ← List.append_assoc]
  refine List.Perm.append_right _ ?_
  have older := on.older
  have originSame : ∀ f, s.storedFor K f = s.storedFor b f := by
    intro f
    unfold Store.storedFor
    rw [on.origin]
  -- In `K`'s range and not after the base is what the base holds.
  have early : (s.facts.filter fun f => s.holds K part link f && !r.closed.contains f.id).filter
      (fun f => decide (f.captureId ≤ b.id)) =
      (s.held b part).filter fun f => !(found.rest.map (·.id)).contains f.id := by
    have heldBy : s.held b part = s.facts.filter (s.holds b part held) := by
      unfold Store.held
      rw [on.linked]
    rw [heldBy, List.filter_filter, List.filter_filter]
    apply List.filter_congr
    intro f member
    cases dropped : (found.rest.map (·.id)).contains f.id with
    | true => simp
    | false =>
      have same : (decide (f.captureId ≤ b.id) && s.holds K part link f) = s.holds b part held f := by
        rw [Bool.eq_iff_iff, Bool.and_eq_true, decide_eq_true_eq, holds_iff, holds_iff]
        constructor
        · rintro ⟨early, holding⟩
          exact ⟨holding.covered, holding.started, early,
            fun last ends => older.le.trans (holding.lasting last ends), originSame f ▸ holding.stored⟩
        · intro holding
          have inHeld : f ∈ s.held b part := mem_held.mpr ⟨held, on.linked, member, holding⟩
          obtain ⟨pair, paired, same⟩ := paired_of_kept valid on matched inHeld (by simpa using dropped)
          have isOpen := open_ pair paired f inHeld same.symm
          exact ⟨holding.born, holding.covered, holding.started, holding.born.trans older.le, by simp [isOpen],
            originSame f ▸ holding.stored⟩
      simp only [Bool.not_false, Bool.and_true, Bool.true_and]
      exact same
  have late : (s.facts.filter fun f => s.holds K part link f && !r.closed.contains f.id).filter
      (fun f => !decide (f.captureId ≤ b.id)) = storedSince s K part link b.id := by
    unfold storedSince
    rw [List.filter_filter]
    apply List.filter_congr
    intro f member
    by_cases since : f.captureId ≤ b.id
    · have notSince : ¬ b.id < f.captureId := by omega
      simp [since, notSince]
    · have unclosed : r.closed.contains f.id = false := by
        rw [← Bool.not_eq_true]
        intro closed
        have dropped : f.id ∈ r.closed := by simpa using closed
        obtain ⟨row, left, id⟩ := List.mem_map.mp dropped
        have had := matched.had.mem_iff.mpr (List.mem_append_right _ left)
        rw [partHeld_eq valid.captureIds on.member] at had
        obtain ⟨g, inHeld, rfl⟩ := List.mem_map.mp had
        have equal : g = f := List.inj_on_of_nodup_map valid.factIds (held_facts inHeld) member id
        obtain ⟨_, _, _, holding⟩ := mem_held.mp inHeld
        exact since (equal ▸ holding.born)
      have isSince : b.id < f.captureId := by omega
      rw [unclosed]
      simp [since, isSince]
  have split := List.filter_append_perm (fun f : Fact V => decide (f.captureId ≤ b.id))
    (s.facts.filter fun f => s.holds K part link f && !r.closed.contains f.id)
  rw [early, late] at split
  refine (split.symm.map _).trans ?_
  rw [List.map_append]
  refine List.Perm.append_right _ ?_
  exact perm_map_of_perm_map (kept_perm valid on matched) (fun f member pair paired same =>
    columnsAt_pair valid on matched quiet (List.mem_filter.mp member).1 paired same)

end Extended
end Oxplow.Proofs.Readback
