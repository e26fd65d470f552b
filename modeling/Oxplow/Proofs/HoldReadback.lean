import Oxplow.Proofs.RecordRuns

/-! What a finished scan reads back of a file it wrote facts of. Where captures are
only written, a closed fact closed before a later hold and a line moved only for a
hold, so the newest hold holds open facts at their newest lines. Carried on from
there, the file is read back as it was given unless facts of it were stored since
without a hold, or the line a fact was stored with shows through. -/

namespace Oxplow.Proofs.HoldReadback
open Library Metrics FactChain Restatement StoreFrame StoreInvariant WriteParts Readback RecordRuns

variable {V : Type} {scope : Nat → Option CaptureScope}

/-- A fact closes after it was stored and before a later hold of its stream and producer,
and moves only for a hold. -/
structure HoldKept (s : Store V) (part : Part) : Prop where
  closed : ∀ f ∈ s.facts, part.covers f.toNewFact = true → ∀ last, f.lastCaptureId = some last →
    ∀ c, s.storedFor c f = true → ∃ d ∈ s.captures, d.origin = c.origin ∧ (s.link part d.id).isSome = true ∧
      f.captureId ≤ last ∧ last < d.id
  moved : ∀ f ∈ s.facts, part.covers f.toNewFact = true → ∀ time move, s.lines.get (f.id, time) = some move →
    ∀ c, s.storedFor c f = true → ∃ d ∈ s.captures, d.id = time ∧ d.origin = c.origin ∧ (s.link part d.id).isSome = true

variable {s : Store V}

theorem storedFor_origin (unique : (s.captures.map (·.id)).Nodup) {c d : Capture} {f : Fact V} (first : s.storedFor c f = true)
    (second : s.storedFor d f = true) : c.origin = d.origin := by
  obtain ⟨fc, inside, id, origin, _⟩ := storedFor_iff.mp first
  obtain ⟨fd, inside', id', origin', _⟩ := storedFor_iff.mp second
  have one : fc = fd := List.inj_on_of_nodup_map unique inside inside' (id.trans id'.symm)
  rw [← origin, ← origin', one]

namespace HoldKept

variable {part : Part}

theorem of_untouched {s' : Store V} (kept : HoldKept s part) (untouched : Untouched part s s') : HoldKept s' part := by
  have stored : ∀ c f, s'.storedFor c f = s.storedFor c f := by
    intro c f
    unfold Store.storedFor
    rw [untouched.captures]
  refine ⟨?_, ?_⟩
  · intro f inside covered last ends c storedFor
    rw [stored] at storedFor
    obtain ⟨d, member, origin, linked, later⟩ := kept.closed f ((untouched.mem_iff covered).mp inside) covered last ends c storedFor
    exact ⟨d, untouched.captures ▸ member, origin, untouched.links d.id ▸ linked, later⟩
  · intro f inside covered time move found c storedFor
    have old := (untouched.mem_iff covered).mp inside
    rw [stored] at storedFor
    rw [untouched.moves f old covered] at found
    obtain ⟨d, member, id, origin, linked⟩ := kept.moved f old covered time move found c storedFor
    exact ⟨d, untouched.captures ▸ member, id, origin, untouched.links d.id ▸ linked⟩

/-- A new capture's facts stored as they are are open and have not moved. -/
theorem bareStore (valid : Valid scope s) (kept : HoldKept s part) (capture : NewMetricCapture) (facts : List (NewFact V)) :
    HoldKept (bareStore scope s capture facts) part := by
  have links : ∀ id, (RecordRuns.bareStore scope s capture facts).link part id = s.link part id := by
    intro id
    unfold RecordRuns.bareStore
    rw [insertFacts_eq]
    cases part <;> rfl
  have captures : (RecordRuns.bareStore scope s capture facts).captures = s.captures ++ [capture.toCapture s.nextCapture] :=
    (bareStore_spec valid capture facts).2.2
  have parts : ∀ f ∈ (RecordRuns.bareStore scope s capture facts).facts,
      f ∈ s.facts ∨ f.lastCaptureId = none ∧ s.nextFact ≤ f.id := by
    intro f inside
    unfold RecordRuns.bareStore at inside
    rw [insertFacts_eq] at inside
    rcases List.mem_append.mp inside with old | added
    · exact .inl old
    · exact .inr ⟨(mem_numbered added).2.1, (mem_numbered added).2.2.2.1⟩
  have lines : (RecordRuns.bareStore scope s capture facts).lines = s.lines := by
    unfold RecordRuns.bareStore
    rw [insertFacts_eq]
    rfl
  refine ⟨?_, ?_⟩
  · intro f inside covered last ends c stored
    rcases parts f inside with old | ⟨isOpen, _⟩
    · obtain ⟨d, member, origin, linked, later⟩ := kept.closed f old covered last ends c (storedFor_older valid old captures stored)
      exact ⟨d, by simp [captures, member], origin, links d.id ▸ linked, later⟩
    · rw [isOpen] at ends
      cases ends
  · intro f inside covered time move found c stored
    rw [lines] at found
    rcases parts f inside with old | ⟨_, fresh⟩
    · obtain ⟨d, member, id, origin, linked⟩ := kept.moved f old covered time move found c (storedFor_older valid old captures stored)
      exact ⟨d, by simp [captures, member], id, origin, links d.id ▸ linked⟩
    · have old := valid.moveOld f.id time move found
      omega

/-- The capture that restates a part is a later hold for what it closes and moves. -/
theorem restate (valid : Valid scope s) {K : Capture} (writing : Writing s K) (kept : HoldKept s part) {base : Option Nat}
    {new : List (NewFact V)} {r : Restatement V} (step : Restates s K part base new r) (given : new ≠ []) :
    HoldKept (s.restate K.id part r) part := by
  obtain ⟨own, linked⟩ : ∃ link, r.link = some link := by
    cases step with
    | first alone links =>
      rcases links with rfl | ⟨none, _⟩
      · exact ⟨_, rfl⟩
      · exact absurd none given
    | whole stands on after before links =>
      rcases links with rfl | ⟨none, _⟩
      · exact ⟨_, rfl⟩
      · exact absurd none given
    | extended => exact ⟨_, rfl⟩
  have held : ((s.restate K.id part r).link part K.id).isSome = true := by
    rw [restate_link, if_pos ⟨rfl, rfl⟩, linked]
    rfl
  have links : ∀ d : Capture, (s.link part d.id).isSome = true → ((s.restate K.id part r).link part d.id).isSome = true := by
    intro d linkedOld
    rw [restate_link]
    split
    next => rw [linked]; rfl
    next => exact linkedOld
  have stored : ∀ c f, (s.restate K.id part r).storedFor c (closing r.closed r.last f) = s.storedFor c f := by
    intro c f
    simp [Store.storedFor]
  refine ⟨?_, ?_⟩
  · intro f inside covered last ends c storedFor
    rw [restate_captures]
    rw [restate_facts] at inside
    rcases List.mem_append.mp inside with inside | inside
    · obtain ⟨g, old, rfl⟩ := List.mem_map.mp inside
      rw [stored] at storedFor
      rw [closing_columns] at covered
      by_cases closed : r.closed.contains g.id = true
      · obtain ⟨b, _, on, after, before, h, inHeld, same⟩ := step.closed valid.captureIds (by simpa using closed)
        obtain ⟨_, _, inFacts, holding⟩ := mem_held.mp inHeld
        have equal : h = g := List.inj_on_of_nodup_map valid.factIds inFacts old same
        subst equal
        have origin := storedFor_origin valid.captureIds storedFor holding.stored
        have atLast : r.last = last := by
          unfold closing at ends
          rw [if_pos closed] at ends
          exact Option.some.inj ends
        have born := holding.born
        exact ⟨K, writing.member, on.origin.symm.trans origin.symm, held, by rw [closing_captureId]; omega, by omega⟩
      · unfold closing at ends
        rw [if_neg closed] at ends
        obtain ⟨d, member, origin, linkedOld, later⟩ := kept.closed g old covered last ends c storedFor
        exact ⟨d, member, origin, links d linkedOld, by rwa [closing_captureId]⟩
    · rw [(mem_numbered inside).2.1] at ends
      cases ends
  · intro f inside covered time move found c storedFor
    rw [restate_captures]
    rw [restate_facts] at inside
    rw [restate_lines] at found
    rcases List.mem_append.mp inside with inside | inside
    · obtain ⟨g, old, rfl⟩ := List.mem_map.mp inside
      rw [stored] at storedFor
      rw [closing_columns] at covered
      rw [closing_id] at found
      by_cases moves : g.id ∈ r.moved.map (·.1) ∧ time = K.id
      · obtain ⟨entry, member, same⟩ := List.mem_map.mp moves.1
        obtain ⟨b, _, on, h, inHeld, id⟩ := moved_held step valid.captureIds entry member
        obtain ⟨_, _, inFacts, holding⟩ := mem_held.mp inHeld
        have equal : h = g := List.inj_on_of_nodup_map valid.factIds inFacts old (id.trans same)
        subst equal
        have origin := storedFor_origin valid.captureIds storedFor holding.stored
        exact ⟨K, writing.member, moves.2.symm, on.origin.symm.trans origin.symm, held⟩
      · have still : (s.insertMoves K.id r.moved).lines.get (g.id, time) = s.lines.get (g.id, time) := by
          by_cases inMoves : g.id ∈ r.moved.map (·.1)
          · exact insertMoves_get_of_ne s K.id (fun same => moves ⟨inMoves, same⟩) _
          · exact insertMoves_get_of_not_mem s K.id inMoves
        rw [still] at found
        obtain ⟨d, member, id, origin, linkedOld⟩ := kept.moved g old covered time move found c storedFor
        exact ⟨d, member, id, origin, links d linkedOld⟩
    · have fresh := (mem_numbered inside).2.2.2.1
      have unmoved : f.id ∉ r.moved.map (·.1) := by
        intro moves
        obtain ⟨entry, member, same⟩ := List.mem_map.mp moves
        obtain ⟨g, inFacts, _, id⟩ := movesOf_held step valid.captureIds entry member
        have old := valid.factOld g inFacts
        omega
      rw [insertMoves_get_of_not_mem s K.id unmoved] at found
      have old := valid.moveOld f.id time move found
      omega

end HoldKept

/-! ## One restatement of a file -/

section File
variable [DecidableEq V]

/-- The new fact has no line, the held one it matches is seen at a line, and it was stored
with one. -/
def LineShows (s : Store V) (pair : FactRow V × NewFact V) : Prop :=
  pair.2.line = none ∧ pair.1.line ≠ none ∧ storedLine s pair.1.id ≠ none

/-- `K` states a file's facts whole, or carries them on from a hold with nothing stored
since and no stored line in sight. -/
def Undisturbed (s : Store V) (K : Capture) (m : Nat) (path : String) (new : List (NewFact V)) : Prop :=
  ∀ b ∈ s.previousHold K.id K.toNewMetricCapture (.file m path), ∀ link ∈ s.link (.file m path) b,
    restatesWhole (Store.matchPath new (s.pathHeld b m path)) (s.pathHeld b m path) new link.depth = true ∨
      (∀ f ∈ s.facts, (Part.file m path).covers f.toNewFact = true → s.storedFor K f = true → f.captureId ≤ b) ∧
      ∀ pair ∈ (Store.matchPath new (s.pathHeld b m path)).pairs, ¬ LineShows s pair

instance (s : Store V) (pair : FactRow V × NewFact V) : Decidable (LineShows s pair) := inferInstanceAs (Decidable (_ ∧ _ ∧ _))

omit [DecidableEq V] in
theorem readBack_undisturbed {pair : FactRow V × NewFact V} : readBack s pair = pair.2 ↔ ¬ LineShows s pair := by
  rw [readBack_eq_iff]
  unfold LineShows
  constructor
  · rintro reads ⟨lineless, seen, stored⟩
    exact (reads lineless).elim seen stored
  · intro hidden lineless
    by_cases seen : pair.1.line = none
    · exact .inl seen
    · exact .inr (Decidable.not_not.mp fun stored => hidden ⟨lineless, seen, stored⟩)

omit [DecidableEq V] in
/-- Reading a stored line only ever adds a line. -/
theorem eq_of_readBack_perm {pairs : List (FactRow V × NewFact V)} (perm : (pairs.map (readBack s)).Perm (pairs.map (·.2))) :
    ∀ pair ∈ pairs, readBack s pair = pair.2 := by
  refine eq_of_perm_map (fun f => if f.line = none then 0 else 1) perm ?_ ?_
  · intro pair _
    unfold readBack
    cases pair.2.line <;> simp
  · intro pair _ same
    rw [readBack_eq_iff]
    intro lineless
    unfold readBack at same
    simp only [lineless, Option.none_or, if_true] at same
    by_cases seen : pair.1.line = none
    · exact .inl seen
    · simp only [seen, if_false] at same
      exact .inr (by by_contra stored; simp [stored] at same)

section Restated
variable {s : Store V} (valid : Valid scope s) {K : Capture} (writing : Writing s K) {m : Nat} {path : String}
  {new : List (NewFact V)} (covered : ∀ f ∈ new, (Part.file m path).covers f = true)
include valid writing covered

/-- Stated whole, a file is read back as it was given. -/
theorem restate_pathHeld_whole (fresh : ∀ f ∈ s.facts, (Part.file m path).covers f.toNewFact = true → f.captureId ≠ K.id)
    (mostly : ∀ b link, s.previousHold K.id K.toNewMetricCapture (.file m path) = some b → s.link (.file m path) b = some link →
      restatesWhole (Store.matchPath new (s.pathHeld b m path)) (s.pathHeld b m path) new link.depth = true) :
    (((s.restate K.id (.file m path) (s.pathRestatement K.id K.toNewMetricCapture m path new)).partHeld K.id
      (.file m path)).map (·.toNewFact)).Perm new := by
  have step := pathRestatement_restates (K := K) valid.captureIds covered
  have whole : ∀ had, s.pathRestatement K.id K.toNewMetricCapture m path new = .whole had (K.id - 1) K.id new →
      (((s.restate K.id (.file m path) (s.pathRestatement K.id K.toNewMetricCapture m path new)).partHeld K.id
        (.file m path)).map (·.toNewFact)).Perm new :=
    fun had shape => .of_eq (partHeld_whole valid writing covered step (by rw [shape]; rfl) rfl fresh)
  cases previous : s.previousHold K.id K.toNewMetricCapture (.file m path) with
  | none => exact whole [] (pathRestatement_first previous new)
  | some id =>
    obtain ⟨b, held, rfl, on⟩ := base_of_previousHold previous
    exact whole _ ((pathRestatement_on previous on.linked new).trans (if_pos (mostly b.id held previous on.linked)))

/-- Carried on from open facts that have not moved since, a file is read back as it was
given just where nothing was stored since and no stored line shows through. -/
theorem restate_pathHeld_extended {b : Capture} {held : Link}
    (previous : s.previousHold K.id K.toNewMetricCapture (.file m path) = some b.id) (on : Base s K (.file m path) b held)
    (some_ : restatesWhole (Store.matchPath new (s.pathHeld b.id m path)) (s.pathHeld b.id m path) new held.depth ≠ true)
    (isOpen : ∀ pair ∈ (Store.matchPath new (s.pathHeld b.id m path)).pairs, ∀ f ∈ s.held b (.file m path),
      f.id = pair.1.id → f.lastCaptureId = none)
    (quiet : ∀ pair ∈ (Store.matchPath new (s.pathHeld b.id m path)).pairs, pair.1.line = pair.2.line → ∀ time, b.id < time →
      time ≤ K.id → s.lines.get (pair.1.id, time) = none) :
    (((s.restate K.id (.file m path) (s.pathRestatement K.id K.toNewMetricCapture m path new)).partHeld K.id
      (.file m path)).map (·.toNewFact)).Perm new ↔
    storedSince s K (.file m path) ⟨held.fromCaptureId, held.depth + 1⟩ b.id = [] ∧
      ∀ pair ∈ (Store.matchPath new (s.pathHeld b.id m path)).pairs, ¬ LineShows s pair := by
  have matched : Matched (.file m path) (s.partHeld b.id (.file m path)) new (Store.matchPath new (s.pathHeld b.id m path)) :=
    matchPath_matched (fun row (member : row ∈ s.partHeld b.id _) => partHeld_measure member) covered
  have older := on.older
  have read := partHeld_extended valid on matched isOpen
    (fun _ _ _ => quiet) writing covered rfl (show b.id ≤ K.id - 1 by omega) (by omega) (held.depth + 1)
  rw [(pathRestatement_on previous on.linked new).trans (if_neg some_)]
  simp only at read
  constructor
  · intro perm
    obtain ⟨none, same⟩ := perm_of_append_perm (by simp) ((read.symm.trans perm).trans matched.news)
    refine ⟨List.map_eq_nil_iff.mp none, ?_⟩
    intro pair paired
    exact readBack_undisturbed.mp (eq_of_readBack_perm same pair paired)
  · rintro ⟨since, hidden⟩
    rw [since, List.map_nil, List.nil_append,
      List.map_congr_left fun pair paired => readBack_undisturbed.mpr (hidden pair paired)] at read
    exact read.trans matched.news.symm

/-- A file is read back as it was given just where its restatement is undisturbed. -/
theorem restate_pathHeld_iff (kept : HoldKept s (.file m path))
    (fresh : ∀ f ∈ s.facts, (Part.file m path).covers f.toNewFact = true → f.captureId ≠ K.id)
    (unlinked : s.link (.file m path) K.id = none) :
    (((s.restate K.id (.file m path) (s.pathRestatement K.id K.toNewMetricCapture m path new)).partHeld K.id
      (.file m path)).map (·.toNewFact)).Perm new ↔ Undisturbed s K m path new := by
  by_cases whole : ∀ b link, s.previousHold K.id K.toNewMetricCapture (.file m path) = some b →
      s.link (.file m path) b = some link →
      restatesWhole (Store.matchPath new (s.pathHeld b m path)) (s.pathHeld b m path) new link.depth = true
  · exact ⟨fun _ b previous link linked => .inl (whole b link previous linked),
      fun _ => restate_pathHeld_whole valid writing covered fresh whole⟩
  · simp only [not_forall] at whole
    obtain ⟨id, held, previous, linked, some_⟩ := whole
    obtain ⟨b, row, rfl, on⟩ := base_of_previousHold previous
    have one : row = held := Option.some.inj (on.linked.symm.trans linked)
    subst one
    have matched : Matched (.file m path) (s.partHeld b.id (.file m path)) new (Store.matchPath new (s.pathHeld b.id m path)) :=
      matchPath_matched (fun row (member : row ∈ s.partHeld b.id _) => partHeld_measure member) covered
    -- A later hold than the base is `K`'s own, which is not yet there.
    have noLater : ∀ d ∈ s.captures, d.origin = b.origin → (s.link (.file m path) d.id).isSome = true → d.id ≤ b.id := by
      intro d member origin linked
      rcases Nat.lt_or_eq_of_le (writing.newest d member) with before | reached
      · exact on.newest d member (origin.trans on.origin) before linked
      · rw [reached, unlinked] at linked
        cases linked
    have isOpen : ∀ f ∈ s.held b (.file m path), f.lastCaptureId = none := by
      intro f inHeld
      obtain ⟨_, _, inside, holding⟩ := mem_held.mp inHeld
      cases ends : f.lastCaptureId with
      | none => rfl
      | some last =>
        obtain ⟨d, member, origin, linked, _, later⟩ := kept.closed f inside holding.covered last ends b holding.stored
        have bound := noLater d member origin linked
        have lasting := holding.lasting last ends
        omega
    have quiet : ∀ f ∈ s.held b (.file m path), ∀ time, b.id < time → s.lines.get (f.id, time) = none := by
      intro f inHeld time after
      obtain ⟨_, _, inside, holding⟩ := mem_held.mp inHeld
      cases moved : s.lines.get (f.id, time) with
      | none => rfl
      | some move =>
        obtain ⟨d, member, id, origin, linked⟩ := kept.moved f inside holding.covered time move moved b holding.stored
        have bound := noLater d member origin linked
        omega
    have sinceIff : storedSince s K (.file m path) ⟨row.fromCaptureId, row.depth + 1⟩ b.id = [] ↔
        ∀ f ∈ s.facts, (Part.file m path).covers f.toNewFact = true → s.storedFor K f = true → f.captureId ≤ b.id := by
      refine ⟨?_, storedSince_nil⟩
      intro none f inside inPart stored
      by_contra after
      refine List.filter_eq_nil_iff.mp none f inside ?_
      simp only [Bool.and_eq_true, decide_eq_true_eq, holds_iff]
      have begins := valid.linkStart _ _ _ on.linked
      obtain ⟨fc, captured, id, _, _⟩ := storedFor_iff.mp stored
      refine ⟨⟨inPart, by simp only; omega, id ▸ writing.newest fc captured, ?_, stored⟩, by omega⟩
      intro last ends
      obtain ⟨d, member, origin, linked, born, later⟩ := kept.closed f inside inPart last ends K stored
      have bound := noLater d member (origin.trans on.origin.symm) linked
      omega
    rw [restate_pathHeld_extended valid writing covered previous on some_ (fun _ _ f inHeld _ => isOpen f inHeld)
      (fun pair paired _ time after _ => by
        obtain ⟨f, inHeld, same⟩ := held_of_pair valid on matched paired
        exact same ▸ quiet f inHeld time after), sinceIff]
    refine ⟨?_, ?_⟩
    · intro undisturbed b' found' link' linked'
      rw [Option.mem_def, previous] at found'
      cases found'
      exact .inr undisturbed
    · intro undisturbed
      exact (undisturbed b.id previous row on.linked).resolve_left some_

end Restated

/-- `s'` has the rows of a file that `s` has, to a capture `K` that restates it. -/
structure SameFile (s s' : Store V) (K : Capture) (m : Nat) (path : String) : Prop where
  unique : (s.facts.map (·.id)).Nodup
  unique' : (s'.facts.map (·.id)).Nodup
  previous : s'.previousHold K.id K.toNewMetricCapture (.file m path) = s.previousHold K.id K.toNewMetricCapture (.file m path)
  links : ∀ id, s'.link (.file m path) id = s.link (.file m path) id
  held : ∀ id, id < K.id → s'.pathHeld id m path = s.pathHeld id m path
  facts : ∀ f : Fact V, (Part.file m path).covers f.toNewFact = true → (f ∈ s'.facts ↔ f ∈ s.facts)
  stored : ∀ f ∈ s.facts, (Part.file m path).covers f.toNewFact = true → s'.storedFor K f = s.storedFor K f
  moves : ∀ f ∈ s.facts, (Part.file m path).covers f.toNewFact = true → ∀ time, s'.lines.get (f.id, time) = s.lines.get (f.id, time)

variable {m : Nat} {path : String}

/-- A matched row is of a fact of the file. -/
theorem pair_source {id : Nat} {new : List (NewFact V)} {pair : FactRow V × NewFact V}
    (paired : pair ∈ (Store.matchPath new (s.pathHeld id m path)).pairs) :
    ∃ f ∈ s.facts, (Part.file m path).covers f.toNewFact = true ∧ pair.1.id = f.id :=
  partHeld_source ((matchAll_held matchPath_takes new (s.pathHeld id m path)).mem_iff.mpr
    (List.mem_append_left _ (List.mem_map_of_mem paired)))

/-- Whether a restatement is undisturbed is told by the file's own rows. -/
theorem SameFile.undisturbed_iff {s' : Store V} {K : Capture} (same : SameFile s s' K m path) (new : List (NewFact V)) :
    Undisturbed s' K m path new ↔ Undisturbed s K m path new := by
  unfold Undisturbed
  rw [same.previous]
  refine forall_congr' fun b => forall_congr' fun found => ?_
  obtain ⟨c, _, rfl, fits, _⟩ := newest_capture found
  simp only [Bool.and_eq_true, decide_eq_true_eq] at fits
  rw [same.links, same.held c.id fits.1.2]
  refine forall_congr' fun link => forall_congr' fun linked => or_congr Iff.rfl (and_congr ?_ ?_)
  · constructor
    · intro early f inside covered storedFor
      exact early f ((same.facts f covered).mpr inside) covered (same.stored f inside covered ▸ storedFor)
    · intro early f inside covered storedFor
      have old := (same.facts f covered).mp inside
      exact early f old covered (same.stored f old covered ▸ storedFor)
  · refine forall_congr' fun pair => forall_congr' fun paired => not_congr ?_
    obtain ⟨f, inside, covered, id⟩ := pair_source paired
    have line := storedLine_of_mem same.unique inside id
    have line' := storedLine_of_mem same.unique' ((same.facts f covered).mpr inside) id
    unfold LineShows
    rw [line, line']

/-! ## One recorded capture -/

section Written
variable {s : Store V} (valid : Valid scope s) {capture : NewMetricCapture} {facts : List (NewFact V)}
include valid

theorem written_holdKept (perPath : scope m = some .perPath) (kept : HoldKept s (.file m path)) :
    HoldKept (written scope s capture facts) (.file m path) := by
  have bare := HoldKept.bareStore valid kept capture facts
  by_cases done : capture.status = .done
  · obtain ⟨_, unrestated, restated⟩ := written_parts valid capture facts done
    by_cases member : Part.file m path ∈
        restatedParts scope (bareStore scope s capture facts) (capture.toCapture s.nextCapture) capture facts
    · obtain ⟨before, once⟩ := restated _ member
      have step := partRestatement_restates once.valid (capture.toCapture s.nextCapture)
        (fun part => routedTo scope capture facts (some part))
        (show ∀ f ∈ routedTo scope capture facts (some (.file m path)), (Part.file m path).covers f = true from routedTo_covered)
      rw [← once.based] at step
      obtain ⟨f, inside, routed⟩ := mem_restatedParts_file.mp member
      have given : routedTo scope capture facts (some (.file m path)) ≠ [] :=
        List.ne_nil_of_mem (List.mem_filter.mpr ⟨inside, by simpa using routed⟩)
      exact (HoldKept.restate once.valid once.writing (bare.of_untouched once.unchanged) step given).of_untouched once.kept
    · exact bare.of_untouched (unrestated _ perPath member)
  · rw [written_unfinished capture facts done]
    exact bare

omit [DecidableEq V] valid in
theorem insertCapture_previousHold (capture : NewMetricCapture) (part : Part) :
    (s.insertCapture capture).1.previousHold s.nextCapture capture part = s.previousHold s.nextCapture capture part := by
  unfold Store.previousHold
  have captures : (s.insertCapture capture).1.captures = s.captures ++ [capture.toCapture s.nextCapture] := rfl
  rw [captures, List.filter_append]
  simp [insertCapture_link]

/-- A finished scan restates a file it was given facts of once, from a store that has the
file's rows. -/
theorem written_file (perPath : scope m = some .perPath) (done : capture.status = .done) (scan : capture.scanKind ≠ .asserted)
    (given : ∃ f ∈ facts, (Part.file m path).covers f = true) :
    ∃ before r, RestatedAs scope s capture facts (.file m path) before r ∧
      SameFile s before (capture.toCapture s.nextCapture) m path := by
  let K := capture.toCapture s.nextCapture
  have restated : Part.file m path ∈ restatedParts scope (bareStore scope s capture facts) K capture facts := by
    obtain ⟨f, inside, covered⟩ := given
    exact mem_restatedParts_file.mpr ⟨f, inside, route_of_covered done (scoped_file perPath path) (.inr scan) covered⟩
  obtain ⟨before, r, as_⟩ := written_restated valid capture facts done (scoped_file perPath path) (.inr scan) restated
  refine ⟨before, r, as_, valid.factIds, as_.valid.factIds, ?_, ?_, ?_, ?_, ?_, ?_⟩
  · exact (as_.unchanged.previousHold _ _).trans (insertCapture_previousHold capture (.file m path))
  · exact fun id => (as_.unchanged.links id).trans (insertCapture_link s capture _ id)
  · exact fun id older => (as_.unchanged.partHeld id).trans ((insertCapture_frame valid capture).partHeld older _)
  · exact fun f covered => as_.unchanged.mem_iff covered
  · intro f inside covered
    obtain ⟨c, member, same⟩ := valid.factCaptured f inside
    have old := valid.captureOld c member
    refine storedFor_append (K := K) ⟨[K], as_.unchanged.captures, fun d inside => List.mem_singleton.mp inside⟩ rfl ?_
    exact (show f.captureId < s.nextCapture by omega).ne
  · exact fun f inside covered time => as_.unchanged.moves f inside covered time

omit valid in
theorem RestatedAs.pathHeld_perm {before : Store V} {r : Restatement V}
    (as_ : RestatedAs scope s capture facts (.file m path) before r) :
    (((written scope s capture facts).pathHeld s.nextCapture m path).map (·.toNewFact)).Perm
      (facts.filter (Part.file m path).covers) ↔
    (((before.restate s.nextCapture (.file m path) (before.pathRestatement s.nextCapture
      (capture.toCapture s.nextCapture).toNewMetricCapture m path (facts.filter (Part.file m path).covers))).partHeld
      s.nextCapture (.file m path)).map (·.toNewFact)).Perm (facts.filter (Part.file m path).covers) := by
  have source : r = before.pathRestatement s.nextCapture (capture.toCapture s.nextCapture).toNewMetricCapture m path
      (facts.filter (Part.file m path).covers) := as_.source
  have read := as_.kept.partHeld s.nextCapture
  rw [← source]
  change (((written scope s capture facts).partHeld s.nextCapture (.file m path)).map (·.toNewFact)).Perm _ ↔ _
  rw [read]

/-- A finished scan reads back a file it was given facts of just where it stated it
undisturbed. -/
theorem written_pathHeld_iff (perPath : scope m = some .perPath) (kept : HoldKept s (.file m path))
    (done : capture.status = .done) (scan : capture.scanKind ≠ .asserted)
    (given : ∃ f ∈ facts, (Part.file m path).covers f = true) :
    (((written scope s capture facts).pathHeld s.nextCapture m path).map (·.toNewFact)).Perm
      (facts.filter (Part.file m path).covers) ↔
    Undisturbed s (capture.toCapture s.nextCapture) m path (facts.filter (Part.file m path).covers) := by
  obtain ⟨before, r, as_, same⟩ := written_file valid perPath done scan given
  have inserted : HoldKept (s.insertCapture capture).1 (.file m path) := kept.bareStore valid capture []
  have covered : ∀ f ∈ facts.filter (Part.file m path).covers, (Part.file m path).covers f = true :=
    fun f member => (List.mem_filter.mp member).2
  have file := restate_pathHeld_iff as_.valid as_.writing covered (inserted.of_untouched as_.unchanged)
    (fun f inside inFile => ((as_.fresh valid capture facts inside inFile).2).ne)
    ((same.links _).trans (valid.link_fresh _))
  rw [← same.undisturbed_iff, ← file]
  exact RestatedAs.pathHeld_perm as_

end Written

/-! ## Sequences of writes -/

section Runs
variable {refused : Store V → NewMetricCapture → List (NewFact V) → Bool}

omit [DecidableEq V] in
theorem empty_holdKept (part : Part) : HoldKept (Store.empty : Store V) part := by
  refine ⟨?_, ?_⟩
  · intro f inside
    cases inside
  · intro f inside
    cases inside

theorem recordAll_holdKept (writes : List (NewMetricCapture × List (NewFact V))) (perPath : scope m = some .perPath) :
    HoldKept ((Store.empty : Store V).recordAll scope refused writes) (.file m path) :=
  (recordAll_invariant (fun _ _ _ valid kept => written_holdKept valid perPath kept) empty_valid (empty_holdKept _) writes).2

/-- Whatever is written before and after it, a finished scan reads back the facts of a file
it was given just where it stated them undisturbed. -/
theorem hold_readback_iff (earlier later : List (NewMetricCapture × List (NewFact V))) {capture : NewMetricCapture}
    {facts : List (NewFact V)}
    (accepted : Accepted refused ((Store.empty : Store V).recordAll scope refused earlier) capture facts)
    (done : capture.status = .done) (scan : capture.scanKind ≠ .asserted) {m : Nat} {path : String}
    (perPath : scope m = some .perPath) (given : ∃ f ∈ facts, (Part.file m path).covers f = true) :
    let s := (Store.empty : Store V).recordAll scope refused earlier
    let s' := s.recordAll scope refused ((capture, facts) :: later)
    ((s'.pathHeld s.nextCapture m path).map (·.toNewFact)).Perm (facts.filter (Part.file m path).covers) ↔
      Undisturbed s (capture.toCapture s.nextCapture) m path (facts.filter (Part.file m path).covers) := by
  intro s s'
  have valid : Valid scope s := recordAll_valid empty_valid earlier
  have step : s' = (written scope s capture facts).recordAll scope refused later := by
    change (s.record scope refused capture facts).recordAll scope refused later = _
    rw [record_eq, if_pos accepted]
  have spec := written_spec valid capture facts
  have old : s.nextCapture < (written scope s capture facts).nextCapture := by
    rw [written_nextCapture]
    exact Nat.lt_succ_self _
  rw [step]
  change (((Store.recordAll scope refused (written scope s capture facts) later).partHeld s.nextCapture (.file m path)).map
    (·.toNewFact)).Perm _ ↔ _
  rw [recordAll_partHeld spec.1 old (.file m path) later]
  exact written_pathHeld_iff valid perPath (recordAll_holdKept earlier perPath) done scan given

end Runs
end File

/-- A scan that moves one fact of a file carries it on undisturbed. -/
theorem hold_readback_moved :
    let x := plainFact 1 5 (some "a.rs") (some 1)
    let y := plainFact 1 6 (some "a.rs") (some 2)
    let y' := plainFact 1 6 (some "a.rs") (some 4)
    Undisturbed ((Store.empty : Store Nat).recordAll plainScope nothingRefused [(plainCapture .delta 1, [x, y])])
      ((plainCapture .delta 2).toCapture 2) 1 "a.rs" ([x, y'].filter (Part.file 1 "a.rs").covers) :=
  (hold_readback_iff [(plainCapture .delta 1, _)] []
    (by decide +kernel) rfl (by decide +kernel) (m := 1) rfl (by decide +kernel)).mp (by decide +kernel)

/-- A fact stored without a hold between two scans is read with the second one; and a fact
given without a line is read at the line it was stored with. -/
theorem hold_readback_disturbed :
    let x := plainFact 1 5 (some "a.rs") (some 1)
    let y := plainFact 1 6 (some "a.rs") (some 2)
    let asserted := plainFact 1 7 (some "a.rs") none
    let lineless := plainFact 1 5 (some "a.rs") none
    let read := fun writes id =>
      (((Store.empty : Store Nat).recordAll plainScope nothingRefused writes).pathHeld id 1 "a.rs").map (·.toNewFact)
    ¬ (read [(plainCapture .delta 1, [x, y]), (plainCapture .asserted 2, [asserted]), (plainCapture .delta 3, [x, y])] 3).Perm
        [x, y] ∧
      ¬ (read [(plainCapture .delta 1, [x, y]), (plainCapture .delta 2, [lineless, y])] 2).Perm [lineless, y] := by
  decide

end Oxplow.Proofs.HoldReadback
