import Oxplow.Proofs.FactChain

/-! What a restatement is: the part's facts stored whole, or the base's facts carried
on, matched one by one with what the capture restates. Every invariant of the store
follows from this case distinction. -/

namespace Oxplow.Proofs.Restatement
open Library Metrics FactChain

variable {V : Type}

/-- A part that `write` uses under the measures' scopes. -/
def Scoped (scope : Nat → Option CaptureScope) : Part → Prop
  | .measure m => scope m = some .complete
  | .file m _ => scope m = some .perPath

variable {scope : Nat → Option CaptureScope} {m : Nat}

theorem scoped_measure (complete : scope m = some .complete) : Scoped scope (.measure m) := complete

theorem scoped_file (perPath : scope m = some .perPath) (path : String) : Scoped scope (.file m path) := perPath

variable {f : NewFact V}

/-- A fact belongs to one part. -/
theorem scoped_part_eq {first second : Part} (firstScoped : Scoped scope first) (secondScoped : Scoped scope second)
    (inFirst : first.covers f = true) (inSecond : second.covers f = true) : first = second := by
  cases first <;> cases second <;>
    simp only [Scoped, Part.covers, Bool.and_eq_true, beq_iff_eq] at firstScoped secondScoped inFirst inSecond
  · rw [← inFirst, ← inSecond]
  · rw [← inFirst, inSecond.1, secondScoped] at firstScoped
    cases firstScoped
  · rw [← inSecond, inFirst.1, firstScoped] at secondScoped
    cases secondScoped
  · have paths := inFirst.2.symm.trans inSecond.2
    rw [← inFirst.1, ← inSecond.1, Option.some.inj paths]

/-- The rows of a store and how they refer to one another. -/
structure Valid (scope : Nat → Option CaptureScope) (s : Store V) : Prop where
  captureIds : (s.captures.map (·.id)).Nodup
  captureOld : ∀ c ∈ s.captures, c.id < s.nextCapture
  factIds : (s.facts.map (·.id)).Nodup
  factOld : ∀ f ∈ s.facts, f.id < s.nextFact
  factCaptured : ∀ f ∈ s.facts, ∃ c ∈ s.captures, c.id = f.captureId
  linkCaptured : ∀ part id link, s.link part id = some link → ∃ c ∈ s.captures, c.id = id ∧ c.status = .done
  linkStart : ∀ part id link, s.link part id = some link → link.fromCaptureId ≤ id
  linkScoped : ∀ part id link, s.link part id = some link → Scoped scope part
  moveOld : ∀ id time move, s.lines.get (id, time) = some move → id < s.nextFact
  moveScoped : ∀ f ∈ s.facts, ∀ time move, s.lines.get (f.id, time) = some move → scope f.measureId = some .perPath
  /-- Two holders of a part stand on one chain, or the later one's starts after the earlier one. -/
  apart : ∀ part, ∀ c ∈ s.captures, ∀ d ∈ s.captures, c.origin = d.origin → d.id < c.id →
    ∀ later earlier, s.link part c.id = some later → s.link part d.id = some earlier →
      later.fromCaptureId = earlier.fromCaptureId ∨ d.id < later.fromCaptureId

variable {s : Store V}

/-- A new capture's id is in no row yet. -/
theorem Valid.link_fresh (valid : Valid scope s) (part : Part) : s.link part s.nextCapture = none := by
  cases linked : s.link part s.nextCapture with
  | none => rfl
  | some link =>
    obtain ⟨c, member, same, _⟩ := valid.linkCaptured part _ link linked
    have old := valid.captureOld c member
    omega

/-- The capture whose facts of a part `K` stands on: the newest before it that has a
row for the part. -/
structure Base (s : Store V) (K : Capture) (part : Part) (b : Capture) (link : Link) : Prop where
  member : b ∈ s.captures
  origin : b.origin = K.origin
  older : b.id < K.id
  linked : s.link part b.id = some link
  newest : ∀ c ∈ s.captures, c.origin = K.origin → c.id < K.id → (s.link part c.id).isSome → c.id ≤ b.id

/-- The moves that matched facts make. -/
def movesOf (pairs : List (FactRow V × NewFact V)) : List (Nat × Option Int) :=
  pairs.filterMap fun (row, f) => if row.line = f.line then none else some (row.id, f.line)

/-- The held rows and the new facts, matched one by one: a pair differs in the line at
most, and for a measure's chain not in the line either. -/
structure Matched (part : Part) (had : List (FactRow V)) (new : List (NewFact V))
    (found : Matching (FactRow V) (NewFact V)) : Prop where
  had : had.Perm (found.pairs.map (·.1) ++ found.rest)
  news : new.Perm (found.pairs.map (·.2) ++ found.added)
  same : ∀ pair ∈ found.pairs, { pair.1.toNewFact with line := pair.2.line } = pair.2
  still : ∀ m, part = .measure m → movesOf found.pairs = []

/-- The two ways to restate a part, from base capture `base`: whole, with what was
held closed, or carried on. -/
inductive Restates (s : Store V) (K : Capture) (part : Part) (base : Option Nat) (new : List (NewFact V)) :
    Restatement V → Prop
  | first {last : Nat} {link : Option Link} (alone : base.bind (s.link part) = none)
      (links : link = some ⟨K.id, 0⟩ ∨ new = [] ∧ link = none) : Restates s K part base new ⟨[], last, [], new, link⟩
  | whole {b : Capture} {held : Link} {last : Nat} {link : Option Link} (stands : base = some b.id)
      (on : Base s K part b held) (after : b.id ≤ last) (before : last < K.id)
      (links : link = some ⟨K.id, 0⟩ ∨ new = [] ∧ link = none) :
      Restates s K part base new ⟨(s.held b part).map (·.id), last, [], new, link⟩
  | extended {b : Capture} {held : Link} {last depth : Nat} {found : Matching (FactRow V) (NewFact V)}
      (stands : base = some b.id) (on : Base s K part b held) (after : b.id ≤ last) (before : last < K.id)
      (matched : Matched part (s.partHeld b.id part) new found) :
      Restates s K part base new
        ⟨found.rest.map (·.id), last, movesOf found.pairs, found.added, some ⟨held.fromCaptureId, depth⟩⟩

/-! ## The matching -/

theorem partHeld_eq (unique : (s.captures.map (·.id)).Nodup) {c : Capture} (member : c ∈ s.captures) (part : Part) :
    s.partHeld c.id part = (s.held c part).map fun f => Store.factRow f (s.heldLine c.id part f) c := by
  unfold Store.partHeld
  rw [capture?_of_mem unique member]

theorem held_ids (unique : (s.captures.map (·.id)).Nodup) {c : Capture} (member : c ∈ s.captures) (part : Part) :
    (s.partHeld c.id part).map (·.id) = (s.held c part).map (·.id) := by
  rw [partHeld_eq unique member, List.map_map]
  rfl

variable {id : Nat} {part : Part}

theorem partHeld_measure {row : FactRow V} (member : row ∈ s.partHeld id part) : part.covers row.toNewFact = true := by
  unfold Store.partHeld at member
  split at member
  next c _ =>
    obtain ⟨f, held, rfl⟩ := List.mem_map.mp member
    obtain ⟨_, _, _, holding⟩ := mem_held.mp held
    have covered := holding.covered
    cases part <;> exact covered
  next => simp at member

/-- A held row is a stored fact's. -/
theorem partHeld_source {row : FactRow V} (member : row ∈ s.partHeld id part) :
    ∃ f ∈ s.facts, part.covers f.toNewFact = true ∧ row.id = f.id := by
  unfold Store.partHeld at member
  split at member
  next c _ =>
    obtain ⟨f, held, rfl⟩ := List.mem_map.mp member
    obtain ⟨_, _, inside, holding⟩ := mem_held.mp held
    exact ⟨f, inside, holding.covered, rfl⟩
  next => simp at member

variable {row : NewFact V}

theorem eq_of_key (measure : row.measureId = f.measureId) (same : newKey row false = newKey f false) :
    { row with line := f.line } = f := by
  cases row
  cases f
  simp only [newKey, Key.mk.injEq] at same
  simp_all

theorem line_of_key (same : newKey row true = newKey f true) : row.line = f.line ∧ newKey row false = newKey f false := by
  simp only [newKey, Key.mk.injEq, if_true] at same
  simp [newKey, same]

theorem covered_measure (inRow : part.covers row = true) (inNew : part.covers f = true) : row.measureId = f.measureId := by
  cases part <;> simp only [Part.covers, Bool.and_eq_true, beq_iff_eq] at inRow inNew
  · rw [inRow, inNew]
  · rw [inRow.1, inNew.1]

variable {K : Capture} {base : Option Nat} {new : List (NewFact V)} {r : Restatement V}

/-- Facts that are closed were held, and close no earlier than the base that held them. -/
theorem Restates.closed (step : Restates s K part base new r) (unique : (s.captures.map (·.id)).Nodup) (member : id ∈ r.closed) :
    ∃ b link, Base s K part b link ∧ b.id ≤ r.last ∧ r.last < K.id ∧ ∃ f ∈ s.held b part, f.id = id := by
  cases step with
  | first => simp at member
  | whole stands on after before links =>
    obtain ⟨f, held, same⟩ := List.mem_map.mp member
    exact ⟨_, _, on, after, before, f, held, same⟩
  | extended stands on after before matched =>
    obtain ⟨row, left, rfl⟩ := List.mem_map.mp member
    have had := matched.had.mem_iff.mpr (List.mem_append_right _ left)
    rw [partHeld_eq unique on.member] at had
    obtain ⟨f, held, rfl⟩ := List.mem_map.mp had
    exact ⟨_, _, on, after, before, f, held, rfl⟩

variable {link : Link}

/-- The row a restatement puts in starts at the capture itself or where the base's row starts. -/
theorem Restates.link_start (step : Restates s K part base new r) (linked : r.link = some link) :
    link.fromCaptureId = K.id ∨ ∃ b held, Base s K part b held ∧ link.fromCaptureId = held.fromCaptureId := by
  cases step with
  | first alone links =>
    rcases links with rfl | ⟨_, rfl⟩
    · cases linked
      exact .inl rfl
    · cases linked
  | whole stands on after before links =>
    rcases links with rfl | ⟨_, rfl⟩
    · cases linked
      exact .inl rfl
    · cases linked
  | extended stands on after before matched =>
    cases linked
    exact .inr ⟨_, _, on, rfl⟩

/-- A capture that stores facts of a part has a row for it. -/
theorem Restates.stored_linked (step : Restates s K part base new r)
    (starts : ∀ part id link, s.link part id = some link → link.fromCaptureId ≤ id) (someStored : r.stored ≠ []) :
    ∃ link, r.link = some link ∧ link.fromCaptureId ≤ K.id := by
  have present : ∃ link, r.link = some link := by
    cases step with
    | first alone links =>
      rcases links with rfl | ⟨none, _⟩
      · exact ⟨_, rfl⟩
      · exact absurd none someStored
    | whole stands on after before links =>
      rcases links with rfl | ⟨none, _⟩
      · exact ⟨_, rfl⟩
      · exact absurd none someStored
    | extended => exact ⟨_, rfl⟩
  obtain ⟨link, linked⟩ := present
  refine ⟨link, linked, ?_⟩
  rcases step.link_start linked with own | ⟨b, held, on, same⟩
  · exact own.le
  · have begins := starts part b.id held on.linked
    have older := on.older
    omega

/-- Only files have facts that move. -/
theorem Restates.moved_file (step : Restates s K part base new r) (moved : r.moved ≠ []) : ∃ m path, part = .file m path := by
  cases part with
  | file m path => exact ⟨m, path, rfl⟩
  | measure m =>
    cases step with
    | first => exact absurd rfl moved
    | whole => exact absurd rfl moved
    | extended stands on after before matched => exact absurd (matched.still m rfl) moved

variable {b : Nat}

/-- The newest of the captures with a property. -/
theorem newest_capture {p : Capture → Bool} (found : ((s.captures.filter p).map (·.id)).max? = some b) :
    ∃ c ∈ s.captures, c.id = b ∧ p c = true ∧ ∀ d ∈ s.captures, p d = true → d.id ≤ b := by
  obtain ⟨member, greatest⟩ := List.max?_eq_some_iff.mp found
  obtain ⟨c, inside, rfl⟩ := List.mem_map.mp member
  obtain ⟨inside, holds⟩ := List.mem_filter.mp inside
  refine ⟨c, inside, rfl, holds, ?_⟩
  intro d member fits
  exact greatest d.id (List.mem_map_of_mem (List.mem_filter.mpr ⟨member, fits⟩))

/-- The producer's newest hold of a file is its base. -/
theorem base_of_previousHold (found : s.previousHold K.id K.toNewMetricCapture part = some b) :
    ∃ c link, c.id = b ∧ Base s K part c link := by
  obtain ⟨c, member, rfl, fits, greatest⟩ := newest_capture found
  simp only [Bool.and_eq_true, beq_iff_eq, decide_eq_true_eq] at fits greatest
  obtain ⟨link, linked⟩ := Option.isSome_iff_exists.mp fits.2
  exact ⟨c, link, rfl, member, fits.1.1, fits.1.2, linked,
    fun d inside origin older isLinked => greatest d inside ⟨⟨origin, older⟩, isLinked⟩⟩

/-- The previous finished capture is the base of each part it has a row for. -/
theorem base_of_previousDone (unique : (s.captures.map (·.id)).Nodup)
    (done : ∀ part id link, s.link part id = some link → ∃ c ∈ s.captures, c.id = id ∧ c.status = .done)
    (found : s.previousDone K.id K.toNewMetricCapture = some b) (linked : s.link part b = some link) :
    ∃ c, c.id = b ∧ Base s K part c link := by
  obtain ⟨c, member, rfl, fits, greatest⟩ := newest_capture found
  simp only [Bool.and_eq_true, beq_iff_eq, decide_eq_true_eq] at fits greatest
  refine ⟨c, rfl, member, fits.1.1, fits.2, linked, ?_⟩
  intro d inside origin older isLinked
  obtain ⟨row, found⟩ := Option.isSome_iff_exists.mp isLinked
  obtain ⟨e, other, same, finished⟩ := done part d.id row found
  have equal : e = d := List.inj_on_of_nodup_map unique other inside same
  exact greatest d inside ⟨⟨origin, equal ▸ finished⟩, older⟩

variable {had : List (FactRow V)}

theorem matched_of_takes {pick : NewFact V → List (FactRow V) → Option (FactRow V × List (FactRow V))}
    {same : FactRow V → NewFact V → Prop} (takes : Takes pick same)
    (key : ∀ row f, same row f → rowKey row false = newKey f false)
    (still : ∀ m, part = .measure m → ∀ row f, same row f → row.line = f.line)
    (inHad : ∀ row ∈ had, part.covers row.toNewFact = true) (inNew : ∀ f ∈ new, part.covers f = true) :
    Matched part had new (matchAll pick new had) := by
  have pairs := matchAll_pairs takes new had
  have hadPerm := matchAll_held takes new had
  have newPerm := matchAll_news pick new had
  refine ⟨hadPerm, newPerm, ?_, ?_⟩
  · intro pair member
    have row := hadPerm.mem_iff.mpr (List.mem_append_left _ (List.mem_map_of_mem member))
    have f := newPerm.mem_iff.mpr (List.mem_append_left _ (List.mem_map_of_mem member))
    exact eq_of_key (covered_measure (inHad _ row) (inNew _ f)) (key _ _ (pairs pair member))
  · intro m chain
    apply List.filterMap_eq_nil_iff.mpr
    intro pair member
    simp [still m chain _ _ (pairs pair member)]

section Diff
variable [DecidableEq V]

theorem matchChain_matched (inHad : ∀ row ∈ had, (Part.measure m).covers row.toNewFact = true)
    (inNew : ∀ f ∈ new, (Part.measure m).covers f = true) : Matched (.measure m) had new (Store.matchChain new had) := by
  have takes : Takes (fun (f : NewFact V) => takeLast fun row => rowKey row true = newKey f true)
      (fun row f => rowKey row true = newKey f true) := by
    intro f held row rest taken
    obtain ⟨perm, same⟩ := takeLast_perm taken
    exact ⟨perm, by simpa using same⟩
  exact matched_of_takes takes (fun row f same => (line_of_key same).2) (fun _ _ row f same => (line_of_key same).1) inHad inNew

theorem matchPath_takes : Takes (fun (f : NewFact V) held =>
    (takeFirst (fun row : FactRow V => decide (rowKey row false = newKey f false) && row.line == f.line) held).or
      (takeFirst (fun row => rowKey row false = newKey f false) held))
    (fun row f => rowKey row false = newKey f false) := by
  intro f held row rest taken
  rcases Option.or_eq_some_iff.mp taken with atLine | ⟨_, anywhere⟩
  · obtain ⟨perm, same⟩ := takeFirst_perm atLine
    simp only [Bool.and_eq_true, decide_eq_true_eq] at same
    exact ⟨perm, same.1⟩
  · obtain ⟨perm, same⟩ := takeFirst_perm anywhere
    exact ⟨perm, by simpa using same⟩

variable {path : String}

theorem matchPath_matched (inHad : ∀ row ∈ had, (Part.file m path).covers row.toNewFact = true)
    (inNew : ∀ f ∈ new, (Part.file m path).covers f = true) : Matched (.file m path) had new (Store.matchPath new had) :=
  matched_of_takes matchPath_takes (fun row f same => same) (fun m chain => by cases chain) inHad inNew

theorem chainRestatement_restates (unique : (s.captures.map (·.id)).Nodup)
    (done : ∀ part id link, s.link part id = some link → ∃ c ∈ s.captures, c.id = id ∧ c.status = .done)
    (covered : ∀ f ∈ new, (Part.measure m).covers f = true) :
    Restates s K (.measure m) (s.previousDone K.id K.toNewMetricCapture) new
      (s.chainRestatement K.id (s.previousDone K.id K.toNewMetricCapture) m new) := by
  unfold Store.chainRestatement
  cases previous : s.previousDone K.id K.toNewMetricCapture with
  | none =>
    simp only [Option.bind_none]
    split
    next none =>
      rw [List.isEmpty_iff.mp none]
      exact .first rfl (.inr ⟨rfl, rfl⟩)
    next => exact .first rfl (.inl rfl)
  | some b =>
    simp only [Option.bind_some]
    cases linked : s.link (.measure m) b with
    | none =>
      simp only
      split
      next none =>
        rw [List.isEmpty_iff.mp none]
        exact .first (by simp [linked]) (.inr ⟨rfl, rfl⟩)
      next => exact .first (by simp [linked]) (.inl rfl)
    | some link =>
      obtain ⟨c, rfl, base⟩ := base_of_previousDone unique done previous linked
      have ids := held_ids unique base.member (.measure m)
      simp only [Store.chainHeld, Option.getD_some, Restatement.whole, ids]
      split
      · split
        next none =>
          rw [List.isEmpty_iff.mp none]
          exact .whole rfl base (Nat.le_refl _) base.older (.inr ⟨rfl, rfl⟩)
        next => exact .whole rfl base (Nat.le_refl _) base.older (.inl rfl)
      · have matched := matchChain_matched (fun row (member : row ∈ s.partHeld c.id _) => partHeld_measure member) covered
        rw [← matched.still m rfl]
        exact .extended rfl base (Nat.le_refl _) base.older matched

theorem pathRestatement_first {k : Nat} {capture : NewMetricCapture} (previous : s.previousHold k capture (.file m path) = none)
    (new : List (NewFact V)) : s.pathRestatement k capture m path new = .whole [] (k - 1) k new := by
  simp only [Store.pathRestatement, previous, Option.bind_none]

theorem pathRestatement_on {k : Nat} {capture : NewMetricCapture} (previous : s.previousHold k capture (.file m path) = some b)
    (linked : s.link (.file m path) b = some link) (new : List (NewFact V)) :
    let found := Store.matchPath new (s.pathHeld b m path)
    s.pathRestatement k capture m path new =
      if restatesWhole found (s.pathHeld b m path) new link.depth then .whole (s.pathHeld b m path) (k - 1) k new
      else ⟨found.rest.map (·.id), k - 1, movesOf found.pairs, found.added, some ⟨link.fromCaptureId, link.depth + 1⟩⟩ := by
  simp only [Store.pathRestatement, previous, Option.bind_some, linked]
  rfl

theorem pathRestatement_restates (unique : (s.captures.map (·.id)).Nodup)
    (covered : ∀ f ∈ new, (Part.file m path).covers f = true) :
    Restates s K (.file m path) (s.previousHold K.id K.toNewMetricCapture (.file m path)) new
      (s.pathRestatement K.id K.toNewMetricCapture m path new) := by
  cases previous : s.previousHold K.id K.toNewMetricCapture (.file m path) with
  | none =>
    rw [pathRestatement_first previous]
    exact .first rfl (.inl rfl)
  | some b =>
    obtain ⟨c, link, rfl, base⟩ := base_of_previousHold previous
    have ids := held_ids unique base.member (.file m path)
    have older := base.older
    have before : K.id - 1 < K.id := by omega
    have after : c.id ≤ K.id - 1 := by omega
    simp only [pathRestatement_on previous base.linked, Store.pathHeld, Restatement.whole, ids]
    split
    · exact .whole rfl base after before (.inl rfl)
    · have matched := matchPath_matched (fun row (member : row ∈ s.partHeld c.id _) => partHeld_measure member) covered
      exact .extended rfl base after before matched

end Diff
end Oxplow.Proofs.Restatement

/-! The bulk read of one capture: for a complete-scope measure it is the capture's
chain, and for a file that the capture holds, the hold. -/

namespace Oxplow.Proofs.HeldFacts
open Library Metrics FactChain Restatement

variable {V : Type} {scope : Nat → Option CaptureScope}

/-- A row as a bulk read gives it. -/
def slim (f : NewFact V) : NewFact V := { f with detail := none }

theorem wanted_one {s : Store V} (unique : (s.captures.map (·.id)).Nodup) {c : Capture} (member : c ∈ s.captures) :
    s.captures.filter (Holders.ids [c.id]).wants = [c] := by
  have same : s.captures.filter (Holders.ids [c.id]).wants = s.captures.filter fun d => decide (d = c) := by
    apply List.filter_congr
    intro d inside
    rw [Bool.eq_iff_iff]
    simp only [Holders.wants, List.contains_eq_mem, List.mem_singleton, decide_eq_true_eq]
    exact ⟨fun sameId => List.inj_on_of_nodup_map unique inside member sameId, congrArg Capture.id⟩
  have distinct : s.captures.Nodup := List.Nodup.of_map _ unique
  rw [same, List.filter_eq, List.count_eq_one_of_mem distinct member]
  rfl

section
variable {s : Store V} (valid : Valid scope s) {c : Capture} (member : c ∈ s.captures) {m : Nat}
include valid member

theorem ownRows_nil (held : ∀ f ∈ s.facts, f.measureId = m → f.captureId = c.id →
    (s.link (.measure m) c.id).isSome = true ∨ s.pathHolding c f = true) : s.ownRows m (.ids [c.id]) = [] := by
  apply List.filterMap_eq_nil_iff.mpr
  intro f inside
  cases found : s.capture? f.captureId with
  | none => rfl
  | some d =>
    obtain ⟨captured, sameId⟩ := capture?_eq_some found
    simp only [Option.bind_eq_bind, Option.bind_some, ite_eq_right_iff, Bool.and_eq_true, beq_iff_eq, Holders.wants,
      List.contains_eq_mem, List.mem_singleton, decide_eq_true_eq, Option.isNone_iff_eq_none, Bool.not_eq_true', reduceCtorEq]
    rintro ⟨⟨⟨measure, wanted⟩, unlinked⟩, unheld⟩
    have same : d = c := List.inj_on_of_nodup_map valid.captureIds captured member wanted
    subst same
    rcases held f inside measure sameId.symm with linked | holding
    · simp [unlinked] at linked
    · simp [unheld] at holding

theorem chainedRows_one : s.chainedRows m (.ids [c.id]) = (s.held c (.measure m)).map fun f => Store.slimRow f f.line c := by
  unfold Store.chainedRows
  rw [wanted_one valid.captureIds member, List.flatMap_singleton]

theorem pathedRows_one : s.pathedRows m (.ids [c.id]) =
    (s.facts.filter (s.heldByPath m c)).map fun f => Store.slimRow f (s.lineAtHold c.id f) c := by
  unfold Store.pathedRows
  rw [wanted_one valid.captureIds member, List.flatMap_singleton]

/-- A measure's facts as one capture's chain holds them. -/
theorem heldFacts_measure (complete : scope m = some .complete) (linked : ∀ f ∈ s.facts, f.measureId = m → f.captureId = c.id →
    (s.link (.measure m) c.id).isSome = true) : ((s.heldFacts m (.ids [c.id])).map (·.toNewFact)).Perm
      ((s.chainHeld c.id m).map fun row => slim row.toNewFact) := by
  have own : s.ownRows m (.ids [c.id]) = [] :=
    ownRows_nil valid member fun f inside measure captured => .inl (linked f inside measure captured)
  have pathed : s.pathedRows m (.ids [c.id]) = [] := by
    have unheld : s.facts.filter (s.heldByPath m c) = [] := by
      apply List.filter_eq_nil_iff.mpr
      intro f _ holding
      unfold Store.heldByPath at holding
      split at holding
      next path _ =>
        cases linked : s.link (.file m path) c.id with
        | none => simp [linked] at holding
        | some link =>
          have perPath : scope m = some .perPath := valid.linkScoped _ _ _ linked
          rw [complete] at perPath
          cases perPath
      next => cases holding
    rw [pathedRows_one valid member, unheld, List.map_nil]
  unfold Store.heldFacts
  rw [own, pathed, List.nil_append, List.append_nil, chainedRows_one valid member]
  refine ((List.perm_insertionSort _ _).map _).trans (.of_eq ?_)
  unfold Store.chainHeld
  rw [partHeld_eq valid.captureIds member, List.map_map, List.map_map]
  rfl

end
end Oxplow.Proofs.HeldFacts
