import Oxplow.Library.Ordered
import Oxplow.Metrics.Visibility

/-! Visibility between recorded captures does not change. A stamp created after a capture is
chosen for it only where none was before, or where the one before is also later than
every reader recorded so far; either way the capture is seen. -/

namespace Oxplow.Proofs.VisibilityRuns
open Library Metrics Metrics.Visibility

/-- The captures and stamps a database has. A capture names a snapshot that was there
when it was made. -/
structure History where
  captures : List Capture
  stamps : List StampedSnapshot
  distinct : (captures.map (·.id)).Nodup
  rows : (stamps.map (·.id)).Nodup
  taken : ∀ c ∈ captures, ∀ s ∈ stamps, c.snapshotId = some s.id → s.createdAt ≤ c.capturedAt

def History.visibility (h : History) (oracle : AncestryOracle) : Visibility :=
  resolve h.captures (commitStampedSnapshots h.stamps) oracle

/-- Captures are appended, and stamps created after every capture recorded before. -/
structure Later (h h' : History) : Prop where
  captures : ∃ appended, h'.captures = h.captures ++ appended
  stamps : ∃ created, h'.stamps = h.stamps ++ created ∧ ∀ s ∈ created, ∀ c ∈ h.captures, c.capturedAt < s.createdAt

/-- The oracle answers a pair the same whatever else it is asked. -/
def Fixed (oracle : AncestryOracle) (answer : String → String → Option Bool) : Prop :=
  ∀ commits, ∀ a ∈ commits, ∀ d ∈ commits, (oracle.ancestry commits).isAncestorOrEqual a d = answer a d

/-! ## The maps of one pass -/

section
variable {ρ : Type} {answer : Capture → Option ρ}

section
variable {fill : Table Nat ρ → Capture → Table Nat ρ} (fills : ∀ table c, fill table c = (answer c).elim table fun row => table.insert c.id row)
include fills

theorem get_fill (table : Table Nat ρ) (c : Capture) {key : Nat} (differ : key ≠ c.id) : (fill table c).get key = table.get key := by
  rw [fills]
  cases answer c with
  | none => rfl
  | some row => exact (Table.get_insert table c.id key row).trans (if_neg differ)

theorem get_fills_absent {key : Nat} {captures : List Capture} (table : Table Nat ρ) (absent : key ∉ captures.map (·.id)) :
    (captures.foldl fill table).get key = table.get key := by
  induction captures generalizing table with
  | nil => rfl
  | cons other captures ih =>
    rw [List.map_cons, List.mem_cons, not_or] at absent
    rw [List.foldl_cons, ih _ absent.2]
    exact get_fill fills table other absent.1

theorem get_fills {c : Capture} {captures : List Capture} (table : Table Nat ρ) (distinct : (captures.map (·.id)).Nodup)
    (member : c ∈ captures) (free : table.get c.id = none) : (captures.foldl fill table).get c.id = answer c := by
  induction captures generalizing table with
  | nil => exact absurd member List.not_mem_nil
  | cons other captures ih =>
    obtain ⟨fresh, distinct⟩ := List.nodup_cons.mp distinct
    rw [List.foldl_cons]
    rcases List.mem_cons.mp member with rfl | member
    · rw [get_fills_absent fills _ fresh, fills]
      cases answer c with
      | none => exact free
      | some row => exact (Table.get_insert table c.id c.id row).trans (if_pos rfl)
    · have differ : c.id ≠ other.id := fun same => fresh (List.mem_map.mpr ⟨c, member, same⟩)
      exact ih _ distinct member ((get_fill fills table other differ).trans free)

end

theorem get_collect {captures : List Capture} (distinct : (captures.map (·.id)).Nodup) {c : Capture} (member : c ∈ captures) :
    (collect answer captures).get c.id = answer c := by
  unfold collect
  apply get_fills _ [] distinct member rfl
  intro table c
  cases answer c with
  | none => rfl
  | some row => rfl

theorem mem_values {table : Table Nat ρ} {key : Nat} {row : ρ} (found : table.get key = some row) : row ∈ values table := by
  apply List.mem_filterMap.mpr
  refine ⟨key, ?_, found⟩
  rw [List.mem_dedup, Table.mem_keys_iff, Table.containsKey, found]
  rfl

end

/-! ## What a reader sees -/

/-- The rule of `sees` on what was resolved of two captures. -/
def rule (answer : String → String → Option Bool) (c r : Capture) (effective : Option (String × Int)) : Bool :=
  if c.branch = r.branch then true
  else
    match effective, r.closestVcsRev with
    | some (ec, absorbedAt), some br =>
      if r.capturedAt < absorbedAt then true
      else if ec = br then true
      else (answer ec br).getD true
    | _, _ => true

variable {c : Capture}

theorem sees_resolve {oracle : AncestryOracle} {answer : String → String → Option Bool} (fixed : Fixed oracle answer)
    {captures : List Capture} (distinct : (captures.map (·.id)).Nodup) (stamped : List StampedSnapshot) {r : Capture}
    (recorded : c ∈ captures) (recorded' : r ∈ captures) :
    (resolve captures stamped oracle).sees c r = rule answer c r (effectiveOf stamped oracle c) := by
  have effective : (resolve captures stamped oracle).effective c.id = effectiveOf stamped oracle c := get_collect distinct recorded
  have base : (resolve captures stamped oracle).base r.id = r.closestVcsRev := get_collect distinct recorded'
  unfold sees rule
  rw [effective, base]
  cases anchor : effectiveOf stamped oracle c with
  | none => rfl
  | some absorbed =>
    cases closest : r.closestVcsRev with
    | none => rfl
    | some br =>
      rw [anchor] at effective
      rw [closest] at base
      have answered : (resolve captures stamped oracle).ancestry absorbed.1 br = answer absorbed.1 br := by
        apply fixed
        · apply List.mem_dedup.mpr
          apply (List.mem_insertionSort _).mpr
          exact List.mem_append_left _ (List.mem_map_of_mem (mem_values effective))
        · apply List.mem_dedup.mpr
          apply (List.mem_insertionSort _).mpr
          exact List.mem_append_right _ (mem_values base)
      simp only [answered]

/-! ## The stamp chosen for a capture -/

section
variable {α : Type} {r : α → α → Prop} {p : α → Bool}

/-- The first match of a list in order is before every other. -/
theorem find?_first (refl : ∀ a, r a a) {items : List α} (ordered : items.Pairwise r) {a b : α} (found : items.find? p = some a)
    (member : b ∈ items) (matching : p b = true) : r a b := by
  obtain ⟨_, before, after, rfl, none⟩ := List.find?_eq_some_iff_append.mp found
  rcases List.mem_append.mp member with early | late
  · have missed := none b early
    rw [matching] at missed
    cases missed
  · rcases List.mem_cons.mp late with rfl | late
    · exact refl b
    · exact List.rel_of_pairwise_cons (List.pairwise_append.mp ordered).2.1 late

end

instance : IsTrans StampedSnapshot stampBefore where
  trans a b c first next := by
    unfold stampBefore at *
    omega

instance : Std.Total stampBefore where
  total a b := by
    unfold stampBefore
    omega

theorem ordered_stamps (rows : List StampedSnapshot) : (commitStampedSnapshots rows).Pairwise stampBefore :=
  List.pairwise_insertionSort stampBefore rows

theorem mem_stamps {rows : List StampedSnapshot} {s : StampedSnapshot} : s ∈ commitStampedSnapshots rows ↔ s ∈ rows :=
  List.mem_insertionSort stampBefore

/-- Created, or absorbed, after every capture of a history. -/
def After (h : History) (time : Int) : Prop := ∀ r ∈ h.captures, r.capturedAt < time

section
variable {h h' : History} (later : Later h h') {c : Capture} (recorded : c ∈ h.captures)
include later recorded

/-- A capture's own snapshot is not created later. -/
theorem own_kept (sid : Nat) (named : c.snapshotId = some sid) :
    (commitStampedSnapshots h'.stamps).find? (fun s => s.id == sid && s.streamId == c.streamId) =
      (commitStampedSnapshots h.stamps).find? fun s => s.id == sid && s.streamId == c.streamId := by
  obtain ⟨appended, captures⟩ := later.captures
  obtain ⟨created, stamps, after⟩ := later.stamps
  have none : created.filter (fun s => s.id == sid && s.streamId == c.streamId) = [] := by
    apply List.filter_eq_nil_iff.mpr
    intro s member own
    have same : s.id = sid := beq_iff_eq.mp (Bool.and_eq_true_iff.mp own).1
    have early : s.createdAt ≤ c.capturedAt := by
      apply h'.taken c
      · rw [captures]
        exact List.mem_append_left _ recorded
      · rw [stamps]
        exact List.mem_append_right _ member
      · rw [named, same]
    have late := after s member c recorded
    omega
  rw [← List.head?_filter, ← List.head?_filter, commitStampedSnapshots, filter_insertionSort, stamps, List.filter_append, none,
    List.append_nil, ← filter_insertionSort]
  rfl

omit recorded in
/-- Another stamp is chosen only where both are after every capture recorded so far. -/
theorem next_kept (matching : StampedSnapshot → Bool) :
    (commitStampedSnapshots h'.stamps).find? matching = (commitStampedSnapshots h.stamps).find? matching ∨
      (∀ s, (commitStampedSnapshots h'.stamps).find? matching = some s → After h s.createdAt) ∧
        ∀ s, (commitStampedSnapshots h.stamps).find? matching = some s → After h s.createdAt := by
  obtain ⟨created, stamps, after⟩ := later.stamps
  have refl : ∀ s, stampBefore s s := fun s => .inr ⟨rfl, Nat.le_refl _⟩
  have grown : ∀ s ∈ commitStampedSnapshots h.stamps, s ∈ commitStampedSnapshots h'.stamps := by
    intro s member
    rw [mem_stamps, stamps]
    exact List.mem_append_left _ (mem_stamps.mp member)
  cases found' : (commitStampedSnapshots h'.stamps).find? matching with
  | none =>
    refine .inl (List.find?_eq_none.mpr ?_).symm
    exact fun s member => List.find?_eq_none.mp found' s (grown s member)
  | some s' =>
    have matches' := List.find?_some found'
    have member' := mem_stamps.mp (List.mem_of_find?_eq_some found')
    rw [stamps] at member'
    rcases List.mem_append.mp member' with old | new
    · left
      cases found : (commitStampedSnapshots h.stamps).find? matching with
      | none => exact absurd matches' (List.find?_eq_none.mp found s' (mem_stamps.mpr old))
      | some s =>
        have member := List.mem_of_find?_eq_some found
        have first := find?_first refl (ordered_stamps _) found (mem_stamps.mpr old) matches'
        have first' := find?_first refl (ordered_stamps _) found' (grown s member) (List.find?_some found)
        have same : s'.id = s.id := by
          unfold stampBefore at first first'
          omega
        exact congrArg some (List.inj_on_of_nodup_map h.rows old (mem_stamps.mp member) same)
    · right
      refine ⟨?_, ?_⟩
      · rintro s ⟨⟩
        exact after s' new
      · intro s found r reader
        have first := find?_first refl (ordered_stamps _) found' (grown s (List.mem_of_find?_eq_some found)) (List.find?_some found)
        have late := after s' new r reader
        unfold stampBefore at first
        omega

end

theorem rule_after {answer : String → String → Option Bool} {r : Capture} {effective : Option (String × Int)}
    (late : ∀ absorbed, effective = some absorbed → r.capturedAt < absorbed.2) : rule answer c r effective = true := by
  unfold rule
  split
  · rfl
  · split
    · rw [if_pos (late _ rfl)]
    · rfl

/-- The anchor of a recorded capture stays, or both are after every capture recorded so far. -/
theorem effective_kept {h h' : History} (later : Later h h') (oracle : AncestryOracle) (recorded : c ∈ h.captures) :
    effectiveOf (commitStampedSnapshots h'.stamps) oracle c = effectiveOf (commitStampedSnapshots h.stamps) oracle c ∨
      (∀ absorbed, effectiveOf (commitStampedSnapshots h'.stamps) oracle c = some absorbed → After h absorbed.2) ∧
        ∀ absorbed, effectiveOf (commitStampedSnapshots h.stamps) oracle c = some absorbed → After h absorbed.2 := by
  unfold effectiveOf
  cases c.vcsRevExact with
  | true => exact .inl rfl
  | false =>
    have chosen : absorbing (commitStampedSnapshots h'.stamps) c = absorbing (commitStampedSnapshots h.stamps) c ∨
        (∀ s, absorbing (commitStampedSnapshots h'.stamps) c = some s → After h s.createdAt) ∧
          ∀ s, absorbing (commitStampedSnapshots h.stamps) c = some s → After h s.createdAt := by
      have own : (c.snapshotId.bind fun sid => (commitStampedSnapshots h'.stamps).find? fun s => s.id == sid && s.streamId == c.streamId) =
          c.snapshotId.bind fun sid => (commitStampedSnapshots h.stamps).find? fun s => s.id == sid && s.streamId == c.streamId := by
        cases named : c.snapshotId with
        | none => rfl
        | some sid => exact own_kept later recorded sid named
      unfold absorbing
      rw [own]
      cases c.snapshotId.bind fun sid => (commitStampedSnapshots h.stamps).find? fun s => s.id == sid && s.streamId == c.streamId with
      | some s => exact .inl rfl
      | none =>
        cases c.branch with
        | none => exact .inl rfl
        | some _ => exact next_kept later _
    have absorbed_after : ∀ {found : Option StampedSnapshot}, (∀ s, found = some s → After h s.createdAt) → ∀ absorbed,
        (found.bind fun s => (oracle.commitTime s.commit).map fun time => (s.commit, max time s.createdAt)) = some absorbed →
          After h absorbed.2 := by
      intro found after absorbed anchor r reader
      obtain ⟨s, chosen, timed⟩ := Option.bind_eq_some_iff.mp anchor
      obtain ⟨time, _, rfl⟩ := Option.map_eq_some_iff.mp timed
      have late := after s chosen r reader
      omega
    rcases chosen with same | ⟨after', after⟩
    · rw [same]
      exact .inl rfl
    · exact .inr ⟨absorbed_after after', absorbed_after after⟩

/-- Whatever is recorded and stamped later, of two captures the one sees the other or not
as it did. -/
theorem sees_stable {oracle : AncestryOracle} {answer : String → String → Option Bool} (fixed : Fixed oracle answer) {h h' : History}
    (later : Later h h') {c r : Capture} (recorded : c ∈ h.captures) (recorded' : r ∈ h.captures) :
    (h'.visibility oracle).sees c r = (h.visibility oracle).sees c r := by
  have grown : ∀ c ∈ h.captures, c ∈ h'.captures := by
    obtain ⟨appended, captures⟩ := later.captures
    intro c member
    rw [captures]
    exact List.mem_append_left _ member
  have before := sees_resolve fixed h.distinct (commitStampedSnapshots h.stamps) recorded recorded'
  have now := sees_resolve fixed h'.distinct (commitStampedSnapshots h'.stamps) (grown c recorded) (grown r recorded')
  rw [History.visibility, History.visibility, before, now]
  rcases effective_kept later oracle recorded with same | ⟨after', after⟩
  · rw [same]
  · rw [rule_after (fun absorbed anchor => after' absorbed anchor r recorded'),
      rule_after (fun absorbed anchor => after absorbed anchor r recorded')]

/-- A test run on a stream's branch, with uncommitted work. -/
private def run (id : Nat) (branch : String) (capturedAt : Int) (base : String) : Capture :=
  { streamId := 1, threadId := none, effortId := none, producer := "tests", status := .done, basisRef := none, provenance := "agent",
    source := "builtin", snapshotId := none, closestVcsRev := some base, vcsRevExact := false, branch := some branch,
    capturedAt := capturedAt, idempotencyKey := none, scanKind := .delta, excluded := [], id := id }

/-- `FA`, made at 30, comes after `A`. -/
private def graph : AncestryOracle where
  ancestry _ := ⟨[("A", 0), ("FA", 1)], [[1], [3]]⟩
  commitTime commit := if commit = "A" then some 10 else if commit = "FA" then some 30 else none

private def forked : History where
  captures := [run 1 "feat-a" 20 "A", run 2 "feat-b" 55 "A"]
  stamps := [⟨110, 1, some "main", "A", 10⟩, ⟨130, 1, some "feat-a", "FA", 30⟩]
  distinct := by decide
  rows := by decide
  taken := by decide

private def resumed : History where
  captures := [run 1 "feat-a" 20 "A", run 2 "feat-b" 55 "A", run 3 "feat-a" 70 "FA"]
  stamps := [⟨110, 1, some "main", "A", 10⟩, ⟨130, 1, some "feat-a", "FA", 30⟩, ⟨160, 1, some "feat-a", "A", 60⟩]
  distinct := by decide
  rows := by decide
  taken := by decide

/-- Work on one branch stays unseen on its sibling after another stamp and capture. -/
theorem sees_stable_sibling :
    (resumed.visibility graph).sees (run 1 "feat-a" 20 "A") (run 2 "feat-b" 55 "A") =
      (forked.visibility graph).sees (run 1 "feat-a" 20 "A") (run 2 "feat-b" 55 "A") :=
  @sees_stable graph (fun a d => (graph.ancestry []).isAncestorOrEqual a d) (fun _ _ _ _ _ => rfl) forked resumed
    ⟨⟨[run 3 "feat-a" 70 "FA"], rfl⟩, [⟨160, 1, some "feat-a", "A", 60⟩], rfl, by decide⟩ _ _ (List.mem_cons_self ..)
    (List.mem_cons_of_mem _ (List.mem_cons_self ..))

end Oxplow.Proofs.VisibilityRuns
