import Mathlib.Algebra.Ring.Nat
import Oxplow.Editor.Diff
import Oxplow.Library.Alignments

/-! The marks of a changed file: they come from an alignment of the two texts that keeps a
longest common subsequence of their lines. -/

namespace Oxplow.Proofs.LineDiffs
open Library Editor

variable {α : Type}

/-! ## The table -/

section Table
variable [DecidableEq α]

theorem fillRow_length (line : α) (lines : List α) (above : List Nat) (left : Nat) (sized : above.length = lines.length + 1) :
    (fillRow line lines above left).length = lines.length := by
  induction lines generalizing above left with
  | nil => cases above <;> rfl
  | cons other lines ih =>
    obtain ⟨diagonal, up, above, rfl⟩ : ∃ diagonal up rest, above = diagonal :: up :: rest := by
      match above with
      | diagonal :: up :: rest => exact ⟨diagonal, up, rest, rfl⟩
      | [_] => simp at sized
    simp only [fillRow, List.length_cons]
    rw [ih (up :: above) _ (by simpa using sized)]

variable {j : Nat}

theorem fillRow_entry (line : α) (lines : List α) (above : List Nat) (left : Nat) (sized : above.length = lines.length + 1)
    (inside : j < lines.length) :
    (left :: fillRow line lines above left).getD (j + 1) 0 =
      if line = lines[j] then above.getD j 0 + 1
      else max (above.getD (j + 1) 0) ((left :: fillRow line lines above left).getD j 0) := by
  induction lines generalizing above left j with
  | nil => exact absurd inside (Nat.not_lt_zero j)
  | cons other lines ih =>
    obtain ⟨diagonal, up, above, rfl⟩ : ∃ diagonal up rest, above = diagonal :: up :: rest := by
      match above with
      | diagonal :: up :: rest => exact ⟨diagonal, up, rest, rfl⟩
      | [_] => simp at sized
    simp only [fillRow]
    cases j with
    | zero => simp
    | succ j =>
      have later := ih (up :: above) (if line = other then diagonal + 1 else max up left) (by simpa using sized)
        (by simpa using inside)
      simpa using later

variable {i : Nat}

theorem fillRows_sized (newLines oldLines : List α) (row : List Nat) (sized : row.length = newLines.length + 1)
    (inside : i ≤ oldLines.length) : ((fillRows newLines oldLines row).getD i []).length = newLines.length + 1 := by
  induction oldLines generalizing row i with
  | nil =>
    obtain rfl : i = 0 := by simpa using inside
    simpa [fillRows] using sized
  | cons line lines ih =>
    cases i with
    | zero => simpa [fillRows] using sized
    | succ i =>
      have next : (nextRow newLines row line).length = newLines.length + 1 := by
        rw [nextRow, List.length_cons, fillRow_length line newLines row 0 sized]
      simpa [fillRows] using ih _ next (by simpa using inside)

theorem fillRows_next (newLines oldLines : List α) (row : List Nat) (inside : i < oldLines.length) :
    (fillRows newLines oldLines row).getD (i + 1) [] =
      nextRow newLines ((fillRows newLines oldLines row).getD i []) oldLines[i] := by
  induction oldLines generalizing row i with
  | nil => exact absurd inside (Nat.not_lt_zero i)
  | cons line lines ih =>
    cases i with
    | zero => cases lines <;> simp [fillRows]
    | succ i => simpa [fillRows] using ih (nextRow newLines row line) (by simpa using inside)

variable (oldLines newLines : List α)

theorem entry_top (j : Nat) : entry (fillTable oldLines newLines) 0 j = 0 := by
  unfold entry fillTable
  cases oldLines <;> simp [fillRows, List.getD_eq_getElem?_getD, List.getElem?_replicate] <;> split <;> rfl

theorem entry_left (inside : i ≤ oldLines.length) : entry (fillTable oldLines newLines) i 0 = 0 := by
  cases i with
  | zero => exact entry_top oldLines newLines 0
  | succ i =>
    unfold entry fillTable
    rw [fillRows_next newLines oldLines _ (by omega)]
    rfl

theorem entry_next (insideOld : i < oldLines.length) (insideNew : j < newLines.length) :
    entry (fillTable oldLines newLines) (i + 1) (j + 1) =
      if oldLines[i] = newLines[j] then entry (fillTable oldLines newLines) i j + 1
      else max (entry (fillTable oldLines newLines) i (j + 1)) (entry (fillTable oldLines newLines) (i + 1) j) := by
  have sized := fillRows_sized newLines oldLines (List.replicate (newLines.length + 1) 0) (by simp) (Nat.le_of_lt insideOld)
  unfold entry fillTable
  rw [fillRows_next newLines oldLines _ insideOld]
  exact fillRow_entry oldLines[i] newLines _ 0 sized insideNew

/-- An entry bounds what the two beginnings have in common. -/
theorem entry_bounds (insideOld : i ≤ oldLines.length) (insideNew : j ≤ newLines.length) :
    CommonAtMost (entry (fillTable oldLines newLines) i j) (oldLines.take i) (newLines.take j) := by
  induction i generalizing j with
  | zero =>
    rw [List.take_zero]
    exact commonAtMost_nil_left _ _
  | succ i above =>
    induction j with
    | zero =>
      rw [List.take_zero]
      exact commonAtMost_nil_right _ _
    | succ j left =>
      rw [entry_next oldLines newLines insideOld insideNew, List.take_succ_eq_append_getElem insideOld,
        List.take_succ_eq_append_getElem insideNew]
      split
      next same =>
        rw [same]
        exact (above (Nat.le_of_lt insideOld) (Nat.le_of_lt insideNew)).keep _
      next differ =>
        apply CommonAtMost.either differ
        · rw [← List.take_succ_eq_append_getElem insideNew]
          exact above (Nat.le_of_lt insideOld) insideNew
        · rw [← List.take_succ_eq_append_getElem insideOld]
          exact left (Nat.le_of_lt insideNew)

end Table

/-! ## The way back -/

/-- The marks of the first lines are not made yet. -/
def Unmarked (marks : List Bool) (i : Nat) : Prop := ∀ k < i, marks[k]? = some false

variable {i : Nat} {marks : List Bool}

theorem Unmarked.fewer (unmarked : Unmarked marks (i + 1)) : Unmarked marks i :=
  fun k inside => unmarked k (Nat.lt_succ_of_lt inside)

theorem Unmarked.set (unmarked : Unmarked marks (i + 1)) : Unmarked (marks.set i true) i := by
  intro k inside
  rw [List.getElem?_set_ne (Nat.ne_of_gt inside)]
  exact unmarked.fewer k inside

theorem Unmarked.drop (unmarked : Unmarked marks (i + 1)) : marks.drop i = false :: marks.drop (i + 1) := by
  obtain ⟨inside, same⟩ := List.getElem?_eq_some_iff.mp (unmarked i (Nat.lt_succ_self i))
  rw [List.drop_eq_getElem_cons inside, same]

theorem Unmarked.drop_set (unmarked : Unmarked marks (i + 1)) : (marks.set i true).drop i = true :: marks.drop (i + 1) := by
  obtain ⟨inside, -⟩ := List.getElem?_eq_some_iff.mp (unmarked i (Nat.lt_succ_self i))
  rw [List.drop_eq_getElem_cons (by simpa using inside), List.getElem_set_self, List.drop_set_of_lt (Nat.lt_succ_self i)]

section Back
variable [DecidableEq α] {oldLines newLines : List α} {i j : Nat} {deleted added : List Bool}
  {marked : Option (List Bool × List Bool)}

/-- What the loops mark is an alignment of the lines they go back over, with as many kept lines as
the table says. -/
def Aligned (oldLines newLines : List α) (i j : Nat) (deleted added : List Bool) (marked : Option (List Bool × List Bool)) : Prop :=
  ∃ a : Alignment α, marked = some (a.deletions ++ deleted.drop i, a.additions ++ added.drop j) ∧
    a.old = oldLines.take i ∧ a.new = newLines.take j ∧ a.kept.length = entry (fillTable oldLines newLines) i j

theorem Aligned.delete (insideOld : i < oldLines.length) (unmarked : Unmarked deleted (i + 1))
    (same : entry (fillTable oldLines newLines) (i + 1) j = entry (fillTable oldLines newLines) i j)
    (aligned : Aligned oldLines newLines i j (deleted.set i true) added marked) :
    Aligned oldLines newLines (i + 1) j deleted added marked := by
  obtain ⟨a, rfl, old, new, kept⟩ := aligned
  refine ⟨a.delete oldLines[i], ?_, ?_, new, kept.trans same.symm⟩
  · rw [unmarked.drop_set, Alignment.deletions_delete, List.append_assoc]
    rfl
  · rw [Alignment.old_delete, old, List.take_succ_eq_append_getElem insideOld]

theorem Aligned.add (insideNew : j < newLines.length) (unmarked : Unmarked added (j + 1))
    (same : entry (fillTable oldLines newLines) i (j + 1) = entry (fillTable oldLines newLines) i j)
    (aligned : Aligned oldLines newLines i j deleted (added.set j true) marked) :
    Aligned oldLines newLines i (j + 1) deleted added marked := by
  obtain ⟨a, rfl, old, new, kept⟩ := aligned
  refine ⟨a.add newLines[j], ?_, old, ?_, kept.trans same.symm⟩
  · rw [unmarked.drop_set, Alignment.additions_add, List.append_assoc]
    rfl
  · rw [Alignment.new_add, new, List.take_succ_eq_append_getElem insideNew]

theorem Aligned.keep (insideOld : i < oldLines.length) (insideNew : j < newLines.length) (unmarkedOld : Unmarked deleted (i + 1))
    (unmarkedNew : Unmarked added (j + 1)) (same : oldLines[i] = newLines[j])
    (aligned : Aligned oldLines newLines i j deleted added marked) :
    Aligned oldLines newLines (i + 1) (j + 1) deleted added marked := by
  obtain ⟨a, rfl, old, new, kept⟩ := aligned
  refine ⟨a.keep oldLines[i], ?_, ?_, ?_, ?_⟩
  · rw [unmarkedOld.drop, unmarkedNew.drop, Alignment.deletions_keep, Alignment.additions_keep, List.append_assoc,
      List.append_assoc]
    rfl
  · rw [Alignment.old_keep, old, List.take_succ_eq_append_getElem insideOld]
  · rw [Alignment.new_keep, new, List.take_succ_eq_append_getElem insideNew, same]
  · rw [Alignment.kept_keep, List.length_append, kept, entry_next oldLines newLines insideOld insideNew, if_pos same]
    rfl

theorem backtrack_aligned {fuel : Nat} (enough : i + j < fuel) (insideOld : i ≤ oldLines.length) (insideNew : j ≤ newLines.length)
    (unmarkedOld : Unmarked deleted i) (unmarkedNew : Unmarked added j) :
    Aligned oldLines newLines i j deleted added
      (backtrack oldLines newLines (fillTable oldLines newLines) fuel i j deleted added) := by
  induction fuel generalizing i j deleted added with
  | zero => exact absurd enough (Nat.not_lt_zero _)
  | succ fuel ih =>
    cases i with
    | zero =>
      cases j with
      | zero => exact ⟨.empty, rfl, rfl, rfl, (entry_top oldLines newLines 0).symm⟩
      | succ j =>
        apply Aligned.add insideNew unmarkedNew
        · rw [entry_top, entry_top]
        · exact ih (by omega) insideOld (by omega) unmarkedOld unmarkedNew.set
    | succ i =>
      cases j with
      | zero =>
        apply Aligned.delete insideOld unmarkedOld
        · rw [entry_left _ _ insideOld, entry_left _ _ (Nat.le_of_lt insideOld)]
        · exact ih (by omega) (by omega) insideNew unmarkedOld.set unmarkedNew
      | succ j =>
        have next := entry_next oldLines newLines insideOld insideNew
        simp only [backtrack, List.getElem?_eq_getElem insideOld, List.getElem?_eq_getElem insideNew, Option.some.injEq]
        split
        next same =>
          apply Aligned.keep insideOld insideNew unmarkedOld unmarkedNew same
          exact ih (by omega) (by omega) (by omega) unmarkedOld.fewer unmarkedNew.fewer
        next differ =>
          rw [if_neg differ] at next
          split
          next up =>
            apply Aligned.delete insideOld unmarkedOld (next.trans (Nat.max_eq_left up))
            exact ih (by omega) (by omega) insideNew unmarkedOld.set unmarkedNew
          next left =>
            apply Aligned.add insideNew unmarkedNew (next.trans (Nat.max_eq_right (by omega)))
            exact ih (by omega) insideOld (by omega) unmarkedOld unmarkedNew.set

theorem backtrack_more {dp : List (List Nat)} {fuel more : Nat} {marks : List Bool × List Bool}
    (ended : backtrack oldLines newLines dp fuel i j deleted added = some marks) (enough : fuel ≤ more) :
    backtrack oldLines newLines dp more i j deleted added = some marks := by
  induction fuel generalizing more i j deleted added with
  | zero => cases ended
  | succ fuel ih =>
    obtain ⟨more, rfl⟩ := Nat.exists_eq_add_of_le' (Nat.zero_lt_of_lt enough)
    have enough := Nat.le_of_succ_le_succ enough
    cases i with
    | zero =>
      cases j with
      | zero => exact ended
      | succ j =>
        simp only [backtrack] at ended ⊢
        exact ih ended enough
    | succ i =>
      cases j with
      | zero =>
        simp only [backtrack] at ended ⊢
        exact ih ended enough
      | succ j =>
        simp only [backtrack] at ended ⊢
        split
        next same =>
          rw [if_pos same] at ended
          exact ih ended enough
        next differ =>
          rw [if_neg differ] at ended
          split
          next up =>
            rw [if_pos up] at ended
            exact ih ended enough
          next left =>
            rw [if_neg left] at ended
            exact ih ended enough

end Back

/-! ## The walk -/

/-- The marks of a hunk's new lines. -/
def hunkKinds (hunk : Hunk α) : List (Option LineKind) :=
  List.replicate hunk.added.length (some (if hunk.deleted = [] then .added else .modified))

/-- The marks of the new lines of an alignment. -/
def kindsOf (a : Alignment α) : List (Option LineKind) :=
  a.init.flatMap (fun kept => hunkKinds kept.1 ++ [none]) ++ hunkKinds a.last

/-- The entries for a hunk: just before its place, and just before what follows each line it adds. -/
def hunkBoundaries (hunk : Hunk α) : List Bool :=
  decide (hunk.added = [] ∧ hunk.deleted ≠ []) :: List.replicate hunk.added.length false

def boundariesOf (a : Alignment α) : List Bool :=
  a.init.flatMap (fun kept => hunkBoundaries kept.1) ++ hunkBoundaries a.last

theorem run_marks {rest : List Bool} {at_ n : Nat} (here : marks.drop at_ = List.replicate n true ++ rest)
    (ends : rest.head? ≠ some true) : run marks at_ = n := by
  have none_ : rest.takeWhile id = [] := by
    cases rest with
    | nil => rfl
    | cons mark rest =>
      cases mark with
      | true => exact absurd rfl ends
      | false => rfl
  have marked : ∀ mark ∈ List.replicate n true, id mark = true := fun mark member => List.eq_of_mem_replicate member
  unfold run
  rw [here, List.takeWhile_append_of_pos marked, none_, List.append_nil, List.length_replicate]

section Walks
variable {deleted added dels adds : List Bool} {s : Walk} {kinds : List (Option LineKind)} {flags : List Bool}

/-- The walk stands before the marks `dels` and `adds`, and has written what is before them. -/
structure Reached (deleted added : List Bool) (s : Walk) (dels adds : List Bool) (kinds : List (Option LineKind))
    (flags : List Bool) : Prop where
  oldLines : deleted.drop s.oi = dels
  newLines : added.drop s.nj = adds
  written : s.kinds = kinds ++ List.replicate adds.length none
  at_ : kinds.length = s.nj
  boundaries : s.deletedBefore = flags ++ List.replicate adds.length false
  boundary : flags.length = s.nj + 1

variable {fuel : Nat}

theorem Reached.over (reached : Reached deleted added s [] [] kinds flags) (enough : 0 < fuel) :
    walk deleted added fuel s = some s ∧ s.kinds = kinds ∧ s.deletedBefore = flags := by
  obtain ⟨fuel, rfl⟩ := Nat.exists_eq_add_of_lt enough
  have ends : ¬ (s.oi < deleted.length ∨ s.nj < added.length) := by
    have olds := List.drop_eq_nil_iff.mp reached.oldLines
    have news := List.drop_eq_nil_iff.mp reached.newLines
    omega
  refine ⟨?_, by simpa using reached.written, by simpa using reached.boundaries⟩
  simp [walk, ends]

theorem Reached.more (reached : Reached deleted added s dels adds kinds flags) (left : dels ≠ [] ∨ adds ≠ []) (fuel : Nat) :
    walk deleted added (fuel + 1) s = walk deleted added fuel (s.advance deleted added) := by
  have goes : s.oi < deleted.length ∨ s.nj < added.length := by
    rcases left with left | left
    · exact .inl (Nat.lt_of_not_le fun past => left (reached.oldLines ▸ List.drop_eq_nil_iff.mpr past))
    · exact .inr (Nat.lt_of_not_le fun past => left (reached.newLines ▸ List.drop_eq_nil_iff.mpr past))
  simp only [walk, if_pos goes]

theorem fillKinds_append (kinds rest : List (Option LineKind)) (n : Nat) (kind : LineKind) :
    fillKinds (kinds ++ (List.replicate n none ++ rest)) kinds.length (kinds.length + n) kind =
      kinds ++ List.replicate n (some kind) ++ rest := by
  have past : (kinds ++ (List.replicate n none ++ rest)).drop (kinds.length + n) = rest := by
    rw [← List.drop_drop, List.drop_left, List.drop_left' List.length_replicate]
  rw [fillKinds, List.take_left, past, Nat.add_sub_cancel_left]

/-- A pass over a hunk. -/
theorem Reached.hunk (hunk : Hunk α) (change : hunk.deleted ≠ [] ∨ hunk.added ≠ [])
    (reached : Reached deleted added s (List.replicate hunk.deleted.length true ++ dels)
      (List.replicate hunk.added.length true ++ adds) kinds (flags ++ [false]))
    (oldEnds : dels.head? ≠ some true) (newEnds : adds.head? ≠ some true) :
    Reached deleted added (s.advance deleted added) dels adds (kinds ++ hunkKinds hunk) (flags ++ hunkBoundaries hunk) := by
  have olds : run deleted s.oi = hunk.deleted.length := run_marks reached.oldLines oldEnds
  have news : run added s.nj = hunk.added.length := run_marks reached.newLines newEnds
  have pastOld : deleted.drop (s.oi + hunk.deleted.length) = dels := by
    rw [← List.drop_drop, reached.oldLines, List.drop_left' List.length_replicate]
  have pastNew : added.drop (s.nj + hunk.added.length) = adds := by
    rw [← List.drop_drop, reached.newLines, List.drop_left' List.length_replicate]
  have written := reached.written
  have boundaries := reached.boundaries
  have boundary : flags.length = s.nj := by simpa using reached.boundary
  rw [List.length_append, List.length_replicate, List.replicate_add] at written boundaries
  unfold Walk.advance
  rw [olds, news]
  by_cases adds_ : hunk.added = []
  · have deletes : hunk.deleted ≠ [] := change.resolve_right (not_not.mpr adds_)
    have some_ : 0 < hunk.deleted.length := List.length_pos_iff.mpr deletes
    rw [adds_] at pastNew written boundaries
    simp only [adds_, List.length_nil, Nat.lt_irrefl, if_false, if_pos some_]
    refine ⟨pastOld, pastNew, ?_, ?_, ?_, ?_⟩
    · simpa [hunkKinds, adds_] using written
    · simpa [hunkKinds, adds_] using reached.at_
    · rw [boundaries, ← boundary]
      simp [hunkBoundaries, adds_, deletes]
    · simp [hunkBoundaries, adds_, boundary]
  · have some_ : 0 < hunk.added.length := List.length_pos_iff.mpr adds_
    simp only [if_pos some_]
    refine ⟨pastOld, pastNew, ?_, ?_, ?_, ?_⟩
    · rw [written, ← reached.at_, fillKinds_append, hunkKinds]
      by_cases deletes : hunk.deleted = []
      · simp [deletes]
      · simp [deletes, List.length_pos_iff]
    · simp [hunkKinds, reached.at_]
    · simpa [hunkBoundaries, adds_] using boundaries
    · simp [hunkBoundaries, boundary]
      omega

/-- A pass over two lines that are kept. -/
theorem Reached.pair (reached : Reached deleted added s (false :: dels) (false :: adds) kinds flags) :
    Reached deleted added (s.advance deleted added) dels adds (kinds ++ [none]) (flags ++ [false]) := by
  have olds : run deleted s.oi = 0 := @run_marks _ (false :: dels) _ 0 reached.oldLines (by simp)
  have news : run added s.nj = 0 := @run_marks _ (false :: adds) _ 0 reached.newLines (by simp)
  have insideOld : s.oi < deleted.length := Nat.lt_of_not_le fun past => by
    have := reached.oldLines
    rw [List.drop_eq_nil_iff.mpr past] at this
    cases this
  have insideNew : s.nj < added.length := Nat.lt_of_not_le fun past => by
    have := reached.newLines
    rw [List.drop_eq_nil_iff.mpr past] at this
    cases this
  unfold Walk.advance
  simp only [olds, news, Nat.lt_irrefl, if_false, if_pos insideOld, if_pos insideNew]
  refine ⟨?_, ?_, ?_, ?_, ?_, ?_⟩
  · rw [← List.drop_drop, reached.oldLines, List.drop_one, List.tail_cons]
  · rw [← List.drop_drop, reached.newLines, List.drop_one, List.tail_cons]
  · simpa [List.replicate_succ] using reached.written
  · simpa using reached.at_
  · simpa [List.replicate_succ] using reached.boundaries
  · simpa using reached.boundary

theorem marks_cons (part : Hunk α → List α) (hunk : Hunk α) (item : α) (init : List (Hunk α × α)) (last : Hunk α) :
    (⟨(hunk, item) :: init, last⟩ : Alignment α).marks part =
      List.replicate (part hunk).length true ++ false :: (⟨init, last⟩ : Alignment α).marks part := by
  simp [Alignment.marks]

/-- The walk over a hunk, of which there may be nothing. -/
theorem Reached.over_hunk (hunk : Hunk α) (reached : Reached deleted added s (List.replicate hunk.deleted.length true ++ dels)
      (List.replicate hunk.added.length true ++ adds) kinds (flags ++ [false])) (oldEnds : dels.head? ≠ some true)
    (newEnds : adds.head? ≠ some true) (enough : hunk.deleted.length + hunk.added.length + dels.length + adds.length < fuel) :
    ∃ s' fuel', walk deleted added fuel s = walk deleted added fuel' s' ∧ dels.length + adds.length < fuel' ∧
      Reached deleted added s' dels adds (kinds ++ hunkKinds hunk) (flags ++ hunkBoundaries hunk) := by
  by_cases change : hunk.deleted ≠ [] ∨ hunk.added ≠ []
  · obtain ⟨fuel, rfl⟩ := Nat.exists_eq_add_of_lt (Nat.zero_lt_of_lt enough)
    have some_ : 0 < hunk.deleted.length + hunk.added.length := by
      rcases change with some_ | some_
      · exact Nat.add_pos_left (List.length_pos_iff.mpr some_) _
      · exact Nat.add_pos_right _ (List.length_pos_iff.mpr some_)
    refine ⟨s.advance deleted added, fuel, ?_, by omega, reached.hunk hunk change oldEnds newEnds⟩
    rw [Nat.zero_add]
    apply reached.more
    rcases change with some_ | some_
    · exact .inl (by simp [some_])
    · exact .inr (by simp [some_])
  · obtain ⟨deletes, adds_⟩ := not_or.mp change
    have noDeletes := not_not.mp deletes
    have noAdds := not_not.mp adds_
    rw [noDeletes, noAdds] at reached
    refine ⟨s, fuel, rfl, by omega, ?_⟩
    simpa [hunkKinds, hunkBoundaries, noDeletes, noAdds] using reached

/-- The walk over the marks of an alignment writes what the alignment says. -/
theorem walk_alignment (init : List (Hunk α × α)) (last : Hunk α)
    (reached : Reached deleted added s (⟨init, last⟩ : Alignment α).deletions (⟨init, last⟩ : Alignment α).additions kinds
      (flags ++ [false]))
    (enough : (⟨init, last⟩ : Alignment α).deletions.length + (⟨init, last⟩ : Alignment α).additions.length < fuel) :
    ∃ done, walk deleted added fuel s = some done ∧ done.kinds = kinds ++ kindsOf ⟨init, last⟩ ∧
      done.deletedBefore = flags ++ boundariesOf ⟨init, last⟩ := by
  induction init generalizing s kinds flags fuel with
  | nil =>
    have whole : ∀ part : Hunk α → List α,
        (⟨[], last⟩ : Alignment α).marks part = List.replicate (part last).length true ++ [] := by
      intro part
      simp [Alignment.marks]
    unfold Alignment.deletions Alignment.additions at reached enough
    rw [whole, whole] at reached enough
    obtain ⟨s', fuel', passed, left, after⟩ := reached.over_hunk last (by simp) (by simp) (by simpa using enough)
    obtain ⟨ended, written, boundaries⟩ := after.over (Nat.zero_lt_of_lt left)
    exact ⟨s', passed.trans ended, written, boundaries⟩
  | cons kept init ih =>
    obtain ⟨hunk, item⟩ := kept
    unfold Alignment.deletions Alignment.additions at reached enough
    rw [marks_cons, marks_cons] at reached enough
    rw [List.length_append, List.length_append, List.length_replicate, List.length_replicate] at enough
    have sized : hunk.deleted.length + hunk.added.length + (false :: (⟨init, last⟩ : Alignment α).marks Hunk.deleted).length +
        (false :: (⟨init, last⟩ : Alignment α).marks Hunk.added).length < fuel := by omega
    obtain ⟨s', fuel', passed, left, after⟩ := reached.over_hunk hunk (by simp) (by simp) sized
    obtain ⟨fuel', rfl⟩ := Nat.exists_eq_add_of_lt (Nat.zero_lt_of_lt left)
    have room : (⟨init, last⟩ : Alignment α).deletions.length + (⟨init, last⟩ : Alignment α).additions.length < fuel' := by
      rw [List.length_cons, List.length_cons] at left
      unfold Alignment.deletions Alignment.additions
      omega
    obtain ⟨done, ended, written, boundaries⟩ := ih after.pair room
    rw [Nat.zero_add] at passed
    refine ⟨done, (passed.trans (after.more (.inl (by simp)) fuel')).trans ended, ?_, ?_⟩
    · simpa [kindsOf] using written
    · simpa [boundariesOf] using boundaries

theorem walk_more {done : Walk} {more : Nat} (ended : walk deleted added fuel s = some done) (enough : fuel ≤ more) :
    walk deleted added more s = some done := by
  induction fuel generalizing more s with
  | zero => cases ended
  | succ fuel ih =>
    obtain ⟨more, rfl⟩ := Nat.exists_eq_add_of_le' (Nat.zero_lt_of_lt enough)
    have enough := Nat.le_of_succ_le_succ enough
    simp only [walk] at ended ⊢
    split
    next goes =>
      rw [if_pos goes] at ended
      exact ih ended enough
    next stops =>
      rw [if_neg stops] at ended
      exact ended

end Walks

/-! ## The marks -/

theorem kinds_additions (a : Alignment α) : (kindsOf a).map (·.isSome) = a.additions := by
  have hunk : ∀ hunk : Hunk α, (hunkKinds hunk).map (·.isSome) = List.replicate hunk.added.length true := by
    intro hunk
    rw [hunkKinds, List.map_replicate]
    rfl
  unfold kindsOf Alignment.additions Alignment.marks
  rw [List.map_append, List.map_flatMap, hunk]
  simp only [List.map_append, hunk]
  rfl

/-- A hunk that only deletes lies just before new line `k`. -/
def DeletesBefore (a : Alignment α) (k : Nat) : Prop :=
  ∃ before hunk after, a.hunks = before ++ hunk :: after ∧ hunk.added = [] ∧ hunk.deleted ≠ [] ∧
    k = (before.map fun hunk => hunk.added.length + 1).sum

theorem boundaries_iff {hunks : List (Hunk α)} {k : Nat} : (hunks.flatMap hunkBoundaries)[k]? = some true ↔
    ∃ before hunk after, hunks = before ++ hunk :: after ∧ hunk.added = [] ∧ hunk.deleted ≠ [] ∧
      k = (before.map fun hunk => hunk.added.length + 1).sum := by
  induction hunks generalizing k with
  | nil => simp
  | cons hunk hunks ih =>
    have sized : (hunkBoundaries hunk).length = hunk.added.length + 1 := by simp [hunkBoundaries]
    rw [List.flatMap_cons]
    constructor
    · intro marked
      by_cases inside : k < hunk.added.length + 1
      · rw [List.getElem?_append_left (sized ▸ inside)] at marked
        cases k with
        | zero =>
          have only : hunk.added = [] ∧ hunk.deleted ≠ [] := by simpa [hunkBoundaries] using marked
          exact ⟨[], hunk, hunks, rfl, only.1, only.2, rfl⟩
        | succ k => simp [hunkBoundaries, List.getElem?_replicate] at marked
      · rw [List.getElem?_append_right (by omega), sized] at marked
        obtain ⟨before, other, after, rfl, facts, deletes, place⟩ := ih.mp marked
        refine ⟨hunk :: before, other, after, rfl, facts, deletes, ?_⟩
        rw [List.map_cons, List.sum_cons]
        omega
    · rintro ⟨before, other, after, split, facts, deletes, rfl⟩
      cases before with
      | nil =>
        obtain ⟨rfl, rfl⟩ := List.cons.inj split
        simp [hunkBoundaries, facts, deletes]
      | cons first before =>
        obtain ⟨rfl, rfl⟩ := List.cons.inj split
        rw [List.map_cons, List.sum_cons, List.getElem?_append_right (by omega), sized, Nat.add_sub_cancel_left]
        exact ih.mpr ⟨before, other, after, rfl, facts, deletes, rfl⟩

theorem boundariesOf_hunks (a : Alignment α) : boundariesOf a = a.hunks.flatMap hunkBoundaries := by
  simp [boundariesOf, Alignment.hunks, List.flatMap_map]

/-- The marks are those of an alignment whose kept lines are a longest common subsequence: the old
lines it does not delete, and the new lines without a mark. -/
structure TrueDiff (oldLines newLines : List α) (diff : LineDiff) (a : Alignment α) : Prop where
  old : a.old = oldLines
  new : a.new = newLines
  keptOld : unmarked oldLines a.deletions = a.kept
  keptNew : unmarked newLines (diff.kinds.map (·.isSome)) = a.kept
  common : a.kept.Sublist oldLines ∧ a.kept.Sublist newLines
  longest : CommonAtMost a.kept.length oldLines newLines
  kinds : diff.kinds = kindsOf a
  deletedBefore : ∀ k, diff.deletedBefore[k]? = some true ↔ DeletesBefore a k

theorem unmarked_replicate (n : Nat) : Unmarked (List.replicate n false) n := by
  intro k inside
  rw [List.getElem?_replicate, if_pos inside]

theorem marks_length (a : Alignment α) (part : Hunk α → List α) : (a.marks part).length = (a.side part).length := by
  simp [Alignment.marks, Alignment.side, List.length_flatMap]

theorem line_kinds_true_diff [DecidableEq α] {oldLines newLines : List α} (oldFits : oldLines.length ≤ maxDiffedLines)
    (newFits : newLines.length ≤ maxDiffedLines) :
    ∃ diff a, (∀ fuel, oldLines.length + newLines.length < fuel → diffLineKinds fuel oldLines newLines = some diff) ∧
      TrueDiff oldLines newLines diff a := by
  have unmarkedOld := unmarked_replicate oldLines.length
  have unmarkedNew := unmarked_replicate newLines.length
  obtain ⟨a, went, old, new, kept⟩ :=
    backtrack_aligned (Nat.lt_succ_self (oldLines.length + newLines.length)) (Nat.le_refl _) (Nat.le_refl _) unmarkedOld unmarkedNew
  rw [List.take_length] at old new
  have olds : a.deletions.length = oldLines.length := by rw [Alignment.deletions, marks_length, ← old, Alignment.old]
  have news : a.additions.length = newLines.length := by rw [Alignment.additions, marks_length, ← new, Alignment.new]
  rw [List.drop_eq_nil_of_le (by simp), List.drop_eq_nil_of_le (by simp), List.append_nil, List.append_nil] at went
  obtain ⟨done, walked, kinds, boundaries⟩ : ∃ done, walk a.deletions a.additions (oldLines.length + newLines.length + 1)
      ⟨0, 0, List.replicate newLines.length none, List.replicate (newLines.length + 1) false⟩ = some done ∧
        done.kinds = [] ++ kindsOf a ∧ done.deletedBefore = [] ++ boundariesOf a := by
    apply walk_alignment a.init a.last ⟨rfl, rfl, by simp [news], rfl, by simp [news, List.replicate_succ], rfl⟩
    change a.deletions.length + a.additions.length < _
    omega
  refine ⟨⟨done.kinds, done.deletedBefore⟩, a, ?_, ?_⟩
  · intro fuel enough
    unfold diffLineKinds
    rw [if_neg (by omega), backtrack_more went enough]
    change (walk a.deletions a.additions fuel _).bind _ = _
    rw [walk_more walked enough]
    rfl
  · refine ⟨old, new, ?_, ?_, ⟨old ▸ a.kept_sublist _, new ▸ a.kept_sublist _⟩, ?_, kinds, fun k => ?_⟩
    · rw [← old]
      exact a.unmarked_marks _
    · rw [kinds, List.nil_append, kinds_additions, ← new]
      exact a.unmarked_marks _
    · rw [kept]
      simpa using entry_bounds oldLines newLines (Nat.le_refl _) (Nat.le_refl _)
    · rw [boundaries, List.nil_append, boundariesOf_hunks]
      exact boundaries_iff

theorem line_kinds_true_diff_changed : ∃ diff a,
    (∀ fuel, 7 < fuel → diffLineKinds fuel ["a", "b", "", "c"] ["a", "", "d"] = some diff) ∧
      TrueDiff ["a", "b", "", "c"] ["a", "", "d"] diff a :=
  @line_kinds_true_diff String _ ["a", "b", "", "c"] ["a", "", "d"] (by decide) (by decide)

end Oxplow.Proofs.LineDiffs
