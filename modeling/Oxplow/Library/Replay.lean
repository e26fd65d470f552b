import Mathlib.Data.List.Basic

/-! A log whose entries each restate some rows and bring their own: what stands after a
replay, and what stands when entries are left out of it. -/

namespace Oxplow.Library

variable {ε ρ : Type}

/-- An entry takes out the rows it restates and puts its own at the end. -/
def restateRows (restates : ε → ρ → Bool) (own : ε → List ρ) (rows : List ρ) (e : ε) : List ρ :=
  rows.filter (fun row => !restates e row) ++ own e

/-- The rows that no later entry restates. -/
def standing (restates : ε → ρ → Bool) (own : ε → List ρ) : List ε → List ρ
  | [] => []
  | e :: later => (own e).filter (fun row => !later.any (restates · row)) ++ standing restates own later

/-- Leaving out the entries that are not kept leaves what stands: a row of a kept entry that
is restated is restated by a kept entry, and a row of another one is restated. -/
def StandingKept (restates : ε → ρ → Bool) (own : ε → List ρ) (keep : ε → Bool) : List ε → Prop
  | [] => True
  | e :: later => (∀ row ∈ own e, later.any (restates · row) = (!keep e || (later.filter keep).any (restates · row))) ∧
      StandingKept restates own keep later

variable {restates restates' : ε → ρ → Bool} {own own' : ε → List ρ} {keep : ε → Bool}

instance decidableStandingKept : (log : List ε) → Decidable (StandingKept restates own keep log)
  | [] => inferInstanceAs (Decidable True)
  | _ :: later =>
    have := decidableStandingKept later
    inferInstanceAs (Decidable (_ ∧ _))

/-- A replay leaves what stands. -/
theorem foldl_restateRows (log : List ε) (rows : List ρ) : log.foldl (restateRows restates own) rows =
    rows.filter (fun row => !log.any (restates · row)) ++ standing restates own log := by
  induction log generalizing rows with
  | nil => simp [standing]
  | cons e later ih =>
    rw [List.foldl_cons, ih, restateRows, List.filter_append, List.filter_filter, standing, List.append_assoc]
    congr 1
    apply List.filter_congr
    intro row _
    rw [List.any_cons, Bool.not_or, Bool.and_comm]

theorem standing_append (log more : List ε) : standing restates own (log ++ more) =
    (standing restates own log).filter (fun row => !more.any (restates · row)) ++ standing restates own more := by
  induction log with
  | nil => rfl
  | cons e later ih =>
    rw [List.cons_append, standing, standing, ih, List.filter_append, List.filter_filter, List.append_assoc]
    congr 1
    apply List.filter_congr
    intro row _
    rw [List.any_append, Bool.not_or, Bool.and_comm]

variable {log : List ε}

theorem standing_congr (restate : ∀ e ∈ log, restates e = restates' e) (same : ∀ e ∈ log, own e = own' e) :
    standing restates own log = standing restates' own' log := by
  induction log with
  | nil => rfl
  | cons e later ih =>
    have rest := ih (fun x member => restate x (List.mem_cons_of_mem e member)) fun x member => same x (List.mem_cons_of_mem e member)
    have after : ∀ row, later.any (restates · row) = later.any (restates' · row) := by
      intro row
      rw [Bool.eq_iff_iff, List.any_eq_true, List.any_eq_true]
      refine exists_congr fun x => and_congr_right fun member => ?_
      rw [restate x (List.mem_cons_of_mem e member)]
    rw [standing, standing, rest, same e List.mem_cons_self]
    simp only [after]

theorem standing_sublist (log : List ε) : (standing restates own log).Sublist (log.flatMap own) := by
  induction log with
  | nil => exact .slnil
  | cons e later ih =>
    rw [standing, List.flatMap_cons]
    exact List.filter_sublist.append ih

/-- In a log in order, what stands of an entry is what no entry it is before restates. -/
theorem mem_standing_iff {before : ε → ε → Prop} (asymm : ∀ d e, before d e → ¬before e d) (ordered : log.Pairwise before)
    {row : ρ} : row ∈ standing restates own log ↔ ∃ e ∈ log, row ∈ own e ∧ ∀ d ∈ log, before e d → restates d row = false := by
  induction log with
  | nil => simp [standing]
  | cons e later ih =>
    obtain ⟨first, ordered⟩ := List.pairwise_cons.mp ordered
    rw [standing, List.mem_append, ih ordered, List.mem_filter]
    constructor
    · rintro (⟨mine, kept⟩ | ⟨x, member, mine, kept⟩)
      · refine ⟨e, List.mem_cons_self, mine, ?_⟩
        intro d member after
        rcases List.mem_cons.mp member with rfl | member
        · exact absurd after (asymm _ _ after)
        · rw [Bool.not_eq_true'] at kept
          exact Bool.eq_false_iff.mpr (List.any_eq_false.mp kept d member)
      · refine ⟨x, List.mem_cons_of_mem e member, mine, ?_⟩
        intro d inside after
        rcases List.mem_cons.mp inside with rfl | inside
        · exact absurd (first x member) (asymm _ _ after)
        · exact kept d inside after
    · rintro ⟨x, member, mine, kept⟩
      rcases List.mem_cons.mp member with rfl | member
      · refine .inl ⟨mine, ?_⟩
        rw [Bool.not_eq_true']
        exact List.any_eq_false.mpr fun d inside => Bool.eq_false_iff.mp (kept d (List.mem_cons_of_mem x inside) (first d inside))
      · exact .inr ⟨x, member, mine, fun d inside => kept d (List.mem_cons_of_mem e inside)⟩

theorem standing_filter (kept : StandingKept restates own keep log) :
    standing restates own (log.filter keep) = standing restates own log := by
  induction log with
  | nil => rfl
  | cons e later ih =>
    obtain ⟨rows, rest⟩ := kept
    rw [standing, ← ih rest]
    cases stays : keep e with
    | true =>
      rw [List.filter_cons_of_pos stays, standing]
      congr 1
      apply List.filter_congr
      intro row member
      rw [rows row member, stays, Bool.not_true, Bool.false_or]
    | false =>
      have gone : (own e).filter (fun row => !later.any (restates · row)) = [] := by
        apply List.filter_eq_nil_iff.mpr
        intro row member
        rw [rows row member, stays]
        simp
      rw [List.filter_cons_of_neg (by simp [stays]), gone, List.nil_append]

end Oxplow.Library
