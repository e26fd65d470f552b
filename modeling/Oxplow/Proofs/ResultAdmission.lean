import Mathlib.Algebra.Ring.Nat
import Oxplow.Pages.Results

/-! A result is admitted to a budget: what is kept of it is a part of its rows, and paid for. -/

namespace Oxplow.Proofs.ResultAdmission
open Jobs Runner
open Pages (SqlCell)

/-- What is kept of a result: a part of its rows under its columns, or neither, and it says so. -/
structure Cut (whole kept : SqlQueryResult) : Prop where
  rows : kept.columns = whole.columns ∧ kept.rows <+: whole.rows ∨ kept.columns = [] ∧ kept.rows = []
  truncated : kept.columns ≠ whole.columns ∨ kept.rows ≠ whole.rows ∨ whole.truncated = true → kept.truncated = true
  metadata : kept.metadata = whole.metadata

theorem Cut.refl (whole : SqlQueryResult) : Cut whole whole := by
  refine ⟨.inl ⟨rfl, List.prefix_refl _⟩, ?_, rfl⟩
  rintro (columns | rows | truncated)
  · exact absurd rfl columns
  · exact absurd rfl rows
  · exact truncated

theorem Cut.trans {whole middle kept : SqlQueryResult} (first : Cut whole middle) (second : Cut middle kept) : Cut whole kept := by
  refine ⟨?_, ?_, second.metadata.trans first.metadata⟩
  · rcases second.rows with ⟨columns, rows⟩ | none_
    · rcases first.rows with ⟨columns', rows'⟩ | ⟨columns', rows'⟩
      · exact .inl ⟨columns.trans columns', rows.trans rows'⟩
      · rw [rows'] at rows
        exact .inr ⟨columns.trans columns', List.prefix_nil.mp rows⟩
    · exact .inr none_
  · intro cut
    by_cases columns : kept.columns = middle.columns
    · by_cases rows : kept.rows = middle.rows
      · rw [columns, rows] at cut
        exact second.truncated (.inr (.inr (first.truncated cut)))
      · exact second.truncated (.inr (.inl rows))
    · exact second.truncated (.inl columns)

theorem joined_snoc (texts : List String) (text : String) :
    (joined (texts ++ [text])).utf8ByteSize =
      (joined texts).utf8ByteSize + (if texts.isEmpty then 0 else 1) + text.utf8ByteSize := by
  induction texts with
  | nil => simp [joined]
  | cons first texts ih =>
    cases texts with
    | nil =>
      have comma : (",").utf8ByteSize = 1 := rfl
      simp [joined, comma]
    | cons second texts =>
      simp only [List.cons_append, joined, String.utf8ByteSize_append] at ih ⊢
      rw [ih]
      simp only [List.isEmpty_cons, Bool.false_eq_true, if_false]
      omega

section
variable (realText : UInt64 → String)

/-- The bytes of rows between their brackets. -/
def rowsBytes (rows : List (List SqlCell)) : Nat := (joined (rows.map (rowText realText))).utf8ByteSize

theorem bytes_eq (result : SqlQueryResult) :
    result.bytes realText = 38 + (joined (result.columns.map Json.quote)).utf8ByteSize + rowsBytes realText result.rows +
      (boolText result.truncated).utf8ByteSize + result.metadata.utf8ByteSize := by
  have columns : ("\x7b\"columns\":[").utf8ByteSize = 12 := rfl
  have rows : ("],\"rows\":[").utf8ByteSize = 10 := rfl
  have truncated : ("],\"truncated\":").utf8ByteSize = 14 := rfl
  have comma : (",").utf8ByteSize = 1 := rfl
  have close : ("\x7d").utf8ByteSize = 1 := rfl
  unfold SqlQueryResult.bytes SqlQueryResult.text rowsBytes
  simp only [String.utf8ByteSize_append]
  rw [columns, rows, truncated, comma, close]
  omega

/-- A flag that is set takes less. -/
theorem flag_bytes (truncated cropped : Bool) :
    (boolText (truncated || cropped)).utf8ByteSize ≤ (boolText truncated).utf8ByteSize := by
  have set : (boolText true).utf8ByteSize = 4 := rfl
  have unset : (boolText false).utf8ByteSize = 5 := rfl
  cases truncated with
  | true => exact Nat.le_refl _
  | false =>
    rw [Bool.false_or]
    cases cropped with
    | true => omega
    | false => exact Nat.le_refl _

/-- What is spent of a budget covers so many bytes. -/
structure Spends (budget next : ResultBudget) (bytes : Nat) : Prop where
  underflow : next.underflow = budget.underflow
  covers : bytes + next.remaining ≤ budget.remaining

variable {budget : ResultBudget}

theorem spend_spends {bytes : Nat} (fits : bytes ≤ budget.remaining) : Spends budget (budget.spend bytes) bytes := by
  refine ⟨?_, ?_⟩
  · have enough : ¬ budget.remaining < bytes := by omega
    simp [ResultBudget.spend, enough]
  · show bytes + (budget.remaining - bytes) ≤ budget.remaining
    omega

theorem Spends.trans {middle next : ResultBudget} {first second : Nat} (spends : Spends budget middle first)
    (spends' : Spends middle next second) : Spends budget next (first + second) := by
  refine ⟨spends'.underflow.trans spends.underflow, ?_⟩
  have := spends.covers
  have := spends'.covers
  omega

theorem serializedBytes_some {text : String} {limit bytes : Nat} (fits : serializedBytes text limit = some bytes) :
    text.utf8ByteSize = bytes ∧ bytes ≤ limit := by
  unfold serializedBytes at fits
  split at fits
  · cases fits
    exact ⟨rfl, by assumption⟩
  · cases fits

/-- Rows are taken from the first on, each paid with its comma. -/
theorem admitRows_spends (rows kept : List (List SqlCell)) (budget : ResultBudget) :
    ∃ taken, (ResultBudget.admitRows realText rows kept budget).1 = kept ++ taken ∧ taken <+: rows ∧
      ((ResultBudget.admitRows realText rows kept budget).2.1 = false → taken = rows) ∧
      Spends budget (ResultBudget.admitRows realText rows kept budget).2.2
        (rowsBytes realText (kept ++ taken) - rowsBytes realText kept) ∧
      rowsBytes realText kept ≤ rowsBytes realText (kept ++ taken) := by
  induction rows generalizing kept budget with
  | nil =>
    refine ⟨[], (List.append_nil kept).symm, List.prefix_refl _, fun _ => rfl, ?_, ?_⟩
    · rw [List.append_nil, Nat.sub_self]
      exact ⟨rfl, Nat.le_of_eq (Nat.zero_add _)⟩
    · rw [List.append_nil]
  | cons row rows ih =>
    have stops : ∃ taken, kept = kept ++ taken ∧ taken <+: row :: rows ∧ (true = false → taken = row :: rows) ∧
        Spends budget budget (rowsBytes realText (kept ++ taken) - rowsBytes realText kept) ∧
        rowsBytes realText kept ≤ rowsBytes realText (kept ++ taken) := by
      refine ⟨[], (List.append_nil kept).symm, List.nil_prefix, fun same => absurd same.symm Bool.false_ne_true, ?_, ?_⟩
      · rw [List.append_nil, Nat.sub_self]
        exact ⟨rfl, Nat.le_of_eq (Nat.zero_add _)⟩
      · rw [List.append_nil]
    have grows : rowsBytes realText (kept ++ [row]) =
        rowsBytes realText kept + (if kept.isEmpty then 0 else 1) + (rowText realText row).utf8ByteSize := by
      have snoc := joined_snoc (kept.map (rowText realText)) (rowText realText row)
      rw [List.isEmpty_map] at snoc
      rw [rowsBytes, List.map_append]
      exact snoc
    simp only [ResultBudget.admitRows]
    generalize (if kept.isEmpty then 0 else 1) = comma at grows ⊢
    by_cases room : budget.remaining < comma
    · rw [if_pos room]
      exact stops
    · rw [if_neg room]
      cases fits : serializedBytes (rowText realText row) (budget.remaining - comma) with
      | none => exact stops
      | some bytes =>
        dsimp only
        obtain ⟨size, within⟩ := serializedBytes_some fits
        obtain ⟨taken, same, start, all, spends, more⟩ := ih (kept ++ [row]) (budget.spend (bytes + comma))
        have paid : Spends budget (budget.spend (bytes + comma)) (bytes + comma) := spend_spends (by omega)
        have both := paid.trans spends
        rw [List.append_assoc] at same spends more both
        refine ⟨row :: taken, same, (List.prefix_cons_inj row).mpr start, fun whole => congrArg (row :: ·) (all whole), ?_, ?_⟩
        · refine ⟨both.underflow, ?_⟩
          have covers := both.covers
          show rowsBytes realText (kept ++ row :: taken) - rowsBytes realText kept + _ ≤ _
          rw [List.singleton_append] at covers more
          omega
        · show rowsBytes realText kept ≤ rowsBytes realText (kept ++ row :: taken)
          rw [List.singleton_append] at more
          omega

/-- What is admitted is paid for, and a part of what was given. -/
theorem admit_spends {result kept : SqlQueryResult} {cropped : Bool}
    (admits : (budget.admitResult realText result).1 = .ok (kept, cropped)) :
    Spends budget (budget.admitResult realText result).2 (kept.bytes realText) ∧ Cut result kept := by
  unfold ResultBudget.admitResult at admits ⊢
  cases base : serializedBytes ({ result with rows := [] }.text realText) budget.remaining with
  | some bytes =>
    simp only [base] at admits ⊢
    obtain ⟨size, within⟩ := serializedBytes_some base
    obtain ⟨taken, same, start, all, spends, _⟩ := admitRows_spends realText result.rows [] (budget.spend bytes)
    generalize ResultBudget.admitRows realText result.rows [] (budget.spend bytes) = out at admits same all spends ⊢
    obtain ⟨rows, cut, last⟩ := out
    simp only [Except.ok.injEq, Prod.mk.injEq] at admits
    obtain ⟨rfl, rfl⟩ := admits
    simp only [List.nil_append] at same all spends ⊢
    subst same
    have paid : Spends budget (budget.spend bytes) bytes := spend_spends within
    have both := paid.trans spends
    refine ⟨⟨both.underflow, ?_⟩, .inl ⟨rfl, start⟩, ?_, rfl⟩
    · have covers := both.covers
      have whole := bytes_eq realText { result with rows := [] }
      have part := bytes_eq realText { result with rows, truncated := result.truncated || cut }
      have flag := flag_bytes result.truncated cut
      have none_ : rowsBytes realText [] = 0 := rfl
      dsimp only at whole part
      rw [SqlQueryResult.bytes, size] at whole
      omega
    · rintro (columns | less | truncated)
      · exact absurd rfl columns
      · cases cut with
        | false => exact absurd (all rfl) less
        | true => exact Bool.or_true _
      · show (result.truncated || cut) = true
        rw [truncated]
        rfl
  | none =>
    simp only [base] at admits ⊢
    cases bare : serializedBytes ({ result with rows := [], columns := [], truncated := true }.text realText) budget.remaining with
    | none =>
      simp only [bare] at admits
      cases admits
    | some bytes =>
      simp only [bare, Except.ok.injEq, Prod.mk.injEq] at admits ⊢
      obtain ⟨size, within⟩ := serializedBytes_some bare
      obtain ⟨rfl, rfl⟩ := admits
      refine ⟨?_, .inr ⟨rfl, rfl⟩, fun _ => rfl, rfl⟩
      rw [SqlQueryResult.bytes, size]
      exact spend_spends within

theorem admit_refuses {result : SqlQueryResult} {e : String} (refuses : (budget.admitResult realText result).1 = .error e) :
    (budget.admitResult realText result).2 = budget := by
  unfold ResultBudget.admitResult at refuses ⊢
  cases base : serializedBytes ({ result with rows := [] }.text realText) budget.remaining with
  | some bytes =>
    simp only [base] at refuses
    cases refuses
  | none =>
    simp only [base] at refuses ⊢
    cases bare : serializedBytes ({ result with rows := [], columns := [], truncated := true }.text realText) budget.remaining with
    | none => rfl
    | some bytes =>
      simp only [bare] at refuses
      cases refuses

end

end Oxplow.Proofs.ResultAdmission
