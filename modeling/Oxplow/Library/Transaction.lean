import Mathlib.Tactic.Common

/-! Computations over a store that can fail part way. What a failed one has written
stays, unless a savepoint around it puts the store back. -/

namespace Oxplow.Library

/-- A computation that reads and writes a store `σ`. -/
def Tx (σ ε α : Type) := σ → Except ε α × σ

namespace Tx

variable {σ ε α β : Type}

def next : Except ε α → (α → Tx σ ε β) → Tx σ ε β
  | .ok value, rest => rest value
  | .error error, _ => fun store => (.error error, store)

instance : Monad (Tx σ ε) where
  pure value := fun store => (.ok value, store)
  bind first rest := fun store => next (first store).1 rest (first store).2

def read : Tx σ ε σ := fun store => (.ok store, store)

def write (store : σ) : Tx σ ε Unit := fun _ => (.ok (), store)

def lift (result : Except ε α) : Tx σ ε α := fun store => (result, store)

def restored (before : σ) : Except ε α → σ → Except ε α × σ
  | .ok value, after => (.ok value, after)
  | .error error, _ => (.error error, before)

/-- Put the store back if the computation fails. -/
def savepoint (body : Tx σ ε α) : Tx σ ε α := fun store => restored store (body store).1 (body store).2

/-- The result of the computation, a failure included, as a value. -/
def attempt (body : Tx σ ε α) : Tx σ ε (Except ε α) := fun store => (.ok (body store).1, (body store).2)

/-! ## A run that succeeds -/

variable {first : Tx σ ε α} {rest : α → Tx σ ε β} {store last : σ}

theorem bind_ok {result : β} :
    (first >>= rest) store = (.ok result, last) ↔
      ∃ value middle, first store = (.ok value, middle) ∧ rest value middle = (.ok result, last) := by
  change next (first store).1 rest (first store).2 = _ ↔ _
  rcases first store with ⟨outcome, middle⟩
  cases outcome with
  | error => simp [next]
  | ok => simp [next]

variable {result : α}

@[simp] theorem pure_ok {value : α} : (pure value : Tx σ ε α) store = (.ok result, last) ↔ value = result ∧ store = last := by
  change (Except.ok value, store) = (Except.ok result, last) ↔ _
  simp

@[simp] theorem read_ok {result : σ} : (read : Tx σ ε σ) store = (.ok result, last) ↔ store = result ∧ store = last := by
  simp [read]

@[simp] theorem write_ok {written : σ} {done : Unit} :
    (write written : Tx σ ε Unit) store = (.ok done, last) ↔ written = last := by
  simp [write]

@[simp] theorem lift_ok {given : Except ε α} : (lift given) store = (.ok result, last) ↔ given = .ok result ∧ store = last := by
  simp [lift]

variable {body : Tx σ ε α}

@[simp] theorem savepoint_ok : savepoint body store = (.ok result, last) ↔ body store = (.ok result, last) := by
  simp only [savepoint]
  rcases body store with ⟨outcome, after⟩
  cases outcome <;> simp [restored]

@[simp] theorem attempt_ok {result : Except ε α} : attempt body store = (.ok result, last) ↔ body store = (result, last) := by
  simp [attempt, Prod.ext_iff]

/-! ## A run that fails -/

/-- A failure leaves the store as it was. -/
def Atomic (body : Tx σ ε α) : Prop := ∀ store error last, body store = (.error error, last) → last = store

/-- It writes nothing. -/
def Reads (body : Tx σ ε α) : Prop := ∀ store, (body store).2 = store

theorem Reads.same (reads : Reads body) {result : Except ε α} (done : body store = (result, last)) : last = store := by
  have kept := reads store
  rw [done] at kept
  exact kept

theorem Reads.atomic (reads : Reads body) : Atomic body := by
  intro store error last failed
  exact reads.same failed

theorem reads_lift (given : Except ε α) : Reads (lift given : Tx σ ε α) := fun _ => rfl

theorem reads_read : Reads (read : Tx σ ε σ) := fun _ => rfl

theorem atomic_savepoint (body : Tx σ ε α) : Atomic (savepoint body) := by
  intro store error last failed
  simp only [savepoint] at failed
  cases outcome : (body store).1 with
  | ok =>
    rw [outcome] at failed
    cases failed
  | error =>
    rw [outcome] at failed
    cases failed
    rfl

theorem Reads.bind (reads : Reads first) (later : ∀ value, Reads (rest value)) : Reads (first >>= rest) := by
  intro store
  have same := reads store
  change (next (first store).1 rest (first store).2).2 = store
  rw [same]
  cases (first store).1 with
  | error => rfl
  | ok value => exact later value store

theorem Atomic.map (atomic : Atomic body) (f : α → β) : Atomic (body >>= fun value => pure (f value)) := by
  intro store error last failed
  change next (body store).1 (fun value => pure (f value)) (body store).2 = _ at failed
  cases outcome : (body store).1 with
  | error =>
    rw [outcome] at failed
    cases failed
    exact atomic store _ _ (Prod.ext outcome rfl)
  | ok value =>
    rw [outcome] at failed
    cases failed

theorem Atomic.after_reads (reads : Reads first) (later : ∀ value, Atomic (rest value)) : Atomic (first >>= rest) := by
  intro store error last failed
  have same := reads store
  change next (first store).1 rest (first store).2 = _ at failed
  rw [same] at failed
  cases outcome : (first store).1 with
  | error =>
    rw [outcome] at failed
    cases failed
    rfl
  | ok value =>
    rw [outcome] at failed
    exact later value store error last failed

end Tx

/-! ## Rows -/

variable {ρ κ : Type}

/-- `UPDATE … WHERE`: each row that is selected, replaced. -/
def updateRows (selects : ρ → Bool) (next : ρ → ρ) (rows : List ρ) : List ρ :=
  rows.map fun row => if selects row then next row else row

variable {selects : ρ → Bool} {next : ρ → ρ} {rows : List ρ}

theorem mem_updateRows {row : ρ} :
    row ∈ updateRows selects next rows ↔
      (row ∈ rows ∧ selects row = false) ∨ ∃ old ∈ rows, selects old = true ∧ next old = row := by
  simp only [updateRows, List.mem_map]
  constructor
  · rintro ⟨old, member, rfl⟩
    cases picked : selects old with
    | true => exact .inr ⟨old, member, picked, by simp⟩
    | false => exact .inl ⟨by simpa using member, by simpa using picked⟩
  · rintro (⟨member, spared⟩ | ⟨old, member, picked, rfl⟩)
    · exact ⟨row, member, by simp [spared]⟩
    · exact ⟨old, member, by simp [picked]⟩

/-- An update that sets other columns keeps a column as it is. -/
theorem map_updateRows {column : ρ → κ} (keeps : ∀ row ∈ rows, selects row = true → column (next row) = column row) :
    (updateRows selects next rows).map column = rows.map column := by
  rw [updateRows, List.map_map]
  apply List.map_congr_left
  intro row member
  cases picked : selects row with
  | true => simpa [picked] using keeps row member picked
  | false => simp [picked]

theorem filter_updateRows {picks : ρ → Bool} (keeps : ∀ row, picks (next row) = picks row) (rows : List ρ) :
    (updateRows selects next rows).filter picks = updateRows selects next (rows.filter picks) := by
  rw [updateRows, List.filter_map, updateRows]
  congr 1
  apply List.filter_congr
  intro row _
  cases picked : selects row with
  | true => simp [picked, keeps]
  | false => simp [picked]

theorem updateRows_of_none (spared : ∀ row ∈ rows, selects row = false) : updateRows selects next rows = rows := by
  rw [updateRows]
  refine (List.map_congr_left fun row member => ?_).trans (List.map_id rows)
  simp [spared row member]

end Oxplow.Library

/-! Computations that can fail, when they succeed. -/

namespace Oxplow.Library.Outcome

variable {α β ε δ : Type}

theorem bind_ok {first : Except ε α} {next : α → Except ε β} {result : β} :
    first >>= next = .ok result ↔ ∃ value, first = .ok value ∧ next value = .ok result := by
  cases first with
  | error => simp [bind, Except.bind]
  | ok => simp [bind, Except.bind]

@[simp] theorem pure_ok {value result : α} : (pure value : Except ε α) = .ok result ↔ value = result := by
  simp [pure, Except.pure]

@[simp] theorem map_ok {first : Except ε α} {f : α → β} {result : β} :
    first.map f = .ok result ↔ ∃ value, first = .ok value ∧ f value = result := by
  cases first <;> simp [Except.map]

@[simp] theorem mapError_ok {first : Except ε α} {f : ε → δ} {result : α} : first.mapError f = .ok result ↔ first = .ok result := by
  cases first <;> simp [Except.mapError]

/-- Fails with the error unless the condition holds. -/
def ensure (holds : Prop) [Decidable holds] (error : ε) : Except ε Unit := if holds then .ok () else .error error

@[simp] theorem ensure_ok {holds : Prop} [Decidable holds] {error : ε} {result : Unit} :
    ensure holds error = .ok result ↔ holds := by
  unfold ensure
  split <;> simp_all

end Oxplow.Library.Outcome
