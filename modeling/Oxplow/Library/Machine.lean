import Mathlib.Data.List.Basic

/-! Runs of a machine that accepts or rejects each event. A rejected event leaves the
state as it was; an accepted one moves it and gives something back. -/

namespace Oxplow.Library.Machine

variable {σ ε ο : Type} (step : σ → ε → Option (σ × ο))

def advance (s : σ) (event : ε) : σ := (step s event).elim s (·.1)

/-- The state after a sequence of events. -/
def run (s : σ) (events : List ε) : σ := events.foldl (advance step) s

/-- The events that a run accepts, each with what it gave. -/
def accepted : σ → List ε → List (ε × ο)
  | _, [] => []
  | s, event :: events => ((step s event).map fun next => (event, next.2)).toList ++ accepted (advance step s event) events

variable {step}

variable {s : σ}

theorem advance_of_some {next : σ} {event : ε} {out : ο} (moves : step s event = some (next, out)) :
    advance step s event = next := by
  simp [advance, moves]

theorem advance_of_none {event : ε} (rejects : step s event = none) : advance step s event = s := by
  simp [advance, rejects]

theorem run_append (s : σ) (before after : List ε) : run step s (before ++ after) = run step (run step s before) after :=
  List.foldl_append

theorem run_cons (s : σ) (event : ε) (events : List ε) : run step s (event :: events) = run step (advance step s event) events :=
  rfl

/-- What every accepted event keeps, of the state and the events accepted so far, holds
after every run. -/
theorem run_invariant (Kept : σ → List (ε × ο) → Prop)
    (keep : ∀ s log event next out, Kept s log → step s event = some (next, out) → Kept next (log ++ [(event, out)]))
    (log : List (ε × ο)) (start : Kept s log) (events : List ε) : Kept (run step s events) (log ++ accepted step s events) := by
  induction events generalizing s log with
  | nil => simpa [accepted, run] using start
  | cons event events ih =>
    cases moves : step s event with
    | none =>
      have rest := ih log start
      simpa only [run_cons, accepted, advance_of_none moves, moves, Option.map_none, Option.toList_none, List.nil_append] using rest
    | some next =>
      obtain ⟨next, out⟩ := next
      have rest := ih _ (keep s log event next out start moves)
      simpa only [run_cons, accepted, advance_of_some moves, moves, Option.map_some, Option.toList_some, List.append_assoc]
        using rest

variable {events : List ε}

/-- What does not hold at the start and holds at the end came about by an accepted event. -/
theorem run_reaches (Reached : σ → Prop) (fresh : ¬ Reached s) (reached : Reached (run step s events)) :
    ∃ before event after next out, events = before ++ event :: after ∧ ¬ Reached (run step s before) ∧
      step (run step s before) event = some (next, out) ∧ Reached next := by
  induction events generalizing s with
  | nil => exact absurd reached fresh
  | cons event events ih =>
    rw [run_cons] at reached
    by_cases here : Reached (advance step s event)
    · cases moves : step s event with
      | none => exact absurd (advance_of_none moves ▸ here) fresh
      | some next => exact ⟨[], event, events, next.1, next.2, rfl, fresh, moves, advance_of_some moves ▸ here⟩
    · obtain ⟨before, later, after, next, out, rfl, unreached, moves, enters⟩ := ih here reached
      exact ⟨event :: before, later, after, next, out, rfl, unreached, moves, enters⟩

/-- A relation between states that every accepted event moves along holds from the start
of a run to its end. -/
theorem run_related (Grows : σ → σ → Prop) (refl : ∀ s, Grows s s) (trans : ∀ {a b c}, Grows a b → Grows b c → Grows a c)
    (Valid : σ → Prop) (keep : ∀ s event next out, Valid s → step s event = some (next, out) → Valid next ∧ Grows s next)
    (valid : Valid s) (events : List ε) : Valid (run step s events) ∧ Grows s (run step s events) := by
  refine run_invariant (fun t (_ : List (ε × ο)) => Valid t ∧ Grows s t) ?_ [] ⟨valid, refl s⟩ events
  intro t _ event next out kept moves
  obtain ⟨valid, grows⟩ := keep t event next out kept.1 moves
  exact ⟨valid, trans kept.2 grows⟩

/-- Every event is allowed where it comes. -/
def Admits (step : σ → ε → Option (σ × ο)) (allowed : σ → ε → Prop) : σ → List ε → Prop
  | _, [] => True
  | s, event :: events => allowed s event ∧ Admits step allowed (advance step s event) events

instance (step : σ → ε → Option (σ × ο)) (allowed : σ → ε → Prop) [(s : σ) → (event : ε) → Decidable (allowed s event)] :
    (s : σ) → (events : List ε) → Decidable (Admits step allowed s events)
  | _, [] => inferInstanceAs (Decidable True)
  | s, event :: events =>
    have : Decidable (Admits step allowed (advance step s event) events) := instDecidableAdmits step allowed _ events
    inferInstanceAs (Decidable (allowed s event ∧ Admits step allowed (advance step s event) events))

variable {allowed : σ → ε → Prop}

theorem admits_append {before after : List ε} :
    Admits step allowed s (before ++ after) ↔ Admits step allowed s before ∧ Admits step allowed (run step s before) after := by
  induction before generalizing s with
  | nil => simp [Admits, run]
  | cons event before ih => simp only [List.cons_append, Admits, ih, run_cons, and_assoc]

/-- What allows each event wherever it comes. -/
theorem admits_of_forall (all : ∀ event ∈ events, ∀ s, allowed s event) : Admits step allowed s events := by
  induction events generalizing s with
  | nil => trivial
  | cons event events ih => exact ⟨all event List.mem_cons_self s, ih fun later member => all later (List.mem_cons_of_mem _ member)⟩

theorem admits_and {allowed' : σ → ε → Prop} (admits : Admits step allowed s events) (admits' : Admits step allowed' s events) :
    Admits step (fun s event => allowed s event ∧ allowed' s event) s events := by
  induction events generalizing s with
  | nil => trivial
  | cons event events ih => exact ⟨⟨admits.1, admits'.1⟩, ih admits.2 admits'.2⟩

/-- The same of a run each of whose events is allowed. -/
theorem run_allowed (Grows : σ → σ → Prop) (refl : ∀ s, Grows s s) (trans : ∀ {a b c}, Grows a b → Grows b c → Grows a c)
    (Valid : σ → Prop)
    (keep : ∀ s event next out, Valid s → allowed s event → step s event = some (next, out) → Valid next ∧ Grows s next)
    (valid : Valid s) (admits : Admits step allowed s events) : Valid (run step s events) ∧ Grows s (run step s events) := by
  induction events generalizing s with
  | nil => exact ⟨valid, refl s⟩
  | cons event events ih =>
    obtain ⟨here, later⟩ := admits
    rw [run_cons]
    cases moves : step s event with
    | none =>
      rw [advance_of_none moves] at later ⊢
      exact ih valid later
    | some next =>
      have moved : advance step s event = next.1 := advance_of_some moves
      rw [moved] at later ⊢
      obtain ⟨kept, grows⟩ := keep s event next.1 next.2 valid here moves
      obtain ⟨kept', grows'⟩ := ih kept later
      exact ⟨kept', trans grows grows'⟩

/-- The same of the state and the events accepted so far. -/
theorem run_admitted (Kept : σ → List (ε × ο) → Prop)
    (keep : ∀ s log event next out, Kept s log → allowed s event → step s event = some (next, out) → Kept next (log ++ [(event, out)]))
    (log : List (ε × ο)) (start : Kept s log) (admits : Admits step allowed s events) :
    Kept (run step s events) (log ++ accepted step s events) := by
  induction events generalizing s log with
  | nil => simpa [accepted, run] using start
  | cons event events ih =>
    obtain ⟨here, later⟩ := admits
    cases moves : step s event with
    | none =>
      rw [advance_of_none moves] at later
      have rest := ih log start later
      simpa only [run_cons, accepted, advance_of_none moves, moves, Option.map_none, Option.toList_none, List.nil_append] using rest
    | some next =>
      obtain ⟨next, out⟩ := next
      rw [advance_of_some moves] at later
      have rest := ih _ (keep s log event next out start here moves) later
      simpa only [run_cons, accepted, advance_of_some moves, moves, Option.map_some, Option.toList_some, List.append_assoc]
        using rest

end Oxplow.Library.Machine
