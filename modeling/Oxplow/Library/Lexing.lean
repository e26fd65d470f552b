import Mathlib.Data.List.Basic

/-! A text cut into lexemes from the left. What stands at the start of a text, and how many
symbols it takes, is a function of what is left; the cutting is a recursion on the text. -/

namespace Oxplow.Library.Lexing

variable {σ τ ε : Type} {first : Nat → σ → List σ → Except ε (τ × Nat)}

/-- The lexemes of a text that starts at `place` and whose first `skip` symbols belong to the
lexeme before it. `first` reads a lexeme: what it is, and how many symbols it takes besides its
first. -/
def scan (first : Nat → σ → List σ → Except ε (τ × Nat)) : Nat → Nat → List σ → Except ε (List τ)
  | _, _, [] => .ok []
  | place, skip + 1, _ :: rest => scan first (place + 1) skip rest
  | place, 0, c :: rest => (first place c rest).bind fun read => (scan first (place + 1) read.2 rest).map (read.1 :: ·)

@[simp]
theorem scan_nil (place skip : Nat) : scan first place skip [] = .ok [] := by
  cases skip <;> rfl

theorem scan_skip (place skip : Nat) (text : List σ) : scan first place skip text = scan first (place + skip) 0 (text.drop skip) := by
  induction text generalizing place skip with
  | nil => rw [List.drop_nil, scan_nil, scan_nil]
  | cons c rest ih =>
    cases skip with
    | zero => rfl
    | succ skip =>
      rw [scan, ih, List.drop_succ_cons, Nat.add_assoc, Nat.add_comm 1]

theorem scan_cons (place : Nat) (c : σ) (rest : List σ) :
    scan first place 0 (c :: rest) =
      (first place c rest).bind fun read => (scan first (place + 1 + read.2) 0 (rest.drop read.2)).map (read.1 :: ·) := by
  rw [scan]
  exact congrArg _ (funext fun read => by rw [scan_skip])

/-- A text is cut exactly where its first lexeme is read and what that leaves is cut. -/
theorem scan_cons_ok {place : Nat} {c : σ} {rest : List σ} {lexemes : List τ} :
    scan first place 0 (c :: rest) = .ok lexemes ↔
      ∃ lexeme more later, first place c rest = .ok (lexeme, more) ∧ scan first (place + 1 + more) 0 (rest.drop more) = .ok later ∧
        lexemes = lexeme :: later := by
  rw [scan_cons]
  cases read : first place c rest with
  | error refusal =>
    refine ⟨(fun cut => nomatch cut), ?_⟩
    rintro ⟨_, _, _, none_, -⟩
    cases none_
  | ok found =>
    obtain ⟨lexeme, more⟩ := found
    change (scan first (place + 1 + more) 0 (rest.drop more)).map (lexeme :: ·) = _ ↔ _
    cases after : scan first (place + 1 + more) 0 (rest.drop more) with
    | error refusal =>
      refine ⟨(fun cut => nomatch cut), ?_⟩
      rintro ⟨_, _, _, same, none_, -⟩
      obtain ⟨rfl, rfl⟩ := Prod.mk.inj (Except.ok.inj same)
      rw [after] at none_
      cases none_
    | ok later =>
      constructor
      · intro cut
        exact ⟨lexeme, more, later, rfl, after, (Except.ok.inj cut).symm⟩
      · rintro ⟨_, _, later', same, after', rfl⟩
        obtain ⟨rfl, rfl⟩ := Prod.mk.inj (Except.ok.inj same)
        rw [after] at after'
        rw [Except.ok.inj after']
        rfl

/-- What holds of a text wherever it holds of every part that a first lexeme may leave. -/
@[elab_as_elim]
theorem scan_induction {motive : Nat → List σ → Prop} (nil : ∀ place, motive place [])
    (cons : ∀ place c rest, (∀ more, motive (place + 1 + more) (rest.drop more)) → motive place (c :: rest)) (place : Nat) (text : List σ) :
    motive place text := by
  have shorter : ∀ n place (text : List σ), text.length ≤ n → motive place text := by
    intro n
    induction n with
    | zero =>
      intro place text short
      rw [List.eq_nil_of_length_eq_zero (Nat.le_zero.mp short)]
      exact nil place
    | succ n ih =>
      intro place text short
      cases text with
      | nil => exact nil place
      | cons c rest =>
        refine cons place c rest fun more => ih _ _ ?_
        rw [List.length_drop]
        rw [List.length_cons] at short
        omega
  exact shorter text.length place text (Nat.le_refl _)

end Oxplow.Library.Lexing
