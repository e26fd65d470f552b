import Oxplow.Proofs.ProviderWire
import Oxplow.Uri.Masking

/-! What masking hides. A line is read as its runs of backticks and the characters between
them; a text as its fenced blocks and the lines outside them. -/

namespace Oxplow.Proofs.Masking
open Uri
open Harnesses (isWhitespace)
open UriEscapes (utf8_append)

/-! ## Runs of backticks -/

inductive Piece where
  | text (c : Char)
  /-- A run of backticks, as long as it is. -/
  | ticks (n : Nat)
  deriving DecidableEq

def pieces : List Char → List Piece
  | [] => []
  | c :: rest =>
    if isTick c then
      match pieces rest with
      | .ticks n :: later => .ticks (n + 1) :: later
      | later => .ticks 1 :: later
    else .text c :: pieces rest

def ticks (n : Nat) : List Char := List.replicate n '`'

def Piece.write : Piece → List Char
  | .text c => [c]
  | .ticks n => Masking.ticks n

def write (text : List Piece) : List Char := text.flatMap Piece.write

/-- A line with its code spans masked. A run of backticks opens a span exactly when a later
run of as many closes it. After one that opens none, the line is either copied to its
end or read on. -/
inductive Masked (readOn : Bool) : List Piece → List Char → Prop
  | nil : Masked readOn [] []
  | text {c : Char} {rest : List Piece} {out : List Char} (later : Masked readOn rest out) : Masked readOn (.text c :: rest) (c :: out)
  | span {n : Nat} {inside rest : List Piece} {out : List Char} (first : .ticks n ∉ inside) (later : Masked readOn rest out) :
      Masked readOn (.ticks n :: (inside ++ .ticks n :: rest))
        (spaces (byteLen (write (.ticks n :: (inside ++ [.ticks n])))) ++ out)
  | copied {n : Nat} {rest : List Piece} (open_ : .ticks n ∉ rest) (stops : readOn = false) :
      Masked readOn (.ticks n :: rest) (write (.ticks n :: rest))
  | literal {n : Nat} {rest : List Piece} {out : List Char} (open_ : .ticks n ∉ rest) (goes : readOn = true)
      (later : Masked readOn rest out) : Masked readOn (.ticks n :: rest) (ticks n ++ out)

theorem split_first {α : Type} {a : α} {front front' back back' : List α} (absent : a ∉ front) (absent' : a ∉ front')
    (same : front ++ a :: back = front' ++ a :: back') : front = front' ∧ back = back' := by
  induction front generalizing front' with
  | nil =>
    cases front' with
    | nil => exact ⟨rfl, (List.cons.inj same).2⟩
    | cons b front' => exact absurd ((List.cons.inj same).1 ▸ List.mem_cons_self) absent'
  | cons b front ih =>
    cases front' with
    | nil => exact absurd ((List.cons.inj same).1 ▸ List.mem_cons_self) absent
    | cons b' front' =>
      obtain ⟨rfl, rest⟩ := List.cons.inj same
      obtain ⟨rfl, rfl⟩ := ih (fun member => absent (List.mem_cons_of_mem _ member))
        (fun member => absent' (List.mem_cons_of_mem _ member)) rest
      exact ⟨rfl, rfl⟩

variable {readOn : Bool} {out : List Char} {c : Char}

theorem Masked.of_text {rest : List Piece} (masked : Masked readOn (.text c :: rest) out) :
    ∃ later, Masked readOn rest later ∧ out = c :: later := by
  cases masked with
  | text later => exact ⟨_, later, rfl⟩

variable {n : Nat}

theorem Masked.of_closed {inside rest : List Piece} (first : .ticks n ∉ inside)
    (masked : Masked readOn (.ticks n :: (inside ++ .ticks n :: rest)) out) :
    ∃ later, Masked readOn rest later ∧ out = spaces (byteLen (write (.ticks n :: (inside ++ [.ticks n])))) ++ later := by
  have closes : Piece.ticks n ∈ inside ++ .ticks n :: rest := List.mem_append_right _ List.mem_cons_self
  generalize same : inside ++ Piece.ticks n :: rest = after at masked closes
  cases masked with
  | span first' later =>
    obtain ⟨rfl, rfl⟩ := split_first first first' same
    exact ⟨_, later, rfl⟩
  | copied open_ => exact absurd closes open_
  | literal open_ => exact absurd closes open_

theorem Masked.of_open {rest : List Piece} (open_ : .ticks n ∉ rest) (masked : Masked readOn (.ticks n :: rest) out) :
    readOn = false ∧ out = write (.ticks n :: rest) ∨ readOn = true ∧ ∃ later, Masked readOn rest later ∧ out = ticks n ++ later := by
  cases masked with
  | span => exact absurd (List.mem_append_right _ List.mem_cons_self) open_
  | copied _ stops => exact .inl ⟨stops, rfl⟩
  | literal _ goes later => exact .inr ⟨goes, _, later, rfl⟩

/-- A line is masked in one way. -/
theorem Masked.unique {line : List Piece} {out' : List Char} (masked : Masked readOn line out) (masked' : Masked readOn line out') :
    out = out' := by
  induction masked generalizing out' with
  | nil =>
    cases masked'
    rfl
  | text _ ih =>
    obtain ⟨later, masked, rfl⟩ := masked'.of_text
    rw [ih masked]
  | span first _ ih =>
    obtain ⟨later, masked, rfl⟩ := masked'.of_closed first
    rw [ih masked]
  | copied open_ stops =>
    rcases masked'.of_open open_ with ⟨_, same⟩ | ⟨goes, _⟩
    · exact same.symm
    · rw [stops] at goes
      cases goes
  | literal open_ goes _ ih =>
    rcases masked'.of_open open_ with ⟨stops, _⟩ | ⟨_, later, masked, rfl⟩
    · rw [goes] at stops
      cases stops
    · rw [ih masked]

/-! ## Reading runs -/

theorem isTick_iff : isTick c = true ↔ c = '`' := beq_iff_eq

theorem isTick_tick : isTick '`' = true := isTick_iff.mpr rfl

theorem pieces_text {rest : List Char} (plain : isTick c = false) : pieces (c :: rest) = .text c :: pieces rest := by
  rw [pieces, if_neg (by rw [plain]; exact Bool.false_ne_true)]

/-- Not with a backtick. -/
def Starts (text : List Char) : Prop := ∀ c, text.head? = some c → isTick c = false

theorem pieces_one {rest : List Char} (starts : Starts rest) : pieces ('`' :: rest) = .ticks 1 :: pieces rest := by
  rw [pieces, if_pos isTick_tick]
  cases rest with
  | nil => rfl
  | cons c rest =>
    rw [pieces_text (starts c rfl)]

theorem pieces_run {rest : List Char} (starts : Starts rest) :
    pieces (ticks (n + 1) ++ rest) = .ticks (n + 1) :: pieces rest := by
  induction n with
  | zero => exact pieces_one starts
  | succ n ih =>
    have cut : ticks (n + 2) ++ rest = '`' :: (ticks (n + 1) ++ rest) := rfl
    rw [cut, pieces, if_pos isTick_tick, ih]

theorem write_pieces (text : List Char) : write (pieces text) = text := by
  induction text with
  | nil => rfl
  | cons c rest ih =>
    cases tick : isTick c with
    | false =>
      rw [pieces_text tick]
      exact congrArg (c :: ·) ih
    | true =>
      rw [isTick_iff] at tick
      subst tick
      rw [pieces, if_pos isTick_tick]
      cases found : pieces rest with
      | nil =>
        rw [found] at ih
        rw [← ih]
        rfl
      | cons piece later =>
        rw [found] at ih
        cases piece with
        | text c => exact congrArg ('`' :: ·) ih
        | ticks n => exact congrArg ('`' :: ·) ih

/-- The run of backticks a text starts with, and what is after it. -/
theorem run_split {rest : List Char} (tick : isTick c = true) :
    ∃ n after, (c :: rest).takeWhile isTick = ticks (n + 1) ∧ (c :: rest).dropWhile isTick = after ∧ Starts after ∧
      c :: rest = ticks (n + 1) ++ after := by
  have all : ∀ other ∈ (c :: rest).takeWhile isTick, other = '`' := fun other member => isTick_iff.mp (List.all_eq_true.mp List.all_takeWhile other member)
  have run := List.eq_replicate_of_mem all
  have some_ : (c :: rest).takeWhile isTick = c :: rest.takeWhile isTick := List.takeWhile_cons_of_pos tick
  have length : ((c :: rest).takeWhile isTick).length = (rest.takeWhile isTick).length + 1 := by rw [some_, List.length_cons]
  rw [length] at run
  refine ⟨(rest.takeWhile isTick).length, (c :: rest).dropWhile isTick, run, rfl, ?_, ?_⟩
  · intro other first
    obtain ⟨tail, is⟩ := List.head?_eq_some_iff.mp first
    have none_ := List.head_dropWhile_not isTick (l := c :: rest) (by rw [is]; exact List.cons_ne_nil _ _)
    simpa [is] using none_
  · have whole := List.takeWhile_append_dropWhile (p := isTick) (l := c :: rest)
    rw [run] at whole
    exact whole.symm

theorem closing_pieces {fuel : Nat} {text : List Char} (enough : text.length ≤ fuel) :
    (∀ found, closing n fuel text = some found → ∃ inside, pieces text = inside ++ .ticks n :: pieces found.2 ∧
        .ticks n ∉ inside ∧ write (inside ++ [.ticks n]) = found.1 ∧ found.2.length < text.length) ∧
      (closing n fuel text = none → .ticks n ∉ pieces text) := by
  induction fuel generalizing text with
  | zero =>
    have none_ := List.length_eq_zero_iff.mp (Nat.le_zero.mp enough)
    subst none_
    exact ⟨fun _ found => (by cases found), fun _ => List.not_mem_nil⟩
  | succ fuel ih =>
    cases text with
    | nil => exact ⟨fun _ found => (by cases found), fun _ => List.not_mem_nil⟩
    | cons c rest =>
      rw [List.length_cons] at enough
      cases tick : isTick c with
      | false =>
        obtain ⟨finds, misses⟩ := @ih rest (by omega)
        have next : closing n (fuel + 1) (c :: rest) = (closing n fuel rest).map fun found => (c :: found.1, found.2) := by
          rw [closing, if_neg (by rw [tick]; exact Bool.false_ne_true)]
        rw [next, pieces_text tick]
        constructor
        · intro found answer
          obtain ⟨later, found', rfl⟩ := Option.map_eq_some_iff.mp answer
          obtain ⟨inside, whole, first, written, shorter⟩ := finds later found'
          refine ⟨.text c :: inside, congrArg (.text c :: ·) whole, ?_, congrArg (c :: ·) written, ?_⟩
          · intro member
            rcases List.mem_cons.mp member with wrong | member
            · cases wrong
            · exact first member
          · exact Nat.lt_succ_of_lt shorter
        · intro answer member
          rcases List.mem_cons.mp member with wrong | member
          · cases wrong
          · exact misses (Option.map_eq_none_iff.mp answer) member
      | true =>
        obtain ⟨m, after, run, dropped, starts, whole⟩ := @run_split c rest tick
        have lengths := congrArg List.length whole
        rw [List.length_cons, List.length_append, ticks, List.length_replicate] at lengths
        have next : closing n (fuel + 1) (c :: rest) = if m + 1 = n then some (ticks (m + 1), after)
            else (closing n fuel after).map fun found => (ticks (m + 1) ++ found.1, found.2) := by
          rw [closing, if_pos tick, run, dropped]
          simp only [ticks, List.length_replicate]
        rw [next, whole, pieces_run starts]
        by_cases same : m + 1 = n
        · subst same
          rw [if_pos rfl]
          constructor
          · rintro found answer
            cases answer
            exact ⟨[], rfl, List.not_mem_nil, List.append_nil _, by simp [ticks]⟩
          · intro answer
            cases answer
        · rw [if_neg same]
          obtain ⟨finds, misses⟩ := @ih after (by omega)
          have differ : Piece.ticks n ≠ .ticks (m + 1) := fun wrong => same (Piece.ticks.inj wrong).symm
          constructor
          · intro found answer
            obtain ⟨later, found', rfl⟩ := Option.map_eq_some_iff.mp answer
            obtain ⟨inside, parts, first, written, shorter⟩ := finds later found'
            refine ⟨.ticks (m + 1) :: inside, congrArg (.ticks (m + 1) :: ·) parts, ?_, congrArg (ticks (m + 1) ++ ·) written, ?_⟩
            · intro member
              rcases List.mem_cons.mp member with wrong | member
              · exact differ wrong
              · exact first member
            · dsimp only
              rw [List.length_append]
              omega
          · intro answer member
            rcases List.mem_cons.mp member with wrong | member
            · exact differ wrong
            · exact misses (Option.map_eq_none_iff.mp answer) member

theorem byteLen_append (front rest : List Char) : byteLen (front ++ rest) = byteLen front + byteLen rest := by
  rw [byteLen, List.map_append, List.sum_append, byteLen, byteLen]

theorem byteLen_ticks (n : Nat) : byteLen (ticks n) = n := by
  rw [byteLen, ticks, List.map_replicate, List.sum_replicate_nat]
  exact Nat.mul_one n

theorem maskFrom_masked {fuel : Nat} {text : List Char} (enough : text.length ≤ fuel) : Masked false (pieces text) (maskFrom fuel text) := by
  induction fuel generalizing text with
  | zero =>
    have none_ := List.length_eq_zero_iff.mp (Nat.le_zero.mp enough)
    subst none_
    exact .nil
  | succ fuel ih =>
    cases text with
    | nil => exact .nil
    | cons c rest =>
      rw [List.length_cons] at enough
      cases tick : isTick c with
      | false =>
        rw [pieces_text tick, maskFrom, if_neg (by rw [tick]; exact Bool.false_ne_true)]
        exact .text (ih (by omega))
      | true =>
        obtain ⟨m, after, run, dropped, starts, whole⟩ := @run_split c rest tick
        have lengths := congrArg List.length whole
        rw [List.length_cons, List.length_append, ticks, List.length_replicate] at lengths
        obtain ⟨finds, misses⟩ := @closing_pieces (m + 1) after.length after (Nat.le_refl _)
        have length : (ticks (m + 1)).length = m + 1 := List.length_replicate
        rw [maskFrom, if_pos tick, run, dropped]
        dsimp only
        rw [length]
        cases found : closing (m + 1) after.length after with
        | some found' =>
          obtain ⟨inside, parts, first, written, shorter⟩ := finds found' found
          rw [whole, pieces_run starts, parts]
          have span := Masked.span first (@ih found'.2 (by omega))
          have cut : write (Piece.ticks (m + 1) :: (inside ++ [.ticks (m + 1)])) = ticks (m + 1) ++ found'.1 := by
            rw [← written]
            rfl
          rw [cut, byteLen_append, byteLen_ticks] at span
          exact span
        | none =>
          have copied := Masked.copied (misses found) (rfl : false = false)
          rw [← pieces_run starts, ← whole, write_pieces] at copied
          exact copied

/-! ## Fences -/

/-- After whitespace the line starts with exactly `n` backticks or tildes, 3 or more. -/
structure Fence (line : List Char) (c : Char) (n : Nat) : Prop where
  mark : c = '`' ∨ c = '~'
  long : 3 ≤ n
  leads : ∃ indent rest, line = indent ++ (List.replicate n c ++ rest) ∧ (∀ other ∈ indent, isWhitespace other = true) ∧
    rest.head? ≠ some c

theorem takeWhile_run {rest : List Char} (ends : rest.head? ≠ some c) :
    (List.replicate n c ++ rest).takeWhile (· == c) = List.replicate n c := by
  rw [List.takeWhile_append_of_pos (by intro other member; rw [List.eq_of_mem_replicate member]; exact beq_self_eq_true c)]
  have stops : rest.takeWhile (· == c) = [] := by
    cases rest with
    | nil => rfl
    | cons other rest =>
      apply List.takeWhile_cons_of_neg
      intro same
      exact ends (congrArg some (beq_iff_eq.mp same))
  rw [stops, List.append_nil]

theorem leadingFence_iff {line : List Char} : leadingFence line = some (c, n) ↔ Fence line c n := by
  constructor
  · intro found
    obtain ⟨first, head, answer⟩ := Option.bind_eq_some_iff.mp found
    split at answer
    · cases answer
    rename_i marked
    dsimp only at answer
    split at answer
    · rename_i long
      cases answer
      refine ⟨?_, long, line.takeWhile isWhitespace, (line.dropWhile isWhitespace).dropWhile (· == c), ?_, ?_, ?_⟩
      · simpa [Classical.or_iff_not_imp_left] using marked
      · have all : ∀ other ∈ (line.dropWhile isWhitespace).takeWhile (· == c), other = c :=
          fun other member => beq_iff_eq.mp (List.all_eq_true.mp List.all_takeWhile other member)
        rw [← List.eq_replicate_of_mem all, List.takeWhile_append_dropWhile, List.takeWhile_append_dropWhile]
      · exact fun other member => List.all_eq_true.mp List.all_takeWhile other member
      · intro same
        obtain ⟨tail, is⟩ := List.head?_eq_some_iff.mp same
        have none_ := List.head_dropWhile_not (· == c) (l := line.dropWhile isWhitespace) (by rw [is]; exact List.cons_ne_nil _ _)
        simp [is] at none_
    · cases answer
  · rintro ⟨mark, long, indent, rest, rfl, blank, ends⟩
    obtain ⟨n, rfl⟩ : ∃ m, n = m + 1 := ⟨n - 1, by omega⟩
    have dark : isWhitespace c = false := by
      rcases mark with rfl | rfl <;> decide
    have trimmed : (indent ++ (List.replicate (n + 1) c ++ rest)).dropWhile isWhitespace = List.replicate (n + 1) c ++ rest := by
      rw [List.dropWhile_append_of_pos blank, List.replicate_succ, List.cons_append,
        List.dropWhile_cons_of_neg (by rw [dark]; exact Bool.false_ne_true)]
    have marked : ¬ (c != '`' && c != '~') = true := by
      rcases mark with rfl | rfl <;> decide
    have head : (List.replicate (n + 1) c ++ rest).head? = some c := rfl
    rw [leadingFence, trimmed, head, Option.bind_some, if_neg marked, takeWhile_run ends]
    dsimp only
    rw [List.length_replicate, if_pos long]

/-- A text's lines and what each becomes, in or out of a fenced block: a fence opens one,
and the next fence of the same character that is as long closes it. -/
inductive Blocks (readOn : Bool) (blank : List Char → List Char) : Option (Char × Nat) → List (List Char) → List (List Char) → Prop
  | nil (block : Option (Char × Nat)) : Blocks readOn blank block [] []
  | opens {c : Char} {n : Nat} {line : List Char} {lines outs : List (List Char)} (fence : Fence line c n)
      (later : Blocks readOn blank (some (c, n)) lines outs) : Blocks readOn blank none (line :: lines) (blank line :: outs)
  | inside {c : Char} {n : Nat} {line : List Char} {lines outs : List (List Char)} (stays : ∀ len, Fence line c len → len < n)
      (later : Blocks readOn blank (some (c, n)) lines outs) : Blocks readOn blank (some (c, n)) (line :: lines) (blank line :: outs)
  | closes {c : Char} {n len : Nat} {line : List Char} {lines outs : List (List Char)} (fence : Fence line c len) (long : n ≤ len)
      (later : Blocks readOn blank none lines outs) : Blocks readOn blank (some (c, n)) (line :: lines) (blank line :: outs)
  | prose {line out : List Char} {lines outs : List (List Char)} (plain : ∀ c n, ¬ Fence line c n)
      (masked : Masked readOn (pieces line) out) (later : Blocks readOn blank none lines outs) :
      Blocks readOn blank none (line :: lines) (out :: outs)

theorem Fence.same {line : List Char} {c' : Char} {n' : Nat} (fence : Fence line c n) (fence' : Fence line c' n') :
    c = c' ∧ n = n' := by
  have same := (leadingFence_iff.mpr fence).symm.trans (leadingFence_iff.mpr fence')
  exact Prod.mk.inj (Option.some.inj same)

theorem no_fence {line : List Char} (none_ : leadingFence line = none) (c : Char) (n : Nat) : ¬ Fence line c n := by
  intro fence
  rw [leadingFence_iff.mpr fence] at none_
  cases none_

theorem Blocks.unique {blank : List Char → List Char} {block : Option (Char × Nat)} {lines outs outs' : List (List Char)}
    (blocks : Blocks readOn blank block lines outs) (blocks' : Blocks readOn blank block lines outs') : outs = outs' := by
  induction blocks generalizing outs' with
  | nil =>
    cases blocks'
    rfl
  | opens fence _ ih =>
    cases blocks' with
    | opens fence' later' =>
      obtain ⟨rfl, rfl⟩ := fence.same fence'
      rw [ih later']
    | prose plain => exact absurd fence (plain _ _)
  | inside stays _ ih =>
    cases blocks' with
    | inside _ later' => rw [ih later']
    | closes fence long => exact absurd (stays _ fence) (Nat.not_lt.mpr long)
  | closes fence long _ ih =>
    cases blocks' with
    | inside stays => exact absurd (stays _ fence) (Nat.not_lt.mpr long)
    | closes _ _ later' => rw [ih later']
  | prose plain masked _ ih =>
    cases blocks' with
    | opens fence => exact absurd fence (plain _ _)
    | prose _ masked' later' => rw [ih later', masked.unique masked']

theorem maskLines_blocks (block : Option (Char × Nat)) (lines : List (List Char)) :
    ∃ outs, maskLines block lines = outs.flatten ∧ Blocks false blankLine block lines outs := by
  induction lines generalizing block with
  | nil => exact ⟨[], by cases block <;> rfl, .nil block⟩
  | cons line lines ih =>
    cases block with
    | none =>
      cases found : leadingFence line with
      | some fence =>
        obtain ⟨outs, whole, blocks⟩ := ih (some fence)
        refine ⟨blankLine line :: outs, ?_, .opens (leadingFence_iff.mp found) blocks⟩
        rw [maskLines, found, List.flatten_cons, ← whole]
      | none =>
        obtain ⟨outs, whole, blocks⟩ := ih none
        refine ⟨maskInlineCode line :: outs, ?_, .prose (no_fence found) (maskFrom_masked (Nat.le_refl _)) blocks⟩
        rw [maskLines, found, List.flatten_cons, ← whole]
    | some fence =>
      obtain ⟨fc, flen⟩ := fence
      cases found : leadingFence line with
      | some fence =>
        obtain ⟨c, len⟩ := fence
        have here := leadingFence_iff.mp found
        by_cases ends : c = fc ∧ flen ≤ len
        · obtain ⟨outs, whole, blocks⟩ := ih none
          refine ⟨blankLine line :: outs, ?_, .closes (ends.1 ▸ here) ends.2 blocks⟩
          rw [maskLines, found, List.flatten_cons, ← whole]
          dsimp only
          rw [if_pos ends]
        · obtain ⟨outs, whole, blocks⟩ := ih (some (fc, flen))
          refine ⟨blankLine line :: outs, ?_, .inside ?_ blocks⟩
          · rw [maskLines, found, List.flatten_cons, ← whole]
            dsimp only
            rw [if_neg ends]
          · intro len' fence'
            obtain ⟨rfl, rfl⟩ := here.same fence'
            by_contra long
            exact ends ⟨rfl, Nat.not_lt.mp long⟩
      | none =>
        obtain ⟨outs, whole, blocks⟩ := ih (some (fc, flen))
        refine ⟨blankLine line :: outs, ?_, .inside (fun len fence => absurd fence (no_fence found _ _)) blocks⟩
        rw [maskLines, found, List.flatten_cons, ← whole]

/-! ## Bytes -/

/-- A byte stays or becomes a space; a newline stays. -/
def Blanked (a b : UInt8) : Prop := b = a ∨ b = 0x20 ∧ a ≠ 0x0A

theorem blanked_refl (bytes : List UInt8) : List.Forall₂ Blanked bytes bytes := List.forall₂_same.mpr fun _ _ => .inl rfl

theorem blanked_append {front front' rest rest' : List UInt8} (first : List.Forall₂ Blanked front front')
    (second : List.Forall₂ Blanked rest rest') : List.Forall₂ Blanked (front ++ rest) (front' ++ rest') :=
  List.rel_append first second

theorem utf8_spaces (n : Nat) : utf8 (spaces n) = List.replicate n 0x20 := by
  induction n with
  | zero => rfl
  | succ n ih => exact congrArg (0x20 :: ·) ih

theorem utf8_length (text : List Char) : (utf8 text).length = byteLen text := by
  rw [utf8, List.length_flatMap, byteLen]
  simp only [String.length_utf8EncodeChar]

theorem blanked_spaces {text : List Char} (absent : '\n' ∉ text) :
    List.Forall₂ Blanked (utf8 text) (utf8 (spaces (byteLen text))) := by
  have dark : (0x0A : UInt8) ∉ utf8 text := ProviderWire.newline_not_mem_utf8 absent
  rw [utf8_spaces, ← utf8_length]
  generalize utf8 text = bytes at dark
  induction bytes with
  | nil => exact .nil
  | cons b bytes ih =>
    have other : b ≠ 0x0A := fun same => dark (same ▸ List.mem_cons_self)
    exact .cons (.inr ⟨rfl, other⟩) (ih fun member => dark (List.mem_cons_of_mem _ member))

theorem blanked_line (line : List Char) : List.Forall₂ Blanked (utf8 line) (utf8 (blankLine line)) := by
  induction line with
  | nil => exact .nil
  | cons c line ih =>
    have cut : utf8 (c :: line) = utf8 [c] ++ utf8 line := utf8_append [c] line
    have first : List.Forall₂ Blanked (utf8 [c]) (utf8 (if c = '\n' ∨ c = '\r' then [c] else spaces c.utf8Size)) := by
      by_cases ends : c = '\n' ∨ c = '\r'
      · rw [if_pos ends]
        exact blanked_refl _
      · rw [if_neg ends]
        have absent : '\n' ∉ [c] := fun member => ends (.inl (List.mem_singleton.mp member).symm)
        have size : byteLen [c] = c.utf8Size := by simp [byteLen]
        have blanked := blanked_spaces absent
        rw [size] at blanked
        exact blanked
    rw [blankLine, List.flatMap_cons, utf8_append, cut]
    exact blanked_append first ih

/-- A newline ends the text it is in. -/
def Ended (text : List Char) : Prop := ∀ front back, text = front ++ '\n' :: back → back = []

theorem Ended.of_append {front rest : List Char} (ended : Ended (front ++ rest)) : Ended rest := by
  intro before back same
  exact ended (front ++ before) back (by rw [same, List.append_assoc])

theorem Masked.bytes {line : List Piece} (masked : Masked readOn line out) (proper : ∀ n, .ticks n ∈ line → 0 < n)
    (ended : Ended (write line)) : List.Forall₂ Blanked (utf8 (write line)) (utf8 out) := by
  induction masked with
  | nil => exact .nil
  | @text c rest out _ ih =>
    have later := ih (fun n member => proper n (List.mem_cons_of_mem _ member)) (@Ended.of_append [c] _ ended)
    have cut : utf8 (write (.text c :: rest)) = utf8 [c] ++ utf8 (write rest) := utf8_append [c] _
    have cut' : utf8 (c :: out) = utf8 [c] ++ utf8 out := utf8_append [c] out
    rw [cut, cut']
    exact blanked_append (blanked_refl _) later
  | @span n inside rest out _ _ ih =>
    have cut : write (.ticks n :: (inside ++ .ticks n :: rest)) = write (.ticks n :: (inside ++ [.ticks n])) ++ write rest := by
      simp [write]
    have later : ∀ m, .ticks m ∈ rest → 0 < m :=
      fun m member => proper m (List.mem_cons_of_mem _ (List.mem_append_right _ (List.mem_cons_of_mem _ member)))
    rw [cut] at ended ⊢
    rw [utf8_append, utf8_append]
    refine blanked_append (blanked_spaces ?_) (ih later ended.of_append)
    -- A newline before the closing run would not end the line.
    intro member
    have ticks_ : '\n' ∉ ticks n := fun inside => absurd (List.eq_of_mem_replicate inside) (by decide)
    have parts : write (.ticks n :: (inside ++ [.ticks n])) = ticks n ++ (write inside ++ ticks n) := by
      simp [write, Piece.write]
    have inner : '\n' ∈ write inside := by
      rw [parts, List.mem_append, List.mem_append] at member
      rcases member with wrong | inner | wrong
      · exact absurd wrong ticks_
      · exact inner
      · exact absurd wrong ticks_
    obtain ⟨front, back, split⟩ := List.append_of_mem inner
    have over_ := ended (ticks n ++ front) (back ++ ticks n ++ write rest) (by rw [parts, split]; simp)
    have closing_ : ticks n = [] := (List.append_eq_nil_iff.mp (List.append_eq_nil_iff.mp over_).1).2
    have positive := proper n List.mem_cons_self
    rw [ticks, List.replicate_eq_nil_iff] at closing_
    omega
  | copied => exact blanked_refl _
  | @literal n rest out _ _ _ ih =>
    have later := ih (fun m member => proper m (List.mem_cons_of_mem _ member)) (@Ended.of_append (ticks n) _ ended)
    have cut : write (.ticks n :: rest) = ticks n ++ write rest := rfl
    rw [cut, utf8_append, utf8_append]
    exact blanked_append (blanked_refl _) later

theorem pieces_proper (text : List Char) : ∀ n, .ticks n ∈ pieces text → 0 < n := by
  induction text with
  | nil => exact fun n member => absurd member List.not_mem_nil
  | cons c rest ih =>
    intro n member
    rw [pieces] at member
    split at member
    · split at member
      · rename_i m later found
        rcases List.mem_cons.mp member with same | member
        · rw [Piece.ticks.inj same]
          exact Nat.succ_pos m
        · exact ih n (found ▸ List.mem_cons_of_mem _ member)
      · rcases List.mem_cons.mp member with same | member
        · rw [Piece.ticks.inj same]
          exact Nat.one_pos
        · exact ih n member
    · rcases List.mem_cons.mp member with wrong | member
      · cases wrong
      · exact ih n member

theorem Blocks.bytes {block : Option (Char × Nat)} {lines outs : List (List Char)} (blocks : Blocks false blankLine block lines outs)
    (ended : ∀ line ∈ lines, Ended line) : List.Forall₂ Blanked (utf8 lines.flatten) (utf8 outs.flatten) := by
  induction blocks with
  | nil => exact .nil
  | opens _ _ ih | inside _ _ ih | closes _ _ _ ih =>
    rw [List.flatten_cons, List.flatten_cons, utf8_append, utf8_append]
    exact blanked_append (blanked_line _) (ih fun line member => ended line (List.mem_cons_of_mem _ member))
  | @prose line out lines outs _ masked _ ih =>
    rw [List.flatten_cons, List.flatten_cons, utf8_append, utf8_append]
    have here := ended line List.mem_cons_self
    have first := masked.bytes (pieces_proper line) (by rw [write_pieces]; exact here)
    rw [write_pieces] at first
    exact blanked_append first (ih fun line member => ended line (List.mem_cons_of_mem _ member))

theorem splitInclusive_lines (body : List Char) : (splitInclusive body).flatten = body ∧ ∀ line ∈ splitInclusive body, Ended line := by
  induction body with
  | nil => exact ⟨rfl, fun _ member => absurd member List.not_mem_nil⟩
  | cons c rest ih =>
    obtain ⟨whole, ended⟩ := ih
    rw [splitInclusive]
    by_cases ends : c = '\n'
    · rw [if_pos ends]
      refine ⟨congrArg (c :: ·) whole, ?_⟩
      intro line member
      rcases List.mem_cons.mp member with rfl | member
      · intro front back same
        cases front with
        | nil => exact (List.cons.inj same).2.symm
        | cons _ front => exact absurd (List.cons.inj same).2.symm (by simp)
      · exact ended line member
    · rw [if_neg ends]
      have longer : ∀ line, Ended line → Ended (c :: line) := by
        intro line ended front back same
        cases front with
        | nil => exact absurd (List.cons.inj same).1 ends
        | cons _ front => exact ended front back (List.cons.inj same).2
      split
      · rename_i none_
        rw [none_] at whole
        refine ⟨congrArg (c :: ·) whole, ?_⟩
        intro line member
        rw [List.mem_singleton.mp member]
        exact longer [] fun front back same => absurd same (by simp)
      · rename_i first lines found
        rw [found] at whole ended
        refine ⟨congrArg (c :: ·) whole, ?_⟩
        intro line member
        rcases List.mem_cons.mp member with rfl | member
        · exact longer first (ended first List.mem_cons_self)
        · exact ended line (List.mem_cons_of_mem _ member)

theorem blanked_newlines {bytes bytes' : List UInt8} (blanked : List.Forall₂ Blanked bytes bytes') (i : Nat) :
    bytes'[i]? = some 0x0A ↔ bytes[i]? = some 0x0A := by
  induction blanked generalizing i with
  | nil => rfl
  | @cons a b bytes bytes' first _ ih =>
    cases i with
    | zero =>
      simp only [List.getElem?_cons_zero, Option.some.injEq]
      rcases first with rfl | ⟨rfl, other⟩
      · rfl
      · exact ⟨fun wrong => absurd wrong (by decide), fun same => absurd same other⟩
    | succ i => exact ih i

/-! ## The text -/

/-- A text's lines are masked in the one way the fenced blocks and the code spans say, as
many bytes come out as went in, and the newlines stay where they were. -/
theorem masks_code (body : List Char) : ∃ outs, maskCodeRegions body = outs.flatten ∧
    (∀ other, Blocks false blankLine none (splitInclusive body) other ↔ other = outs) ∧
    (utf8 (maskCodeRegions body)).length = (utf8 body).length ∧
    ∀ i : Nat, (utf8 (maskCodeRegions body))[i]? = some 0x0A ↔ (utf8 body)[i]? = some 0x0A := by
  obtain ⟨outs, whole, blocks⟩ := maskLines_blocks none (splitInclusive body)
  obtain ⟨same, ended⟩ := splitInclusive_lines body
  have blanked := blocks.bytes ended
  rw [same, ← whole] at blanked
  refine ⟨outs, whole, fun other => ⟨fun other' => other'.unique blocks, fun is => is ▸ blocks⟩, blanked.length_eq.symm, ?_⟩
  exact blanked_newlines blanked

/-- A line with every byte but the newline blanked. -/
def blankWhole (line : List Char) : List Char := line.flatMap fun c => if c = '\n' then [c] else spaces c.utf8Size

/-- A run that nothing closes ends the reading of its line: the span after it stays. -/
theorem unclosed_run_copies : ¬ ∀ body : List Char, ∃ outs, maskCodeRegions body = outs.flatten ∧
    Blocks true blankWhole none (splitInclusive body) outs := by
  intro claimed
  obtain ⟨outs, whole, blocks⟩ := claimed ['`', '`', 'x', ' ', '`', 'y', '`']
  have copied : maskCodeRegions ['`', '`', 'x', ' ', '`', 'y', '`'] = ['`', '`', 'x', ' ', '`', 'y', '`'] := by decide
  have plain : leadingFence ['`', '`', 'x', ' ', '`', 'y', '`'] = none := by decide
  have read : pieces ['`', '`', 'x', ' ', '`', 'y', '`'] = [.ticks 2, .text 'x', .text ' ', .ticks 1, .text 'y', .ticks 1] := by
    decide
  have spanned : Masked true [.ticks 2, .text 'x', .text ' ', .ticks 1, .text 'y', .ticks 1]
      (ticks 2 ++ 'x' :: ' ' :: (spaces (byteLen (write (.ticks 1 :: ([.text 'y'] ++ [.ticks 1])))) ++ [])) :=
    .literal (by decide) rfl (.text (.text (@Masked.span _ _ [.text 'y'] _ _ (by decide) .nil)))
  have blocks' : Blocks true blankWhole none [['`', '`', 'x', ' ', '`', 'y', '`']]
      [ticks 2 ++ 'x' :: ' ' :: (spaces (byteLen (write (.ticks 1 :: ([.text 'y'] ++ [.ticks 1])))) ++ [])] :=
    .prose (no_fence plain) (read ▸ spanned) (.nil none)
  have one : splitInclusive ['`', '`', 'x', ' ', '`', 'y', '`'] = [['`', '`', 'x', ' ', '`', 'y', '`']] := by decide
  rw [one] at blocks
  rw [blocks.unique blocks', copied] at whole
  exact absurd whole (by decide)

end Oxplow.Proofs.Masking
