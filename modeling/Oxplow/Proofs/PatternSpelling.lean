import Mathlib.Data.List.Induction
import Oxplow.Proofs.PatternReading

/-! Reading what `spell` writes, and the kept pattern. -/

namespace Oxplow.Proofs.PatternSpelling
open Oxplow.Extensions.ParamPattern Oxplow.Library
open Oxplow.Proofs.PatternReading

/-! ## Characters -/

theorem escapable_mark (c : Char) (mark : c ∈ syntaxMarks) : escapable c = true ∧ c ≠ 'd' ∧ c ≠ 'w' := by
  have all : (syntaxMarks.all fun c => escapable c && (c != 'd' && c != 'w')) = true := by decide
  simpa using List.all_eq_true.mp all c mark

variable {n : Nat}

theorem toNat_ofNat (small : n ≤ 0x7e) : (Char.ofNat n).toNat = n := by
  have valid : n.isValidChar := .inl (by omega)
  rw [Char.ofNat, dif_pos valid]
  rfl

variable {c : Char}

theorem escape_mark (mark : c ∈ syntaxMarks) : escape (some c) = .ok (bit c) := by
  obtain ⟨esc, notDigits, notWord⟩ := escapable_mark c mark
  rw [escape, if_pos esc]
  · exact notDigits
  · exact notWord

/-- What begins a character's spelling. -/
theorem one_cases (c : Char) : one c = ['\\', c] ∧ c ∈ syntaxMarks ∨ one c = [c] ∧ c ∉ syntaxMarks := by
  by_cases mark : c ∈ syntaxMarks
  · exact .inl ⟨if_pos mark, mark⟩
  · exact .inr ⟨if_neg mark, mark⟩

theorem ne_of_plain {d : Char} (plain : c ∉ syntaxMarks) (mark : d ∈ syntaxMarks) : c ≠ d :=
  fun same => plain (same ▸ mark)

/-! ## Classes -/

variable {acc : BitVec 128} {start : Option Char} {first : Bool} {tail : List Char}

theorem classSet_plain (plain : c ∉ syntaxMarks) :
    classSet acc start first (c :: tail) = classSet (acc ||| bit c) (some c) false tail := by
  have ne (d : Char) (mark : d ∈ syntaxMarks) : ¬ c = d := ne_of_plain plain mark
  rw [classSet.eq_def]
  simp [ne ']' (by decide), ne '^' (by decide), ne '[' (by decide), ne '&' (by decide), ne '~' (by decide),
    ne '-' (by decide), ne '\\' (by decide)]

theorem classSet_escaped (mark : c ∈ syntaxMarks) :
    classSet acc start first ('\\' :: c :: tail) = classSet (acc ||| bit c) (some c) false tail := by
  obtain ⟨esc, notDigits, notWord⟩ := escapable_mark c mark
  rw [classSet.eq_def]
  simp [esc]

theorem classSet_one (c : Char) :
    classSet acc start first (one c ++ tail) = classSet (acc ||| bit c) (some c) false tail := by
  rcases one_cases c with ⟨text, mark⟩ | ⟨text, plain⟩
  · rw [text]
    exact classSet_escaped mark
  · rw [text]
    exact classSet_plain plain

theorem classSet_range {lo hi : Char} (order : lo.toNat ≤ hi.toNat) :
    classSet acc start first (one lo ++ '-' :: (one hi ++ tail)) =
      classSet (acc ||| bit lo ||| span lo hi) none false tail := by
  have forward : ¬ hi < lo := by simpa [Char.lt_def, UInt32.lt_iff_toNat_lt] using order
  rw [classSet_one]
  rcases one_cases hi with ⟨text, mark⟩ | ⟨text, plain⟩
  · rw [text, classSet.eq_def]
    simp [(escapable_mark hi mark).1, forward]
  · have ne (d : Char) (mark : d ∈ syntaxMarks) : ¬ hi = d := ne_of_plain plain mark
    rw [text, classSet.eq_def]
    simp [ne ']' (by decide), ne '[' (by decide), ne '-' (by decide), ne '\\' (by decide), forward]

theorem classSet_end (begun : first = false) : classSet acc start first (']' :: tail) = .ok (acc, tail) := by
  rw [classSet.eq_def]
  simp [begun]

variable {set : BitVec 128}

theorem stretch_spec (fuel : Nat) {c : Nat} (on : set.getLsbD c = true) (small : c ≤ 0x7e) :
    c ≤ stretch set fuel c ∧ stretch set fuel c ≤ 0x7e ∧ ∀ k, c ≤ k → k ≤ stretch set fuel c → set.getLsbD k = true := by
  have here {c : Nat} (on : set.getLsbD c = true) : ∀ k, c ≤ k → k ≤ c → set.getLsbD k = true :=
    fun k above below => Nat.le_antisymm below above ▸ on
  induction fuel generalizing c with
  | zero => exact ⟨Nat.le_refl c, small, here on⟩
  | succ fuel ih =>
    rw [stretch]
    split
    · rename_i more
      simp only [Bool.and_eq_true, decide_eq_true_eq] at more
      obtain ⟨above, below, all⟩ := ih more.2 (Nat.succ_le_of_lt more.1)
      refine ⟨by omega, below, fun k low high => ?_⟩
      rcases Nat.eq_or_lt_of_le low with rfl | later
      · exact on
      · exact all k later high
    · exact ⟨Nat.le_refl c, small, here on⟩

/-- The bits added for a row of characters. -/
theorem classSet_row (acc : BitVec 128) (start : Option Char) (first : Bool) (tail : List Char) {c last : Nat}
    (order : c ≤ last) (high : last ≤ 0x7e) : ∃ out next,
    classSet acc start first
        ((if last = c then one (Char.ofNat c) else if last = c + 1 then one (Char.ofNat c) ++ one (Char.ofNat last)
          else one (Char.ofNat c) ++ '-' :: one (Char.ofNat last)) ++ tail) = classSet out next false tail ∧
      ∀ k, out.getLsbD k = (acc.getLsbD k || (decide (c ≤ k) && decide (k ≤ last))) := by
  have low := toNat_ofNat (Nat.le_trans order high)
  have last' := toNat_ofNat high
  split
  · refine ⟨_, _, classSet_one _, fun k => ?_⟩
    rw [BitVec.getLsbD_or, getLsbD_bit, low]
    congr 1
    rw [Bool.eq_iff_iff]
    simp only [Bool.and_eq_true, decide_eq_true_eq]
    omega
  split
  · refine ⟨_, _, by rw [List.append_assoc, classSet_one, classSet_one], fun k => ?_⟩
    rw [BitVec.getLsbD_or, BitVec.getLsbD_or, getLsbD_bit, getLsbD_bit, low, last', Bool.or_assoc]
    congr 1
    rw [Bool.eq_iff_iff]
    simp only [Bool.or_eq_true, Bool.and_eq_true, decide_eq_true_eq]
    omega
  · refine ⟨_, _, by rw [List.append_assoc, List.cons_append, classSet_range (by omega)], fun k => ?_⟩
    rw [BitVec.getLsbD_or, BitVec.getLsbD_or, getLsbD_bit, getLsbD_span, low, last', Bool.or_assoc]
    congr 1
    rw [Bool.eq_iff_iff]
    simp only [Bool.or_eq_true, Bool.and_eq_true, decide_eq_true_eq]
    omega

theorem off_large (readable : Readable set) {k : Nat} (large : 0x7e < k) : set.getLsbD k = false := by
  by_contra on
  have bound := readable.within k (by simpa using on)
  omega

/-- Nothing is left of the set. -/
theorem classSet_done {set : BitVec 128} (readable : Readable set) {c : Nat} (large : 0x7e < c)
    (left : first = true → ∃ k, c ≤ k ∧ set.getLsbD k = true) : ∃ out,
      classSet acc start first (']' :: tail) = .ok (out, tail) ∧
        ∀ k, out.getLsbD k = (acc.getLsbD k || (decide (c ≤ k) && set.getLsbD k)) := by
  have begun : first = false := by
    by_contra still
    obtain ⟨k, above, on⟩ := left (by simpa using still)
    rw [off_large readable (Nat.lt_of_lt_of_le large above)] at on
    cases on
  refine ⟨acc, classSet_end begun, fun k => ?_⟩
  by_cases above : c ≤ k
  · rw [off_large readable (Nat.lt_of_lt_of_le large above), Bool.and_false, Bool.or_false]
  · rw [decide_eq_false above, Bool.false_and, Bool.or_false]

/-- A class read from `c` on has the set's characters from `c` on. -/
theorem classSet_ranges {set : BitVec 128} (readable : Readable set) {fuel c : Nat} (enough : 0x7f ≤ fuel + c)
    (left : first = true → ∃ k, c ≤ k ∧ set.getLsbD k = true) : ∃ out,
      classSet acc start first (ranges set fuel c ++ ']' :: tail) = .ok (out, tail) ∧
        ∀ k, out.getLsbD k = (acc.getLsbD k || (decide (c ≤ k) && set.getLsbD k)) := by
  induction fuel generalizing c acc start first with
  | zero => exact classSet_done readable (by omega) left
  | succ fuel ih =>
    rw [ranges]
    split
    · rename_i large
      exact classSet_done readable large left
    rename_i small
    split
    · rename_i skip
      have skipped : set.getLsbD c = false := by simpa using skip
      have later : first = true → ∃ k, c + 1 ≤ k ∧ set.getLsbD k = true := by
        intro still
        obtain ⟨k, above, on⟩ := left still
        rcases Nat.eq_or_lt_of_le above with rfl | after
        · rw [skipped] at on
          cases on
        · exact ⟨k, after, on⟩
      obtain ⟨out, read, bits⟩ := ih (by omega) later
      refine ⟨out, read, fun k => ?_⟩
      rw [bits k]
      congr 1
      rcases Nat.lt_trichotomy c k with after | rfl | before
      · rw [decide_eq_true (Nat.succ_le_of_lt after), decide_eq_true after.le]
      · rw [skipped, Bool.and_false, Bool.and_false]
      · rw [decide_eq_false (by omega), decide_eq_false (by omega)]
    · rename_i here
      have on : set.getLsbD c = true := by simpa using here
      obtain ⟨above, below, row⟩ := stretch_spec 95 on (Nat.le_of_not_lt small)
      obtain ⟨next, single, same, added⟩ :=
        classSet_row acc start first (ranges set fuel (stretch set 95 c + 1) ++ ']' :: tail) above below
      obtain ⟨out, read, bits⟩ := @ih next single false (stretch set 95 c + 1) (by omega) (by simp)
      refine ⟨out, ?_, fun k => ?_⟩
      · rw [List.append_assoc, same]
        exact read
      · rw [bits k, added k, Bool.or_assoc]
        congr 1
        rcases Nat.lt_or_ge k c with before | after
        · have early : ¬ stretch set 95 c + 1 ≤ k := by omega
          rw [decide_eq_false (Nat.not_le_of_lt before), decide_eq_false early]
          rfl
        rcases Nat.lt_or_ge (stretch set 95 c) k with past | within
        · rw [decide_eq_false (Nat.not_le_of_lt past), decide_eq_true (Nat.succ_le_of_lt past), decide_eq_true after]
          rfl
        · rw [row k after within, decide_eq_true after, decide_eq_true within]
          rfl

/-! ## Runs -/

/-- A set of one character is that character's. -/
theorem single_bit (single : countOnes set = 1) (readable : Readable set) :
    set = bit (Char.ofNat (trailingZeros set)) ∧ trailingZeros set ≤ 0x7e := by
  obtain ⟨k, only⟩ := List.length_eq_one_iff.mp single
  have member (j : Nat) : j < 128 ∧ set.getLsbD j = true ↔ j = k := by
    rw [← List.mem_range, ← List.mem_filter, only, List.mem_singleton]
  obtain ⟨bound, on⟩ := (member k).mpr rfl
  have first : trailingZeros set = k := by
    rw [trailingZeros, ← List.head?_filter, only]
    rfl
  have small := (readable.within k on).2
  rw [first]
  refine ⟨?_, small⟩
  apply BitVec.eq_of_getLsbD_eq
  intro j inside
  rw [getLsbD_bit, toNat_ofNat small, Bool.eq_iff_iff]
  simp only [Bool.and_eq_true, decide_eq_true_eq]
  exact ⟨fun on' => ⟨inside, (member j).mp ⟨inside, on'⟩⟩, fun same => same.2 ▸ on⟩

/-- `text` begins a run of this set. -/
def Opens (set : BitVec 128) (text : List Char) : Prop :=
  ∃ c rest, text = c :: rest ∧ isQuantifier c = false ∧ ∀ tail, runSet c (rest ++ tail) = .ok (set, tail)

theorem opens_one (c : Char) : Opens (bit c) (one c) := by
  rcases one_cases c with ⟨text, mark⟩ | ⟨text, plain⟩
  · refine ⟨'\\', [c], text, by decide, fun tail => ?_⟩
    rw [runSet, if_pos rfl, List.cons_append, List.nil_append, List.head?_cons, escape_mark mark]
    rfl
  · have ne (d : Char) (mark : d ∈ syntaxMarks) : ¬ c = d := ne_of_plain plain mark
    refine ⟨c, [], text, ?_, fun tail => ?_⟩
    · simp [isQuantifier, ne '*' (by decide), ne '+' (by decide), ne '?' (by decide), ne '\x7b' (by decide)]
    · simp [runSet, ne '\\' (by decide), ne '[' (by decide), ne '(' (by decide), ne ')' (by decide), ne '|' (by decide),
        ne '.' (by decide), ne '^' (by decide), ne '$' (by decide), ne '*' (by decide), ne '+' (by decide),
        ne '?' (by decide), ne '\x7b' (by decide), ne ']' (by decide), ne '\x7d' (by decide)]

theorem opens_spell (readable : Readable set) : Opens set (spell set) := by
  rw [spell]
  split
  · rename_i single
    have same := (single_bit single readable).1
    have opens := opens_one (Char.ofNat (trailingZeros set))
    rwa [← same] at opens
  · refine ⟨'[', ranges set 95 0x20 ++ [']'], rfl, by decide, fun tail => ?_⟩
    have filled : ∃ k, 0x20 ≤ k ∧ set.getLsbD k = true := by
      by_contra none
      apply readable.filled
      apply BitVec.eq_of_getLsbD_eq
      intro k _
      rw [BitVec.ofNat_eq_ofNat, BitVec.getLsbD_zero]
      by_contra on
      have here : set.getLsbD k = true := by simpa using on
      exact none ⟨k, (readable.within k here).1, here⟩
    obtain ⟨out, read, bits⟩ := @classSet_ranges 0 none true tail set readable 95 0x20 (by decide) fun _ => filled
    have whole : out = set := by
      apply BitVec.eq_of_getLsbD_eq
      intro k _
      rw [bits k, BitVec.ofNat_eq_ofNat, BitVec.getLsbD_zero, Bool.false_or]
      cases on : set.getLsbD k with
      | false => rw [Bool.and_false]
      | true => rw [decide_eq_true (readable.within k on).1, Bool.and_true]
    rw [runSet, if_neg (by decide), if_pos rfl, List.append_assoc, List.singleton_append, read, whole]

theorem digit_numeral (member : c ∈ numeral n) : c.isDigit = true :=
  Nat.isDigit_of_mem_toDigits (by decide) (by decide) member

theorem absent_numeral (other : c.isDigit = false) : c ∉ numeral n := by
  intro member
  rw [digit_numeral member] at other
  cases other

theorem parseU32_numeral (small : n ≤ maxRepeat) : parseU32 (numeral n) = some n := by
  have unsigned : (numeral n).head? ≠ some '+' := fun first => absent_numeral (by decide) (List.mem_of_head? first)
  have written : (numeral n).isEmpty = false := by simp [numeral]
  have all : (numeral n).all Char.isDigit = true := List.all_eq_true.mpr fun c member => digit_numeral member
  have value : Nat.ofDigitChars 10 (numeral n) 0 = n := Nat.ofDigitChars_ten_toDigits
  have bound : n < 4294967296 := Nat.lt_of_le_of_lt small (by decide)
  rw [parseU32, if_neg unsigned, written, all, value]
  simp [bound]

theorem number_numeral (inside : List Char) (small : n ≤ maxRepeat) : number inside (numeral n) = .ok n := by
  rw [number, parseU32_numeral small]
  exact if_neg (Nat.not_lt_of_le small)

/-- A repeat in braces is read back. -/
theorem quantifier_braces {inside tail : List Char} {q : Nat × Option Nat} (plain : '\x7d' ∉ inside)
    (read : repeats inside = .ok q) (bounded : Bounded q.1 q.2) (next : tail.head?.any isQuantifier = false) :
    quantifier ('\x7b' :: inside ++ '\x7d' :: tail) = .ok (q, tail) := by
  have forward : q.2.any (fun m => decide (m < q.1)) = false := by
    cases here : q.2 with
    | none => rfl
    | some m => simpa [here] using (bounded.high m here).1
  have matter : q ≠ (0, some 0) := by
    rintro rfl
    have positive := (bounded.high 0 rfl).2.2
    omega
  rw [List.cons_append, quantifier, splitOnce_append plain]
  simp [read, Except.bind, forward, matter, unstacked, next]

theorem quantifier_none {tail : List Char} (next : tail.head?.any isQuantifier = false) :
    quantifier tail = .ok ((1, some 1), tail) := by
  have ne (d : Char) (mark : isQuantifier d = true) (rest : List Char) : tail ≠ d :: rest := by
    rintro rfl
    rw [List.head?_cons, Option.any_some, mark] at next
    cases next
  rw [quantifier]
  · exact ne '*' (by decide)
  · exact ne '+' (by decide)
  · exact ne '?' (by decide)
  · exact ne '\x7b' (by decide)

theorem quantifier_spell {min : Nat} {max : Option Nat} {tail : List Char} (bounded : Bounded min max)
    (next : tail.head?.any isQuantifier = false) :
    quantifier (spellRepeat min max ++ tail) = .ok ((min, max), tail) := by
  unfold spellRepeat
  split
  · exact quantifier_none next
  · simp [quantifier, unstacked, next]
  · simp [quantifier, unstacked, next]
  · simp [quantifier, unstacked, next]
  · rename_i m _ _
    have bound := bounded.high m rfl
    split
    · rename_i same
      have read : repeats (numeral min) = .ok (min, some min) := by
        rw [repeats, splitOnce_of_not_mem (absent_numeral (by decide))]
        simp [number_numeral _ bounded.small, Except.map]
      have back := quantifier_braces (absent_numeral (by decide)) read (same ▸ bounded) next
      rw [← same]
      simpa using back
    · have cut := splitOnce_append (absent_numeral (by decide) : ',' ∉ numeral min) (numeral m)
      have read : repeats (numeral min ++ ',' :: numeral m) = .ok (min, some m) := by
        cases later : numeral m with
        | nil => exact absurd later Nat.toDigits_ne_nil
        | cons d ds =>
          have high := number_numeral (numeral min ++ ',' :: numeral m) bound.2.1
          rw [later] at cut high
          rw [repeats, cut]
          simp [number_numeral _ bounded.small, high, Except.map, Except.bind]
      have plain : '\x7d' ∉ numeral min ++ ',' :: numeral m := by
        simp [absent_numeral]
      have back := quantifier_braces plain read bounded next
      simpa using back
  · have cut := splitOnce_append (absent_numeral (by decide) : ',' ∉ numeral min) []
    have read : repeats (numeral min ++ [',']) = .ok (min, none) := by
      rw [repeats, cut]
      simp [number_numeral _ bounded.small, Except.map]
    have plain : '\x7d' ∉ numeral min ++ [','] := by
      simp [absent_numeral]
    have back := quantifier_braces plain read bounded next
    simpa using back

/-! ## The kept pattern -/

theorem keptBody_cons (run : Run) (runs : List Run) :
    keptBody (run :: runs) = spell run.set ++ (spellRepeat run.min run.max ++ keptBody runs) := by
  rw [keptBody, List.flatMap_cons, List.append_assoc]
  rfl

theorem readRuns_kept {runs : List Run} (legible : ∀ run ∈ runs, Legible run) :
    (∀ fuel, runs.length ≤ fuel → readRuns fuel (keptBody runs) = .ok runs) ∧
      (keptBody runs).head?.any isQuantifier = false ∧ runs.length ≤ (keptBody runs).length := by
  induction runs with
  | nil => exact ⟨fun fuel _ => by cases fuel <;> rfl, rfl, Nat.le_refl 0⟩
  | cons run runs ih =>
    obtain ⟨read, next, short⟩ := ih fun other member => legible other (List.mem_cons_of_mem _ member)
    obtain ⟨readable, bounded⟩ := legible run (List.mem_cons_self ..)
    obtain ⟨c, rest, text, plain, opens⟩ := opens_spell readable
    rw [keptBody_cons, text, List.cons_append]
    refine ⟨fun fuel enough => ?_, plain, ?_⟩
    · cases fuel with
      | zero => exact absurd enough (by simp)
      | succ fuel =>
        rw [readRuns, opens, Except.bind, quantifier_spell bounded next, Except.bind,
          read fuel (Nat.le_of_succ_le_succ enough)]
        rfl
    · simp only [List.length_cons, List.length_append]
      omega

/-- How many backslashes end a text. -/
def trailing (text : List Char) : Nat := (text.reverse.takeWhile (· = '\\')).length

theorem trailing_append {text : List Char} (front : List Char) {last : Char} (ends : text.getLast? = some last)
    (other : last ≠ '\\') : trailing (front ++ text) = 0 := by
  obtain ⟨init, rfl⟩ := List.getLast?_eq_some_iff.mp ends
  simp [trailing, other]

/-- A text that ends in no backslash, or in one that is escaped. -/
def Closed (text : List Char) : Prop :=
  (∃ last, text.getLast? = some last ∧ last ≠ '\\') ∨ text = ['\\', '\\']

theorem closed_one (c : Char) : Closed (one c) := by
  rcases one_cases c with ⟨text, -⟩ | ⟨text, plain⟩
  · by_cases same : c = '\\'
    · exact .inr (by rw [text, same])
    · exact .inl ⟨c, by rw [text]; rfl, same⟩
  · exact .inl ⟨c, by rw [text]; rfl, ne_of_plain plain (by decide)⟩

theorem closed_spell (set : BitVec 128) : Closed (spell set) := by
  rw [spell]
  split
  · exact closed_one _
  · exact .inl ⟨']', List.getLast?_eq_some_iff.mpr ⟨'[' :: ranges set 95 0x20, rfl⟩, by decide⟩

theorem closed_spellRepeat (min : Nat) (max : Option Nat) :
    spellRepeat min max = [] ∨ ∃ last, (spellRepeat min max).getLast? = some last ∧ last ≠ '\\' := by
  unfold spellRepeat
  split
  · exact .inl rfl
  · exact .inr ⟨'*', rfl, by decide⟩
  · exact .inr ⟨'+', rfl, by decide⟩
  · exact .inr ⟨'?', rfl, by decide⟩
  · rename_i m _ _
    split
    · exact .inr ⟨'\x7d', List.getLast?_eq_some_iff.mpr ⟨'\x7b' :: numeral min, rfl⟩, by decide⟩
    · exact .inr ⟨'\x7d', List.getLast?_eq_some_iff.mpr ⟨'\x7b' :: numeral min ++ ',' :: numeral m, by simp⟩, by decide⟩
  · exact .inr ⟨'\x7d', List.getLast?_eq_some_iff.mpr ⟨'\x7b' :: numeral min ++ [','], by simp⟩, by decide⟩

/-- Backslashes end the kept body in pairs. -/
theorem trailing_kept (runs : List Run) : trailing (keptBody runs) % 2 = 0 := by
  induction runs using List.reverseRecOn with
  | nil => rfl
  | append_singleton runs run ih =>
    have whole : keptBody (runs ++ [run]) = keptBody runs ++ (spell run.set ++ spellRepeat run.min run.max) := by
      simp [keptBody]
    rw [whole]
    rcases closed_spellRepeat run.min run.max with none | ⟨last, ends, other⟩
    · rw [none, List.append_nil]
      rcases closed_spell run.set with ⟨last, ends, other⟩ | pair
      · rw [trailing_append _ ends other]
      · have two : trailing (keptBody runs ++ ['\\', '\\']) = trailing (keptBody runs) + 2 := by
          simp [trailing]
        rw [pair, two]
        omega
    · rw [← List.append_assoc, trailing_append _ ends other]

theorem readPattern_kept {runs : List Run} (legible : ∀ run ∈ runs, Legible run) :
    readPattern (keptText runs) = .ok runs := by
  obtain ⟨read, -, short⟩ := readRuns_kept legible
  have even := trailing_kept runs
  have inner : body (keptText runs) = some (keptBody runs) := by
    unfold trailing at even
    simp [body, keptText, even]
  rw [readPattern, inner]
  exact read _ short

theorem printable_one {d : Char} (shown : printable c = true) (member : d ∈ one c) : printable d = true := by
  rcases one_cases c with ⟨text, -⟩ | ⟨text, -⟩
  · rw [text] at member
    rcases List.mem_cons.mp member with rfl | rest
    · rfl
    · exact List.mem_singleton.mp rest ▸ shown
  · rw [text] at member
    exact List.mem_singleton.mp member ▸ shown

theorem printable_ofNat (low : 0x20 ≤ n) (high : n ≤ 0x7e) : printable (Char.ofNat n) = true := by
  rw [printable_iff, toNat_ofNat high]
  exact ⟨low, high⟩

theorem printable_ranges {fuel c : Nat} (low : 0x20 ≤ c) : ∀ d ∈ ranges set fuel c, printable d = true := by
  induction fuel generalizing c with
  | zero => simp [ranges]
  | succ fuel ih =>
    intro d member
    rw [ranges] at member
    split at member
    · cases member
    rename_i small
    split at member
    · exact ih (by omega) d member
    rename_i here
    obtain ⟨above, below, -⟩ := stretch_spec 95 (by simpa using here) (Nat.le_of_not_lt small)
    have first := printable_ofNat low (Nat.le_of_not_lt small)
    have last := printable_ofNat (Nat.le_trans low above) below
    rcases List.mem_append.mp member with row | rest
    · split at row
      · exact printable_one first row
      split at row
      · rcases List.mem_append.mp row with left | right
        · exact printable_one first left
        · exact printable_one last right
      · rcases List.mem_append.mp row with left | right
        · exact printable_one first left
        rcases List.mem_cons.mp right with rfl | right
        · rfl
        · exact printable_one last right
    · exact ih (by omega) d rest

theorem printable_spell (readable : Readable set) : ∀ d ∈ spell set, printable d = true := by
  intro d member
  rw [spell] at member
  split at member
  · rename_i single
    obtain ⟨same, small⟩ := single_bit single readable
    have on : set.getLsbD (trailingZeros set) = true := by
      rw [same, getLsbD_bit, ← same, toNat_ofNat small]
      simp
      omega
    exact printable_one (printable_ofNat (readable.within _ on).1 small) member
  · rcases List.mem_cons.mp member with rfl | rest
    · rfl
    rcases List.mem_append.mp rest with row | last
    · exact printable_ranges (Nat.le_refl _) d row
    · rw [List.mem_singleton.mp last]
      rfl

theorem printable_numeral (member : c ∈ numeral n) : printable c = true := by
  have digit := digit_numeral member
  rw [printable_iff]
  simp only [Char.isDigit, Bool.and_eq_true, decide_eq_true_eq, UInt32.le_iff_toNat_le] at digit
  have low := digit.1
  have high := digit.2
  change 48 ≤ c.toNat at low
  change c.toNat ≤ 57 at high
  omega

theorem printable_spellRepeat (min : Nat) (max : Option Nat) : ∀ d ∈ spellRepeat min max, printable d = true := by
  intro d member
  unfold spellRepeat at member
  split at member
  · cases member
  · rw [List.mem_singleton.mp member]
    rfl
  · rw [List.mem_singleton.mp member]
    rfl
  · rw [List.mem_singleton.mp member]
    rfl
  · split at member
    · simp only [List.cons_append, List.mem_cons, List.mem_append, List.not_mem_nil, or_false] at member
      rcases member with rfl | digit | rfl
      · rfl
      · exact printable_numeral digit
      · rfl
    · simp only [List.cons_append, List.append_assoc, List.mem_cons, List.mem_append, List.not_mem_nil, or_false] at member
      rcases member with rfl | digit | rfl | digit | rfl
      · rfl
      · exact printable_numeral digit
      · rfl
      · exact printable_numeral digit
      · rfl
  · simp only [List.cons_append, List.mem_cons, List.mem_append, List.not_mem_nil, or_false] at member
    rcases member with rfl | digit | rfl | rfl
    · rfl
    · exact printable_numeral digit
    · rfl
    · rfl

theorem printable_kept {runs : List Run} (legible : ∀ run ∈ runs, Legible run) :
    ∀ d ∈ keptText runs, printable d = true := by
  intro d member
  rcases List.mem_cons.mp member with rfl | rest
  · rfl
  rcases List.mem_append.mp rest with inner | last
  · obtain ⟨run, here, part⟩ := List.mem_flatMap.mp inner
    rcases List.mem_append.mp part with set | times
    · exact printable_spell (legible run here).readable d set
    · exact printable_spellRepeat _ _ d times
  · rw [List.mem_singleton.mp last]
    rfl

theorem body_subset {pattern inner : List Char} (here : body pattern = some inner) : inner ⊆ pattern := by
  unfold body at here
  split at here
  · cases here
  split at here
  · cases here
  dsimp only at here
  split at here
  · cases here
  · cases here
    exact fun c member => List.mem_of_mem_drop (List.dropLast_subset _ member)

theorem accepted_runs {pattern kept : String} (accepted : paramPattern pattern = .ok kept) :
    ∃ runs, readPattern pattern.toList = .ok runs ∧ fenced runs = true ∧ kept.toList = keptText runs ∧
      ∀ run ∈ runs, Legible run := by
  unfold paramPattern at accepted
  split at accepted
  · cases accepted
  split at accepted
  · cases accepted
  rename_i shown
  obtain ⟨runs, read, accepted⟩ := Outcome.bind_ok.mp accepted
  split at accepted
  · rename_i fence
    cases accepted
    refine ⟨runs, read, fence, String.toList_ofList, ?_⟩
    have all : ∀ c ∈ pattern.toList, printable c = true := fun c member => by
      simpa using List.find?_eq_none.mp shown c member
    unfold readPattern at read
    split at read
    · cases read
    rename_i inner here
    apply readRuns_legible read
    exact fun c member => all c (body_subset here member)
  · cases accepted

/-- The pattern kept is read as the runs written, matches what it matched, and is kept as it is. -/
theorem kept_means {pattern kept : String} (accepted : paramPattern pattern = .ok kept) :
    (∃ runs, readPattern pattern.toList = .ok runs ∧ readPattern kept.toList = .ok runs) ∧
      (∀ text, Matches pattern.toList text ↔ Matches kept.toList text) ∧
      (kept.utf8ByteSize ≤ maxIdPattern → paramPattern kept = .ok kept) := by
  obtain ⟨runs, read, fence, text, legible⟩ := accepted_runs accepted
  have back : readPattern kept.toList = .ok runs := by
    rw [text]
    exact readPattern_kept legible
  refine ⟨⟨runs, read, back⟩, fun word => ?_, fun short => ?_⟩
  · rw [Matches, Matches, read, back]
  · have shown : (kept.toList.find? fun c => !printable c) = none := by
      rw [List.find?_eq_none, text]
      intro c member
      simp [printable_kept legible c member]
    have same : String.ofList (keptText runs) = kept := by
      rw [← text, String.ofList_toList]
    rw [paramPattern, if_neg (Nat.not_lt_of_le short), shown, back]
    simp [Except.bind, fence, same]

theorem kept_means_versions :
    (∃ runs, readPattern "^\\w\x7b2,5\x7d\\.v\\d$".toList = .ok runs ∧
        readPattern "^[0-9A-Z_a-z]\x7b2,5\x7d\\.v[0-9]$".toList = .ok runs) ∧
      (∀ text, Matches "^\\w\x7b2,5\x7d\\.v\\d$".toList text ↔ Matches "^[0-9A-Z_a-z]\x7b2,5\x7d\\.v[0-9]$".toList text) ∧
      ("^[0-9A-Z_a-z]\x7b2,5\x7d\\.v[0-9]$".utf8ByteSize ≤ maxIdPattern →
        paramPattern "^[0-9A-Z_a-z]\x7b2,5\x7d\\.v[0-9]$" = .ok "^[0-9A-Z_a-z]\x7b2,5\x7d\\.v[0-9]$") :=
  kept_means (by decide +kernel)

end Oxplow.Proofs.PatternSpelling

/-! How many ways a text is cut along the runs of an accepted pattern. -/

namespace Oxplow.Proofs.PatternWays
open Oxplow.Extensions.ParamPattern Oxplow.Library
open Oxplow.Proofs.PatternReading Oxplow.Proofs.PatternSpelling

/-- At most one way to give the first `i` runs lengths that match the first `e` characters. -/
def OneWay (runs : List Run) : Prop :=
  ∀ (text : List Char) (i e : Nat) (lengths others : List Nat), Cut (runs.take i) lengths (text.take e) →
    Cut (runs.take i) others (text.take e) → lengths = others

/-- A run of varying length can take some characters more, and the runs after it make up for them. -/
def Slips (runs : List Run) : Prop := Repeat.Slips (runs.map Run.toRepeat)

/-- The fence stands right behind each varying run that another one follows. -/
def fencedAtOnce : List Run → Bool
  | [] => true
  | [_] => true
  | run :: next :: rest =>
    (!run.varies || !(next :: rest).any Run.varies ||
      (!next.varies && 1 ≤ next.min && next.set &&& run.set == 0)) && fencedAtOnce (next :: rest)

theorem oneWay_iff_words {runs : List Run} : OneWay runs ↔ Repeat.OneWay (runs.map Run.toRepeat) := by
  constructor
  · intro one i word lengths others first second
    apply one word i word.length lengths others
    · rwa [Cut, List.map_take, List.take_length]
    · rwa [Cut, List.map_take, List.take_length]
  · intro one text i e lengths others first second
    rw [Cut, List.map_take] at first second
    exact one i (text.take e) lengths others first second

theorem usable_of_legible {run : Run} (legible : Legible run) : run.toRepeat.Usable := by
  constructor
  · by_contra none
    apply legible.readable.filled
    apply BitVec.eq_of_getLsbD_eq
    intro k _
    rw [BitVec.ofNat_eq_ofNat, BitVec.getLsbD_zero]
    by_contra on
    have here : run.set.getLsbD k = true := by simpa using on
    apply none
    refine ⟨Char.ofNat k, ?_⟩
    change run.set.getLsbD (Char.ofNat k).toNat = true
    rw [toNat_ofNat (legible.readable.within k here).2]
    exact here
  · exact ⟨Nat.le_refl _, fun most bound => (legible.bounded.high most bound).1⟩

theorem apart_of_and {s t : Run} (apart : (s.set &&& t.set == 0) = true) :
    ¬ Repeat.Shares s.toRepeat.letters t.toRepeat.letters := by
  rintro ⟨c, left, right⟩
  have none := congrArg (fun set : BitVec 128 => set.getLsbD c.toNat) (beq_iff_eq.mp apart)
  rw [BitVec.ofNat_eq_ofNat, BitVec.getLsbD_zero, BitVec.getLsbD_and] at none
  have both := Bool.and_eq_true_iff.mpr ⟨left, right⟩
  rw [none] at both
  cases both

theorem varies_iff {run : Run} : run.toRepeat.Varies ↔ run.varies = true := by
  simp [Run.varies, Run.toRepeat, Repeat.Varies]

theorem fencedAtOnce_repeats {runs : List Run} (fenced : fencedAtOnce runs = true) :
    Repeat.FencedAtOnce (runs.map Run.toRepeat) := by
  intro before r after whole varies later
  obtain ⟨early, late, rfl, rfl, cut⟩ := List.map_eq_append_iff.mp whole
  obtain ⟨run, rest, rfl, rfl, rfl⟩ := List.map_eq_cons_iff.mp cut
  have tail : fencedAtOnce (run :: rest) = true := by
    clear whole cut
    induction early with
    | nil => exact fenced
    | cons first early ih =>
      apply ih
      cases early with
      | nil =>
        exact (Bool.and_eq_true_iff.mp fenced).2
      | cons second early =>
        exact (Bool.and_eq_true_iff.mp fenced).2
  obtain ⟨other, member, varies'⟩ := later
  obtain ⟨last, here, rfl⟩ := List.mem_map.mp member
  cases rest with
  | nil => cases here
  | cons next rest =>
    have head := (Bool.and_eq_true_iff.mp tail).1
    have some_ : (next :: rest).any Run.varies = true := List.any_eq_true.mpr ⟨last, here, varies_iff.mp varies'⟩
    rw [varies_iff.mp varies, some_] at head
    simp only [Bool.not_true, Bool.false_or, Bool.and_eq_true, Bool.not_eq_true', decide_eq_true_eq] at head
    refine ⟨next.toRepeat, rest.map Run.toRepeat, rfl, ?_, head.1.2, apart_of_and head.2⟩
    rw [varies_iff, head.1.1]
    decide

/-- For an accepted pattern a text is cut in one way at most, just when no run slips; and none does
where each fence stands at once. -/
theorem oneWay_unless_slips {pattern kept : String} (accepted : paramPattern pattern = .ok kept) :
    ∃ runs, readPattern pattern.toList = .ok runs ∧ (OneWay runs ↔ ¬ Slips runs) ∧
      (fencedAtOnce runs = true → OneWay runs) := by
  obtain ⟨runs, read, -, -, legible⟩ := accepted_runs accepted
  have usable : ∀ r ∈ runs.map Run.toRepeat, r.Usable := by
    intro r member
    obtain ⟨run, here, rfl⟩ := List.mem_map.mp member
    exact usable_of_legible (legible run here)
  refine ⟨runs, read, ?_, fun fenced => ?_⟩
  · rw [oneWay_iff_words]
    exact Repeat.oneWay_iff usable
  · rw [oneWay_iff_words]
    exact Repeat.fenced_oneWay usable (fencedAtOnce_repeats fenced)

theorem oneWay_unless_slips_tickets : ∃ runs, readPattern "^[A-Z]+-\\d+$".toList = .ok runs ∧ (OneWay runs ↔ ¬ Slips runs) ∧
    (fencedAtOnce runs = true → OneWay runs) :=
  oneWay_unless_slips (by decide +kernel : paramPattern "^[A-Z]+-\\d+$" = .ok "^[A-Z]+\\-[0-9]+$")

def slippingRuns : List Run :=
  [⟨span 'a' 'b', 0, none⟩, ⟨span 'a' 'c', 1, some 1⟩, ⟨bit 'c', 1, some 1⟩, ⟨span 'c' 'd', 0, none⟩]

/-- The fence is a run too late: the first repeat can leave its last character to the run before. -/
theorem slipping_accepted : ¬ ∀ pattern kept : String, paramPattern pattern = .ok kept →
    ∀ runs, readPattern pattern.toList = .ok runs → OneWay runs := by
  intro all
  have accepted : paramPattern "^[ab]*[abc]c[cd]*$" = .ok "^[ab]*[a-c]c[cd]*$" := by decide +kernel
  have read : readPattern "^[ab]*[abc]c[cd]*$".toList = .ok slippingRuns := by decide +kernel
  have one := all _ _ accepted _ read "acc".toList 4 3 [0, 1, 1, 1] [1, 1, 1, 0]
  have first : Cut (slippingRuns.take 4) [0, 1, 1, 1] ("acc".toList.take 3) := by
    constructor
    · simp [slippingRuns, Run.toRepeat, Repeat.Allows]
    · change List.Forall₂ _ ['a', 'c', 'c'] [_, _, _]
      simp [Run.toRepeat]
  have second : Cut (slippingRuns.take 4) [1, 1, 1, 0] ("acc".toList.take 3) := by
    constructor
    · simp [slippingRuns, Run.toRepeat, Repeat.Allows]
    · change List.Forall₂ _ ['a', 'c', 'c'] [_, _, _]
      simp [Run.toRepeat]
  have same := one first second
  cases same

end Oxplow.Proofs.PatternWays
