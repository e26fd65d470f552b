import Mathlib.Data.List.TakeWhile
import Oxplow.Library.Maps
import Oxplow.Terminals.Replay

/-! A replay leaves a terminal the private modes of the whole ring where no control character
inside a sequence of the dropped part decides on one that the rest says nothing about. -/

namespace Oxplow.Proofs.ReplayedModes
open Library Terminals

variable {reading : Reading} {bytes more : List UInt8} {byte : UInt8} {told later : Settings} {mode : Nat}

/-! ## Reading -/

theorem settings_append (reading : Reading) (bytes more : List UInt8) :
    settings reading (bytes ++ more) = settings reading bytes ++ settings (bytes.foldl Reading.next reading) more := by
  induction bytes generalizing reading with
  | nil => rfl
  | cons byte bytes ih => rw [List.cons_append, settings, settings, ih, List.append_assoc, List.foldl_cons]

theorem next_escape (reading : Reading) : reading.next escape = .escaped := by
  cases reading <;> rfl

theorem told_escape (reading : Reading) : reading.told escape = [] := by
  cases reading <;> rfl

theorem settings_escape (reading : Reading) : settings reading (escape :: bytes) = settings .escaped bytes := by
  rw [settings, told_escape, next_escape, List.nil_append]

theorem settings_plain (plain : byte ≠ escape) : settings .other (byte :: bytes) = settings .other bytes := by
  rw [settings, Reading.next, if_neg plain]
  rfl

theorem other_plain (plain : ∀ byte ∈ bytes, byte ≠ escape) :
    settings .other (bytes ++ more) = settings .other more ∧ bytes.foldl Reading.next .other = .other := by
  induction bytes with
  | nil => exact ⟨rfl, rfl⟩
  | cons byte bytes ih =>
    have here := plain byte List.mem_cons_self
    obtain ⟨same, stays⟩ := ih fun byte member => plain byte (List.mem_cons_of_mem _ member)
    refine ⟨by rw [List.cons_append, settings_plain here, same], ?_⟩
    rw [List.foldl_cons, Reading.next, if_neg here, stays]

/-- Where an escape comes next, it doesn't matter what came before. -/
theorem settings_restart (reading : Reading) (starts : ∀ byte ∈ bytes.head?, byte = escape) :
    settings reading bytes = settings .other bytes := by
  cases bytes with
  | nil => rfl
  | cons byte bytes =>
    obtain rfl := starts byte rfl
    rw [settings_escape, settings_escape]

/-- The bytes it takes at the least until modes are set. -/
def needs : Reading → Nat
  | .other => 4
  | .escaped => 3
  | .control => 2
  | .params _ _ => 1

theorem needs_next (reading : Reading) (byte : UInt8) : needs reading ≤ needs (reading.next byte) + 1 := by
  cases reading with
  | other =>
    rw [Reading.next]
    split <;> decide
  | escaped =>
    rw [Reading.next]
    split
    · decide
    · split <;> decide
  | control =>
    rw [Reading.next]
    split
    · decide
    · split
      · exact Nat.le_refl _
      · decide
  | params => exact Nat.le_add_left _ _

theorem settings_short (short : bytes.length < needs reading) : settings reading bytes = [] := by
  induction bytes generalizing reading with
  | nil => rfl
  | cons byte bytes ih =>
    have left := needs_next reading byte
    rw [List.length_cons] at short
    have rest : settings (reading.next byte) bytes = [] := ih (by omega)
    rw [settings, rest, List.append_nil]
    cases reading with
    | params =>
      simp only [needs] at short
      omega
    | _ => rfl

/-! ## The parameters of a sequence -/

theorem grown_saturates (number : Option Nat) (byte : UInt8) :
    min (min (number.getD 0 * 10) u32Max + (byte.toNat - 48)) u32Max = grown number byte := by
  unfold grown
  omega

theorem isDigit_iff : isDigit byte = true ↔ 48 ≤ byte ∧ byte ≤ 57 := by
  simp [isDigit]

theorem digit_plain (digit : isDigit byte = true) : byte ≠ escape ∧ byte ≠ semicolon ∧ ¬ (byte = setMode ∨ byte = resetMode) := by
  obtain ⟨low, high⟩ := isDigit_iff.mp digit
  refine ⟨?_, ?_, ?_⟩
  · rintro rfl
    exact absurd low (by decide)
  · rintro rfl
    exact absurd high (by decide)
  · rintro (rfl | rfl) <;> exact absurd high (by decide)

variable {numbers : List Nat}

theorem settings_digit {number : Option Nat} (digit : isDigit byte = true) :
    settings (.params numbers number) (byte :: bytes) = settings (.params numbers (some (grown number byte))) bytes := by
  obtain ⟨escapes, _, ends⟩ := digit_plain digit
  rw [settings, Reading.told, if_neg ends, Reading.next, if_neg escapes, if_pos digit, List.nil_append]

theorem settings_semicolon {number : Option Nat} :
    settings (.params numbers number) (semicolon :: bytes) = settings (.params (numbers ++ number.toList) none) bytes := rfl

/-- Past its parameters a sequence sets them, or it ends with nothing set. -/
theorem settings_params (numbers : List Nat) (number : Option Nat) (bytes : List UInt8) :
    settings (.params numbers number) bytes =
      (modeParams bytes number).2.head?.elim [] (Reading.told (.params (numbers ++ (modeParams bytes number).1) none)) ++
        settings .other (modeParams bytes number).2 := by
  induction bytes generalizing numbers number with
  | nil => rfl
  | cons byte bytes ih =>
    rw [modeParams]
    split
    next digit =>
      rw [settings_digit (isDigit_iff.mpr digit), ih, grown_saturates]
    next digit =>
      split
      next same =>
        subst same
        simp only [settings_semicolon, ih, List.append_assoc]
      next differs =>
        have plain : isDigit byte ≠ true := fun is => digit (isDigit_iff.mp is)
        have follows : (Reading.params numbers number).next byte = Reading.other.next byte := by
          rw [Reading.next, Reading.next, if_neg plain, if_neg differs]
        rw [settings, follows, List.head?_cons, Option.elim_some, settings, ← List.append_assoc]
        simp [Reading.told]

theorem settings_skip (bytes : List UInt8) (number : Option Nat) :
    settings .other (modeParams bytes number).2 = settings .other bytes := by
  induction bytes generalizing number with
  | nil => rfl
  | cons byte bytes ih =>
    rw [modeParams]
    split
    next digit => rw [ih, settings_plain (digit_plain (isDigit_iff.mpr digit)).1]
    next =>
      split
      next same =>
        subst same
        exact (ih none).trans (settings_plain (by decide)).symm
      next => rfl

/-! ## The scan -/

/-- The last word on a mode. -/
def word (told : Settings) (mode : Nat) : Option Bool := (Overlay.newest Prod.fst told mode).map Prod.snd

theorem word_append : word (told ++ later) mode = (word later mode).or (word told mode) := by
  rw [word, Overlay.newest_append, Option.map_or]
  rfl

theorem get_insertAll (numbers : List Nat) (value : Bool) (modes : Modes) (mode : Nat) :
    (numbers.foldl (fun modes number => modes.insert number value) modes)[mode]? =
      (word (numbers.map fun number => (number, value)) mode).or modes[mode]? := by
  induction numbers generalizing modes with
  | nil => rfl
  | cons number numbers ih =>
    have single : word [(number, value)] mode = if number = mode then some value else none := by
      unfold word Overlay.newest
      by_cases same : number = mode <;> simp [same]
    rw [List.foldl_cons, ih, TreeMaps.get_insert, List.map_cons, ← List.singleton_append, word_append, single, Option.or_assoc]
    by_cases same : number = mode <;> simp [same]

theorem settings_prefixed : settings .other (escape :: bracket :: question :: bytes) = settings (.params [] none) bytes := rfl

theorem settings_unprefixed {first second third : UInt8} (not : ¬ (first = escape ∧ second = bracket ∧ third = question)) :
    settings .other (first :: second :: third :: bytes) = settings .other (second :: third :: bytes) := by
  by_cases escapes : first = escape
  · subst escapes
    rw [settings_escape]
    by_cases again : second = escape
    · subst again
      rw [settings_escape, settings_escape]
    · rw [settings_plain again, settings, Reading.next, if_neg again]
      by_cases opens : second = bracket
      · rw [if_pos opens]
        by_cases third_ : third = escape
        · subst third_
          rfl
        · have asks : third ≠ question := fun asks => not ⟨rfl, opens, asks⟩
          rw [settings_plain third_, settings, Reading.next, if_neg third_, if_neg asks]
          rfl
      · rw [if_neg opens]
        rfl
  · exact settings_plain escapes

/-- The scan has the last word on each mode, of the sequences that hold no control character. -/
theorem get_modesOf (modes : Modes) (bytes : List UInt8) (mode : Nat) :
    (modesOf modes bytes)[mode]? = (word (settings .other bytes) mode).or modes[mode]? := by
  fun_induction modesOf modes bytes with
  | case1 modes first second third fourth rest here _ starts last after parts ends _ ih =>
    obtain ⟨rfl, rfl, rfl⟩ := starts
    have sets : settings .other (escape :: bracket :: question :: fourth :: rest) =
        (here.1.map fun number => (number, decide (last = setMode))) ++ settings .other after := by
      have plain : last ≠ escape := by rintro rfl; revert ends; decide
      rw [settings_prefixed, settings_params, parts, List.head?_cons, Option.elim_some, settings_plain plain, Reading.told,
        if_pos ends]
      simp [here]
    rw [ih, get_insertAll, sets, word_append, Option.or_assoc]
  | case2 modes first second third fourth rest here _ starts last after parts ends ih =>
    obtain ⟨rfl, rfl, rfl⟩ := starts
    have nothing : settings .other (escape :: bracket :: question :: fourth :: rest) = settings .other (fourth :: rest) := by
      rw [settings_prefixed, settings_params, parts, List.head?_cons, Option.elim_some, Reading.told, if_neg ends, List.nil_append,
        ← parts, settings_skip]
    rw [ih, nothing, settings_plain (by decide), settings_plain (by decide)]
  | case3 modes first second third fourth rest here _ starts parts ih =>
    obtain ⟨rfl, rfl, rfl⟩ := starts
    have nothing : settings .other (escape :: bracket :: question :: fourth :: rest) = settings .other (fourth :: rest) := by
      rw [settings_prefixed, settings_params, parts, List.head?_nil, Option.elim_none, List.nil_append, ← parts, settings_skip]
    rw [ih, nothing, settings_plain (by decide), settings_plain (by decide)]
  | case4 modes first second third fourth rest _ starts ih => rw [ih, settings_unprefixed starts]
  | case5 modes bytes short =>
    have few : bytes.length < 4 := by
      by_contra long
      match bytes, short with
      | first :: second :: third :: fourth :: rest, short => exact short _ _ _ _ _ rfl
      | [], _ | [_], _ | [_, _], _ | [_, _, _], _ => simp at long
    rw [settings_short few]
    rfl

/-! ## The preamble -/

/-- No number of the reading is past the largest one. -/
def Bounded : Reading → Prop
  | .params numbers number => ∀ n ∈ numbers ++ number.toList, n ≤ u32Max
  | _ => True

theorem bounded_next (bounded : Bounded reading) (byte : UInt8) : Bounded (reading.next byte) := by
  cases reading with
  | other =>
    rw [Reading.next]
    split <;> trivial
  | escaped =>
    rw [Reading.next]
    split
    · trivial
    · split <;> trivial
  | control =>
    rw [Reading.next]
    split
    · trivial
    · split
      · exact fun n member => absurd member List.not_mem_nil
      · trivial
  | params numbers number =>
    rw [Reading.next]
    split
    · trivial
    · split
      · intro n member
        rcases List.mem_append.mp member with old | new
        · exact bounded n (List.mem_append_left _ old)
        · obtain rfl := List.mem_singleton.mp new
          exact Nat.min_le_right _ _
      · split
        · intro n member
          exact bounded n (by simpa using member)
        · trivial

theorem settings_bounded (bounded : Bounded reading) (bytes : List UInt8) : ∀ entry ∈ settings reading bytes, entry.1 ≤ u32Max := by
  induction bytes generalizing reading with
  | nil => exact fun _ member => absurd member List.not_mem_nil
  | cons byte bytes ih =>
    intro entry member
    rcases List.mem_append.mp member with here | later
    · cases reading with
      | params numbers number =>
        rw [Reading.told] at here
        split at here
        · obtain ⟨n, inside, rfl⟩ := List.mem_map.mp here
          exact bounded n inside
        · cases here
      | _ => cases here
    · exact ih (bounded_next bounded byte) entry later

theorem char_digit {c : Char} (digit : c.isDigit = true) :
    isDigit c.toNat.toUInt8 = true ∧ c.toNat.toUInt8.toNat - 48 = c.toNat - '0'.toNat := by
  have bounds : 48 ≤ c.toNat ∧ c.toNat ≤ 57 := by
    simpa [Char.isDigit, UInt32.le_iff_toNat_le] using digit
  have small : c.toNat.toUInt8.toNat = c.toNat := by
    rw [Nat.toUInt8, UInt8.toNat_ofNat']
    omega
  refine ⟨isDigit_iff.mpr ⟨?_, ?_⟩, by rw [small]; rfl⟩
  · rw [UInt8.le_iff_toNat_le, small]
    exact bounds.1
  · rw [UInt8.le_iff_toNat_le, small]
    exact bounds.2

theorem settings_digits (digits : List Char) (all : ∀ c ∈ digits, c.isDigit = true) (n : Nat) :
    settings (.params numbers (some (min n u32Max))) (digits.map (fun c => c.toNat.toUInt8) ++ bytes) =
      settings (.params numbers (some (min (Nat.ofDigitChars 10 digits n) u32Max))) bytes := by
  induction digits generalizing n with
  | nil => rw [Nat.ofDigitChars_nil, List.map_nil, List.nil_append]
  | cons c digits ih =>
    obtain ⟨digit, value⟩ := char_digit (all c List.mem_cons_self)
    have grows : grown (some (min n u32Max)) c.toNat.toUInt8 = min (10 * n + (c.toNat - '0'.toNat)) u32Max := by
      rw [grown, value, Option.getD_some]
      omega
    rw [List.map_cons, List.cons_append, settings_digit digit, grows, Nat.ofDigitChars_cons,
      ih fun c member => all c (List.mem_cons_of_mem _ member)]

theorem settings_number {n : Nat} (small : n ≤ u32Max) :
    settings (.params [] none) (asciiBytes (toString n) ++ bytes) = settings (.params [] (some n)) bytes := by
  have texts : asciiBytes (toString n) = (Nat.toDigits 10 n).map fun c => c.toNat.toUInt8 := by
    rw [asciiBytes, Nat.toString_eq_repr, Nat.toList_repr]
  have digits : ∀ c ∈ Nat.toDigits 10 n, c.isDigit = true := fun c => Nat.isDigit_of_mem_toDigits (by decide) (by decide)
  have whole := @settings_digits bytes [] (Nat.toDigits 10 n) digits 0
  rw [Nat.ofDigitChars_toDigits (by decide) (by decide), Nat.min_eq_left small, Nat.zero_min, ← texts] at whole
  rw [← whole]
  cases parts : Nat.toDigits 10 n with
  | nil => exact absurd parts Nat.toDigits_ne_nil
  | cons c rest =>
    have digit := (char_digit (digits c (parts ▸ List.mem_cons_self))).1
    rw [texts, parts, List.map_cons, List.cons_append, settings_digit digit, settings_digit digit]
    rfl

/-- Whether the preamble sets a mode. -/
def resent (entry : Nat × Bool) : Bool := entry.2 ≠ defaultOn entry.1 ∧ entry.1 ∉ alternateScreens

theorem settings_modeSequence {entry : Nat × Bool} (small : entry.1 ≤ u32Max) :
    settings .other (modeSequence entry ++ bytes) = (if resent entry then [entry] else []) ++ settings .other bytes := by
  obtain ⟨number, value⟩ := entry
  have same : resent (number, value) = true ↔ value ≠ defaultOn number ∧ number ∉ alternateScreens := decide_eq_true_iff
  by_cases sends : value ≠ defaultOn number ∧ number ∉ alternateScreens
  · have sequence : modeSequence (number, value) =
        [escape, bracket, question] ++ asciiBytes (toString number) ++ [if value then setMode else resetMode] := if_pos sends
    rw [if_pos (same.mpr sends), sequence, List.append_assoc, List.append_assoc]
    refine (settings_number small).trans ?_
    cases value <;> rfl
  · have sequence : modeSequence (number, value) = [] := if_neg sends
    rw [if_neg fun is => sends (same.mp is), sequence]
    rfl

theorem settings_preamble (entries : Settings) (small : ∀ entry ∈ entries, entry.1 ≤ u32Max) :
    settings .other (entries.flatMap modeSequence ++ bytes) = entries.filter resent ++ settings .other bytes := by
  induction entries with
  | nil => rfl
  | cons entry entries ih =>
    rw [List.flatMap_cons, List.append_assoc, settings_modeSequence (small entry List.mem_cons_self),
      ih fun entry member => small entry (List.mem_cons_of_mem _ member), List.filter_cons]
    split <;> rfl

theorem alternate_off {mode : Nat} (alternate : mode ∈ alternateScreens) : defaultOn mode = false := by
  revert mode
  decide

/-- A mode that the preamble leaves out is at its default. -/
theorem mode_preamble {modes : Modes} (down : ∀ mode ∈ alternateScreens, modes[mode]? ≠ some true) (mode : Nat) :
    (word (modes.toList.filter resent) mode).getD (defaultOn mode) = modes[mode]?.getD (defaultOn mode) := by
  have listed : ∀ {value}, (mode, value) ∈ modes.toList ↔ modes[mode]? = some value :=
    Std.ExtTreeMap.mem_toList_iff_getElem?_eq_some
  have distinct : (modes.toList.filter resent).Pairwise fun a b => a.1 ≠ b.1 := by
    refine (Std.ExtTreeMap.distinct_keys_toList.sublist List.filter_sublist).imp fun differ same => differ ?_
    exact Std.LawfulEqCmp.compare_eq_iff_eq.mpr same
  by_cases sent : ∃ entry ∈ modes.toList.filter resent, entry.1 = mode
  · obtain ⟨⟨mode, value⟩, member, rfl⟩ := sent
    rw [word, Overlay.newest_of_distinct distinct member, listed.mp (List.mem_filter.mp member).1]
    rfl
  · have nothing : Overlay.newest Prod.fst (modes.toList.filter resent) mode = none :=
      Overlay.newest_eq_none.mpr fun entry member same => sent ⟨entry, member, same⟩
    rw [word, nothing]
    cases found : modes[mode]? with
    | none => rfl
    | some value =>
      have left : ¬ resent (mode, value) = true := fun is => sent ⟨_, List.mem_filter.mpr ⟨listed.mpr found, is⟩, rfl⟩
      have same : value = defaultOn mode := by
        by_contra differs
        refine left (decide_eq_true ⟨differs, fun alternate => ?_⟩)
        rw [alternate_off alternate, Bool.not_eq_false] at differs
        exact down mode alternate (differs ▸ found)
      exact same.symm

/-! ## The cut -/

theorem cutBefore_append {later earlier : List UInt8} {lines : Nat} (whole : later.count newline + lines = replayLines) :
    cutBefore (later ++ newline :: earlier) lines = some (earlier.length + 1) := by
  induction later generalizing lines with
  | nil =>
    have full : replayLines < lines + 1 := by
      rw [List.count_nil] at whole
      omega
    rw [List.nil_append, cutBefore, if_pos rfl, if_pos full]
  | cons byte later ih =>
    rw [List.cons_append, cutBefore]
    split
    next breaks =>
      rw [breaks, List.count_cons_self] at whole
      rw [if_neg (by omega)]
      exact ih (by omega)
    next other =>
      rw [List.count_cons_of_ne other] at whole
      exact ih whole

theorem cutBefore_some {bytes : List UInt8} {lines cut : Nat} (within : lines ≤ replayLines)
    (found : cutBefore bytes lines = some cut) :
    ∃ later earlier, bytes = later ++ newline :: earlier ∧ later.count newline + lines = replayLines ∧
      cut = earlier.length + 1 := by
  induction bytes generalizing lines with
  | nil => cases found
  | cons byte bytes ih =>
    rw [cutBefore] at found
    split at found
    next breaks =>
      split at found
      next full =>
        refine ⟨[], bytes, by rw [breaks, List.nil_append], ?_, (Option.some.inj found).symm⟩
        rw [List.count_nil]
        omega
      next =>
        obtain ⟨later, earlier, parts, count, place⟩ := ih (by omega) found
        refine ⟨byte :: later, earlier, by rw [parts, List.cons_append], ?_, place⟩
        rw [breaks, List.count_cons_self]
        omega
    next other =>
      obtain ⟨later, earlier, parts, count, place⟩ := ih within found
      exact ⟨byte :: later, earlier, by rw [parts, List.cons_append], (List.count_cons_of_ne other).symm ▸ count, place⟩

variable {all : List UInt8}

theorem cut_found {head tail : List UInt8} (cut : Cut all head tail) : cutBefore all.reverse 0 = some head.length := by
  obtain ⟨front, rfl⟩ := List.getLast?_eq_some_iff.mp cut.broken
  have count : tail.reverse.count newline + 0 = replayLines := by
    rw [List.count_reverse]
    exact cut.lines
  have found := @cutBefore_append tail.reverse front.reverse 0 count
  rw [cut.parts]
  simpa using found

theorem cut_of_found {cut : Nat} (found : cutBefore all.reverse 0 = some cut) : Cut all (all.take cut) (all.drop cut) := by
  obtain ⟨later, earlier, parts, count, rfl⟩ := cutBefore_some (Nat.zero_le _) found
  have whole : all = earlier.reverse ++ [newline] ++ later.reverse := by
    have turned := congrArg List.reverse parts
    simpa using turned
  have length : (earlier.reverse ++ [newline]).length = earlier.length + 1 := by simp
  refine ⟨(List.take_append_drop _ _).symm, ?_, ?_⟩
  · rw [whole, ← length, List.take_left']
    · simp
    · rfl
  · rw [whole, ← length, List.drop_left']
    · rw [List.count_reverse]
      exact count
    · rfl

/-! ## What a terminal reads of a replay -/

variable {ring : RingBuffer} {head tail preamble : List UInt8}

theorem mode_eq (told : Settings) (mode : Nat) : told.mode mode = (word told mode).getD (defaultOn mode) := rfl

theorem mode_append (told later : Settings) (mode : Nat) :
    Settings.mode (told ++ later) mode = (word later mode).getD (told.mode mode) := by
  rw [mode_eq, word_append, mode_eq]
  cases word later mode <;> rfl

theorem word_none : word told mode = none ↔ ∀ value, (mode, value) ∉ told := by
  rw [word, Option.map_eq_none_iff, Overlay.newest_eq_none]
  exact ⟨fun none value member => none _ member rfl, fun none entry member same => none entry.2 (same ▸ member)⟩

/-- What the sequences set that hold no control character. -/
def plainSettings (output : List UInt8) : Settings := settings .other output

theorem get_modesOf_empty (head : List UInt8) (mode : Nat) : (modesOf ∅ head)[mode]? = word (plainSettings head) mode := by
  rw [get_modesOf, Std.ExtTreeMap.getElem?_empty, Option.or_none, plainSettings]

theorem alternateUp_iff : told.alternateUp = true ↔ ∃ mode ∈ alternateScreens, word told mode = some true := by
  rw [Settings.alternateUp, List.any_eq_true]
  refine exists_congr fun mode => and_congr_right fun alternate => ?_
  rw [mode_eq, alternate_off alternate]
  cases word told mode <;> simp

theorem modesLeftBy_up (up : (plainSettings head).alternateUp = true) : modesLeftBy head = none := by
  obtain ⟨mode, alternate, on⟩ := alternateUp_iff.mp up
  refine if_pos (List.any_eq_true.mpr ⟨mode, alternate, ?_⟩)
  rw [get_modesOf_empty, on]
  rfl

theorem modeSequence_kept (entry : Nat × Bool) : ∀ byte ∈ modeSequence entry, carriedOut byte = false := by
  have digit : ∀ byte, isDigit byte = true → carriedOut byte = false := by
    intro byte digit
    have low := UInt8.le_iff_toNat_le.mp (isDigit_iff.mp digit).1
    have high := UInt8.le_iff_toNat_le.mp (isDigit_iff.mp digit).2
    have least : ¬ byte < 32 := fun less => absurd (UInt8.lt_iff_toNat_lt.mp less) (by simp at low ⊢; omega)
    have last : byte ≠ 127 := by
      rintro rfl
      exact absurd high (by decide)
    simp [carriedOut, least, last]
  intro byte member
  rw [modeSequence] at member
  split at member
  · rcases List.mem_append.mp member with front | last
    · rcases List.mem_append.mp front with start | number
      · simp only [List.mem_cons, List.not_mem_nil, or_false] at start
        rcases start with rfl | rfl | rfl <;> rfl
      · rw [asciiBytes, Nat.toString_eq_repr, Nat.toList_repr] at number
        obtain ⟨c, inside, rfl⟩ := List.mem_map.mp number
        exact digit _ (char_digit (Nat.isDigit_of_mem_toDigits (by decide) (by decide) inside)).1
    · obtain rfl := List.mem_singleton.mp last
      cases entry.2 <;> decide
  · cases member

theorem modesLeftBy_down (down : (plainSettings head).alternateUp ≠ true) :
    ∃ preamble, modesLeftBy head = some preamble ∧ (∀ byte ∈ preamble, carriedOut byte = false) ∧
      ∀ bytes mode, Settings.mode (settings .other (preamble ++ bytes)) mode =
        (word (settings .other bytes) mode).getD ((plainSettings head).mode mode) := by
  have off : ∀ mode ∈ alternateScreens, (modesOf ∅ head)[mode]? ≠ some true := by
    intro mode alternate on
    exact down (alternateUp_iff.mpr ⟨mode, alternate, get_modesOf_empty head mode ▸ on⟩)
  have small : ∀ entry ∈ (modesOf ∅ head).toList, entry.1 ≤ u32Max := by
    intro entry member
    have found := Std.ExtTreeMap.mem_toList_iff_getElem?_eq_some.mp member
    rw [get_modesOf_empty] at found
    obtain ⟨row, last, _⟩ := Option.map_eq_some_iff.mp found
    obtain ⟨inside, same⟩ := Overlay.newest_mem last
    exact same ▸ @settings_bounded .other trivial head row inside
  refine ⟨(modesOf ∅ head).toList.flatMap modeSequence, if_neg ?_, ?_, ?_⟩
  · intro any
    obtain ⟨mode, alternate, on⟩ := List.any_eq_true.mp any
    exact off mode alternate (of_decide_eq_true on)
  · intro byte member
    obtain ⟨entry, _, inside⟩ := List.mem_flatMap.mp member
    exact modeSequence_kept entry byte inside
  · intro bytes mode
    rw [settings_preamble _ small, mode_append, mode_eq, mode_preamble off, get_modesOf_empty]
    rfl

theorem sent_of_cut (cut : Cut ring.snapshot head tail) :
    ring.replay.sent = (modesLeftBy head).elim ring.snapshot fun preamble => preamble ++ tail := by
  have parts : ring.snapshot.take head.length = head ∧ ring.snapshot.drop head.length = tail := by
    rw [cut.parts]
    exact ⟨List.take_left, List.drop_left⟩
  simp only [Replay.sent, RingBuffer.replay, cut_found cut, parts]
  cases modesLeftBy head <;> rfl

theorem sent_of_short (short : ∀ head tail, ¬ Cut ring.snapshot head tail) : ring.replay.sent = ring.snapshot := by
  cases found : cutBefore ring.snapshot.reverse 0 with
  | none =>
    simp only [Replay.sent, RingBuffer.replay, found]
    rfl
  | some cut => exact absurd (cut_of_found found) (short _ _)

/-- What is read behind a place is what is read there from the next escape on. -/
theorem terminalSettings_append (head tail : List UInt8) :
    terminalSettings (head ++ tail) = terminalSettings (head ++ tail.takeWhile (· ≠ escape)) ++ terminalSettings tail := by
  let kept := fun byte => !carriedOut byte
  have parts : tail = tail.takeWhile (· ≠ escape) ++ tail.dropWhile (· ≠ escape) := List.takeWhile_append_dropWhile.symm
  have starts : ∀ byte ∈ ((tail.dropWhile (· ≠ escape)).filter kept).head?, byte = escape := by
    intro byte first
    cases after : tail.dropWhile (· ≠ escape) with
    | nil =>
      rw [after] at first
      cases first
    | cons next rest =>
      have stops : next = escape := by
        have ends := List.head?_dropWhile_not (fun b => decide (b ≠ escape)) tail
        rw [after] at ends
        simpa using ends
      subst stops
      rw [after] at first
      exact (Option.some.inj first).symm
  have plain : ∀ byte ∈ (tail.takeWhile (· ≠ escape)).filter kept, byte ≠ escape := by
    intro byte member
    simpa using List.mem_takeWhile_imp (List.mem_filter.mp member).1
  have whole : terminalSettings tail = settings .other ((tail.dropWhile (· ≠ escape)).filter kept) := by
    conv_lhs => rw [parts]
    rw [terminalSettings, List.filter_append]
    exact (other_plain plain).1
  rw [whole]
  conv_lhs => rw [parts, ← List.append_assoc]
  rw [terminalSettings, List.filter_append, settings_append, settings_restart _ starts]
  rfl

/-! ## The ring -/

/-- A pane that is sent the replay has every private mode as one that is sent the whole ring, and
the last lines as they were; while an alternate screen is up, the whole ring is sent. -/
structure Replayed (ring : RingBuffer) : Prop where
  modes : ∀ mode, (terminalSettings ring.replay.sent).mode mode = (terminalSettings ring.snapshot).mode mode
  lines : ∀ head tail, Cut ring.snapshot head tail → tail <:+ ring.replay.sent
  screen : ∀ head tail, Cut ring.snapshot head tail → (terminalSettings head).alternateUp = true → ring.replay.sent = ring.snapshot
  short : (∀ head tail, ¬ Cut ring.snapshot head tail) → ring.replay.sent = ring.snapshot

/-- The sequences of the head that hold no control character leave an alternate screen up, or none
leave one up and all say the same of each mode that the tail says nothing about. A sequence that
the cut goes through is one of the head's. -/
def Decided (head tail : List UInt8) : Prop :=
  (plainSettings head).alternateUp = true ∨
    (terminalSettings head).alternateUp ≠ true ∧
      ∀ mode, (∀ value, (mode, value) ∉ terminalSettings tail) →
        (terminalSettings (head ++ tail.takeWhile (· ≠ escape))).mode mode = (plainSettings head).mode mode

theorem newline_in_head (cut : Cut all head tail) : newline ∈ head :=
  List.mem_of_getLast? cut.broken

/-- A replay that is not the whole ring, mode by mode. -/
theorem sent_modes (cut : Cut ring.snapshot head tail) (down : (plainSettings head).alternateUp ≠ true) :
    (∃ preamble, ring.replay.sent = preamble ++ tail) ∧ ring.replay.sent ≠ ring.snapshot ∧
      ∀ mode, (terminalSettings ring.replay.sent).mode mode =
        (word (terminalSettings tail) mode).getD ((plainSettings head).mode mode) := by
  obtain ⟨preamble, found, kept, reads⟩ := modesLeftBy_down down
  have sent : ring.replay.sent = preamble ++ tail := by rw [sent_of_cut cut, found, Option.elim_some]
  refine ⟨⟨preamble, sent⟩, ?_, ?_⟩
  · rw [sent, cut.parts]
    intro whole
    have breaks := kept newline (List.append_cancel_right whole ▸ newline_in_head cut)
    exact absurd breaks (by decide)
  · intro mode
    have all : preamble.filter (fun byte => !carriedOut byte) = preamble := by
      refine List.filter_eq_self.mpr fun byte member => ?_
      rw [kept byte member]
      rfl
    rw [sent, terminalSettings, List.filter_append, all, reads]
    rfl

theorem replayed_of_whole (sent : ring.replay.sent = ring.snapshot) : Replayed ring where
  modes mode := by rw [sent]
  lines head tail cut := by
    rw [sent, cut.parts]
    exact List.suffix_append _ _
  screen _ _ _ _ := sent
  short _ := sent

theorem whole_modes (cut : Cut ring.snapshot head tail) (mode : Nat) : (terminalSettings ring.snapshot).mode mode =
    (word (terminalSettings tail) mode).getD ((terminalSettings (head ++ tail.takeWhile (· ≠ escape))).mode mode) := by
  rw [cut.parts, terminalSettings_append, mode_append]

/-- A replay is as good as the ring exactly when the sequences that hold no control character
decide on what the head leaves. -/
theorem replayed_iff (ring : RingBuffer) : Replayed ring ↔ ∀ head tail, Cut ring.snapshot head tail → Decided head tail := by
  constructor
  · intro replayed head tail cut
    by_cases up : (plainSettings head).alternateUp = true
    · exact .inl up
    · obtain ⟨_, partial_, reads⟩ := sent_modes cut up
      refine .inr ⟨fun alternate => partial_ (replayed.screen head tail cut alternate), fun mode silent => ?_⟩
      have same := replayed.modes mode
      rw [reads, whole_modes cut, word_none.mpr silent] at same
      exact same.symm
  · intro decided
    by_cases cuts : ∃ head tail, Cut ring.snapshot head tail
    · obtain ⟨head, tail, cut⟩ := cuts
      by_cases up : (plainSettings head).alternateUp = true
      · apply replayed_of_whole
        rw [sent_of_cut cut, modesLeftBy_up up, Option.elim_none]
      · obtain ⟨down, agree⟩ := (decided head tail cut).resolve_left up
        obtain ⟨⟨preamble, sent⟩, _, reads⟩ := sent_modes cut up
        have only : ∀ head' tail', Cut ring.snapshot head' tail' → head' = head ∧ tail' = tail := by
          intro head' tail' cut'
          have lengths := Option.some.inj ((cut_found cut').symm.trans (cut_found cut))
          exact List.append_inj (cut'.parts.symm.trans cut.parts) lengths
        constructor
        · intro mode
          rw [reads, whole_modes cut]
          cases said : word (terminalSettings tail) mode with
          | some value => rfl
          | none => exact (agree mode (word_none.mp said)).symm
        · intro head' tail' cut'
          rw [sent, (only head' tail' cut').2]
          exact List.suffix_append _ _
        · intro head' tail' cut' alternate
          exact absurd ((only head' tail' cut').1 ▸ alternate) down
        · exact fun short => absurd cut (short _ _)
    · exact replayed_of_whole (sent_of_short fun head tail cut => cuts ⟨head, tail, cut⟩)

/-- Bracketed paste is set by a sequence with a line break in it, where the lines are cut. -/
def brokenHead : List UInt8 := [escape, bracket, question, 50, 48, 48, 52, newline]

def brokenTail : List UInt8 := setMode :: List.replicate replayLines newline

theorem brokenCut : Cut (brokenHead ++ brokenTail) brokenHead brokenTail := by
  refine ⟨rfl, rfl, ?_⟩
  rw [brokenTail, List.count_cons_of_ne (by decide), List.count_replicate_self]

theorem broken_mode_lost : ¬ Replayed ⟨[brokenHead ++ brokenTail], (brokenHead ++ brokenTail).length⟩ := by
  intro replayed
  have whole : RingBuffer.snapshot ⟨[brokenHead ++ brokenTail], (brokenHead ++ brokenTail).length⟩ = brokenHead ++ brokenTail :=
    List.flatten_singleton
  have lines : (List.replicate replayLines newline).filter (fun byte => !carriedOut byte) = [] :=
    List.filter_eq_nil_iff.mpr fun byte member => by rw [List.eq_of_mem_replicate member]; decide
  have tail : brokenTail.filter (fun byte => !carriedOut byte) = [setMode] := by
    rw [brokenTail, List.filter_cons_of_pos (by decide), lines]
  obtain ⟨_, _, reads⟩ := sent_modes (whole ▸ brokenCut) (by decide)
  have same := replayed.modes 2004
  rw [reads, whole, terminalSettings, terminalSettings, List.filter_append, tail] at same
  exact absurd same (by decide)

end Oxplow.Proofs.ReplayedModes
