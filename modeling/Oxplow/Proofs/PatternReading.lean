import Oxplow.Extensions.ParamPattern
import Oxplow.Library.Transaction

/-! The pattern kept is read as the runs of the pattern written. -/

namespace Oxplow.Proofs.PatternReading
open Oxplow.Extensions.ParamPattern Oxplow.Library

/-! ## Sets -/

theorem getLsbD_shifted (c k : Nat) : (1#128 <<< c).getLsbD k = (decide (k < 128) && decide (k = c)) := by
  rw [BitVec.getLsbD_shiftLeft, BitVec.getLsbD_one, Bool.eq_iff_iff]
  simp only [Bool.and_eq_true, decide_eq_true_eq, Bool.not_eq_true', decide_eq_false_iff_not]
  omega

@[simp] theorem getLsbD_bit (c : Char) (k : Nat) : (bit c).getLsbD k = (decide (k < 128) && decide (k = c.toNat)) :=
  getLsbD_shifted c.toNat k

theorem getLsbD_foldl (s : BitVec 128) (cs : List Nat) (k : Nat) :
    (cs.foldl (fun s c => s ||| 1#128 <<< c) s).getLsbD k = (s.getLsbD k || (decide (k < 128) && decide (k ∈ cs))) := by
  induction cs generalizing s with
  | nil => simp
  | cons c cs ih =>
    rw [List.foldl_cons, ih, BitVec.getLsbD_or, getLsbD_shifted]
    by_cases here : k = c <;> cases s.getLsbD k <;> simp +contextual [here]

@[simp] theorem getLsbD_span (lo hi : Char) (k : Nat) :
    (span lo hi).getLsbD k = (decide (k < 128) && (decide (lo.toNat ≤ k) && decide (k ≤ hi.toNat))) := by
  rw [span, getLsbD_foldl, Bool.eq_iff_iff]
  simp [List.mem_range'_1]
  omega

/-- Some characters, all of them printable. -/
structure Readable (set : BitVec 128) : Prop where
  filled : set ≠ 0
  within : ∀ k, set.getLsbD k = true → 0x20 ≤ k ∧ k ≤ 0x7e

variable {c : Char}

theorem printable_iff : printable c = true ↔ 0x20 ≤ c.toNat ∧ c.toNat ≤ 0x7e := by
  simp [printable]

variable {set : BitVec 128}

/-- A set that is another with a character more. -/
theorem Readable.or {more : BitVec 128} (old : ∀ k, set.getLsbD k = true → 0x20 ≤ k ∧ k ≤ 0x7e) (new : Readable more) :
    Readable (set ||| more) := by
  constructor
  · intro none
    apply new.filled
    apply BitVec.eq_of_getLsbD_eq
    intro k _
    have off := congrArg (fun s : BitVec 128 => s.getLsbD k) none
    simp only [BitVec.getLsbD_or, BitVec.ofNat_eq_ofNat, BitVec.getLsbD_zero, Bool.or_eq_false_iff] at off
    simpa using off.2
  · intro k inside
    rw [BitVec.getLsbD_or, Bool.or_eq_true] at inside
    exact inside.elim (old k) (new.within k)

theorem ne_zero_of_bit {k : Nat} (on : set.getLsbD k = true) : set ≠ 0 := by
  rintro rfl
  simp at on

theorem readable_span {lo hi : Char} (order : lo.toNat ≤ hi.toNat) (low : printable lo = true) (high : printable hi = true) :
    Readable (span lo hi) := by
  have bound := printable_iff.mp low
  have bound' := printable_iff.mp high
  constructor
  · apply ne_zero_of_bit (k := lo.toNat)
    simp only [getLsbD_span, Bool.and_eq_true, decide_eq_true_eq]
    omega
  · intro k inside
    simp only [getLsbD_span, Bool.and_eq_true, decide_eq_true_eq] at inside
    omega

theorem readable_bit (shown : printable c = true) : Readable (bit c) := by
  have bound := printable_iff.mp shown
  constructor
  · apply ne_zero_of_bit (k := c.toNat)
    simp
    omega
  · intro k inside
    simp only [getLsbD_bit, Bool.and_eq_true, decide_eq_true_eq] at inside
    omega

theorem readable_digits : Readable digits := readable_span (by decide) (by decide) (by decide)

theorem readable_word : Readable word :=
  .or (Readable.or (Readable.or (readable_span (by decide) (by decide) (by decide)).within
    (readable_span (by decide) (by decide) (by decide))).within (readable_span (by decide) (by decide) (by decide))).within
    (readable_bit (by decide))

/-! ## What a read run is -/

theorem readable_escape {e : Option Char} (shown : ∀ c ∈ e, printable c = true) (read : escape e = .ok set) : Readable set := by
  unfold escape at read
  split at read
  · cases read
    exact readable_digits
  · cases read
    exact readable_word
  · rename_i p _ _
    split at read
    · cases read
      exact readable_bit (shown p rfl)
    · cases read
  · cases read

/-- A class that is being read. -/
structure Underway (set : BitVec 128) (start : Option Char) (first : Bool) : Prop where
  within : ∀ k, set.getLsbD k = true → 0x20 ≤ k ∧ k ≤ 0x7e
  filled : first = false → set ≠ 0
  begun : ∀ c ∈ start, printable c = true

theorem Underway.add {more : BitVec 128} {start next : Option Char} {first : Bool} (under : Underway set start first)
    (new : Readable more) (begun : ∀ c ∈ next, printable c = true) : Underway (set ||| more) next false :=
  have both := Readable.or under.within new
  ⟨both.within, fun _ => both.filled, begun⟩

theorem not_lt_toNat {lo hi : Char} (order : ¬ hi < lo) : lo.toNat ≤ hi.toNat := by
  simpa [Char.lt_def, UInt32.lt_iff_toNat_lt] using order

variable {text rest : List Char}

/-- A class takes a part of the text. -/
theorem classSet_spec {out : BitVec 128} {start : Option Char} {first : Bool}
    (read : classSet set start first text = .ok (out, rest)) (shown : ∀ c ∈ text, printable c = true)
    (under : Underway set start first) : Readable out ∧ rest <:+ text := by
  have later {c : Char} {tail : List Char} (all : ∀ d ∈ c :: tail, printable d = true) : ∀ d ∈ tail, printable d = true :=
    fun d member => all d (List.mem_cons_of_mem _ member)
  have low {start : Option Char} (begun : ∀ c ∈ start, printable c = true) : printable (start.getD '-') = true := by
    cases start with
    | none => decide
    | some c => exact begun c rfl
  fun_induction classSet set start first text
  all_goals try cases read
  case case3.refl start first notFirst =>
    have some : first = false := by simpa using notFirst
    exact ⟨⟨under.filled some, under.within⟩, List.suffix_cons ..⟩
  case case11 hi tail _ order _ _ ih =>
    have high := shown hi (by simp)
    obtain ⟨readable, suffix⟩ := ih read (later (later (later shown)))
      (under.add (readable_span (not_lt_toNat order) (low under.begun) high) (by simp))
    exact ⟨readable, suffix.trans ⟨[_, '\\', hi], rfl⟩⟩
  case case14 hi tail _ _ _ order _ _ ih =>
    have high := shown hi (by simp)
    obtain ⟨readable, suffix⟩ := ih read (later (later shown))
      (under.add (readable_span (not_lt_toNat order) (low under.begun) high) (by simp))
    exact ⟨readable, suffix.trans ⟨[_, hi], rfl⟩⟩
  case case15 ih =>
    obtain ⟨readable, suffix⟩ := ih read (later (later shown)) (under.add readable_digits (by simp))
    exact ⟨readable, suffix.trans ⟨['\\', 'd'], rfl⟩⟩
  case case16 ih =>
    obtain ⟨readable, suffix⟩ := ih read (later (later shown)) (under.add readable_word (by simp))
    exact ⟨readable, suffix.trans ⟨['\\', 'w'], rfl⟩⟩
  case case17 p tail _ _ _ _ _ _ _ _ _ ih =>
    have plain := shown p (by simp)
    obtain ⟨readable, suffix⟩ := ih read (later (later shown))
      (under.add (readable_bit plain) fun c same => Option.some.inj same ▸ plain)
    exact ⟨readable, suffix.trans ⟨['\\', p], rfl⟩⟩
  case case18 p tail notDigits notWord unread _ _ _ _ _ _ =>
    have refused : escape (some p) = .error (.unreadEscape p) := by
      rw [escape, if_neg unread]
      · exact notDigits
      · exact notWord
    rw [refused] at read
    cases read
  case case20 c tail _ _ _ _ _ _ _ ih =>
    have plain := shown c (by simp)
    obtain ⟨readable, suffix⟩ := ih read (later shown)
      (under.add (readable_bit plain) fun d same => Option.some.inj same ▸ plain)
    exact ⟨readable, suffix.trans (List.suffix_cons ..)⟩

theorem runSet_spec {out : BitVec 128} (read : runSet c text = .ok (out, rest)) (shown : ∀ d ∈ c :: text, printable d = true) :
    Readable out ∧ rest <:+ text := by
  have later : ∀ d ∈ text, printable d = true := fun d member => shown d (List.mem_cons_of_mem _ member)
  unfold runSet at read
  split at read
  · obtain ⟨set, taken, same⟩ := Outcome.map_ok.mp read
    cases same
    exact ⟨readable_escape (fun d member => later d (List.mem_of_head? member)) taken, List.drop_suffix ..⟩
  split at read
  · exact classSet_spec read later ⟨fun k on => by simp at on, by simp, by simp⟩
  iterate 5
    split at read
    · cases read
  split at read
  · cases read
  · cases read
    exact ⟨readable_bit (shown c (List.mem_cons_self ..)), List.suffix_refl _⟩

/-- A quantifier within the bounds. -/
structure Bounded (min : Nat) (max : Option Nat) : Prop where
  small : min ≤ maxRepeat
  high : ∀ m ∈ max, min ≤ m ∧ m ≤ maxRepeat ∧ 0 < m

theorem number_le {inside : List Char} {n : Nat} (read : number inside text = .ok n) : n ≤ maxRepeat := by
  unfold number at read
  split at read
  · cases read
  split at read
  · cases read
  · cases read
    omega

variable {q : Nat × Option Nat}

theorem repeats_le {inside : List Char} (read : repeats inside = .ok q) : q.1 ≤ maxRepeat ∧ ∀ m ∈ q.2, m ≤ maxRepeat := by
  unfold repeats at read
  split at read
  · obtain ⟨n, first, rfl⟩ := Outcome.map_ok.mp read
    exact ⟨number_le first, fun m same => Option.some.inj same ▸ number_le first⟩
  · obtain ⟨n, first, rfl⟩ := Outcome.map_ok.mp read
    exact ⟨number_le first, by simp⟩
  · obtain ⟨n, first, then_⟩ := Outcome.bind_ok.mp read
    obtain ⟨m, second, rfl⟩ := Outcome.map_ok.mp then_
    exact ⟨number_le first, fun m' same => Option.some.inj same ▸ number_le second⟩

theorem unstacked_eq {q' : Nat × Option Nat} (read : unstacked q text = .ok (q', rest)) : q' = q ∧ rest = text := by
  unfold unstacked at read
  split at read
  · cases read
  · cases read
    exact ⟨rfl, rfl⟩

theorem quantifier_spec (read : quantifier text = .ok (q, rest)) : Bounded q.1 q.2 ∧ rest <:+ text := by
  unfold quantifier at read
  split at read
  · obtain ⟨rfl, rfl⟩ := unstacked_eq read
    exact ⟨⟨by decide, by simp⟩, List.suffix_cons ..⟩
  · obtain ⟨rfl, rfl⟩ := unstacked_eq read
    exact ⟨⟨by decide, by simp⟩, List.suffix_cons ..⟩
  · obtain ⟨rfl, rfl⟩ := unstacked_eq read
    exact ⟨⟨by decide, by simp [maxRepeat]⟩, List.suffix_cons ..⟩
  · rename_i tail
    split at read
    · cases read
    rename_i inside left cut
    obtain ⟨bounded, bounds, checked⟩ := Outcome.bind_ok.mp read
    split at checked
    · cases checked
    rename_i forward
    split at checked
    · cases checked
    rename_i matter
    obtain ⟨rfl, rfl⟩ := unstacked_eq checked
    obtain ⟨small, high⟩ := repeats_le bounds
    constructor
    · refine ⟨small, fun m here => ?_⟩
      have order : q.1 ≤ m := by simpa [Option.mem_def.mp here] using forward
      refine ⟨order, high m here, Nat.pos_of_ne_zero ?_⟩
      rintro rfl
      exact matter (Prod.ext (Nat.le_zero.mp order) here)
    · rw [(splitOnce_eq_some cut).1]
      exact ⟨'\x7b' :: inside ++ ['\x7d'], by simp⟩
  · cases read
    exact ⟨⟨by decide, by simp [maxRepeat]⟩, List.suffix_refl _⟩

/-- A run of a pattern that was read. -/
structure Legible (run : Run) : Prop where
  readable : Readable run.set
  bounded : Bounded run.min run.max

theorem readRuns_legible {fuel : Nat} {runs : List Run} (read : readRuns fuel text = .ok runs)
    (shown : ∀ c ∈ text, printable c = true) : ∀ run ∈ runs, Legible run := by
  induction fuel generalizing text runs with
  | zero => cases text <;> cases read <;> simp
  | succ fuel ih =>
    cases text with
    | nil => cases read; simp
    | cons c text =>
      rw [readRuns] at read
      obtain ⟨⟨out, rest⟩, set, read⟩ := Outcome.bind_ok.mp read
      obtain ⟨⟨q, left⟩, times, read⟩ := Outcome.bind_ok.mp read
      obtain ⟨others, more, rfl⟩ := Outcome.map_ok.mp read
      obtain ⟨readable, suffix⟩ := runSet_spec set shown
      obtain ⟨bounded, suffix'⟩ := quantifier_spec times
      have later : ∀ d ∈ left, printable d = true := fun d member =>
        shown d (List.mem_cons_of_mem _ (suffix.subset (suffix'.subset member)))
      intro run member
      rcases List.mem_cons.mp member with rfl | old
      · exact ⟨readable, bounded⟩
      · exact ih more later run old

end Oxplow.Proofs.PatternReading
