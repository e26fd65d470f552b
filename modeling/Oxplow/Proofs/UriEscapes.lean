import Oxplow.Uri.Uri

/-! The escapes of a value. What `encode` writes, `decode` reads; and the two parsers read
the same bytes, but for an escape that has a `+` for its first digit. -/

namespace Oxplow.Proofs.UriEscapes
open Uri Library

/-! ## UTF-8 -/

theorem fromUtf8_utf8 (text : List Char) : fromUtf8 (utf8 text) = some (String.ofList text) := by
  have decoded : text.utf8Encode.utf8Decode? = some text.toArray := List.utf8Decode?_utf8Encode
  change text.utf8Encode.utf8Decode?.map _ = _
  rw [decoded, Option.map_some]

theorem utf8_cons (c : Char) (text : List Char) : utf8 (c :: text) = String.utf8EncodeChar c ++ utf8 text := List.flatMap_cons

theorem utf8_append (front rest : List Char) : utf8 (front ++ rest) = utf8 front ++ utf8 rest := List.flatMap_append

variable {c : Char}

/-- An ASCII character is its byte. -/
theorem utf8EncodeChar_ascii (ascii : c.toNat < 0x80) : String.utf8EncodeChar c = [c.toUInt8] := by
  have small : c.val.toNat ≤ 0x7F := Nat.le_of_lt_succ ascii
  rw [String.utf8EncodeChar]
  exact if_pos small

/-- The bytes of any other are none of an ASCII character. -/
theorem utf8EncodeChar_wide (wide : ¬ c.toNat < 0x80) : ∀ b ∈ String.utf8EncodeChar c, 0x80 ≤ b := by
  have large : ¬ c.val.toNat ≤ 0x7F := fun small => wide (Nat.lt_succ_of_le small)
  intro b member
  rw [String.utf8EncodeChar] at member
  rw [if_neg large] at member
  split at member
  · simp only [List.mem_cons, List.not_mem_nil, or_false] at member
    rcases member with rfl | rfl <;> simp [UInt8.le_iff_toNat_le] <;> omega
  · split at member
    · simp only [List.mem_cons, List.not_mem_nil, or_false] at member
      rcases member with rfl | rfl | rfl <;> simp [UInt8.le_iff_toNat_le] <;> omega
    · simp only [List.mem_cons, List.not_mem_nil, or_false] at member
      rcases member with rfl | rfl | rfl | rfl <;> simp [UInt8.le_iff_toNat_le] <;> omega

theorem ofUInt8_toUInt8 (ascii : c.toNat < 0x80) : Char.ofUInt8 c.toUInt8 = c := by
  have small : c.val.toNat < 0x80 := ascii
  apply Char.ext
  apply UInt32.toNat_inj.mp
  change c.val.toUInt8.toUInt32.toNat = c.val.toNat
  rw [UInt8.toNat_toUInt32, UInt32.toNat_toUInt8]
  omega

variable {text : List Char} {bytes : List UInt8}

/-- A text whose first byte is an ASCII character's starts with that character. -/
theorem utf8_eq_cons {b : UInt8} (whole : utf8 text = b :: bytes) (ascii : b < 0x80) :
    ∃ rest, text = Char.ofUInt8 b :: rest ∧ utf8 rest = bytes := by
  cases text with
  | nil => cases whole
  | cons c rest =>
    rw [utf8_cons] at whole
    by_cases small : c.toNat < 0x80
    · rw [utf8EncodeChar_ascii small, List.singleton_append] at whole
      obtain ⟨rfl, rfl⟩ := List.cons.inj whole
      refine ⟨rest, ?_, rfl⟩
      rw [ofUInt8_toUInt8 small]
    · have high := utf8EncodeChar_wide small
      cases first : String.utf8EncodeChar c with
      | nil => exact absurd first String.utf8EncodeChar_ne_nil
      | cons a bs =>
        rw [first, List.cons_append] at whole
        rw [first] at high
        have large := high a (List.mem_cons_self ..)
        rw [(List.cons.inj whole).1] at large
        exact absurd ascii (UInt8.not_lt.mpr large)

/-! ## Results -/

theorem map_eq_ok {ε α β : Type} {f : α → β} {x : Except ε α} {b : β} (done : x.map f = .ok b) : ∃ a, x = .ok a ∧ f a = b := by
  cases x with
  | error _ => cases done
  | ok a => exact ⟨a, rfl, Except.ok.inj done⟩

theorem bind_eq_ok {ε α β : Type} {f : α → Except ε β} {x : Except ε α} {b : β} (done : x.bind f = .ok b) :
    ∃ a, x = .ok a ∧ f a = .ok b := by
  cases x with
  | error _ => cases done
  | ok a => exact ⟨a, rfl, done⟩

/-! ## Bytes, one at a time -/

/-- A fact about every byte is checked at each of them. -/
theorem forall_byte {P : UInt8 → Prop} (all : ∀ n : Fin 256, P (UInt8.ofFin n)) (b : UInt8) : P b := all b.toFin

set_option maxRecDepth 8000 in
theorem byte_table : ∀ b : UInt8,
    ((Char.ofUInt8 b).isAlphanum = true → b < 0x80 ∧ b ≠ 0x25 ∧ b ≠ 0x23 ∧ b ≠ 0x26) ∧
      ((hexDigit b).isSome = true → b < 0x80 ∧ b ≠ 0x23 ∧ b ≠ 0x26 ∧ b ≠ 0x25 ∧ b ≠ 0x2B) ∧
      Desktop.pattern.inRanges [('A', 'Z'), ('a', 'z'), ('0', '9')] (Char.ofUInt8 b) = (Char.ofUInt8 b).isAlphanum ∧
      Desktop.hexValue (Char.ofUInt8 b) = hexDigit b ∧ (Char.ofUInt8 b).toUInt8 = b ∧ 16 * (b / 16) + b % 16 = b :=
  forall_byte (by decide)

theorem toUInt8_ofUInt8 (b : UInt8) : (Char.ofUInt8 b).toUInt8 = b := (byte_table b).2.2.2.2.1

theorem digit_small (b : UInt8) : b / 16 < 16 ∧ b % 16 < 16 := by
  have bound := b.toNat_lt
  constructor
  · rw [UInt8.lt_iff_toNat_lt]
    simp
    omega
  · rw [UInt8.lt_iff_toNat_lt]
    simp
    omega

theorem upperHex_digit {d : UInt8} (small : d < 16) : upperHex d ∉ ['#', '&'] ∧ (upperHex d).toNat < 0x80 ∧
    hexDigit (upperHex d).toUInt8 = some d ∧ (upperHex d).toUInt8 ≠ 0x2B := by
  have all : ∀ n : Fin 16, upperHex (UInt8.ofNat n) ∉ ['#', '&'] ∧ (upperHex (UInt8.ofNat n)).toNat < 0x80 ∧
      hexDigit (upperHex (UInt8.ofNat n)).toUInt8 = some (UInt8.ofNat n) ∧ (upperHex (UInt8.ofNat n)).toUInt8 ≠ 0x2B := by
    decide
  simpa using all ⟨d.toNat, small⟩

theorem listed_plain : ("-._~/:?,@!$'()*;".toList.all fun c =>
    decide (c.toUInt8 < 0x80 ∧ c.toUInt8 ≠ 0x25 ∧ c.toUInt8 ≠ 0x23 ∧ c.toUInt8 ≠ 0x26)) = true := by decide

theorem raw_plain {b : UInt8} (raw : isRaw b = true) : b < 0x80 ∧ b ≠ 0x25 ∧ b ≠ 0x23 ∧ b ≠ 0x26 := by
  rcases Bool.or_eq_true_iff.mp raw with letter | listed
  · exact (byte_table b).1 letter
  · have plain := of_decide_eq_true (List.all_eq_true.mp listed_plain _ (List.contains_iff_mem.mp listed))
    rwa [toUInt8_ofUInt8] at plain

theorem raw_byte (b : UInt8) (raw : isRaw b = true) : utf8 [Char.ofUInt8 b] = [b] ∧ b ≠ 0x25 ∧ b ≠ 0x23 ∧ b ≠ 0x26 := by
  obtain ⟨ascii, apart⟩ := raw_plain raw
  refine ⟨?_, apart⟩
  have small : (Char.ofUInt8 b).toNat < 0x80 := ascii
  rw [utf8_cons, utf8EncodeChar_ascii small, toUInt8_ofUInt8]
  rfl

theorem escaped_byte (b : UInt8) :
    utf8 ['%', upperHex (b / 16), upperHex (b % 16)] = [0x25, (upperHex (b / 16)).toUInt8, (upperHex (b % 16)).toUInt8] ∧
      fromStrRadix (upperHex (b / 16)).toUInt8 (upperHex (b % 16)).toUInt8 = some b := by
  obtain ⟨-, highAscii, highDigit, unsigned⟩ := upperHex_digit (digit_small b).1
  obtain ⟨-, lowAscii, lowDigit, -⟩ := upperHex_digit (digit_small b).2
  constructor
  · rw [utf8_cons, utf8_cons, utf8_cons, utf8EncodeChar_ascii highAscii, utf8EncodeChar_ascii lowAscii]
    rfl
  · rw [fromStrRadix, if_neg unsigned, highDigit, lowDigit, Option.bind_some, Option.map_some, (byte_table b).2.2.2.2.2]

theorem encodeByte_clean (b : UInt8) : '#' ∉ encodeByte b ∧ '&' ∉ encodeByte b := by
  rw [encodeByte]
  split
  · rename_i raw
    obtain ⟨-, -, fragment, ampersand⟩ := raw_plain raw
    rw [List.mem_singleton, List.mem_singleton]
    -- A character that is its byte is the character of that byte.
    refine ⟨fun same => fragment ?_, fun same => ampersand ?_⟩
    · rw [← toUInt8_ofUInt8 b, ← same]
      rfl
    · rw [← toUInt8_ofUInt8 b, ← same]
      rfl
  · have high := (upperHex_digit (digit_small b).1).1
    have low := (upperHex_digit (digit_small b).2).1
    simp only [List.mem_cons, List.not_mem_nil, or_false, not_or] at high low ⊢
    exact ⟨⟨by decide, Ne.symm high.1, Ne.symm low.1⟩, by decide, Ne.symm high.2, Ne.symm low.2⟩

theorem encode_clean (value : String) : '#' ∉ encode value ∧ '&' ∉ encode value := by
  constructor
  · intro member
    obtain ⟨b, _, inside⟩ := List.mem_flatMap.mp member
    exact (encodeByte_clean b).1 inside
  · intro member
    obtain ⟨b, _, inside⟩ := List.mem_flatMap.mp member
    exact (encodeByte_clean b).2 inside

/-! ## The round trip of a value -/

theorem unescape_encodeByte (value : String) (b : UInt8) (rest : List UInt8) :
    unescape value (utf8 (encodeByte b) ++ rest) = (unescape value rest).map (b :: ·) := by
  by_cases raw : isRaw b = true
  · obtain ⟨itself, noEscape, -, -⟩ := raw_byte b raw
    rw [encodeByte, if_pos raw, itself, List.singleton_append, unescape_plain value noEscape, raw, Bool.true_or,
      if_pos rfl]
  · obtain ⟨bytes, digits⟩ := escaped_byte b
    rw [encodeByte, if_neg raw, bytes, List.cons_append, List.cons_append, List.cons_append, List.nil_append, unescape_escape,
      digits, Option.elim_some]

theorem unescape_encodeBytes (value : String) (bytes rest : List UInt8) :
    unescape value (utf8 (bytes.flatMap encodeByte) ++ rest) = (unescape value rest).map (bytes ++ ·) := by
  induction bytes with
  | nil =>
    change unescape value rest = (unescape value rest).map id
    rw [Except.map_id]
    rfl
  | cons b bytes ih =>
    rw [List.flatMap_cons, utf8_append, List.append_assoc, unescape_encodeByte, ih]
    cases unescape value rest <;> rfl

theorem decode_encode (value : String) : decode (encode value) = .ok value := by
  have bytes : unescape (String.ofList (encode value)) (utf8 (encode value)) = .ok (utf8 value.toList) := by
    have step := unescape_encodeBytes (String.ofList (encode value)) (utf8 value.toList) []
    rw [List.append_nil] at step
    refine step.trans ?_
    change Except.ok (utf8 value.toList ++ []) = _
    rw [List.append_nil]
  have text : fromUtf8 (utf8 value.toList) = some value := by rw [fromUtf8_utf8, String.ofList_toList]
  simp only [decode, bytes, Except.bind, text]

/-! ## What is decoded has no separator -/

theorem hexDigit_byte (b : UInt8) (digit : (hexDigit b).isSome = true) : b < 0x80 ∧ b ≠ 0x23 ∧ b ≠ 0x26 ∧ b ≠ 0x25 ∧ b ≠ 0x2B :=
  (byte_table b).2.1 digit

/-- The two bytes of an escape. -/
theorem fromStrRadix_eq_some {h l byte : UInt8} (digits : fromStrRadix h l = some byte) :
    (h = 0x2B ∨ (hexDigit h).isSome = true) ∧ (hexDigit l).isSome = true := by
  rw [fromStrRadix] at digits
  split at digits
  · exact ⟨.inl ‹_›, Option.isSome_of_eq_some digits⟩
  · obtain ⟨high, first, rest⟩ := Option.bind_eq_some_iff.mp digits
    obtain ⟨low, second, -⟩ := Option.map_eq_some_iff.mp rest
    exact ⟨.inr (Option.isSome_of_eq_some first), Option.isSome_of_eq_some second⟩

/-- A byte of a value's text that stands for itself. -/
def Plain (a b : UInt8) : Prop := (isRaw a || a == 0x2B) = true ∧ b = a

variable {out : List UInt8}

/-- What `unescape` reads, as a grammar. -/
theorem unescape_iff {value : String} :
    unescape value bytes = .ok out ↔ Spells 0x25 Plain (fun h l b => fromStrRadix h l = some b) bytes out := by
  constructor
  · intro decoded
    induction bytes using unescape.induct generalizing out with
    | case1 =>
      obtain rfl : [] = out := Except.ok.inj decoded
      exact .nil
    | case2 h l rest byte digits ih =>
      rw [unescape_escape, digits, Option.elim_some] at decoded
      obtain ⟨later, read, rfl⟩ := map_eq_ok decoded
      exact .escape digits (ih read)
    | case3 h l rest none =>
      rw [unescape_escape, none] at decoded
      cases decoded
    | case4 rest short =>
      rcases rest with _ | ⟨h, _ | ⟨l, rest⟩⟩
      · cases decoded
      · cases decoded
      · exact absurd rfl (short h l rest)
    | case5 b rest plain raw ih =>
      rw [unescape_plain value plain, if_pos raw] at decoded
      obtain ⟨later, read, rfl⟩ := map_eq_ok decoded
      exact .letter ⟨raw, rfl⟩ (ih read)
    | case6 b rest plain bare =>
      rw [unescape_plain value plain, if_neg bare] at decoded
      cases decoded
  · intro spells
    induction spells with
    | nil => rfl
    | @letter a b text out itself _ ih =>
      obtain ⟨raw, rfl⟩ := itself
      have plain : b ≠ 0x25 := by
        rintro rfl
        exact absurd raw (by decide)
      rw [unescape_plain value plain, if_pos raw, ih]
      rfl
    | @escape h l b text out digits _ ih =>
      rw [unescape_escape, digits, Option.elim_some, ih]
      rfl

theorem plain_byte (b : UInt8) (plain : (isRaw b || b == 0x2B) = true) : b < 0x80 ∧ b ≠ 0x25 ∧ b ≠ 0x23 ∧ b ≠ 0x26 := by
  rcases Bool.or_eq_true_iff.mp plain with raw | plus
  · exact raw_plain raw
  · obtain rfl := eq_of_beq plus
    decide

/-! ## The two readings -/

theorem raw_ofUInt8 (b : UInt8) : Desktop.raw (Char.ofUInt8 b) = isRaw b := by
  rw [Desktop.raw, isRaw, (byte_table b).2.2.1]

theorem hexValue_ofUInt8 (b : UInt8) : Desktop.hexValue (Char.ofUInt8 b) = hexDigit b := (byte_table b).2.2.2.1

theorem listed_ascii : ("-._~/:?,@!$'()*;".toList.all fun c => decide (c.toNat < 0x80)) = true := by decide

theorem raw_ascii (raw : Desktop.raw c = true) : c.toNat < 0x80 := by
  rcases Bool.or_eq_true_iff.mp raw with inside | listed
  · obtain ⟨range, member, bounds⟩ := List.any_eq_true.mp inside
    have top : c ≤ range.2 := by simpa using (Bool.and_eq_true_iff.mp bounds).2
    have last : range.2.toNat ≤ 0x7A := by
      simp only [List.mem_cons, List.not_mem_nil, or_false] at member
      rcases member with rfl | rfl | rfl <;> decide
    have order : c.toNat ≤ range.2.toNat := top
    omega
  · have member : c ∈ "-._~/:?,@!$'()*;".toList := List.contains_iff_mem.mp listed
    exact of_decide_eq_true (List.all_eq_true.mp listed_ascii c member)

theorem hexValue_ascii (digit : (Desktop.hexValue c).isSome = true) : c.toNat < 0x80 := by
  rw [Desktop.hexValue] at digit
  have low : ∀ top : Char, top.toNat ≤ 0x66 → c ≤ top → c.toNat < 0x80 := by
    intro top bound order
    have below : c.toNat ≤ top.toNat := order
    omega
  by_cases decimal : '0' ≤ c ∧ c ≤ '9'
  · exact low '9' (by decide) decimal.2
  rw [if_neg decimal] at digit
  by_cases upper : 'A' ≤ c ∧ c ≤ 'F'
  · exact low 'F' (by decide) upper.2
  rw [if_neg upper] at digit
  by_cases lower : 'a' ≤ c ∧ c ≤ 'f'
  · exact low 'f' (by decide) lower.2
  rw [if_neg lower] at digit
  cases digit

/-- A character of a value's text that stands for itself in the desktop's reading. -/
def DesktopPlain (c : Char) (b : UInt8) : Prop := (Desktop.raw c || c == '+') = true ∧ b = c.toUInt8

/-- The two digits of an escape in the desktop's reading. -/
def DesktopDigits (h l : Char) (b : UInt8) : Prop :=
  ∃ high low, Desktop.hexValue h = some high ∧ Desktop.hexValue l = some low ∧ b = 16 * high + low

theorem bytesOf_iff : Desktop.bytesOf text = .ok out ↔ Spells '%' DesktopPlain DesktopDigits text out := by
  constructor
  · intro read
    induction text using Desktop.bytesOf.induct generalizing out with
    | case1 =>
      obtain rfl : [] = out := Except.ok.inj read
      exact .nil
    | case2 h l rest high low second first ih =>
      rw [Desktop.bytesOf_escape, first, second] at read
      obtain ⟨later, found, rfl⟩ := map_eq_ok read
      exact .escape ⟨high, low, first, second, rfl⟩ (ih found)
    | case3 h l rest none =>
      rw [Desktop.bytesOf_escape] at read
      cases first : Desktop.hexValue h with
      | none =>
        rw [first] at read
        cases read
      | some high =>
        cases second : Desktop.hexValue l with
        | none =>
          rw [first, second] at read
          cases read
        | some low => exact absurd second (none high low first)
    | case4 rest short =>
      rcases rest with _ | ⟨h, _ | ⟨l, rest⟩⟩
      · cases read
      · cases read
      · exact absurd rfl (short h l rest)
    | case5 c rest plain raw ih =>
      rw [Desktop.bytesOf_plain plain, if_pos raw] at read
      obtain ⟨later, found, rfl⟩ := map_eq_ok read
      exact .letter ⟨raw, rfl⟩ (ih found)
    | case6 c rest plain bare =>
      rw [Desktop.bytesOf_plain plain, if_neg bare] at read
      cases read
  · intro spells
    induction spells with
    | nil => rfl
    | @letter c b text out itself _ ih =>
      obtain ⟨raw, rfl⟩ := itself
      have plain : c ≠ '%' := by
        rintro rfl
        exact absurd raw (by decide)
      rw [Desktop.bytesOf_plain plain, if_pos raw, ih]
      rfl
    | @escape h l b text out digits _ ih =>
      obtain ⟨high, low, first, second, rfl⟩ := digits
      rw [Desktop.bytesOf_escape, first, second, ih]
      rfl

theorem plain_ascii (plain : (Desktop.raw c || c == '+') = true) : c.toNat < 0x80 := by
  rcases Bool.or_eq_true_iff.mp plain with raw | plus
  · exact raw_ascii raw
  · have same : c = '+' := by simpa using plus
    rw [same]
    decide

theorem isRaw_toUInt8 (ascii : c.toNat < 0x80) : isRaw c.toUInt8 = Desktop.raw c := by
  rw [← raw_ofUInt8, ofUInt8_toUInt8 ascii]

theorem hexDigit_toUInt8 (ascii : c.toNat < 0x80) : hexDigit c.toUInt8 = Desktop.hexValue c := by
  rw [← hexValue_ofUInt8, ofUInt8_toUInt8 ascii]

/-- What the desktop reads, the daemon reads. -/
theorem spells_bytes (spells : Spells '%' DesktopPlain DesktopDigits text out) :
    Spells 0x25 Plain (fun h l b => fromStrRadix h l = some b) (utf8 text) out := by
  induction spells with
  | nil => exact .nil
  | @letter c b text out itself _ ih =>
    obtain ⟨plain, rfl⟩ := itself
    rw [utf8_cons, utf8EncodeChar_ascii (plain_ascii plain)]
    refine .letter ⟨?_, rfl⟩ ih
    rw [isRaw_toUInt8 (plain_ascii plain)]
    rcases Bool.or_eq_true_iff.mp plain with raw | plus
    · rw [raw, Bool.true_or]
    · have same : c = '+' := by simpa using plus
      rw [same]
      decide
  | @escape h l b text out digits _ ih =>
    obtain ⟨high, low, first, second, rfl⟩ := digits
    have firstAscii := hexValue_ascii (Option.isSome_of_eq_some first)
    have secondAscii := hexValue_ascii (Option.isSome_of_eq_some second)
    rw [utf8_cons, utf8_cons, utf8_cons, utf8EncodeChar_ascii firstAscii, utf8EncodeChar_ascii secondAscii]
    refine .escape ?_ ih
    rw [← hexDigit_toUInt8 firstAscii] at first
    rw [← hexDigit_toUInt8 secondAscii] at second
    have unplus := (hexDigit_byte _ (Option.isSome_of_eq_some first)).2.2.2.2
    rw [fromStrRadix, if_neg unplus, first, second]
    rfl

/-- A value's text has an escape whose first digit is a `+`. -/
def PlusEscape (value : List Char) : Prop := ∃ before digit after, value = before ++ '%' :: '+' :: digit :: after

/-- What the daemon reads, the desktop reads, unless the daemon read an escape with a `+`. -/
theorem spells_chars (whole : utf8 text = bytes) (spells : Spells 0x25 Plain (fun h l b => fromStrRadix h l = some b) bytes out) :
    PlusEscape text ∨ Spells '%' DesktopPlain DesktopDigits text out := by
  induction spells generalizing text with
  | nil =>
    cases text with
    | nil => exact .inr .nil
    | cons c rest =>
      rw [utf8_cons] at whole
      exact absurd (List.append_eq_nil_iff.mp whole).1 String.utf8EncodeChar_ne_nil
  | @letter a b _ out itself _ ih =>
    obtain ⟨plain, rfl⟩ := itself
    have facts := plain_byte b plain
    obtain ⟨rest, rfl, later⟩ := utf8_eq_cons whole facts.1
    rcases ih later with ⟨before, digit, after, rfl⟩ | read
    · exact .inl ⟨Char.ofUInt8 b :: before, digit, after, rfl⟩
    · refine .inr (.letter ⟨?_, (toUInt8_ofUInt8 b).symm⟩ read)
      rw [raw_ofUInt8]
      rcases Bool.or_eq_true_iff.mp plain with raw | plus
      · rw [raw, Bool.true_or]
      · have same : b = 0x2B := by simpa using plus
        rw [same]
        decide
  | @escape h l b _ out digits _ ih =>
    obtain ⟨first, second⟩ := fromStrRadix_eq_some digits
    have lowAscii := (hexDigit_byte l second).1
    obtain ⟨afterMark, rfl, digitsOn⟩ := utf8_eq_cons whole (by decide)
    have highAscii : h < 0x80 := by
      rcases first with rfl | digit
      · decide
      · exact (hexDigit_byte h digit).1
    obtain ⟨afterHigh, rfl, lowOn⟩ := utf8_eq_cons digitsOn highAscii
    obtain ⟨rest, rfl, later⟩ := utf8_eq_cons lowOn lowAscii
    rcases first with rfl | digit
    · exact .inl ⟨[], Char.ofUInt8 l, rest, rfl⟩
    rcases ih later with ⟨before, digit, after, rfl⟩ | read
    · exact .inl ⟨Char.ofUInt8 0x25 :: Char.ofUInt8 h :: Char.ofUInt8 l :: before, digit, after, rfl⟩
    · refine .inr (.escape ?_ read)
      have unplus := (hexDigit_byte h digit).2.2.2.2
      rw [fromStrRadix, if_neg unplus] at digits
      obtain ⟨high, firstIs, digits⟩ := Option.bind_eq_some_iff.mp digits
      obtain ⟨low, secondIs, same⟩ := Option.map_eq_some_iff.mp digits
      exact ⟨high, low, by rw [hexValue_ofUInt8, firstIs], by rw [hexValue_ofUInt8, secondIs], same.symm⟩

end Oxplow.Proofs.UriEscapes
