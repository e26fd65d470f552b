import Oxplow.Proofs.UriEscapes
import Oxplow.Providers.Codec

/-! What a peer writes is what the other reads: a message's line, lines out of any chunks, and
errors. -/

namespace Oxplow.Proofs.ProviderWire
open Jobs Library Providers
open Providers.Message Providers.ErrorObject

variable {fromStr : List Char → Option Json} {lossy : Lossy} {limit : Nat}

/-! ## Numbers -/

theorem digits_toDigits (n : Nat) : Harnesses.digits (Nat.toDigits 10 n) = some n := by
  have all : (Nat.toDigits 10 n).all Char.isDigit = true := by
    apply List.all_eq_true.mpr
    intro c member
    exact Nat.isDigit_of_mem_toDigits (by decide) (by decide) member
  have value : Nat.ofDigitChars 10 (Nat.toDigits 10 n) 0 = n := Nat.ofDigitChars_toDigits (by decide) (by decide)
  rw [Nat.ofDigitChars_eq_foldl] at value
  rw [Harnesses.digits, if_pos ⟨Nat.toDigits_ne_nil, all⟩]
  exact congrArg some value

theorem asU64_ofNat64 (n : BitVec 64) : asU64 (ofNat64 n) = some n := by
  have text : (toString n.toNat).toList = Nat.toDigits 10 n.toNat := by rw [Nat.toString_eq_repr, Nat.toList_repr]
  have small : n.toNat < 18446744073709551616 := n.isLt
  rw [ofNat64, asU64, text, digits_toDigits, Option.filter_some, if_pos (by simpa using small), Option.map_some, BitVec.ofNat_toNat,
    BitVec.setWidth_eq]

theorem integer_digits (n : Nat) : Harnesses.integer (Nat.toDigits 10 n) = some (n : Int) := by
  have read := digits_toDigits n
  have digit : ∀ c ∈ Nat.toDigits 10 n, c.isDigit = true := fun c member => Nat.isDigit_of_mem_toDigits (by decide) (by decide) member
  cases found : Nat.toDigits 10 n with
  | nil => exact absurd found Nat.toDigits_ne_nil
  | cons c text =>
    rw [found] at read digit
    have first : c ≠ '-' := by
      rintro rfl
      exact absurd (digit '-' (List.mem_cons_self ..)) (by decide)
    rw [Harnesses.integer, read]
    · rfl
    · rintro rest same
      exact first (List.cons.inj same).1

theorem integer_toString (n : Int) : Harnesses.integer (toString n).toList = some n := by
  rw [Int.toString_eq_repr, Int.repr_eq_if]
  split
  · rename_i positive
    rw [Nat.toList_repr, integer_digits, Int.toNat_of_nonneg positive]
  · rename_i negative
    have below : ((-n).toNat : Int) = -n := Int.toNat_of_nonneg (by omega)
    have minus : "-".toList = ['-'] := by decide
    rw [String.toList_append, Nat.toList_repr, minus, List.singleton_append, Harnesses.integer, digits_toDigits]
    change some (-((-n).toNat : Int)) = some n
    rw [below, Int.neg_neg]

theorem asI64_ofInt64 (n : BitVec 64) : Harnesses.asI64 (ofInt64 n) = some n := by
  have low : -2 ^ 63 ≤ n.toInt := BitVec.le_toInt n
  have high : n.toInt < 2 ^ 63 := BitVec.toInt_lt
  rw [ofInt64, Harnesses.asI64, integer_toString, Option.filter_some, if_pos (by simpa using And.intro low high), Option.map_some,
    BitVec.ofInt_toInt]

/-! ## A message's value -/

/-- The data of an error. -/
def errorData : Message → Option Json
  | .error _ object => object.data
  | _ => none

theorem fromValue_toValue_error (object : ErrorObject) :
    ErrorObject.fromValue object.toValue = some { object with data := object.data.bind nonNull } := by
  obtain ⟨code, message, data⟩ := object
  cases data <;> simp [List.lookup_cons, ErrorObject.toValue, ErrorObject.fromValue, ErrorObject.read, asI64_ofInt64, Harnesses.asStr]

theorem readId_ofNat64 (id : BitVec 64) : readId (some (ofNat64 id)) = some (some id) := by
  have read := asU64_ofNat64 id
  rw [ofNat64] at read
  rw [ofNat64, readId, read, Option.map_some]
  exact nofun

theorem readId_elim (id : Option (BitVec 64)) : readId (some (id.elim .null ofNat64)) = some id := by
  cases id with
  | none => rfl
  | some id => exact readId_ofNat64 id

/-- A message without the null data of an error. -/
def readAs : Message → Message
  | .error id object => .error id { object with data := object.data.bind nonNull }
  | message => message

theorem fromValue_toValue (message : Message) : Message.fromValue message.toValue = some (readAs message) := by
  cases message with
  | request id method params => simp [List.lookup_cons, Message.toValue, Message.fromValue, version, isVersion, readId_ofNat64, Harnesses.asStr, readAs]
  | response id result => simp [List.lookup_cons, Message.toValue, Message.fromValue, version, isVersion, readId_ofNat64, readAs]
  | error id object =>
    simp [List.lookup_cons, Message.toValue, Message.fromValue, version, isVersion, readId_elim, fromValue_toValue_error, readAs]
  | notification method params => simp [List.lookup_cons, Message.toValue, Message.fromValue, version, isVersion, readId, Harnesses.asStr, readAs]

theorem readAs_eq_iff (message : Message) : readAs message = message ↔ errorData message ≠ some .null := by
  cases message with
  | error id object =>
    obtain ⟨code, text, data⟩ := object
    rcases data with - | data
    · simp [readAs, errorData]
    · cases data <;> simp [readAs, errorData, nonNull]
  | _ => simp [readAs, errorData]

/-! ## A message's line -/

theorem toValue_object (message : Message) : ∃ entries, message.toValue = .object entries := by
  cases message <;> exact ⟨_, rfl⟩

/-- It starts and ends with braces. -/
theorem write_toValue (message : Message) : ∃ inner, write message.toValue = '\x7b' :: inner ++ ['\x7d'] := by
  obtain ⟨entries, value⟩ := toValue_object message
  exact ⟨writeEntries entries, by rw [value, write]⟩

theorem trimEnd_write (message : Message) : trimEnd (write message.toValue) = write message.toValue := by
  obtain ⟨inner, text⟩ := write_toValue message
  have shown : Harnesses.isWhitespace '\x7d' = false := by decide
  rw [text, trimEnd, List.reverse_append, List.reverse_singleton, List.singleton_append, List.dropWhile_cons_of_neg (by simp [shown])]
  simp

theorem trimEnd_toLine (message : Message) : trimEnd message.toLine = write message.toValue := by
  have space : Harnesses.isWhitespace '\n' = true := by decide
  rw [toLine, trimEnd, List.reverse_append, List.reverse_singleton, List.singleton_append, List.dropWhile_cons_of_pos space]
  exact trimEnd_write message

/-- What the JSON parser makes of the text of a value. -/
def Reads (fromStr : List Char → Option Json) (v : Json) : Prop := fromStr (write v) = if depth v < recursionLimit then some v else none

/-- It is not nested too deep to be read, and is no error with null data. -/
def Carried (message : Message) : Prop := depth message.toValue < recursionLimit ∧ errorData message ≠ some .null

theorem fromStr_write (message : Message) (reads : Reads fromStr message.toValue) :
    (fromStr (write message.toValue)).bind Message.fromValue = some message ↔ Carried message := by
  rw [reads, Carried]
  split
  · rename_i shallow
    rw [Option.bind_some, fromValue_toValue, Option.some.injEq, readAs_eq_iff]
    exact ⟨fun carried => ⟨shallow, carried⟩, And.right⟩
  · rename_i deep
    exact ⟨nofun, fun carried => absurd carried.1 deep⟩

theorem fromLine_toLine (message : Message) (reads : Reads fromStr message.toValue) :
    fromLine fromStr message.toLine = some message ↔ Carried message := by
  rw [fromLine, trimEnd_toLine]
  exact fromStr_write message reads

theorem fromLine_write (message : Message) (reads : Reads fromStr message.toValue) :
    fromLine fromStr (write message.toValue) = some message ↔ Carried message := by
  rw [fromLine, trimEnd_write]
  exact fromStr_write message reads

/-! ## No line break inside a line -/

mutual
/-- Each number's text is one that JSON has. -/
def numeric : Json → Bool
  | .number text => text.toList.all fun c => c.isDigit || "+-.eE".toList.contains c
  | .array items => numericItems items
  | .object entries => numericEntries entries
  | _ => true

def numericItems : List Json → Bool
  | [] => true
  | item :: items => numeric item && numericItems items

def numericEntries : List (String × Json) → Bool
  | [] => true
  | (_, value) :: entries => numeric value && numericEntries entries
end

theorem hexDigit_ne_newline : ∀ n < 16, Json.hexDigit n ≠ '\n' := by decide

theorem newline_not_mem_escapeChar (c : Char) : '\n' ∉ Json.escapeChar c := by
  rw [Json.escapeChar]
  split
  · decide
  split
  · decide
  split
  · decide
  split
  · decide
  split
  · decide
  split
  · decide
  split
  · decide
  split
  · rename_i control
    have high : Json.hexDigit (c.toNat / 16) ≠ '\n' := hexDigit_ne_newline _ (by omega)
    have low : Json.hexDigit (c.toNat % 16) ≠ '\n' := hexDigit_ne_newline _ (by omega)
    simp [high.symm, low.symm]
  · rename_i other _ _ _
    intro member
    exact other (by rw [← List.mem_singleton.mp member]; rfl)

theorem newline_not_mem_quote (text : String) : '\n' ∉ (Json.quote text).toList := by
  intro member
  simp only [Json.quote, String.toList_append, String.toList_ofList, List.mem_append, List.mem_flatMap] at member
  rcases member with (start | ⟨c, -, inside⟩) | finish
  · exact absurd start (by decide)
  · exact newline_not_mem_escapeChar c inside
  · exact absurd finish (by decide)

mutual
theorem newline_not_mem_write {v : Json} (plain : numeric v = true) : '\n' ∉ write v := by
  match v with
  | .null | .bool true | .bool false => decide
  | .number text =>
    intro member
    exact absurd (List.all_eq_true.mp plain '\n' member) (by decide)
  | .string text => exact newline_not_mem_quote text
  | .array items => simpa [write] using newline_not_mem_writeItems plain
  | .object entries => simpa [write] using newline_not_mem_writeEntries plain

theorem newline_not_mem_writeItems {items : List Json} (plain : numericItems items = true) : '\n' ∉ writeItems items := by
  match items with
  | [] => simp [writeItems]
  | [item] =>
    rw [writeItems]
    exact newline_not_mem_write (by simpa [numericItems] using plain)
  | item :: next :: items =>
    obtain ⟨first, others⟩ := Bool.and_eq_true_iff.mp plain
    rw [writeItems]
    simpa [newline_not_mem_write first] using newline_not_mem_writeItems others

theorem newline_not_mem_writeEntries {entries : List (String × Json)} (plain : numericEntries entries = true) :
    '\n' ∉ writeEntries entries := by
  match entries with
  | [] => simp [writeEntries]
  | [(key, value)] =>
    have plain : numeric value = true := by simpa [numericEntries] using plain
    rw [writeEntries]
    simpa [newline_not_mem_quote] using newline_not_mem_write plain
  | (key, value) :: next :: entries =>
    obtain ⟨first, others⟩ := Bool.and_eq_true_iff.mp plain
    rw [writeEntries]
    intro member
    simp only [List.mem_append, List.mem_cons] at member
    rcases member with (quoted | colon | here) | comma | later
    · exact newline_not_mem_quote key quoted
    · exact absurd colon (by decide)
    · exact newline_not_mem_write first here
    · exact absurd comma (by decide)
    · exact newline_not_mem_writeEntries others later
end

/-- Nor is its byte among the line's. -/
theorem newline_not_mem_utf8 {text : List Char} (absent : '\n' ∉ text) : newline ∉ Uri.utf8 text := by
  intro member
  obtain ⟨c, inside, byte⟩ := List.mem_flatMap.mp member
  by_cases ascii : c.toNat < 0x80
  · rw [UriEscapes.utf8EncodeChar_ascii ascii, List.mem_singleton] at byte
    have char : c = '\n' := by
      rw [← UriEscapes.ofUInt8_toUInt8 ascii, ← byte]
      decide
    exact absent (char ▸ inside)
  · exact absurd (UriEscapes.utf8EncodeChar_wide ascii _ byte) (by decide)

/-! ## Lines out of chunks -/

/-- A line that fits is read as it is, whatever the chunks. -/
theorem readLine_eq {chunks : List (List UInt8)} (filled : ∀ chunk ∈ chunks, chunk ≠ []) {buf content left : List UInt8}
    (whole : splitOnce newline chunks.flatten = some (content, left)) (fits : buf.length + content.length ≤ limit) :
    ∃ rest, readLine lossy limit buf chunks = (.text (fromUtf8Lossy lossy (buf ++ content)), rest) ∧
      rest.flatten = left ∧ ∀ chunk ∈ rest, chunk ≠ [] := by
  induction chunks generalizing buf content with
  | nil => exact nomatch whole
  | cons available chunks ih =>
    have later : ∀ chunk ∈ chunks, chunk ≠ [] := fun chunk member => filled chunk (List.mem_cons_of_mem _ member)
    rw [List.flatten_cons] at whole
    rw [readLine, if_neg (filled available (List.mem_cons_self ..))]
    cases cut : splitOnce newline available with
    | some parts =>
      obtain ⟨front, back⟩ := parts
      obtain ⟨rfl, absent⟩ := splitOnce_eq_some cut
      rw [List.append_assoc, List.cons_append, splitOnce_append absent] at whole
      obtain ⟨rfl, rfl⟩ := Prod.mk.inj (Option.some.inj whole)
      refine ⟨if back = [] then chunks else back :: chunks, ?_, ?_, ?_⟩
      · exact if_neg (Nat.not_lt.mpr fits)
      · split
        · rename_i last
          rw [last, List.nil_append]
        · rw [List.flatten_cons]
      · split
        · exact later
        · rename_i more
          exact List.forall_mem_cons.mpr ⟨more, later⟩
    | none =>
      rw [splitOnce_append_left (splitOnce_eq_none.mp cut)] at whole
      obtain ⟨⟨front, back⟩, found, parts⟩ := Option.map_eq_some_iff.mp whole
      obtain ⟨rfl, rfl⟩ := Prod.mk.inj parts
      rw [List.length_append, ← Nat.add_assoc] at fits
      have fits' : (buf ++ available).length + front.length ≤ limit := by rwa [List.length_append]
      obtain ⟨rest, read, flat, fills⟩ := ih later found fits'
      refine ⟨rest, ?_, flat, fills⟩
      rw [← List.append_assoc, ← read]
      exact if_neg (by omega)

theorem fromUtf8Lossy_utf8 (text : List Char) : fromUtf8Lossy lossy (Uri.utf8 text) = text := by
  rw [fromUtf8Lossy, UriEscapes.fromUtf8_utf8, Option.map_some, Option.getD_some, String.toList_ofList]

theorem blank_write (message : Message) : blank (write message.toValue) = false := by
  obtain ⟨inner, text⟩ := write_toValue message
  rw [blank, text]
  rfl

theorem utf8_toLine (message : Message) : Uri.utf8 message.toLine = Uri.utf8 (write message.toValue) ++ [newline] := by
  rw [toLine, UriEscapes.utf8_append]
  rfl

/-- The reader makes of each message's line what it makes of that line alone. -/
theorem readMessages_eq {messages : List Message} {fuel : Nat} {chunks : List (List UInt8)} (enough : messages.length ≤ fuel)
    (plain : ∀ message ∈ messages, numeric message.toValue = true)
    (fits : ∀ message ∈ messages, (Uri.utf8 (write message.toValue)).length ≤ limit) (filled : ∀ chunk ∈ chunks, chunk ≠ [])
    (whole : chunks.flatten = messages.flatMap fun message => Uri.utf8 message.toLine) :
    readMessages fromStr lossy limit fuel chunks = messages.map fun message => fromLine fromStr (write message.toValue) := by
  induction messages generalizing fuel chunks with
  | nil =>
    obtain rfl : chunks = [] := by
      cases chunks with
      | nil => rfl
      | cons chunk chunks => exact absurd (List.append_eq_nil_iff.mp whole).1 (filled chunk (List.mem_cons_self ..))
    cases fuel <;> rfl
  | cons message messages ih =>
    obtain ⟨fuel, rfl⟩ : ∃ less, fuel = less + 1 := ⟨fuel - 1, by simp only [List.length_cons] at enough; omega⟩
    obtain ⟨plain, plains⟩ := List.forall_mem_cons.mp plain
    obtain ⟨fit, fits⟩ := List.forall_mem_cons.mp fits
    have absent : newline ∉ Uri.utf8 (write message.toValue) := newline_not_mem_utf8 (newline_not_mem_write plain)
    rw [List.flatMap_cons, utf8_toLine, List.append_assoc, List.singleton_append] at whole
    have cut : splitOnce newline chunks.flatten
        = some (Uri.utf8 (write message.toValue), messages.flatMap fun message => Uri.utf8 message.toLine) := by
      rw [whole, splitOnce_append absent]
    obtain ⟨rest, read, flat, fills⟩ : ∃ rest, readLine lossy limit [] chunks = (.text (fromUtf8Lossy lossy ([] ++ Uri.utf8 (write message.toValue))), rest) ∧
        (rest.flatten = messages.flatMap fun message => Uri.utf8 message.toLine) ∧ ∀ chunk ∈ rest, chunk ≠ [] :=
      readLine_eq filled cut (by simpa using fit)
    rw [List.nil_append, fromUtf8Lossy_utf8] at read
    have later := ih (by simpa using enough) plains fits fills flat
    simp only [readMessages, read, blank_write, Bool.false_eq_true, if_false, later, List.map_cons]

/-! ## Errors -/

/-- A text with words before it is another text. -/
theorem quoted_ne {words : String} (some_ : words ≠ "") (text after : String) : words ++ text ++ after ≠ text := by
  intro same
  have lengths := congrArg String.length same
  rw [String.length_append, String.length_append] at lengths
  have empty : words.length = 0 := by omega
  exact some_ (String.length_eq_zero_iff.mp empty)

theorem prefixed_ne {words : String} (some_ : words ≠ "") (text : String) : words ++ text ≠ text := by
  simpa using quoted_ne some_ text ""

/-- The errors whose message is sent as it is, with their code. -/
def SentWhole : ProtocolError → Prop
  | .internal _ | .auth _ _ | .rateLimited _ _ | .invalidInput _ _ | .cancelled => True
  | _ => False

theorem field_cons (code : BitVec 64) (message key : String) (value : Json) :
    ErrorObject.field ⟨code, message, some (.object [(key, value)])⟩ key = some value := by
  simp [ErrorObject.field, Harnesses.get]

theorem else_of_ite {α : Type} {c : Prop} [Decidable c] {a b x : α} (read : (if c then a else b) = x) (differ : a ≠ x) : b = x := by
  by_cases holds : c
  · rw [if_pos holds] at read
    exact absurd read differ
  · rwa [if_neg holds] at read

/-- An error of another code has the message that was sent. -/
theorem other_message {error : ErrorObject} {code : BitVec 64} {message : String} (read : toError error = .other code message) :
    error.message = message := by
  rw [toError] at read
  iterate 10
    replace read := else_of_ite read (fun wrong => nomatch wrong)
  exact (ProtocolError.other.inj read).2

theorem toError_ofError (error : ProtocolError) : toError (ofError error) = error ↔ SentWhole error := by
  cases error with
  | parse message =>
    have read : toError (ofError (.parse message)) = .parse ("parse error: " ++ message) := rfl
    rw [read]
    exact ⟨fun same => prefixed_ne (by decide) _ (ProtocolError.parse.inj same), nofun⟩
  | invalidRequest message =>
    have read : toError (ofError (.invalidRequest message)) = .invalidRequest ("invalid request: " ++ message) := rfl
    rw [read]
    exact ⟨fun same => prefixed_ne (by decide) _ (ProtocolError.invalidRequest.inj same), nofun⟩
  | methodNotFound method =>
    have read : toError (ofError (.methodNotFound method)) = .methodNotFound ("no method `" ++ method ++ "`") := rfl
    rw [read]
    exact ⟨fun same => quoted_ne (by decide) _ _ (ProtocolError.methodNotFound.inj same), nofun⟩
  | invalidParams message =>
    have read : toError (ofError (.invalidParams message)) = .invalidParams ("invalid params: " ++ message) := rfl
    rw [read]
    exact ⟨fun same => prefixed_ne (by decide) _ (ProtocolError.invalidParams.inj same), nofun⟩
  | notConfigured message =>
    have read : toError (ofError (.notConfigured message)) = .notConfigured ("not configured: " ++ message) := rfl
    rw [read]
    exact ⟨fun same => prefixed_ne (by decide) _ (ProtocolError.notConfigured.inj same), nofun⟩
  | other code message =>
    refine ⟨fun same => ?_, nofun⟩
    -- A code this side knows comes back as that kind, another with words before its message.
    have longer : ("error " ++ toString code.toInt ++ ": ") ++ message ≠ message := prefixed_ne (by simp) message
    exact absurd (other_message same) longer
  | internal message => exact iff_of_true rfl trivial
  | cancelled => exact iff_of_true rfl trivial
  | auth message credential =>
    refine iff_of_true ?_ trivial
    cases credential with
    | none => rfl
    | some name =>
      change ProtocolError.auth message ((ErrorObject.field ⟨authCode, message, some (.object [("credential", .string name)])⟩ "credential").bind _) = _
      rw [field_cons]
      rfl
  | rateLimited message retryAfterMs =>
    refine iff_of_true ?_ trivial
    cases retryAfterMs with
    | none => rfl
    | some ms =>
      change ProtocolError.rateLimited message
        ((ErrorObject.field ⟨rateLimitedCode, message, some (.object [("retry_after_ms", ofNat64 ms)])⟩ "retry_after_ms").bind _) = _
      rw [field_cons, Option.bind_some, asU64_ofNat64]
  | invalidInput field message =>
    refine iff_of_true ?_ trivial
    change ProtocolError.invalidInput
      (((ErrorObject.field ⟨invalidInputCode, message, some (.object [("field", .string field)])⟩ "field").bind _).getD "") message = _
    rw [field_cons]
    rfl

/-! ## The wire -/

def errorOf : Message → Option ErrorObject
  | .error _ object => some object
  | _ => none

/-- The error that the other side has of one that is sent. -/
def sentBack (fromStr : List Char → Option Json) (id : Option (BitVec 64)) (error : ProtocolError) : Option ProtocolError :=
  ((fromLine fromStr (Message.error id (ofError error)).toLine).bind errorOf).map toError

theorem carried_ofError (id : Option (BitVec 64)) (error : ProtocolError) : Carried (.error id (ofError error)) := by
  have leaf : depth (id.elim .null ofNat64) = 0 := by cases id <;> rfl
  have shallow : depth (ofError error).toValue ≤ 2 ∧ dataOf error ≠ some .null := by
    cases error with
    | auth message credential => cases credential <;> exact ⟨Nat.le_of_ble_eq_true rfl, nofun⟩
    | rateLimited message retryAfterMs => cases retryAfterMs <;> exact ⟨Nat.le_of_ble_eq_true rfl, nofun⟩
    | _ => exact ⟨Nat.le_of_ble_eq_true rfl, nofun⟩
  refine ⟨?_, shallow.2⟩
  have whole : depth (Message.error id (ofError error)).toValue = max 0 (max (depth (id.elim .null ofNat64)) (max (depth (ofError error).toValue) 0)) + 1 :=
    rfl
  rw [whole, leaf, recursionLimit]
  have := shallow.1
  omega

theorem sentBack_eq (id : Option (BitVec 64)) (error : ProtocolError) (reads : Reads fromStr (Message.error id (ofError error)).toValue) :
    sentBack fromStr id error = some (toError (ofError error)) := by
  rw [sentBack, (fromLine_toLine _ reads).mpr (carried_ofError id error), Option.bind_some, errorOf, Option.map_some]

/-- A message's line reads back as the message exactly if it is not nested too deep and is no
error with null data; so do messages out of any chunks of their lines; and an error comes
back exactly if its message is sent as it is. -/
theorem wire_keeps (fromStr : List Char → Option Json) (lossy : Lossy) :
    (∀ message : Message, Reads fromStr message.toValue → (fromLine fromStr message.toLine = some message ↔ Carried message)) ∧
      (∀ (limit fuel : Nat) (messages : List Message) (chunks : List (List UInt8)), messages.length ≤ fuel →
        (∀ message ∈ messages, Reads fromStr message.toValue ∧ numeric message.toValue = true ∧
          (Uri.utf8 (write message.toValue)).length ≤ limit) →
        (∀ chunk ∈ chunks, chunk ≠ []) → (chunks.flatten = messages.flatMap fun message => Uri.utf8 message.toLine) →
          (readMessages fromStr lossy limit fuel chunks = messages.map some ↔ ∀ message ∈ messages, Carried message)) ∧
      ∀ (id : Option (BitVec 64)) (error : ProtocolError), Reads fromStr (Message.error id (ofError error)).toValue →
        (sentBack fromStr id error = some error ↔ SentWhole error) := by
  refine ⟨fun message reads => fromLine_toLine message reads, ?_, ?_⟩
  · intro limit fuel messages chunks enough sent filled whole
    have plain : ∀ message ∈ messages, numeric message.toValue = true := fun message member => (sent message member).2.1
    have fits : ∀ message ∈ messages, (Uri.utf8 (write message.toValue)).length ≤ limit := fun message member => (sent message member).2.2
    rw [readMessages_eq enough plain fits filled whole, List.map_inj_left]
    apply forall₂_congr
    intro message member
    exact fromLine_write message (sent message member).1
  · intro id error reads
    rw [sentBack_eq id error reads, Option.some.injEq]
    exact toError_ofError error

/-- The parser of a text that is a value's. -/
def parser (v : Json) (text : List Char) : Option Json := if text = write v then some v else none

theorem parser_reads {v : Json} (shallow : depth v < recursionLimit) : Reads (parser v) v := by
  rw [Reads, parser, if_pos rfl, if_pos shallow]

/-- A read with a limit, and what its provider answers. -/
def reading : Message := .request 7 "read" (.object [("limit", .number "10"), ("after", .string "a\nb")])

def refused : ProtocolError := .auth "no such token" (some "token")

theorem wire_keeps_reading :
    readMessages (parser reading.toValue) (fun _ => []) 200 1 [(Uri.utf8 reading.toLine).take 20, (Uri.utf8 reading.toLine).drop 20] = [some reading] ∧
      sentBack (parser (Message.error (some 7) (ofError refused)).toValue) (some 7) refused = some refused := by
  constructor
  · apply ((wire_keeps (parser reading.toValue) fun _ => []).2.1 200 1 [reading] _ (by decide) ?_ ?_ ?_).mpr
    · simpa using ⟨Nat.le_of_ble_eq_true rfl, nofun⟩
    · simpa using ⟨parser_reads (by decide), by decide⟩
    · decide
    · simp
  · exact ((wire_keeps _ fun _ => []).2.2 (some 7) refused (parser_reads (by decide))).mpr trivial

/-- The error of a line that is no JSON. -/
def unread : ProtocolError := .parse "expected value at line 1 column 1"

theorem unread_worded : ¬ ∀ error, sentBack (parser (Message.error none (ofError error)).toValue) none error = some error := by
  intro all
  have same := all unread
  rw [sentBack_eq none unread (parser_reads (carried_ofError none unread).1), Option.some.injEq] at same
  exact (toError_ofError unread).mp same

end Oxplow.Proofs.ProviderWire
