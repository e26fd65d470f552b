import Oxplow.Library.Splitting

/-! `oxplow_uri.rs`: one scheme, the resource as `<extension>/<name>`, its identity as named
params after `?`, and the renderer's view as named params after `#`. -/

namespace Oxplow.Uri
open Library

/-! ## Bytes -/

/-- The UTF-8 bytes of a text. -/
def utf8 (text : List Char) : List UInt8 := text.flatMap String.utf8EncodeChar

/-- `String::from_utf8`. -/
def fromUtf8 (bytes : List UInt8) : Option String :=
  bytes.toByteArray.utf8Decode?.map fun text => String.ofList text.toList

/-- A byte a canonical value carries as itself. -/
def isRaw (b : UInt8) : Bool := (Char.ofUInt8 b).isAlphanum || "-._~/:?,@!$'()*;".toList.contains (Char.ofUInt8 b)

def hexDigit (b : UInt8) : Option UInt8 :=
  if 0x30 ≤ b ∧ b ≤ 0x39 then some (b - 0x30)
  else if 0x41 ≤ b ∧ b ≤ 0x46 then some (b - 0x41 + 10)
  else if 0x61 ≤ b ∧ b ≤ 0x66 then some (b - 0x61 + 10)
  else none

/-- `u8::from_str_radix(h, 16)` of the two bytes after a `%`. A `+` may stand before a digit. -/
def fromStrRadix (h l : UInt8) : Option UInt8 :=
  if h = 0x2B then hexDigit l else (hexDigit h).bind fun high => (hexDigit l).map fun low => 16 * high + low

/-! ## Names -/

/-- A first character of one kind, then any of another. -/
def named (first next : Char → Bool) : List Char → Bool
  | [] => false
  | c :: rest => first c && rest.all next

/-- An extension's name. -/
def isExtension : List Char → Bool := named Char.isLower fun c => c.isLower || c.isDigit || c == '-'

/-- A resource's name within its extension. -/
def isName : List Char → Bool := named Char.isLower fun c => c.isLower || c.isDigit || c == '_'

/-- A param's key, which is never escaped. -/
def isKey : List Char → Bool := named Char.isAlpha fun c => c.isAlphanum || c == '_' || c == '.' || c == '-'

inductive UriParseError where
  | empty
  | notOxplow (text : String)
  | authority (text : String)
  | badResource (text : String)
  | badParam (text : String)
  | duplicateParam (key : String)
  | badEscape (value : String)
  | notUtf8 (value : String)
  | unescaped (value : String)
  deriving DecidableEq

structure ResourceName where
  extension : String
  name : String
  isExtension : isExtension extension.toList = true
  isName : isName name.toList = true
  deriving DecidableEq

namespace ResourceName

def new (extension name : List Char) : Except UriParseError ResourceName :=
  if valid : Uri.isExtension extension = true ∧ Uri.isName name = true then
    .ok ⟨String.ofList extension, String.ofList name, by simpa using valid.1, by simpa using valid.2⟩
  else .error (.badResource (String.ofList (extension ++ '/' :: name)))

def fromStr (s : List Char) : Except UriParseError ResourceName :=
  match splitOnce '/' s with
  | some (extension, name) => new extension name
  | none => .error (.badResource (String.ofList s))

def display (resource : ResourceName) : List Char := resource.extension.toList ++ '/' :: resource.name.toList

end ResourceName

/-! ## URIs -/

/-- Decoded values by key. -/
structure Params where
  entries : Std.ExtTreeMap String String
  keyed : ∀ key ∈ entries, isKey key.toList = true

namespace Params

def empty : Params := ⟨∅, by simp⟩

def insert (params : Params) (key value : String) (valid : isKey key.toList = true) : Params where
  entries := params.entries.insert key value
  keyed := by
    intro other member
    rcases Std.ExtTreeMap.mem_insert.mp member with same | inside
    · exact Std.LawfulEqCmp.eq_of_compare same ▸ valid
    · exact params.keyed other inside

end Params

/-- One of oxplow's URIs: what it names, and how a renderer shows it. -/
structure OxplowUri where
  resource : ResourceName
  params : Params
  view : Params

/-- The bytes a value's text stands for: its `%XX` escapes, and raw bytes that a canonical
value carries, or `+`. -/
def unescape (value : String) : List UInt8 → Except UriParseError (List UInt8)
  | [] => .ok []
  | b :: rest =>
    if b = 0x25 then
      match rest with
      | h :: l :: rest =>
        match fromStrRadix h l with
        | some byte => (unescape value rest).map (byte :: ·)
        | none => .error (.badEscape value)
      | _ => .error (.badEscape value)
    else if isRaw b || b == 0x2B then (unescape value rest).map (b :: ·)
    else .error (.unescaped value)

theorem unescape_plain (value : String) {b : UInt8} (plain : b ≠ 0x25) (rest : List UInt8) :
    unescape value (b :: rest) =
      if isRaw b || b == 0x2B then (unescape value rest).map (b :: ·) else .error (.unescaped value) := by
  rw [unescape.eq_def]
  exact if_neg plain

theorem unescape_escape (value : String) (h l : UInt8) (rest : List UInt8) :
    unescape value (0x25 :: h :: l :: rest) =
      (fromStrRadix h l).elim (.error (.badEscape value)) fun byte => (unescape value rest).map (byte :: ·) := by
  rw [unescape, if_pos rfl]
  cases fromStrRadix h l <;> rfl

def decode (value : List Char) : Except UriParseError String :=
  (unescape (String.ofList value) (utf8 value)).bind fun bytes =>
    match fromUtf8 bytes with
    | some text => .ok text
    | none => .error (.notUtf8 (String.ofList value))

def upperHex (digit : UInt8) : Char := Char.ofUInt8 (if digit < 10 then 0x30 + digit else 0x41 + (digit - 10))

def encodeByte (b : UInt8) : List Char :=
  if isRaw b then [Char.ofUInt8 b] else ['%', upperHex (b / 16), upperHex (b % 16)]

def encode (value : String) : List Char := (utf8 value.toList).flatMap encodeByte

/-- One `k=v`, refusing a duplicate key. -/
def pair (out : Params) (text : List Char) : Except UriParseError Params :=
  match splitOnce '=' text with
  | some (key, value) =>
    if valid : isKey key = true then
      (decode value).bind fun value =>
        if out.entries.contains (String.ofList key) then .error (.duplicateParam (String.ofList key))
        else .ok (out.insert (String.ofList key) value (by simpa using valid))
    else .error (.badParam (String.ofList text))
  | none => .error (.badParam (String.ofList text))

/-- `k=v&k=v` decoded; empty is none. -/
def pairs (text : List Char) : Except UriParseError Params :=
  if text.isEmpty then .ok .empty else (text.splitOn '&').foldlM pair .empty

def writePair (entry : String × String) : List Char := entry.1.toList ++ '=' :: encode entry.2

def writePairs (lead : Char) (pairs : Params) : List Char :=
  pairs.entries.toList.zipIdx.flatMap fun (entry, i) => (if i = 0 then lead else '&') :: writePair entry

def scheme : String := "oxplow"

namespace OxplowUri

def parse (text : String) : Except UriParseError OxplowUri :=
  let start := scheme.toList ++ [':']
  if text.isEmpty then .error .empty
  else if !start.isPrefixOf text.toList then .error (.notOxplow text)
  else
    let rest := text.toList.drop start.length
    if ['/', '/'].isPrefixOf rest then .error (.authority text)
    else do
      let parts := (splitOnce '#' rest).getD (rest, [])
      let head := (splitOnce '?' parts.1).getD (parts.1, [])
      let resource ← ResourceName.fromStr head.1
      let params ← pairs head.2
      let view ← pairs parts.2
      return { resource, params, view }

/-- The canonical URI without its view. -/
def identity (u : OxplowUri) : String :=
  String.ofList (scheme.toList ++ ':' :: u.resource.display ++ writePairs '?' u.params)

protected def toString (u : OxplowUri) : String := u.identity ++ String.ofList (writePairs '#' u.view)

/-- The same URI in another view. -/
def withView (u : OxplowUri) (view : Params) : OxplowUri := { u with view }

end OxplowUri
end Oxplow.Uri
