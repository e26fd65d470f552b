import Mathlib.Data.List.Sort
import Mathlib.Data.String.Basic
import Oxplow.Uri.OxplowUri

/-! `uri.ts`: the desktop's parser of oxplow's URIs. A character of the text outside the
Basic Multilingual Plane is two code units there, neither of which any test passes. -/

namespace Oxplow.Uri.Desktop

/-- `/^[a-z][a-z0-9-]*$/`, and the other two patterns of a name. -/
def pattern (first rest : List (Char × Char)) : List Char → Bool
  | [] => false
  | c :: text => inRanges first c && text.all (inRanges rest)
where
  inRanges (ranges : List (Char × Char)) (c : Char) : Bool := ranges.any fun range => range.1 ≤ c && c ≤ range.2

def extensionPattern : List Char → Bool := pattern [('a', 'z')] [('a', 'z'), ('0', '9'), ('-', '-')]

def namePattern : List Char → Bool := pattern [('a', 'z')] [('a', 'z'), ('0', '9'), ('_', '_')]

def keyPattern : List Char → Bool :=
  pattern [('A', 'Z'), ('a', 'z')] [('A', 'Z'), ('a', 'z'), ('0', '9'), ('_', '_'), ('.', '.'), ('-', '-')]

/-- `RAW`: a byte a canonical key or value carries as itself. -/
def raw (c : Char) : Bool :=
  pattern.inRanges [('A', 'Z'), ('a', 'z'), ('0', '9')] c || "-._~/:?,@!$'()*;".toList.contains c

inductive Reason where
  | empty | notOxplow | authority | badResource | badParam | duplicateParam | badEscape | notUtf8 | unescaped
  deriving DecidableEq

/-- An object's own keys, which a name's pattern fits, and their values. -/
structure Record where
  entries : List (String × String)
  keyed : ∀ entry ∈ entries, keyPattern entry.1.toList = true
  distinct : (entries.map (·.1)).Nodup

namespace Record

def empty : Record := ⟨[], nofun, .nil⟩

def hasOwnProperty (record : Record) (key : String) : Bool := (record.entries.map (·.1)).contains key

def get (record : Record) (key : String) : Option String := record.entries.lookup key

/-- A key it does not have yet. -/
def set (record : Record) (key value : String) (fits : keyPattern key.toList = true) (fresh : ¬ record.hasOwnProperty key = true) :
    Record where
  entries := record.entries ++ [(key, value)]
  keyed := by
    intro entry member
    rcases List.mem_append.mp member with old | new
    · exact record.keyed entry old
    · rw [List.mem_singleton.mp new]
      exact fits
  distinct := by
    have absent : key ∉ record.entries.map (·.1) := by simpa [hasOwnProperty] using fresh
    rw [List.map_append, List.map_singleton]
    refine List.nodup_append.mpr ⟨record.distinct, List.nodup_singleton _, ?_⟩
    intro other member last inside same
    have added : last = key := List.mem_singleton.mp inside
    rw [← added, ← same] at absent
    exact absent member

end Record

structure ParsedUri where
  extension : String
  name : String
  params : Record
  view : Record

def hexValue (c : Char) : Option UInt8 :=
  if '0' ≤ c ∧ c ≤ '9' then some (c.toUInt8 - 0x30)
  else if 'A' ≤ c ∧ c ≤ 'F' then some (c.toUInt8 - 0x41 + 10)
  else if 'a' ≤ c ∧ c ≤ 'f' then some (c.toUInt8 - 0x61 + 10)
  else none

/-- The bytes a value's text stands for. -/
def bytesOf : List Char → Except Reason (List UInt8)
  | [] => .ok []
  | c :: rest =>
    if c = '%' then
      match rest with
      | h :: l :: rest =>
        match hexValue h, hexValue l with
        | some high, some low => (bytesOf rest).map ((16 * high + low) :: ·)
        | _, _ => .error .badEscape
      | _ => .error .badEscape
    else if raw c || c == '+' then (bytesOf rest).map (c.toUInt8 :: ·)
    else .error .unescaped

theorem bytesOf_plain {c : Char} (plain : c ≠ '%') (rest : List Char) :
    bytesOf (c :: rest) =
      if raw c || c == '+' then (bytesOf rest).map (c.toUInt8 :: ·) else .error .unescaped := by
  rw [bytesOf.eq_def]
  exact if_neg plain

theorem bytesOf_escape (h l : Char) (rest : List Char) :
    bytesOf ('%' :: h :: l :: rest) =
      ((hexValue h).bind fun high => (hexValue l).map fun low => 16 * high + low).elim (.error .badEscape)
        fun b => (bytesOf rest).map (b :: ·) := by
  rw [bytesOf.eq_def]
  simp only [if_true]
  cases hexValue h <;> cases hexValue l <;> rfl

/-- `new TextDecoder("utf-8", { fatal: true }).decode`, which leaves out a byte order mark. -/
def textDecode (bytes : List UInt8) : Option String :=
  fromUtf8 (if [0xEF, 0xBB, 0xBF].isPrefixOf bytes then bytes.drop 3 else bytes)

def decode (value : List Char) : Except Reason String :=
  (bytesOf value).bind fun bytes => (textDecode bytes).elim (.error .notUtf8) .ok

def hexText (b : UInt8) : List Char := [digit (b / 16), digit (b % 16)]
where
  digit (d : UInt8) : Char := if d < 10 then Char.ofUInt8 (0x30 + d) else Char.ofUInt8 (0x61 + (d - 10))

/-- `%` and `toString(16).toUpperCase().padStart(2, "0")`. -/
def encodeByte (b : UInt8) : List Char :=
  if b < 0x80 && raw (Char.ofUInt8 b) then [Char.ofUInt8 b] else '%' :: (hexText b).map Char.toUpper

def encode (value : String) : List Char := (utf8 value.toList).flatMap encodeByte

/-- `indexOf`, and the two slices around it; without it, the whole. -/
def cut (c : Char) (text : List Char) : List Char × List Char :=
  match text.findIdx? (· == c) with
  | some i => (text.take i, text.drop (i + 1))
  | none => (text, [])

def pair (out : Record) (text : List Char) : Except Reason Record :=
  let eq := text.findIdx? (· == '=')
  let key := eq.elim [] fun i => text.take i
  if fits : keyPattern key = true then
    (decode (text.drop (eq.elim 0 (· + 1)))).bind fun value =>
      if fresh : ¬ out.hasOwnProperty (String.ofList key) = true then .ok (out.set (String.ofList key) value (by simpa using fits) fresh)
      else .error .duplicateParam
  else .error .badParam

def pairs (text : List Char) : Except Reason Record :=
  if text = [] then .ok .empty else (text.splitOn '&').foldlM pair .empty

def parse (text : String) : Except Reason ParsedUri :=
  if text.toList = [] then .error .empty
  else if !"oxplow:".toList.isPrefixOf text.toList then .error .notOxplow
  else
    let rest := text.toList.drop "oxplow:".toList.length
    if "//".toList.isPrefixOf rest then .error .authority
    else
      let view := cut '#' rest
      let query := cut '?' view.1
      let path := query.1
      let slash := path.findIdx? (· == '/')
      let extension := slash.elim [] fun i => path.take i
      let name := slash.elim [] fun i => path.drop (i + 1)
      if !extensionPattern extension || !namePattern name then .error .badResource
      else do
        let params ← pairs query.2
        let view ← pairs view.2
        return { extension := String.ofList extension, name := String.ofList name, params, view }

/-- `text` parsed, or none when it isn't one of oxplow's URIs. -/
def parseUri (text : String) : Option ParsedUri := (parse text).toOption

def writePair (entry : String × String) : List Char := entry.1.toList ++ '=' :: encode entry.2

/-- The keys are ASCII, so the order of their code units is that of their characters. -/
def writePairs (lead : Char) (pairs : Record) : List Char :=
  match pairs.entries.insertionSort fun a b => a.1 ≤ b.1 with
  | [] => []
  | sorted => lead :: ['&'].intercalate (sorted.map writePair)

/-- The canonical text of a URI. -/
def formatUri (u : ParsedUri) : String :=
  String.ofList ("oxplow:".toList ++ u.extension.toList ++ '/' :: u.name.toList ++ writePairs '?' u.params ++ writePairs '#' u.view)

/-- The canonical text without the view. -/
def identityOf (text : String) : Option String := (parseUri text).map fun u => formatUri { u with view := .empty }

/-- `text`'s view param `key`. -/
def viewOf (text key : String) : Option String := (parseUri text).bind fun u => u.view.get key

end Oxplow.Uri.Desktop
