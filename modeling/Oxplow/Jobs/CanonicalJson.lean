/-! The canonical text of a JSON value, as the job store keeps it: object keys in byte
order, no spaces, and bounds on depth and size. -/

namespace Oxplow.Jobs

def maxJsonBytes : Nat := 1048576

def maxJsonDepth : Nat := 64

inductive Json where
  | null
  | bool (value : Bool)
  /-- A number by its text. -/
  | number (text : String)
  | string (text : String)
  | array (items : List Json)
  | object (entries : List (String × Json))

namespace Json

/-! ## Text -/

def hexDigit (n : Nat) : Char := if n < 10 then Char.ofNat (48 + n) else Char.ofNat (87 + n)

def escapeChar (c : Char) : List Char :=
  if c == '"' then ['\\', '"']
  else if c == '\\' then ['\\', '\\']
  else if c.toNat == 8 then ['\\', 'b']
  else if c.toNat == 12 then ['\\', 'f']
  else if c == '\n' then ['\\', 'n']
  else if c == '\r' then ['\\', 'r']
  else if c == '\t' then ['\\', 't']
  else if c.toNat < 32 then ['\\', 'u', '0', '0', hexDigit (c.toNat / 16), hexDigit (c.toNat % 16)]
  else [c]

def quote (text : String) : String := "\"" ++ String.ofList (text.toList.flatMap escapeChar) ++ "\""

/-- Byte order, which is that of the code points. -/
def keyLe : List Char → List Char → Bool
  | [], _ => true
  | _ :: _, [] => false
  | a :: as, b :: bs => a.toNat < b.toNat || a.toNat == b.toNat && keyLe as bs

def sortKeys (entries : List (String × String)) : List (String × String) :=
  entries.mergeSort fun a b => keyLe a.1.toList b.1.toList

mutual
def writeCanonical : Json → String
  | null => "null"
  | bool true => "true"
  | bool false => "false"
  | number text => text
  | string text => quote text
  | array items => "[" ++ String.intercalate "," (writeItems items) ++ "]"
  | object entries =>
    let entries := sortKeys (writeEntries entries)
    "\x7b" ++ String.intercalate "," (entries.map fun entry => quote entry.1 ++ ":" ++ entry.2) ++ "\x7d"

def writeItems : List Json → List String
  | [] => []
  | item :: items => writeCanonical item :: writeItems items

def writeEntries : List (String × Json) → List (String × String)
  | [] => []
  | (key, value) :: entries => (key, writeCanonical value) :: writeEntries entries
end

/-! ## Bounds -/

def addBytes (bytes lowerBytes : Nat) : Option Nat :=
  if lowerBytes + bytes ≤ maxJsonBytes then some (lowerBytes + bytes) else none

def enterValue (depth bytes lowerBytes : Nat) : Option Nat :=
  if maxJsonDepth < depth then none else addBytes bytes lowerBytes

mutual
/-- The bytes the value takes at the least, on top of those counted so far. -/
def validateDepth (depth lowerBytes : Nat) : Json → Option Nat
  | null => enterValue depth 1 lowerBytes
  | bool _ => enterValue depth 1 lowerBytes
  | number _ => enterValue depth 1 lowerBytes
  | string text => enterValue depth (text.utf8ByteSize + 2) lowerBytes
  | array items => (enterValue depth 1 lowerBytes).bind fun bytes => validateItems (depth + 1) bytes items
  | object entries => (enterValue depth 1 lowerBytes).bind fun bytes => validateEntries (depth + 1) bytes entries

def validateItems (depth lowerBytes : Nat) : List Json → Option Nat
  | [] => some lowerBytes
  | item :: items => (validateDepth depth lowerBytes item).bind fun bytes => validateItems depth bytes items

def validateEntries (depth lowerBytes : Nat) : List (String × Json) → Option Nat
  | [] => some lowerBytes
  | (key, value) :: entries =>
    ((addBytes (key.utf8ByteSize + 2) lowerBytes).bind fun bytes => validateDepth depth bytes value).bind fun bytes =>
      validateEntries depth bytes entries
end

/-- The canonical text, when the value is within the bounds. -/
def canonical (value : Json) : Option String :=
  (validateDepth 0 0 value).bind fun _ => some (writeCanonical value) |>.filter fun text => text.utf8ByteSize ≤ maxJsonBytes

/-- The value a text stands for, when the text is its canonical one. `fromStr` is the
parser. -/
def parseBounded (fromStr : String → Option Json) (text : String) : Option Json :=
  if maxJsonBytes < text.utf8ByteSize then none
  else (fromStr text).filter fun value => canonical value == some text

end Json
end Oxplow.Jobs
