import Oxplow.Library.Repeats
import Oxplow.Library.Splitting

/-! `param_pattern.rs`: the patterns a resource's params declare, kept in one ASCII form. A
character set is 128 bits, bit `c` for character `c`. -/

namespace Oxplow.Extensions.ParamPattern
open Library (splitOnce)

/-- The longest param pattern an extension may declare. -/
def maxIdPattern : Nat := 256

/-- The most one repeat may ask for. -/
def maxRepeat : Nat := 256

/-- A set of printable characters, repeated `min` to `max` (`none`: unbounded) times. -/
structure Run where
  set : BitVec 128
  min : Nat
  max : Option Nat
  deriving DecidableEq

def bit (c : Char) : BitVec 128 := 1#128 <<< c.toNat

def span (lo hi : Char) : BitVec 128 :=
  (List.range' lo.toNat (hi.toNat + 1 - lo.toNat)).foldl (fun s c => s ||| 1#128 <<< c) 0

def digits : BitVec 128 := span '0' '9'

def word : BitVec 128 := span '0' '9' ||| span 'A' 'Z' ||| span 'a' 'z' ||| bit '_'

def asciiPunctuation (c : Char) : Bool :=
  (0x21 ≤ c.toNat && c.toNat ≤ 0x2f) || (0x3a ≤ c.toNat && c.toNat ≤ 0x40) ||
    (0x5b ≤ c.toNat && c.toNat ≤ 0x60) || (0x7b ≤ c.toNat && c.toNat ≤ 0x7e)

def escapable (c : Char) : Bool := asciiPunctuation c && !(c == '<' || c == '>')

def printable (c : Char) : Bool := 0x20 ≤ c.toNat && c.toNat ≤ 0x7e

/-- Why a pattern is refused. -/
inductive Refusal where
  | long
  | unprintable (c : Char)
  | unanchored
  | group
  | alternation
  | anyCharacter
  | anchorInside (c : Char)
  | nothingToRepeat (c : Char)
  | unescaped (c : Char)
  | unfenced
  | unreadEscape (e : Char)
  | loneBackslash
  | emptyClass
  | negatedClass
  | nestedClass
  | setOperation (c : Char)
  | rangeEnd
  | openClass
  | backwardsRange (lo hi : Char)
  | openRepeat
  | notARepeat (inside : List Char)
  | largeRepeat
  | backwardsRepeat (inside : List Char)
  | emptyRepeat
  | stacked
  deriving DecidableEq

/-! ## Sets -/

/-- What an escape matches outside a class. -/
def escape : Option Char → Except Refusal (BitVec 128)
  | some 'd' => .ok digits
  | some 'w' => .ok word
  | some p => if escapable p then .ok (bit p) else .error (.unreadEscape p)
  | none => .error .loneBackslash

/-- A class's set, after its `[`, and what is left. `start` is the last single character, which a
`-` may start a range from. -/
def classSet (set : BitVec 128) (start : Option Char) (first : Bool) :
    List Char → Except Refusal (BitVec 128 × List Char)
  | [] => .error .openClass
  | c :: rest =>
    if c = ']' ∧ first then .error .emptyClass
    else if c = ']' then .ok (set, rest)
    else if c = '^' ∧ first then .error .negatedClass
    else if c = '[' then .error .nestedClass
    else if c ∈ ['&', '~', '-'] ∧ rest.head? = some c then .error (.setOperation c)
    else if c = '-' ∧ start.isSome ∧ rest.head?.any (· ≠ ']') then
      let lo := start.getD '-'
      match rest with
      | [] => .error .openClass
      | ['\\'] => .error .rangeEnd
      | '\\' :: hi :: rest =>
        if !escapable hi then .error .rangeEnd
        else if hi < lo then .error (.backwardsRange lo hi)
        else classSet (set ||| span lo hi) none false rest
      | '[' :: _ => .error .nestedClass
      | hi :: rest =>
        if hi < lo then .error (.backwardsRange lo hi) else classSet (set ||| span lo hi) none false rest
    else if c = '\\' then
      match rest with
      | 'd' :: rest => classSet (set ||| digits) none false rest
      | 'w' :: rest => classSet (set ||| word) none false rest
      | p :: rest =>
        if escapable p then classSet (set ||| bit p) (some p) false rest
        else (escape (some p)).map fun _ => (set, rest)
      | [] => (escape none).map fun _ => (set, [])
    else classSet (set ||| bit c) (some c) false rest

/-- The set a run starts with, at its first character. -/
def runSet (c : Char) (rest : List Char) : Except Refusal (BitVec 128 × List Char) :=
  if c = '\\' then (escape rest.head?).map fun set => (set, rest.drop 1)
  else if c = '[' then classSet 0 none true rest
  else if c = '(' ∨ c = ')' then .error .group
  else if c = '|' then .error .alternation
  else if c = '.' then .error .anyCharacter
  else if c = '^' ∨ c = '$' then .error (.anchorInside c)
  else if c ∈ ['*', '+', '?', '\x7b'] then .error (.nothingToRepeat c)
  else if c = ']' ∨ c = '\x7d' then .error (.unescaped c)
  else .ok (bit c, rest)

/-! ## Quantifiers -/

/-- Rust's `u32` of a text: digits, after at most one `+`. -/
def parseU32 (text : List Char) : Option Nat :=
  let numerals := if text.head? = some '+' then text.drop 1 else text
  if numerals.isEmpty || !numerals.all Char.isDigit then none
  else if Nat.ofDigitChars 10 numerals 0 < 4294967296 then some (Nat.ofDigitChars 10 numerals 0) else none

def number (inside text : List Char) : Except Refusal Nat :=
  match parseU32 text with
  | none => .error (.notARepeat inside)
  | some n => if maxRepeat < n then .error .largeRepeat else .ok n

/-- The repeat between braces. -/
def repeats (inside : List Char) : Except Refusal (Nat × Option Nat) :=
  match splitOnce ',' inside with
  | none => (number inside inside).map fun n => (n, some n)
  | some (n, []) => (number inside n).map fun n => (n, none)
  | some (n, m) => (number inside n).bind fun n => (number inside m).map fun m => (n, some m)

def isQuantifier (c : Char) : Bool := c ∈ ['*', '+', '?', '\x7b']

/-- No second quantifier may follow. -/
def unstacked (q : Nat × Option Nat) (rest : List Char) : Except Refusal ((Nat × Option Nat) × List Char) :=
  if rest.head?.any isQuantifier then .error .stacked else .ok (q, rest)

/-- The quantifier after a run, if any, and what is left. -/
def quantifier : List Char → Except Refusal ((Nat × Option Nat) × List Char)
  | '*' :: rest => unstacked (0, none) rest
  | '+' :: rest => unstacked (1, none) rest
  | '?' :: rest => unstacked (0, some 1) rest
  | '\x7b' :: rest =>
    match splitOnce '\x7d' rest with
    | none => .error .openRepeat
    | some (inside, rest) => (repeats inside).bind fun q =>
      if q.2.any (· < q.1) then .error (.backwardsRepeat inside)
      else if q = (0, some 0) then .error .emptyRepeat
      else unstacked q rest
  | rest => .ok ((1, some 1), rest)

/-! ## Runs -/

/-- The loop over the body; each turn takes one character at least. -/
def readRuns : Nat → List Char → Except Refusal (List Run)
  | _, [] => .ok []
  | 0, _ :: _ => .ok []
  | fuel + 1, c :: rest =>
    (runSet c rest).bind fun taken => (quantifier taken.2).bind fun q =>
      (readRuns fuel q.2).map fun runs => ⟨taken.1, q.1.1, q.1.2⟩ :: runs

/-- The anchors off. `\$` at the end is a dollar sign, not the anchor. -/
def body (pattern : List Char) : Option (List Char) :=
  if pattern.head? ≠ some '^' then none
  else if (pattern.drop 1).getLast? ≠ some '$' then none
  else
    let body := (pattern.drop 1).dropLast
    if (body.reverse.takeWhile (· = '\\')).length % 2 = 1 then none else some body

/-- The runs a pattern is read as. -/
def readPattern (pattern : List Char) : Except Refusal (List Run) :=
  match body pattern with
  | none => .error .unanchored
  | some body => readRuns body.length body

def Run.varies (run : Run) : Bool := run.max ≠ some run.min

/-- Between two repeats of varying length, a character the first can't match. -/
def fenced : List Run → Bool
  | [] => true
  | run :: rest =>
    if !run.varies then fenced rest
    else match rest.findIdx? Run.varies with
      | none => true
      | some next => (rest.take next).any (fun r => 1 ≤ r.min && r.set &&& run.set == 0) && fenced rest

/-! ## Spelling -/

/-- What either engine reads as syntax, in or out of a class. -/
def syntaxMarks : List Char :=
  ['\\', '.', '+', '*', '?', '(', ')', '|', '[', ']', '\x7b', '\x7d', '^', '$', '-', '&', '~', '#']

def one (c : Char) : List Char := if c ∈ syntaxMarks then ['\\', c] else [c]

def countOnes (set : BitVec 128) : Nat := ((List.range 128).filter set.getLsbD).length

def trailingZeros (set : BitVec 128) : Nat := ((List.range 128).find? set.getLsbD).getD 128

/-- The last of the characters in a row from `c` on. -/
def stretch (set : BitVec 128) : Nat → Nat → Nat
  | 0, c => c
  | fuel + 1, c => if c < 0x7e && set.getLsbD (c + 1) then stretch set fuel (c + 1) else c

def ranges (set : BitVec 128) : Nat → Nat → List Char
  | 0, _ => []
  | fuel + 1, c =>
    if 0x7e < c then []
    else if !set.getLsbD c then ranges set fuel (c + 1)
    else
      let last := stretch set 95 c
      let lo := Char.ofNat c
      let hi := Char.ofNat last
      (if last = c then one lo else if last = c + 1 then one lo ++ one hi else one lo ++ '-' :: one hi) ++
        ranges set fuel (last + 1)

/-- `set` spelled out: one character, or a class of ranges in ASCII order. -/
def spell (set : BitVec 128) : List Char :=
  if countOnes set = 1 then one (Char.ofNat (trailingZeros set)) else '[' :: ranges set 95 0x20 ++ [']']

def numeral (n : Nat) : List Char := Nat.toDigits 10 n

def spellRepeat : Nat → Option Nat → List Char
  | 1, some 1 => []
  | 0, none => ['*']
  | 1, none => ['+']
  | 0, some 1 => ['?']
  | n, some m =>
    if n = m then '\x7b' :: numeral n ++ ['\x7d'] else '\x7b' :: numeral n ++ ',' :: numeral m ++ ['\x7d']
  | n, none => '\x7b' :: numeral n ++ [',', '\x7d']

def keptBody (runs : List Run) : List Char := runs.flatMap fun run => spell run.set ++ spellRepeat run.min run.max

def keptText (runs : List Run) : List Char := '^' :: keptBody runs ++ ['$']

/-- The pattern in the form kept, or why it is refused. -/
def paramPattern (pattern : String) : Except Refusal String :=
  if maxIdPattern < pattern.utf8ByteSize then .error .long
  else match pattern.toList.find? fun c => !printable c with
    | some c => .error (.unprintable c)
    | none => (readPattern pattern.toList).bind fun runs =>
      if fenced runs then .ok (String.ofList (keptText runs)) else .error .unfenced

/-! ## Matching -/

/-- A run as the set of characters it repeats. -/
def Run.toRepeat (run : Run) : Library.Repeat Char := ⟨{c | run.set.getLsbD c.toNat}, run.min, run.max⟩

/-- `text` cut along the runs, in pieces of these lengths. -/
def Cut (runs : List Run) (lengths : List Nat) (text : List Char) : Prop :=
  Library.Repeat.Way (runs.map Run.toRepeat) lengths text

/-- The pattern matches the whole text. -/
def Matches (pattern text : List Char) : Prop :=
  ∃ runs lengths, readPattern pattern = .ok runs ∧ Cut runs lengths text

end Oxplow.Extensions.ParamPattern
