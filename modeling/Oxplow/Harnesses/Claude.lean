import Mathlib.Data.BitVec
import Oxplow.Jobs.CanonicalJson

/-! `claude.rs`: the turns of a chunk of Claude's transcript. How a line of JSON parses is a
parameter. -/

namespace Oxplow.Harnesses
open Jobs

/-! ## Text -/

/-- `char::is_whitespace`. -/
def isWhitespace (c : Char) : Bool :=
  [0x20, 0x85, 0xA0, 0x1680, 0x2028, 0x2029, 0x202F, 0x205F, 0x3000].contains c.toNat || (9 ≤ c.toNat && c.toNat ≤ 13) ||
    (0x2000 ≤ c.toNat && c.toNat ≤ 0x200A)

def trim (text : List Char) : List Char := ((text.dropWhile isWhitespace).reverse.dropWhile isWhitespace).reverse

/-- The lines after those begun with `line`, which is reversed. -/
def linesFrom (line : List Char) : List Char → List (List Char)
  | [] => if line = [] then [] else [line.reverse]
  | c :: rest => if c = '\n' then line.reverse :: linesFrom [] rest else linesFrom (c :: line) rest

/-- `str::lines`. -/
def lines (content : String) : List (List Char) :=
  (linesFrom [] content.toList).map fun line => if line.getLast? = some '\r' then line.dropLast else line

/-! ## Values -/

def get (v : Json) (key : String) : Option Json :=
  match v with
  | .object entries => entries.lookup key
  | _ => none

def asStr : Json → Option String
  | .string text => some text
  | _ => none

def digits (text : List Char) : Option Nat :=
  if text ≠ [] ∧ text.all Char.isDigit = true then some (text.foldl (fun n c => 10 * n + (c.toNat - 48)) 0) else none

/-- A number's text with no fraction or exponent. -/
def integer : List Char → Option Int
  | '-' :: text => (digits text).map fun n => -(n : Int)
  | text => (digits text).map fun n => (n : Int)

/-- An integer that fits. -/
def asI64 : Json → Option (BitVec 64)
  | .number text => ((integer text.toList).filter fun n => -2 ^ 63 ≤ n ∧ n < 2 ^ 63).map (BitVec.ofInt 64)
  | _ => none

/-! ## Turns -/

structure UsageDelta where
  inputTokens : BitVec 64
  outputTokens : BitVec 64
  cacheCreationInputTokens : BitVec 64
  cacheReadInputTokens : BitVec 64
  messageCount : BitVec 64
  model : Option String
  deriving DecidableEq

structure Turn where
  prompt : Option String
  usage : UsageDelta
  deriving DecidableEq

def UsageDelta.default : UsageDelta := ⟨0, 0, 0, 0, 0, none⟩

/-- The text a person typed: a message's own, or its text blocks joined. -/
def userPrompt (msg : Json) : Option String :=
  (get msg "content").bind fun content =>
    match content with
    | .string text => if trim text.toList = [] then none else some (String.ofList (trim text.toList))
    | .array blocks =>
      let parts := ((blocks.filter fun b => (get b "type").bind asStr == some "text").filterMap fun b => (get b "text").bind asStr).map
        fun text => trim text.toList
      let texts := parts.filter (· ≠ [])
      if texts = [] then none else some (String.intercalate "\n" (texts.map String.ofList))
    | _ => none

/-- A message's usage with its id, of a line that has one. -/
structure Message where
  id : Option String
  usage : Json
  model : Option String

/-- What a line says to the turns. -/
inductive Line where
  | prompt (text : String)
  | message (m : Message)

def readLine (fromStr : String → Option Json) (line : List Char) : Option Line :=
  (fromStr (String.ofList line)).bind fun v => (get v "message").bind fun msg =>
    match (get v "type").bind asStr with
    | some "user" => (userPrompt msg).map .prompt
    | some "assistant" => (get msg "usage").map fun usage => .message ⟨(get msg "id").bind asStr, usage, (get msg "model").bind asStr⟩
    | _ => none

/-- A token count that a message's usage gives. -/
def Message.count (m : Message) (key : String) : BitVec 64 := ((get m.usage key).bind asI64).getD 0

def UsageDelta.add (d : UsageDelta) (m : Message) : UsageDelta where
  inputTokens := d.inputTokens + m.count "input_tokens"
  outputTokens := d.outputTokens + m.count "output_tokens"
  cacheCreationInputTokens := d.cacheCreationInputTokens + m.count "cache_creation_input_tokens"
  cacheReadInputTokens := d.cacheReadInputTokens + m.count "cache_read_input_tokens"
  messageCount := d.messageCount + 1
  model := m.model.or d.model

/-- A message's usage added to the last turn, or to one without a prompt. -/
def countLast : List Turn → Message → List Turn
  | [], m => [⟨none, UsageDelta.default.add m⟩]
  | [turn], m => [{ turn with usage := turn.usage.add m }]
  | turn :: turns, m => turn :: countLast turns m

/-- The turns and the ids of the messages counted. -/
abbrev Reading := List Turn × List String

def takeLine (r : Reading) : Line → Reading
  | .prompt text => (r.1 ++ [⟨some text, .default⟩], r.2)
  | .message m => if m.id.any r.2.contains then r else (countLast r.1 m, m.id.toList ++ r.2)

def readLines (fromStr : String → Option Json) (content : String) : List Line :=
  (((lines content).map trim).filter (· ≠ [])).filterMap (readLine fromStr)

def transcriptTurns (fromStr : String → Option Json) (content : String) : List Turn :=
  ((readLines fromStr content).foldl takeLine ([], [])).1

/-- The token counts of a turn. -/
inductive TokenKind where
  | input
  | output
  | cacheCreationInput
  | cacheReadInput
  deriving DecidableEq

def TokenKind.key : TokenKind → String
  | input => "input_tokens"
  | output => "output_tokens"
  | cacheCreationInput => "cache_creation_input_tokens"
  | cacheReadInput => "cache_read_input_tokens"

def UsageDelta.tokens (d : UsageDelta) : TokenKind → BitVec 64
  | .input => d.inputTokens
  | .output => d.outputTokens
  | .cacheCreationInput => d.cacheCreationInputTokens
  | .cacheReadInput => d.cacheReadInputTokens

def tokenCount (kind : TokenKind) (turns : List Turn) : BitVec 64 := (turns.map fun turn => turn.usage.tokens kind).sum

/-- What one read sees: whole lines. -/
structure Chunk where
  text : String
  complete : text.toList.getLast? = some '\n'

end Oxplow.Harnesses
