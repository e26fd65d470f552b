import Oxplow.Harnesses.Claude
import Oxplow.Library.Counting

/-! What the chunks of a transcript count, against what the whole counts. -/

namespace Oxplow.Proofs.TokenCuts
open Library Jobs Harnesses

variable {fromStr : String → Option Json}

/-! ## Lines -/

theorem linesFrom_append (line text rest : List Char) :
    linesFrom line (text ++ '\n' :: rest) = linesFrom line (text ++ ['\n']) ++ linesFrom [] rest := by
  induction text generalizing line with
  | nil => simp [linesFrom]
  | cons c text ih =>
    simp only [List.cons_append, linesFrom]
    split
    · rw [ih [], List.cons_append]
    · exact ih _

/-- A chunk's lines come first. -/
theorem lines_append (chunk : Chunk) (rest : String) : lines (chunk.text ++ rest) = lines chunk.text ++ lines rest := by
  obtain ⟨front, whole⟩ := List.getLast?_eq_some_iff.mp chunk.complete
  simp only [lines, String.toList_append, whole, List.append_assoc, List.singleton_append, linesFrom_append [] front rest.toList, List.map_append]

theorem readLines_append (fromStr : String → Option Json) (chunk : Chunk) (rest : String) :
    readLines fromStr (chunk.text ++ rest) = readLines fromStr chunk.text ++ readLines fromStr rest := by
  simp only [readLines, lines_append, List.map_append, List.filter_append, List.filterMap_append]

/-- The transcript that was cut. -/
def whole (chunks : List Chunk) : String := chunks.foldr (fun chunk rest => chunk.text ++ rest) ""

theorem readLines_whole (chunks : List Chunk) : readLines fromStr (whole chunks) = (chunks.map fun chunk => readLines fromStr chunk.text).flatten := by
  induction chunks with
  | nil => rfl
  | cons chunk rest ih =>
    have first := readLines_append fromStr chunk (whole rest)
    exact first.trans (congrArg (readLines fromStr chunk.text ++ ·) ih)

/-! ## Counts -/

/-- The message of a line that has one. -/
def message? : Line → Option Message
  | .prompt _ => none
  | .message m => some m

def messages (fromStr : String → Option Json) (content : String) : List Message := (readLines fromStr content).filterMap message?

variable {kind : TokenKind} {m : Message}

theorem tokens_add (d : UsageDelta) : (d.add m).tokens kind = d.tokens kind + m.count kind.key := by
  cases kind <;> rfl

theorem tokenCount_countLast (turns : List Turn) : tokenCount kind (countLast turns m) = tokenCount kind turns + m.count kind.key := by
  induction turns with
  | nil =>
    have none_ : UsageDelta.default.tokens kind = 0 := by cases kind <;> rfl
    simp [countLast, tokenCount, tokens_add, none_]
  | cons turn turns ih =>
    cases turns with
    | nil => simp [countLast, tokenCount, tokens_add]
    | cons next turns =>
      simp only [tokenCount, List.map_cons, List.sum_cons] at ih
      simp only [countLast, tokenCount, List.map_cons, List.sum_cons]
      rw [ih]
      exact (BitVec.add_assoc _ _ _).symm

/-- Lines count the messages that count once. -/
theorem tokenCount_takeLines (kind : TokenKind) (read : List Line) (turns : List Turn) (seen : List String) :
    tokenCount kind (read.foldl takeLine (turns, seen)).1 =
      tokenCount kind turns + ((Counting.once Message.id seen (read.filterMap message?)).map fun m => m.count kind.key).sum := by
  induction read generalizing turns seen with
  | nil => simp [Counting.once]
  | cons line read ih =>
    rw [List.foldl_cons]
    cases line with
    | prompt text =>
      have none_ : UsageDelta.default.tokens kind = 0 := by cases kind <;> rfl
      have others : (Line.prompt text :: read).filterMap message? = read.filterMap message? := rfl
      rw [takeLine, ih, others]
      simp [tokenCount, none_]
    | message m =>
      have same : Counting.newTo Message.id seen m = !m.id.any seen.contains := by
        cases own : m.id <;> simp [Counting.newTo, own]
      have first : (Line.message m :: read).filterMap message? = m :: read.filterMap message? := rfl
      rw [first]
      simp only [takeLine, Counting.once, same]
      cases counted : m.id.any seen.contains with
      | true => simpa using ih turns seen
      | false =>
        simp only [Bool.false_eq_true, if_false, Bool.not_false, if_true, List.map_cons, List.sum_cons]
        rw [ih, tokenCount_countLast, BitVec.add_assoc]

theorem tokenCount_turns (content : String) : tokenCount kind (transcriptTurns fromStr content) =
    ((Counting.once Message.id [] (messages fromStr content)).map fun m => m.count kind.key).sum := by
  have read := tokenCount_takeLines kind (readLines fromStr content) [] []
  have start : tokenCount kind ([] : List Turn) = 0 := rfl
  rw [start, zero_add] at read
  exact read

/-- The messages that the chunks count again: the first of a message's lines in a chunk, when an
earlier chunk has others. -/
def recounted (fromStr : String → Option Json) (chunks : List Chunk) : List Message :=
  Counting.again Message.id [] (chunks.map fun chunk => messages fromStr chunk.text)

/-- The chunks' counts are the whole's with those of the messages they count again. -/
theorem tokenCount_chunks (fromStr : String → Option Json) (kind : TokenKind) (chunks : List Chunk) : (chunks.map fun chunk => tokenCount kind (transcriptTurns fromStr chunk.text)).sum =
    tokenCount kind (transcriptTurns fromStr (whole chunks)) + ((recounted fromStr chunks).map fun m => m.count kind.key).sum := by
  have parts := Counting.sum_parts Message.id (fun m => m.count kind.key) [] (chunks.map fun chunk => messages fromStr chunk.text)
  have joined : messages fromStr (whole chunks) = (chunks.map fun chunk => messages fromStr chunk.text).flatten := by
    simp only [messages, readLines_whole, List.filterMap_flatten, List.map_map]
    rfl
  simp only [tokenCount_turns, joined, List.map_map] at parts ⊢
  exact parts

/-- Where a transcript is cut makes no difference exactly when the messages that chunks count
again have no tokens. -/
theorem cut_counts (fromStr : String → Option Json) (chunks : List Chunk) :
    (∀ kind, (chunks.map fun chunk => tokenCount kind (transcriptTurns fromStr chunk.text)).sum = tokenCount kind (transcriptTurns fromStr (whole chunks))) ↔
      ∀ kind : TokenKind, ((recounted fromStr chunks).map fun m => m.count kind.key).sum = 0 := by
  constructor
  · intro same kind
    have all := tokenCount_chunks fromStr kind chunks
    rw [same kind] at all
    exact left_eq_add.mp all
  · intro silent kind
    rw [tokenCount_chunks, silent kind, add_zero]

/-- A line of a message's, as Claude repeats it for each content block. -/
private def thinking : String := "\x7b\"type\":\"assistant\",\"message\":\x7b\"id\":\"m\",\"usage\":\x7b\"input_tokens\":5\x7d\x7d\x7d"

private def parse (text : String) : Option Json :=
  if text = thinking then
    some (.object [("type", .string "assistant"), ("message", .object [("id", .string "m"), ("usage", .object [("input_tokens", .number "5")])])])
  else none

/-- The line's characters, none of which ends it. -/
private theorem thinking_chars : trim thinking.toList = thinking.toList ∧ '\n' ∉ thinking.toList ∧ thinking.toList.getLast? ≠ some '\r' ∧
    thinking.toList ≠ [] := by
  -- A literal is its characters by definition; to read them back off the text would decode it.
  have spelled : ∃ chars, thinking = String.ofList chars ∧ trim chars = chars ∧ '\n' ∉ chars ∧ chars.getLast? ≠ some '\r' ∧ chars ≠ [] :=
    ⟨_, rfl, by decide⟩
  obtain ⟨chars, same, plain⟩ := spelled
  rw [same, String.toList_ofList]
  exact plain

theorem lines_line {line : String} (single : '\n' ∉ line.toList) (plain : line.toList.getLast? ≠ some '\r') : lines (line ++ "\n") = [line.toList] := by
  have one : ∀ (text before : List Char), '\n' ∉ text → linesFrom before (text ++ ['\n']) = [before.reverse ++ text] := by
    intro text
    induction text with
    | nil => simp [linesFrom]
    | cons c text ih =>
      intro before fresh
      have other : c ≠ '\n' := fun same => fresh (same ▸ List.mem_cons_self)
      rw [List.cons_append, linesFrom, if_neg other, ih (c :: before) fun later => fresh (List.mem_cons_of_mem _ later)]
      simp
  rw [lines, String.toList_append]
  change (linesFrom [] (line.toList ++ ['\n'])).map _ = _
  rw [one line.toList [] single]
  simp [plain]

private theorem readLines_thinking :
    readLines parse (thinking ++ "\n") = [.message ⟨some "m", .object [("input_tokens", .number "5")], none⟩] := by
  obtain ⟨trimmed, single, plain, some_⟩ := thinking_chars
  rw [readLines, lines_line single plain]
  simp only [List.map_cons, List.map_nil, trimmed]
  rw [List.filter_cons_of_pos (by simpa using some_), List.filter_nil, List.filterMap_cons, List.filterMap_nil, readLine, String.ofList_toList, parse,
    if_pos rfl]
  rfl

/-- A message whose two lines fall in two reads counts twice. -/
theorem counted_twice :
    ∃ chunks : List Chunk, chunks.map Chunk.text = [thinking ++ "\n", thinking ++ "\n"] ∧
      (chunks.map fun chunk => tokenCount .input (transcriptTurns parse chunk.text)).sum = 10 ∧
      tokenCount .input (transcriptTurns parse (whole chunks)) = 5 := by
  have complete : (thinking ++ "\n").toList.getLast? = some '\n' := by
    rw [String.toList_append]
    exact List.getLast?_concat
  let line : Chunk := ⟨thinking ++ "\n", complete⟩
  have once : readLines parse line.text = [.message ⟨some "m", .object [("input_tokens", .number "5")], none⟩] := readLines_thinking
  refine ⟨[line, line], rfl, ?_, ?_⟩
  · simp only [List.map_cons, List.map_nil, transcriptTurns, once]
    rfl
  · rw [transcriptTurns, readLines_whole]
    simp only [List.map_cons, List.map_nil, once]
    rfl

end Oxplow.Proofs.TokenCuts
