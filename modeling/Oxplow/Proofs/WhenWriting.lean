import Oxplow.Proofs.WhenGrammar

/-! Trees of a `when` written out as text. Those that some text reads as come back from theirs. -/

namespace Oxplow.Proofs.WhenWriting
open When Library.Lexing WhenGrammar

/-! ## Writing -/

/-- A pattern between slashes. -/
def escaped : List Char → List Char
  | [] => []
  | c :: rest =>
    if c = '\\' then
      match rest with
      | [] => [c]
      | n :: rest => c :: n :: escaped rest
    else if c = '/' then '\\' :: '/' :: escaped rest
    else c :: escaped rest

def literalText : Literal → List Char
  | .bool b => if b then "true".toList else "false".toList
  | .str text =>
    let quote := if '\'' ∈ text.toList then '"' else '\''
    quote :: (text.toList ++ [quote])

/-- A tree as text, with parentheses around every operand. -/
def writtenChars : Expr → List Char
  | .literal b => literalText (.bool b)
  | .key key => key.toList
  | .not e => '!' :: '(' :: (writtenChars e ++ [')'])
  | .and a b => '(' :: (writtenChars a ++ ')' :: ' ' :: '&' :: '&' :: ' ' :: '(' :: (writtenChars b ++ [')']))
  | .or a b => '(' :: (writtenChars a ++ ')' :: ' ' :: '|' :: '|' :: ' ' :: '(' :: (writtenChars b ++ [')']))
  | .equals key value equal => key.toList ++ ' ' :: (if equal then '=' else '!') :: '=' :: ' ' :: literalText value
  | .matches key (pattern, flags) =>
    key.toList ++ ' ' :: '=' :: '~' :: ' ' :: '/' :: (escaped pattern.toList ++ '/' :: flags.toList)

def written (e : Expr) : String := String.ofList (writtenChars e)

/-- The tokens of what is written. -/
def writtenTokens : Expr → List Token
  | .literal b => [.word (if b then "true" else "false")]
  | .key key => [.word key]
  | .not e => .not :: .open_ :: (writtenTokens e ++ [.close])
  | .and a b => .open_ :: (writtenTokens a ++ .close :: .and :: .open_ :: (writtenTokens b ++ [.close]))
  | .or a b => .open_ :: (writtenTokens a ++ .close :: .or :: .open_ :: (writtenTokens b ++ [.close]))
  | .equals key (.bool b) equal => [.word key, if equal then .eq else .notEq, .word (if b then "true" else "false")]
  | .equals key (.str text) equal => [.word key, if equal then .eq else .notEq, .quoted text]
  | .matches key (pattern, flags) => [.word key, .match_, .regex pattern flags]

section
variable (u : Unicode) (regexes : Regexes)

/-- A key that a text can name. -/
structure Name (key : String) : Prop where
  some : key ≠ ""
  word : ∀ c ∈ key.toList, isWord u c = true
  plain : key ≠ "true" ∧ key ≠ "false" ∧ key ≠ "in"

/-- A backslash is with what it escapes, which is no slash. -/
def Paired : List Char → Prop
  | [] => True
  | c :: rest =>
    if c = '\\' then
      match rest with
      | [] => False
      | n :: rest => n ≠ '/' ∧ Paired rest
    else Paired rest

def Quotable : Literal → Prop
  | .bool _ => True
  | .str text => '\'' ∉ text.toList ∨ '"' ∉ text.toList

/-- The trees that a text can be of. -/
def Writable : Expr → Prop
  | .literal _ => True
  | .key key => Name u key
  | .not e => Writable e
  | .and a b => Writable a ∧ Writable b
  | .or a b => Writable a ∧ Writable b
  | .equals key value _ => Name u key ∧ Quotable value
  | .matches key (pattern, flags) => Name u key ∧ Paired pattern.toList ∧ ∃ regex, compile regexes pattern flags = .ok regex

end

/-! ## What is written derives its tree -/

variable {u : Unicode} {regexes : Regexes}

variable {toks : List Token} {e : Expr}

theorem derives_of_unary (unary : Derives regexes .unary toks e) : Derives regexes .or toks e := by
  have alone : Derives regexes .and (toks ++ []) e := .and unary .andDone
  have whole : Derives regexes .or (toks ++ [] ++ []) e := .or alone .orDone
  rw [List.append_nil, List.append_nil] at whole
  exact whole

theorem derives_group (inner : Derives regexes .or toks e) :
    Derives regexes .unary (.open_ :: (toks ++ [.close])) e := .primary (.group inner)

theorem written_derives (writable : Writable u regexes e) : Derives regexes .or (writtenTokens e) e := by
  induction e with
  | literal b =>
    apply derives_of_unary
    cases b with
    | true => exact .primary .true
    | false => exact .primary .false
  | key key => exact derives_of_unary (.primary (.key ⟨writable.plain.1, writable.plain.2.1⟩))
  | not e ih => exact derives_of_unary (.not (derives_group (ih writable)))
  | and a b ihA ihB =>
    have right : Derives regexes (.andRest a) (.and :: (.open_ :: (writtenTokens b ++ [.close]) ++ [])) (.and a b) :=
      .andMore (derives_group (ihB writable.2)) .andDone
    have whole : Derives regexes .or _ (.and a b) := .or (.and (derives_group (ihA writable.1)) right) .orDone
    simpa [writtenTokens] using whole
  | or a b ihA ihB =>
    have left : Derives regexes .and (.open_ :: (writtenTokens a ++ [.close]) ++ []) a :=
      .and (derives_group (ihA writable.1)) .andDone
    have right : Derives regexes .and (.open_ :: (writtenTokens b ++ [.close]) ++ []) b :=
      .and (derives_group (ihB writable.2)) .andDone
    have whole : Derives regexes .or _ (.or a b) := .or left (.orMore right .orDone)
    simpa [writtenTokens] using whole
  | equals key value equal =>
    have name := And.intro writable.1.plain.1 writable.1.plain.2.1
    apply derives_of_unary
    cases value with
    | bool b =>
      have is : valueOf (.word (if b then "true" else "false")) = some (.bool b) := by cases b <;> rfl
      cases equal with
      | true => exact .primary (.equals name is)
      | false => exact .primary (.notEquals name is)
    | str text =>
      cases equal with
      | true => exact .primary (.equals name rfl)
      | false => exact .primary (.notEquals name rfl)
  | _ key regex =>
    obtain ⟨pattern, flags⟩ := regex
    obtain ⟨name, _, _, compiles⟩ := writable
    exact derives_of_unary (.primary (.matched ⟨name.plain.1, name.plain.2.1⟩ compiles))

/-! ## What is written is cut into its tokens -/

/-- The tokens of a text. -/
def cut (u : Unicode) (text : List Char) : Except String (List Token) := (scan (lexeme u) 0 0 text).map List.flatten

theorem scan_place (place skip : Nat) (text : List Char) : scan (lexeme u) place skip text = scan (lexeme u) 0 skip text := by
  induction text generalizing place skip with
  | nil => rw [scan_nil, scan_nil]
  | cons c rest ih =>
    cases skip with
    | zero =>
      rw [scan, scan]
      apply congrArg
      funext read
      rw [ih, ih (0 + 1)]
    | succ skip => rw [scan, scan, ih, ih (0 + 1)]

variable {c : Char} {rest : List Char} {more : Nat}

theorem cut_cons (read : lexeme u 0 c rest = .ok (toks, more)) :
    cut u (c :: rest) = (cut u (rest.drop more)).map (toks ++ ·) := by
  rw [cut, scan_cons, read]
  show ((scan (lexeme u) (0 + 1 + more) 0 (rest.drop more)).map (toks :: ·)).map List.flatten = _
  rw [scan_place, cut]
  cases scan (lexeme u) 0 0 (rest.drop more) with
  | error e => rfl
  | ok later => rfl

def specials : List Char := [' ', '\t', '\n', '(', ')', '&', '|', '=', '!', '<', '>', '\'', '"']

theorem isWord_ascii (small : c.toNat < 0x80) :
    isWord u c = (c.isAlpha || c.isDigit || ['.', '_', '-', ':', '/', '@', '#'].contains c) := by
  obtain ⟨alphabetic, _, number⟩ := u.ascii c small
  rw [isWord, isAlphanumeric, alphabetic, number]

theorem special_apart (special : c ∈ specials) : isWord u c = false := by
  have apart : specials.all (fun c => c.toNat < 0x80 && !(c.isAlpha || c.isDigit || ['.', '_', '-', ':', '/', '@', '#'].contains c)) =
      true := by rfl
  have own := List.all_eq_true.mp apart c special
  rw [Bool.and_eq_true, decide_eq_true_eq, Bool.not_eq_true'] at own
  rw [isWord_ascii own.1]
  exact own.2

theorem word_apart {s : Char} (word : isWord u c = true) (special : s ∈ specials) : c ≠ s := by
  rintro rfl
  rw [special_apart special] at word
  cases word

/-- What a text that starts with a character of a word is read as. -/
theorem lexeme_word (word : isWord u c = true) (names : String.ofList (c :: rest.takeWhile (isWord u)) ≠ "in")
    (apart : String.ofList (c :: rest.takeWhile (isWord u)) = "not" →
      outNextWord u (rest.drop (rest.takeWhile (isWord u)).length) = none) :
    lexeme u 0 c rest = .ok ([.word (String.ofList (c :: rest.takeWhile (isWord u)))], (rest.takeWhile (isWord u)).length) := by
  have differ : ∀ s ∈ specials, c ≠ s := fun s special => word_apart word special
  simp only [specials, List.mem_cons, List.not_mem_nil, or_false, forall_eq_or_imp, forall_eq] at differ
  have two : ¬ (String.ofList (c :: rest.takeWhile (isWord u)) = "not" ∧
      outNextWord u (rest.drop (rest.takeWhile (isWord u)).length) = some "in") := by
    rintro ⟨isNot, next⟩
    rw [apart isNot] at next
    cases next
  simp only [lexeme, differ, false_or, false_and, if_false, word, if_true, if_neg names, if_neg two]

/-- What a word can stand before. -/
structure Quiet (u : Unicode) (rest : List Char) : Prop where
  ends : ∀ c ∈ rest.head?, isWord u c = false
  apart : outNextWord u rest = none

theorem takeWhile_ends {p : Char → Bool} {word : List Char} (all : ∀ c ∈ word, p c = true) (ends : ∀ c ∈ rest.head?, p c = false) :
    (word ++ rest).takeWhile p = word := by
  rw [List.takeWhile_append_of_pos all]
  cases rest with
  | nil => rw [List.takeWhile_nil, List.append_nil]
  | cons c rest => rw [List.takeWhile_cons, ends c rfl, if_neg Bool.false_ne_true, List.append_nil]

theorem cut_word {word : String} (some' : word ≠ "") (all : ∀ c ∈ word.toList, isWord u c = true) (plain : word ≠ "in")
    (quiet : Quiet u rest) : cut u (word.toList ++ rest) = (cut u rest).map (.word word :: ·) := by
  cases chars : word.toList with
  | nil => exact absurd (String.toList_eq_nil_iff.mp chars) some'
  | cons c more =>
    rw [chars] at all
    have tail : (more ++ rest).takeWhile (isWord u) = more :=
      takeWhile_ends (fun d inside => all d (List.mem_cons_of_mem _ inside)) quiet.ends
    have whole : String.ofList (c :: more) = word := by rw [← chars, String.ofList_toList]
    have read := @lexeme_word u c (more ++ rest) (all c List.mem_cons_self) (by rw [tail, whole]; exact plain)
      (by rw [tail, List.drop_left]; exact fun _ => quiet.apart)
    rw [List.cons_append, cut_cons read, tail, List.drop_left, whole]
    rfl

theorem cut_space (rest : List Char) : cut u (' ' :: rest) = cut u rest := by
  have read : lexeme u 0 ' ' rest = .ok ([], 0) := rfl
  rw [cut_cons read, List.drop_zero]
  cases cut u rest with
  | error e => rfl
  | ok toks => rfl

theorem cut_open (rest : List Char) : cut u ('(' :: rest) = (cut u rest).map (.open_ :: ·) := by
  have read : lexeme u 0 '(' rest = .ok ([.open_], 0) := rfl
  exact cut_cons read

theorem cut_close (rest : List Char) : cut u (')' :: rest) = (cut u rest).map (.close :: ·) := by
  have read : lexeme u 0 ')' rest = .ok ([.close], 0) := rfl
  exact cut_cons read

theorem cut_not (differ : c ≠ '=') (rest : List Char) : cut u ('!' :: c :: rest) = (cut u (c :: rest)).map (.not :: ·) := by
  have read : lexeme u 0 '!' (c :: rest) = .ok ([.not], 0) := by
    simp [lexeme, differ]
  exact cut_cons read

theorem cut_and (rest : List Char) : cut u ('&' :: '&' :: rest) = (cut u rest).map (.and :: ·) := by
  have read : lexeme u 0 '&' ('&' :: rest) = .ok ([.and], 1) := rfl
  exact cut_cons read

theorem cut_or (rest : List Char) : cut u ('|' :: '|' :: rest) = (cut u rest).map (.or :: ·) := by
  have read : lexeme u 0 '|' ('|' :: rest) = .ok ([.or], 1) := rfl
  exact cut_cons read

/-- `==` or `!=`, with a space after it. -/
theorem cut_equals (equal : Bool) (rest : List Char) :
    cut u ((if equal then '=' else '!') :: '=' :: ' ' :: rest) = (cut u rest).map ((if equal then .eq else .notEq) :: ·) := by
  cases equal with
  | true =>
    have read : lexeme u 0 '=' ('=' :: ' ' :: rest) = .ok ([.eq], 1) := rfl
    have cutting := cut_cons read
    rw [List.drop_succ_cons, List.drop_zero, cut_space] at cutting
    exact cutting
  | false =>
    have read : lexeme u 0 '!' ('=' :: ' ' :: rest) = .ok ([.notEq], 1) := rfl
    have cutting := cut_cons read
    rw [List.drop_succ_cons, List.drop_zero, cut_space] at cutting
    exact cutting

variable {quote : Char}

theorem quotedString_read {text : List Char} (absent : quote ∉ text) (rest : List Char) :
    quotedString quote (text ++ quote :: rest) = .ok (text, text.length + 1) := by
  induction text with
  | nil => simp [quotedString]
  | cons c text ih =>
    have differ : c ≠ quote := fun same => absent (same ▸ List.mem_cons_self)
    rw [List.cons_append, quotedString, if_neg differ, ih fun inside => absent (List.mem_cons_of_mem _ inside)]
    rfl

theorem cut_quoted (mark : quote = '\'' ∨ quote = '"') {text : String} (absent : quote ∉ text.toList) (rest : List Char) :
    cut u (quote :: (text.toList ++ quote :: rest)) = (cut u rest).map (.quoted text :: ·) := by
  have quoted := quotedString_read absent rest
  have read : lexeme u 0 quote (text.toList ++ quote :: rest) = .ok ([.quoted text], text.toList.length + 1) := by
    rcases mark with rfl | rfl
    · simp [lexeme, quoted, Except.map]
    · simp [lexeme, quoted, Except.map]
  have left : (text.toList ++ quote :: rest).drop (text.toList.length + 1) = rest := by
    rw [List.drop_append]
    simp
  rw [cut_cons read, left]
  rfl

theorem paired_cons (plain : c ≠ '\\') (rest : List Char) : Paired (c :: rest) ↔ Paired rest := by
  cases rest with
  | nil => simp [Paired, plain]
  | cons n rest => simp [Paired, plain]

theorem escaped_cons (plain : c ≠ '\\') (rest : List Char) :
    escaped (c :: rest) = if c = '/' then '\\' :: '/' :: escaped rest else c :: escaped rest := by
  cases rest with
  | nil => simp [escaped, plain]
  | cons n rest => simp [escaped, plain]

theorem regexPattern_cons (plain : c ≠ '\\' ∧ c ≠ '/') (rest : List Char) :
    regexPattern (c :: rest) = (regexPattern rest).map fun read => (c :: read.1, read.2 + 1) := by
  cases rest with
  | nil => simp [regexPattern, plain]
  | cons n rest => simp [regexPattern, plain]

theorem regexPattern_pair (n : Char) (rest : List Char) :
    regexPattern ('\\' :: n :: rest) =
      (regexPattern rest).map fun read => ((if n ≠ '/' then ['\\', n] else [n]) ++ read.1, read.2 + 2) := by
  simp [regexPattern]

theorem regexPattern_slash (rest : List Char) : regexPattern ('/' :: rest) = .ok ([], 1) := by
  cases rest with
  | nil => rfl
  | cons n rest => rfl

theorem regexPattern_read {pattern : List Char} (paired : Paired pattern) (rest : List Char) :
    regexPattern (escaped pattern ++ '/' :: rest) = .ok (pattern, (escaped pattern).length + 1) := by
  induction pattern using escaped.induct with
  | case1 => exact regexPattern_slash rest
  | case2 => simp [Paired] at paired
  | case3 n pattern ih =>
    simp only [Paired, if_true] at paired
    rw [escaped, if_pos rfl, List.cons_append, List.cons_append, regexPattern_pair, ih paired.2, if_pos paired.1]
    rfl
  | case4 pattern apart ih =>
    rw [escaped_cons apart, if_pos rfl, List.cons_append, List.cons_append, regexPattern_pair, ih ((paired_cons apart _).mp paired)]
    rfl
  | case5 c pattern apart other ih =>
    rw [escaped_cons apart, if_neg other, List.cons_append, regexPattern_cons ⟨apart, other⟩, ih ((paired_cons apart _).mp paired)]
    rfl

theorem cut_regex {pattern flags : String} (paired : Paired pattern.toList) (letters : ∀ c ∈ flags.toList, c.isAlpha = true)
    (ends : ∀ c ∈ rest.head?, c.isAlpha = false) :
    cut u ('=' :: '~' :: ' ' :: '/' :: (escaped pattern.toList ++ '/' :: (flags.toList ++ rest))) =
      (cut u rest).map (.match_ :: .regex pattern flags :: ·) := by
  have body := regexPattern_read paired (flags.toList ++ rest)
  have left : ∀ more : List Char, (escaped pattern.toList ++ '/' :: more).drop ((escaped pattern.toList).length + 1) = more := by
    intro more
    rw [List.drop_append]
    simp
  have literal : regexLiteral (' ' :: '/' :: (escaped pattern.toList ++ '/' :: (flags.toList ++ rest))) =
      .ok (.regex pattern flags, 1 + 1 + ((escaped pattern.toList).length + 1) + flags.toList.length) := by
    simp only [regexLiteral, List.takeWhile_cons]
    show (regexPattern (escaped pattern.toList ++ '/' :: (flags.toList ++ rest))).map _ = _
    rw [body]
    simp only [Except.map, left, takeWhile_ends letters ends, String.ofList_toList]
    rfl
  have read : lexeme u 0 '=' ('~' :: ' ' :: '/' :: (escaped pattern.toList ++ '/' :: (flags.toList ++ rest))) =
      .ok ([.match_, .regex pattern flags], 1 + (1 + 1 + ((escaped pattern.toList).length + 1) + flags.toList.length)) := by
    have taken : lexeme u 0 '=' ('~' :: ' ' :: '/' :: (escaped pattern.toList ++ '/' :: (flags.toList ++ rest))) =
        (regexLiteral (' ' :: '/' :: (escaped pattern.toList ++ '/' :: (flags.toList ++ rest)))).map
          fun read => ([.match_, read.1], 1 + read.2) := rfl
    rw [taken, literal]
    rfl
  have whole : ('~' :: ' ' :: '/' :: (escaped pattern.toList ++ '/' :: (flags.toList ++ rest))).drop
      (1 + (1 + 1 + ((escaped pattern.toList).length + 1) + flags.toList.length)) = rest := by
    have sum : 1 + (1 + 1 + ((escaped pattern.toList).length + 1) + flags.toList.length) =
        (escaped pattern.toList).length + 1 + flags.toList.length + 1 + 1 + 1 := by omega
    rw [sum, List.drop_succ_cons, List.drop_succ_cons, List.drop_succ_cons, ← List.drop_drop, left, List.drop_left]
  rw [cut_cons read, whole]
  rfl

/-- What can stand after a whole operand: nothing, or its parenthesis. -/
def Closed (rest : List Char) : Prop := rest = [] ∨ ∃ more, rest = ')' :: more

theorem quiet_closed (closed : Closed rest) : Quiet u rest := by
  have apart : isWord u ')' = false := special_apart (by decide)
  rcases closed with rfl | ⟨more, rfl⟩
  · exact ⟨fun c there => (nomatch there), rfl⟩
  · constructor
    · rintro c ⟨⟩
      exact apart
    · simp [outNextWord, apart]

theorem quiet_space (special : c ∈ specials) (other : c ≠ ' ') (rest : List Char) : Quiet u (' ' :: c :: rest) := by
  have apart : isWord u c = false := special_apart special
  constructor
  · rintro d ⟨⟩
    exact special_apart (by decide)
  · simp [outNextWord, apart, other]

theorem word_true (b : Bool) (closed : Closed rest) :
    cut u (literalText (.bool b) ++ rest) = (cut u rest).map (.word (if b then "true" else "false") :: ·) := by
  have all : ∀ word : String, word.toList.all (fun c => c.toNat < 0x80 && c.isAlpha) = true → ∀ c ∈ word.toList, isWord u c = true := by
    intro word letters c inside
    have own := List.all_eq_true.mp letters c inside
    rw [Bool.and_eq_true, decide_eq_true_eq] at own
    rw [isWord_ascii own.1, own.2, Bool.true_or, Bool.true_or]
  cases b with
  | true => exact cut_word (by decide) (all "true" rfl) (by decide) (quiet_closed closed)
  | false => exact cut_word (by decide) (all "false" rfl) (by decide) (quiet_closed closed)

theorem flags_letters {pattern flags : String} {regex : String → Bool} (compiles : compile regexes pattern flags = .ok regex) :
    ∀ c ∈ flags.toList, c.isAlpha = true := by
  intro c member
  unfold compile at compiles
  split at compiles
  · cases compiles
  · rename_i found
    have known := List.find?_eq_none.mp found c member
    simp only [Bool.not_eq_true', Bool.not_eq_false, Bool.or_eq_true, beq_iff_eq] at known
    rcases known with (rfl | rfl) | rfl
    · rfl
    · rfl
    · rfl

/-- One operand in its parentheses. -/
theorem cut_group {e : Expr} {rest : List Char}
    (inner : cut u (writtenChars e ++ ')' :: rest) = (cut u (')' :: rest)).map (writtenTokens e ++ ·)) :
    cut u ('(' :: (writtenChars e ++ ')' :: rest)) = (cut u rest).map (.open_ :: (writtenTokens e ++ [.close]) ++ ·) := by
  rw [cut_open, inner, cut_close]
  cases cut u rest with
  | error e => rfl
  | ok toks => simp [Except.map]

theorem written_cut (writable : Writable u regexes e) :
    ∀ {rest : List Char}, Closed rest → cut u (writtenChars e ++ rest) = (cut u rest).map (writtenTokens e ++ ·) := by
  induction e with
  | literal b =>
    intro rest closed
    exact word_true b closed
  | key key =>
    intro rest closed
    exact cut_word writable.some writable.word writable.plain.2.2 (quiet_closed closed)
  | not e ih =>
    intro rest closed
    have inner := cut_group (ih writable (.inr ⟨rest, rfl⟩))
    have text : writtenChars (.not e) ++ rest = '!' :: '(' :: (writtenChars e ++ ')' :: rest) := by simp [writtenChars]
    rw [text, cut_not (by decide), inner]
    cases cut u rest with
    | error e => rfl
    | ok toks => simp [Except.map, writtenTokens]
  | and a b ihA ihB =>
    intro rest closed
    have right := cut_group (ihB writable.2 (.inr ⟨rest, rfl⟩))
    have left := cut_group (ihA writable.1 (.inr ⟨' ' :: '&' :: '&' :: ' ' :: '(' :: (writtenChars b ++ ')' :: rest), rfl⟩))
    have text : writtenChars (.and a b) ++ rest =
        '(' :: (writtenChars a ++ ')' :: ' ' :: '&' :: '&' :: ' ' :: '(' :: (writtenChars b ++ ')' :: rest)) := by simp [writtenChars]
    rw [text, left, cut_space, cut_and, cut_space, right]
    cases cut u rest with
    | error e => rfl
    | ok toks => simp [Except.map, writtenTokens]
  | or a b ihA ihB =>
    intro rest closed
    have right := cut_group (ihB writable.2 (.inr ⟨rest, rfl⟩))
    have left := cut_group (ihA writable.1 (.inr ⟨' ' :: '|' :: '|' :: ' ' :: '(' :: (writtenChars b ++ ')' :: rest), rfl⟩))
    have text : writtenChars (.or a b) ++ rest =
        '(' :: (writtenChars a ++ ')' :: ' ' :: '|' :: '|' :: ' ' :: '(' :: (writtenChars b ++ ')' :: rest)) := by simp [writtenChars]
    rw [text, left, cut_space, cut_or, cut_space, right]
    cases cut u rest with
    | error e => rfl
    | ok toks => simp [Except.map, writtenTokens]
  | equals key value equal =>
    intro rest closed
    obtain ⟨name, quotable⟩ := writable
    have op : (if equal then '=' else '!') ∈ specials ∧ (if equal then '=' else '!') ≠ ' ' := by cases equal <;> decide
    have text : writtenChars (.equals key value equal) ++ rest =
        key.toList ++ ' ' :: (if equal then '=' else '!') :: '=' :: ' ' :: (literalText value ++ rest) := by simp [writtenChars]
    rw [text, cut_word name.some name.word name.plain.2.2 (quiet_space op.1 op.2 _), cut_space, cut_equals]
    cases value with
    | bool b =>
      rw [word_true b closed]
      cases cut u rest with
      | error e => rfl
      | ok toks => rfl
    | str string =>
      have quoted : ∀ quote : Char, (quote = '\'' ∨ quote = '"') → quote ∉ string.toList →
          cut u (quote :: (string.toList ++ [quote]) ++ rest) = (cut u rest).map (.quoted string :: ·) := by
        intro quote mark absent
        have text : quote :: (string.toList ++ [quote]) ++ rest = quote :: (string.toList ++ quote :: rest) := by simp
        rw [text]
        exact cut_quoted mark absent rest
      have literal : cut u (literalText (.str string) ++ rest) = (cut u rest).map (.quoted string :: ·) := by
        by_cases inside : '\'' ∈ string.toList
        · rw [literalText, if_pos inside]
          exact quoted '"' (.inr rfl) (quotable.resolve_left fun absent => absent inside)
        · rw [literalText, if_neg inside]
          exact quoted '\'' (.inl rfl) inside
      rw [literal]
      cases cut u rest with
      | error e => rfl
      | ok toks => rfl
  | _ key regex =>
    intro rest closed
    obtain ⟨pattern, flags⟩ := regex
    obtain ⟨name, paired, _, compiles⟩ := writable
    have ends : ∀ c ∈ rest.head?, c.isAlpha = false := by
      rcases closed with rfl | ⟨more, rfl⟩
      · exact fun c there => nomatch there
      · rintro c ⟨⟩
        rfl
    have text : writtenChars (.matches key (pattern, flags)) ++ rest =
        key.toList ++ ' ' :: '=' :: '~' :: ' ' :: '/' :: (escaped pattern.toList ++ '/' :: (flags.toList ++ rest)) := by
      simp [writtenChars]
    rw [text, cut_word name.some name.word name.plain.2.2 (quiet_space (by decide) (by decide) _), cut_space,
      cut_regex paired (flags_letters compiles) ends]
    cases cut u rest with
    | error e => rfl
    | ok toks => rfl

theorem parse_written (writable : Writable u regexes e) : parse u regexes (written e) = .ok e := by
  have text : tokens u (written e) = .ok (writtenTokens e) := by
    have whole := written_cut writable (.inl rfl : Closed [])
    rw [List.append_nil] at whole
    show cut u (written e).toList = _
    rw [written, String.toList_ofList, whole]
    show Except.ok (writtenTokens e ++ []) = _
    rw [List.append_nil]
  show (tokens u (written e)).bind (parseTokens regexes) = _
  rw [text]
  exact (parseTokens_iff _ e).mpr (written_derives writable)

/-! ## What is read can be written -/

/-- What the words, strings and patterns of a text are. -/
def Lexed (u : Unicode) : Token → Prop
  | .word w => w ≠ "" ∧ (∀ c ∈ w.toList, isWord u c = true) ∧ w ≠ "in"
  | .quoted s => '\'' ∉ s.toList ∨ '"' ∉ s.toList
  | .regex pattern _ => Paired pattern.toList
  | _ => True

variable {chars : List Char}

theorem quotedString_absent {text : List Char} (read : quotedString quote chars = .ok (text, more)) : quote ∉ text := by
  induction chars generalizing text more with
  | nil => cases read
  | cons c chars ih =>
    rw [quotedString] at read
    by_cases same : c = quote
    · rw [if_pos same] at read
      cases read
      exact List.not_mem_nil
    · rw [if_neg same] at read
      obtain ⟨⟨rest, more'⟩, inner, whole⟩ := Library.Outcome.map_ok.mp read
      cases whole
      rw [List.mem_cons]
      rintro (equal | later)
      · exact same equal.symm
      · exact ih inner later

theorem regexPattern_paired {pattern : List Char} (read : regexPattern chars = .ok (pattern, more)) : Paired pattern := by
  induction chars using regexPattern.induct generalizing pattern more with
  | case1 => cases read
  | case2 => cases read
  | case3 n rest ih =>
    rw [regexPattern_pair] at read
    obtain ⟨⟨tail, more'⟩, inner, whole⟩ := Library.Outcome.map_ok.mp read
    cases whole
    by_cases slash : n = '/'
    · subst slash
      exact (paired_cons (by decide) tail).mpr (ih inner)
    · rw [if_pos slash]
      simp only [List.cons_append, List.nil_append, Paired, if_true]
      exact ⟨slash, ih inner⟩
  | case4 rest =>
    rw [regexPattern_slash] at read
    cases read
    exact trivial
  | case5 c rest plain other ih =>
    rw [regexPattern_cons ⟨plain, other⟩] at read
    obtain ⟨⟨tail, more'⟩, inner, whole⟩ := Library.Outcome.map_ok.mp read
    cases whole
    exact (paired_cons plain tail).mpr (ih inner)

theorem regexLiteral_lexed {t : Token} (read : regexLiteral chars = .ok (t, more)) : Lexed u t := by
  unfold regexLiteral at read
  dsimp only at read
  split at read
  · obtain ⟨⟨pattern, more'⟩, inner, whole⟩ := Library.Outcome.map_ok.mp read
    cases whole
    show Paired (String.ofList pattern).toList
    rw [String.toList_ofList]
    exact regexPattern_paired inner
  · cases read

theorem lexeme_lexed {place : Nat} (read : lexeme u place c rest = .ok (toks, more)) : ∀ t ∈ toks, Lexed u t := by
  have single : ∀ {t : Token}, Lexed u t → ∀ t' ∈ [t], Lexed u t' := by
    intro t lexed t' member
    exact List.mem_singleton.mp member ▸ lexed
  have none_ : ∀ t ∈ ([] : List Token), Lexed u t := fun t member => absurd member List.not_mem_nil
  unfold lexeme at read
  dsimp only at read
  rcases ite_eq_iff.mp read with ⟨_, read⟩ | ⟨_, read⟩
  · cases read
    exact none_
  rcases ite_eq_iff.mp read with ⟨_, read⟩ | ⟨_, read⟩
  · cases read
    exact single trivial
  rcases ite_eq_iff.mp read with ⟨_, read⟩ | ⟨_, read⟩
  · cases read
    exact single trivial
  rcases ite_eq_iff.mp read with ⟨_, read⟩ | ⟨_, read⟩
  · cases read
    exact single trivial
  rcases ite_eq_iff.mp read with ⟨_, read⟩ | ⟨_, read⟩
  · cases read
    exact single trivial
  rcases ite_eq_iff.mp read with ⟨_, read⟩ | ⟨_, read⟩
  · cases read
    exact single trivial
  rcases ite_eq_iff.mp read with ⟨_, read⟩ | ⟨_, read⟩
  · obtain ⟨⟨regex, more'⟩, inner, whole⟩ := Library.Outcome.map_ok.mp read
    cases whole
    intro t member
    rcases List.mem_cons.mp member with rfl | member
    · exact trivial
    · exact single (regexLiteral_lexed inner) t member
  rcases ite_eq_iff.mp read with ⟨_, read⟩ | ⟨_, read⟩
  · cases read
    exact single trivial
  rcases ite_eq_iff.mp read with ⟨_, read⟩ | ⟨_, read⟩
  · cases read
    exact single trivial
  rcases ite_eq_iff.mp read with ⟨_, read⟩ | ⟨_, read⟩
  · cases read
    exact single trivial
  rcases ite_eq_iff.mp read with ⟨mark, read⟩ | ⟨_, read⟩
  · obtain ⟨⟨text, more'⟩, inner, whole⟩ := Library.Outcome.map_ok.mp read
    cases whole
    apply single
    have absent := quotedString_absent inner
    show '\'' ∉ (String.ofList text).toList ∨ '"' ∉ (String.ofList text).toList
    rw [String.toList_ofList]
    rcases mark with rfl | rfl
    · exact .inl absent
    · exact .inr absent
  rcases ite_eq_iff.mp read with ⟨word, read⟩ | ⟨_, read⟩
  · rcases ite_eq_iff.mp read with ⟨_, read⟩ | ⟨plain, read⟩
    · cases read
      exact single trivial
    rcases ite_eq_iff.mp read with ⟨_, read⟩ | ⟨_, read⟩
    · cases read
      exact single trivial
    · cases read
      refine single ⟨?_, ?_, plain⟩
      · exact fun empty => List.cons_ne_nil _ _ (String.ofList_eq_empty_iff.mp empty)
      · intro d member
        rw [String.toList_ofList] at member
        rcases List.mem_cons.mp member with rfl | member
        · exact word
        · exact List.all_eq_true.mp List.all_takeWhile d member
  · cases read

theorem tokens_lexed {src : String} (read : tokens u src = .ok toks) : ∀ t ∈ toks, Lexed u t := by
  obtain ⟨lexemes, scanned, rfl⟩ := Library.Outcome.map_ok.mp read
  have all : ∀ place (text : List Char) lexemes, scan (lexeme u) place 0 text = .ok lexemes → ∀ t ∈ lexemes.flatten, Lexed u t := by
    intro place text
    induction place, text using scan_induction with
    | nil place =>
      intro lexemes scanned
      cases scanned
      exact fun t member => absurd member List.not_mem_nil
    | cons place c rest ih =>
      intro lexemes scanned
      obtain ⟨first, more, later, head, tail, rfl⟩ := scan_cons_ok.mp scanned
      intro t member
      rcases List.mem_append.mp member with here | after
      · exact lexeme_lexed head t here
      · exact ih more later tail t after
  exact all 0 src.toList lexemes scanned

/-- What a rule goes on from can be written. -/
def LeftWritable (u : Unicode) (regexes : Regexes) : Nonterminal → Prop
  | .or => True
  | .orRest left => Writable u regexes left
  | .and => True
  | .andRest left => Writable u regexes left
  | .unary => True
  | .primary => True

theorem name_of_lexed {key : String} (plain : key ≠ "true" ∧ key ≠ "false") (lexed : Lexed u (.word key)) : Name u key :=
  ⟨lexed.1, lexed.2.1, plain.1, plain.2, lexed.2.2⟩

theorem quotable_of_lexed {value : Token} {literal : Literal} (is : valueOf value = some literal) (lexed : Lexed u value) :
    Quotable literal := by
  unfold valueOf at is
  split at is
  · cases is
    exact trivial
  · cases is
    exact trivial
  · rename_i w _ _
    cases is
    left
    intro inside
    have word := lexed.2.1 _ inside
    rw [special_apart (by decide)] at word
    cases word
  · cases is
    exact lexed
  · cases is

theorem derives_writable {symbol : Nonterminal} (derives : Derives regexes symbol toks e) :
    (∀ t ∈ toks, Lexed u t) → LeftWritable u regexes symbol → Writable u regexes e := by
  induction derives with
  | or head tail ihHead ihTail =>
    intro lexed _
    apply ihTail fun t member => lexed t (List.mem_append_right _ member)
    exact ihHead (fun t member => lexed t (List.mem_append_left _ member)) trivial
  | orDone => exact fun _ left => left
  | orMore head tail ihHead ihTail =>
    intro lexed left
    apply ihTail fun t member => lexed t (List.mem_cons_of_mem _ (List.mem_append_right _ member))
    exact ⟨left, ihHead (fun t member => lexed t (List.mem_cons_of_mem _ (List.mem_append_left _ member))) trivial⟩
  | and head tail ihHead ihTail =>
    intro lexed _
    apply ihTail fun t member => lexed t (List.mem_append_right _ member)
    exact ihHead (fun t member => lexed t (List.mem_append_left _ member)) trivial
  | andDone => exact fun _ left => left
  | andMore head tail ihHead ihTail =>
    intro lexed left
    apply ihTail fun t member => lexed t (List.mem_cons_of_mem _ (List.mem_append_right _ member))
    exact ⟨left, ihHead (fun t member => lexed t (List.mem_cons_of_mem _ (List.mem_append_left _ member))) trivial⟩
  | not inner ih => exact fun lexed _ => ih (fun t member => lexed t (List.mem_cons_of_mem _ member)) trivial
  | primary inner ih => exact ih
  | group inner ih =>
    exact fun lexed _ => ih (fun t member => lexed t (List.mem_cons_of_mem _ (List.mem_append_left _ member))) trivial
  | true => exact fun _ _ => trivial
  | false => exact fun _ _ => trivial
  | key name => exact fun lexed _ => name_of_lexed name (lexed _ List.mem_cons_self)
  | equals name is =>
    intro lexed _
    exact ⟨name_of_lexed name (lexed _ List.mem_cons_self), quotable_of_lexed is (lexed _ (by simp))⟩
  | notEquals name is =>
    intro lexed _
    exact ⟨name_of_lexed name (lexed _ List.mem_cons_self), quotable_of_lexed is (lexed _ (by simp))⟩
  | @matched key pattern flags regex name compiles =>
    intro lexed _
    have paired : Lexed u (.regex pattern flags) := lexed _ (by simp)
    exact ⟨name_of_lexed name (lexed _ List.mem_cons_self), paired, regex, compiles⟩

theorem parsed_writable {src : String} (parsed : parse u regexes src = .ok e) : Writable u regexes e := by
  have split : parse u regexes src = (tokens u src).bind (parseTokens regexes) := rfl
  rw [split] at parsed
  cases cut : tokens u src with
  | error refusal =>
    rw [cut] at parsed
    cases parsed
  | ok toks =>
    rw [cut] at parsed
    exact derives_writable ((parseTokens_iff toks e).mp parsed) (tokens_lexed cut) trivial

/-- The parser ends on every token list and accepts it exactly where the grammar derives it, with the one tree it derives. And a
tree that a text is read as comes back from its own text. -/
theorem parser_accepts_grammar (u : Unicode) (regexes : Regexes) :
    (∀ toks : List Token, Parser.or regexes (5 * toks.length + 4) toks ≠ .error "") ∧
    (∀ toks e, parseTokens regexes toks = .ok e ↔ Derives regexes .or toks e) ∧
    (∀ toks e e', Derives regexes .or toks e → Derives regexes .or toks e' → e = e') ∧
    (∀ src, parse u regexes src = (tokens u src).bind (parseTokens regexes)) ∧
    ∀ src e, parse u regexes src = .ok e → parse u regexes (written e) = .ok e := by
  refine ⟨?_, parseTokens_iff, fun toks e e' => derives_unique, fun src => rfl, ?_⟩
  · intro toks
    have ends := @read_ends regexes (5 * toks.length + 4) .or toks
    exact ends (Nat.le_refl _)
  · intro src e parsed
    exact parse_written (parsed_writable parsed)

/-! ### A tree that no text is of -/

/-- The letters and digits of ASCII alone. -/
def asciiOnly : Unicode where
  alphabetic := Char.isAlpha
  letter := Char.isAlpha
  number := Char.isDigit
  letters := fun _ letter => letter
  ascii := fun _ _ => ⟨rfl, rfl, rfl⟩

/-- A key that is called `true` reads as the literal. -/
theorem true_key_lost :
    written (.key "true") = "true" ∧ parse asciiOnly (fun _ _ => .error "") (written (.key "true")) = .ok (.literal true) ∧
      parse asciiOnly (fun _ _ => .error "") (written (.key "true")) ≠ .ok (.key "true") := by
  have parsed : parse asciiOnly (fun _ _ => .error "") (written (.key "true")) = .ok (.literal true) := by rfl
  refine ⟨by rfl, parsed, ?_⟩
  rw [parsed]
  intro same
  cases same

end Oxplow.Proofs.WhenWriting
