import Oxplow.Library.Lexing

/-! A command's `when`, as `when.rs` reads it. Unicode's categories and the regular expressions
are parameters. -/

namespace Oxplow.When
open Library.Lexing

/-- Unicode's Alphabetic property and the letter and number categories. -/
structure Unicode where
  alphabetic : Char → Bool
  letter : Char → Bool
  number : Char → Bool
  letters : ∀ c, letter c = true → alphabetic c = true
  ascii : ∀ c, c.toNat < 0x80 → alphabetic c = c.isAlpha ∧ letter c = c.isAlpha ∧ number c = c.isDigit

/-- A pattern and flags compiled, to what matches it. -/
abbrev Regexes := String → String → Except String (String → Bool)

/-- A value a key is compared to. -/
inductive Literal where
  | bool (b : Bool)
  | str (text : String)
  deriving DecidableEq

/-- A parsed `when`; `ρ` is what it has of a regular expression. -/
inductive WhenExpr (ρ : Type) where
  | literal (b : Bool)
  | key (key : String)
  | not (expr : WhenExpr ρ)
  | and (left right : WhenExpr ρ)
  | or (left right : WhenExpr ρ)
  | equals (key : String) (value : Literal) (equal : Bool)
  | matches (key : String) (regex : ρ)

inductive Token where
  | open_ | close | not | and | or | eq | notEq | match_
  /-- VS Code's, not supported yet. -/
  | unsupported (op : String)
  /-- A key, `true` / `false`, or a bare value. -/
  | word (text : String)
  | quoted (text : String)
  | regex (pattern flags : String)
  deriving DecidableEq

def describe : Token → String
  | .open_ => "`(`"
  | .close => "`)`"
  | .not => "`!`"
  | .and => "`&&`"
  | .or => "`||`"
  | .eq => "`==`"
  | .notEq => "`!=`"
  | .match_ => "`=~`"
  | .unsupported op => "`" ++ op ++ "`"
  | .word w => "`" ++ w ++ "`"
  | .quoted s => "'" ++ s ++ "'"
  | .regex pattern flags => "/" ++ pattern ++ "/" ++ flags

/-! ## Tokens -/

section Tokens
variable (u : Unicode)

/-- `char::is_alphanumeric`. -/
def isAlphanumeric (c : Char) : Bool := u.alphabetic c || u.number c

def isWord (c : Char) : Bool := isAlphanumeric u c || ['.', '_', '-', ':', '/', '@', '#'].contains c

/-- A regular expression after its opening `/`: the pattern, and how far the closing one is. -/
def regexPattern : List Char → Except String (List Char × Nat)
  | [] => .error "unterminated regular expression"
  | c :: rest =>
    if c = '\\' then
      match rest with
      | [] => .error "unterminated regular expression"
      -- `\/` is a `/` in the pattern.
      | n :: rest => (regexPattern rest).map fun read => ((if n ≠ '/' then ['\\', n] else [n]) ++ read.1, read.2 + 2)
    else if c = '/' then .ok ([], 1)
    else (regexPattern rest).map fun read => (c :: read.1, read.2 + 1)

/-- What follows `=~`, with the number of its characters. -/
def regexLiteral (chars : List Char) : Except String (Token × Nat) :=
  let spaces := (chars.takeWhile (· == ' ')).length
  match chars.drop spaces with
  | '/' :: body => (regexPattern body).map fun read =>
    let flags := (body.drop read.2).takeWhile Char.isAlpha
    (.regex (String.ofList read.1) (String.ofList flags), spaces + 1 + read.2 + flags.length)
  | _ => .error "`=~` takes a regular expression, `/pattern/flags`"

/-- A string after its opening quote, and how far the closing one is. -/
def quotedString (quote : Char) : List Char → Except String (List Char × Nat)
  | [] => .error "unterminated string"
  | c :: rest => if c = quote then .ok ([], 1) else (quotedString quote rest).map fun read => (c :: read.1, read.2 + 1)

/-- The word starting after the spaces, if it is one. -/
def outNextWord (chars : List Char) : Option String :=
  let rest := (chars.dropWhile (· == ' ')).takeWhile (isWord u)
  if String.ofList rest = "in" then some "in" else none

/-- The tokens of what starts with `c`, and the characters it takes of what follows. -/
def lexeme (_ : Nat) (c : Char) (rest : List Char) : Except String (List Token × Nat) :=
  let next := rest.head?
  if c = ' ' ∨ c = '\t' ∨ c = '\n' then .ok ([], 0)
  else if c = '(' then .ok ([.open_], 0)
  else if c = ')' then .ok ([.close], 0)
  else if c = '&' ∧ next = some '&' then .ok ([.and], 1)
  else if c = '|' ∧ next = some '|' then .ok ([.or], 1)
  -- VS Code takes `===` too.
  else if c = '=' ∧ next = some '=' then .ok ([.eq], if rest[1]? = some '=' then 2 else 1)
  else if c = '=' ∧ next = some '~' then (regexLiteral (rest.drop 1)).map fun read => ([.match_, read.1], 1 + read.2)
  else if c = '!' ∧ next = some '=' then .ok ([.notEq], if rest[1]? = some '=' then 2 else 1)
  else if c = '!' then .ok ([.not], 0)
  else if c = '<' ∨ c = '>' then
    let op :=
      if c = '<' ∧ next = some '=' then "<="
      else if c = '>' ∧ next = some '=' then ">="
      else if c = '<' then "<" else ">"
    .ok ([.unsupported op], op.length - 1)
  else if c = '\'' ∨ c = '"' then (quotedString c rest).map fun read => ([.quoted (String.ofList read.1)], read.2)
  else if isWord u c then
    let tail := rest.takeWhile (isWord u)
    let word := String.ofList (c :: tail)
    if word = "in" then .ok ([.unsupported "in"], tail.length)
    else if word = "not" ∧ outNextWord u (rest.drop tail.length) = some "in" then
      -- `not in`: skip to past `in`.
      .ok ([.unsupported "not in"], tail.length + ((rest.drop tail.length).takeWhile (· == ' ')).length + 2)
    else .ok ([.word word], tail.length)
  else .error ("unexpected `" ++ String.singleton c ++ "`")

def tokens (src : String) : Except String (List Token) := (scan (lexeme u) 0 0 src.toList).map List.flatten

end Tokens

/-! ## The parser -/

/-- `pattern` with `flags` (`i`, `m`, `s`) as a regular expression. -/
def compile (regexes : Regexes) (pattern flags : String) : Except String (String → Bool) :=
  match flags.toList.find? fun f => !(f == 'i' || f == 'm' || f == 's') with
  | some f => .error ("regular expression flag `" ++ String.singleton f ++ "` isn't one of `i`, `m`, `s`")
  | none =>
    match regexes pattern flags with
    | .ok regex => .ok regex
    | .error e => .error ("not a regular expression: " ++ e)

/-- An expression of the daemon's, which keeps a regular expression as it is written. -/
abbrev Expr := WhenExpr (String × String)

/-- What a parser function reads, and the tokens it leaves. -/
abbrev Parse := Except String (Expr × List Token)

namespace Parser
variable (regexes : Regexes)

def comparison (key : String) (toks : List Token) : Parse :=
  let value (equal : Bool) : List Token → Parse
    | .word "true" :: rest => .ok (.equals key (.bool true) equal, rest)
    | .word "false" :: rest => .ok (.equals key (.bool false) equal, rest)
    | .word w :: rest => .ok (.equals key (.str w) equal, rest)
    | .quoted w :: rest => .ok (.equals key (.str w) equal, rest)
    | t :: _ => .error ("expected a value, found " ++ describe t)
    | [] => .error "expected a value"
  match toks with
  | .eq :: rest => value true rest
  | .notEq :: rest => value false rest
  | .match_ :: .regex pattern flags :: rest => (compile regexes pattern flags).map fun _ => (.matches key (pattern, flags), rest)
  | .match_ :: _ => .error "`=~` takes a regular expression, `/pattern/flags`"
  | .unsupported op :: _ => .error ("`" ++ op ++ "` is not supported yet: no context key holds a number or a list")
  | rest => .ok (.key key, rest)

mutual

/-- Each call has one less to go on; `parse` starts with enough for any tokens. -/
def or : Nat → List Token → Parse
  | 0, _ => .error ""
  | fuel + 1, toks => (and fuel toks).bind fun read => orMore fuel read.1 read.2

/-- The loop of `or`. -/
def orMore : Nat → Expr → List Token → Parse
  | fuel + 1, left, .or :: toks => (and fuel toks).bind fun read => orMore fuel (.or left read.1) read.2
  | 0, _, .or :: _ => .error ""
  | _, left, toks => .ok (left, toks)

def and : Nat → List Token → Parse
  | 0, _ => .error ""
  | fuel + 1, toks => (unary fuel toks).bind fun read => andMore fuel read.1 read.2

/-- The loop of `and`. -/
def andMore : Nat → Expr → List Token → Parse
  | fuel + 1, left, .and :: toks => (unary fuel toks).bind fun read => andMore fuel (.and left read.1) read.2
  | 0, _, .and :: _ => .error ""
  | _, left, toks => .ok (left, toks)

def unary : Nat → List Token → Parse
  | 0, _ => .error ""
  | fuel + 1, .not :: toks => (unary fuel toks).map fun read => (.not read.1, read.2)
  | fuel + 1, toks => primary fuel toks

def primary : Nat → List Token → Parse
  | 0, _ => .error ""
  | fuel + 1, .open_ :: toks => (or fuel toks).bind fun read =>
    match read.2 with
    | .close :: rest => .ok (read.1, rest)
    | t :: _ => .error ("expected `)`, found " ++ describe t)
    | [] => .error "expected `)`"
  | _, .word "true" :: rest => .ok (.literal true, rest)
  | _, .word "false" :: rest => .ok (.literal false, rest)
  | _, .word key :: rest => comparison regexes key rest
  | _, t :: _ => .error ("expected a context key, found " ++ describe t)
  | _, [] => .error "expected a context key"

end

end Parser

/-- `src` as a `when`: its syntax, not yet its keys. -/
def parse (u : Unicode) (regexes : Regexes) (src : String) : Except String Expr :=
  (tokens u src).bind fun toks => (Parser.or regexes (5 * toks.length + 4) toks).bind fun read =>
    match read.2 with
    | [] => .ok read.1
    | t :: _ => .error ("unexpected " ++ describe t)

end Oxplow.When
