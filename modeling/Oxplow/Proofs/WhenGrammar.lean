import Oxplow.Commands.When
import Oxplow.Library.Transaction

/-! The parser of a `when` accepts exactly what its grammar derives, with the one tree that it derives. -/

namespace Oxplow.Proofs.WhenGrammar
open When

/-! ## The grammar -/

/-- What a rule derives. What is left of a chain of `||` or `&&` has the tree of what is before it. -/
inductive Nonterminal where
  | or
  | orRest (left : Expr)
  | and
  | andRest (left : Expr)
  | unary
  | primary

def valueOf : Token → Option Literal
  | .word "true" => some (.bool true)
  | .word "false" => some (.bool false)
  | .word w => some (.str w)
  | .quoted w => some (.str w)
  | _ => none

variable (regexes : Regexes)

/-- `or ::= and ('||' and)*`, `and ::= unary ('&&' unary)*`, `unary ::= '!' unary | primary`, and
`primary ::= '(' or ')' | true | false | key | key ('=='|'!=') value | key '=~' regex`. -/
inductive Derives : Nonterminal → List Token → Expr → Prop
  | or {toks rest : List Token} {first e : Expr} (head : Derives .and toks first) (tail : Derives (.orRest first) rest e) :
      Derives .or (toks ++ rest) e
  | orDone {left : Expr} : Derives (.orRest left) [] left
  | orMore {left right e : Expr} {toks rest : List Token} (head : Derives .and toks right)
      (tail : Derives (.orRest (.or left right)) rest e) : Derives (.orRest left) (.or :: (toks ++ rest)) e
  | and {toks rest : List Token} {first e : Expr} (head : Derives .unary toks first) (tail : Derives (.andRest first) rest e) :
      Derives .and (toks ++ rest) e
  | andDone {left : Expr} : Derives (.andRest left) [] left
  | andMore {left right e : Expr} {toks rest : List Token} (head : Derives .unary toks right)
      (tail : Derives (.andRest (.and left right)) rest e) : Derives (.andRest left) (.and :: (toks ++ rest)) e
  | not {toks : List Token} {e : Expr} (inner : Derives .unary toks e) : Derives .unary (.not :: toks) (.not e)
  | primary {toks : List Token} {e : Expr} (inner : Derives .primary toks e) : Derives .unary toks e
  | group {toks : List Token} {e : Expr} (inner : Derives .or toks e) : Derives .primary (.open_ :: (toks ++ [.close])) e
  | true : Derives .primary [.word "true"] (.literal true)
  | false : Derives .primary [.word "false"] (.literal false)
  | key {key : String} (name : key ≠ "true" ∧ key ≠ "false") : Derives .primary [.word key] (.key key)
  | equals {key : String} {value : Token} {literal : Literal} (name : key ≠ "true" ∧ key ≠ "false")
      (is : valueOf value = some literal) : Derives .primary [.word key, .eq, value] (.equals key literal true)
  | notEquals {key : String} {value : Token} {literal : Literal} (name : key ≠ "true" ∧ key ≠ "false")
      (is : valueOf value = some literal) : Derives .primary [.word key, .notEq, value] (.equals key literal false)
  | matched {key pattern flags : String} {regex : String → Bool} (name : key ≠ "true" ∧ key ≠ "false")
      (compiles : compile regexes pattern flags = .ok regex) :
      Derives .primary [.word key, .match_, .regex pattern flags] (.matches key (pattern, flags))

/-- The function of the parser that reads a rule. -/
def reads : Nonterminal → Nat → List Token → Parse
  | .or => Parser.or regexes
  | .orRest left => fun fuel => Parser.orMore regexes fuel left
  | .and => Parser.and regexes
  | .andRest left => fun fuel => Parser.andMore regexes fuel left
  | .unary => Parser.unary regexes
  | .primary => Parser.primary regexes

/-- What can stand after what a rule derives. -/
def Follows : Nonterminal → List Token → Prop
  | .or, rest => ∀ t ∈ rest.head?, t = .close
  | .orRest _, rest => ∀ t ∈ rest.head?, t = .close
  | .and, rest => ∀ t ∈ rest.head?, t = .close ∨ t = .or
  | .andRest _, rest => ∀ t ∈ rest.head?, t = .close ∨ t = .or
  | .unary, rest => ∀ t ∈ rest.head?, t = .close ∨ t = .or ∨ t = .and
  | .primary, rest => ∀ t ∈ rest.head?, t = .close ∨ t = .or ∨ t = .and

/-- Enough calls for what a rule derives from so many tokens. -/
def calls : Nonterminal → Nat → Nat
  | .or, n => 5 * n - 1
  | .orRest _, n => 5 * n
  | .and, n => 5 * n - 2
  | .andRest _, n => 5 * n
  | .unary, n => 5 * n - 3
  | .primary, n => 5 * n - 4

/-! ## What the grammar derives is read -/

variable {regexes}

def least : Nonterminal → Nat
  | .or => 1
  | .orRest _ => 0
  | .and => 1
  | .andRest _ => 0
  | .unary => 1
  | .primary => 1

/-- All but the rest of a chain derive some token. -/
theorem least_le {symbol : Nonterminal} {toks : List Token} {e : Expr} (derives : Derives regexes symbol toks e) :
    least symbol ≤ toks.length := by
  induction derives with
  | or head tail ih =>
    rw [List.length_append]
    exact Nat.le_add_right_of_le ih
  | and head tail ih =>
    rw [List.length_append]
    exact Nat.le_add_right_of_le ih
  | orDone => exact Nat.zero_le _
  | orMore => exact Nat.zero_le _
  | andDone => exact Nat.zero_le _
  | andMore => exact Nat.zero_le _
  | primary inner ih => exact ih
  | _ => exact Nat.succ_le_succ (Nat.zero_le _)

theorem orRest_starts {left e : Expr} {toks : List Token} (derives : Derives regexes (.orRest left) toks e) :
    ∀ t ∈ toks.head?, t = .or := by
  cases derives with
  | orDone => exact fun t there => nomatch there
  | orMore => exact fun t there => (Option.some.inj there).symm

theorem andRest_starts {left e : Expr} {toks : List Token} (derives : Derives regexes (.andRest left) toks e) :
    ∀ t ∈ toks.head?, t = .and := by
  cases derives with
  | andDone => exact fun t there => nomatch there
  | andMore => exact fun t there => (Option.some.inj there).symm

theorem head_append {first second : List Token} {t : Token} (there : t ∈ (first ++ second).head?) :
    t ∈ first.head? ∨ t ∈ second.head? := by
  cases first with
  | nil => exact .inr there
  | cons => exact .inl there

theorem orMore_stops (fuel : Nat) (left : Expr) {toks : List Token} (stops : ∀ t ∈ toks.head?, t ≠ .or) :
    Parser.orMore regexes fuel left toks = .ok (left, toks) := by
  cases toks with
  | nil => rw [Parser.orMore] <;> simp
  | cons t toks =>
    have differ : t ≠ .or := stops t rfl
    rw [Parser.orMore] <;> simp [differ]

theorem andMore_stops (fuel : Nat) (left : Expr) {toks : List Token} (stops : ∀ t ∈ toks.head?, t ≠ .and) :
    Parser.andMore regexes fuel left toks = .ok (left, toks) := by
  cases toks with
  | nil => rw [Parser.andMore] <;> simp
  | cons t toks =>
    have differ : t ≠ .and := stops t rfl
    rw [Parser.andMore] <;> simp [differ]

/-- A key with no comparison after it. -/
theorem comparison_key (key : String) {toks : List Token} (follows : ∀ t ∈ toks.head?, t = .close ∨ t = .or ∨ t = .and) :
    Parser.comparison regexes key toks = .ok (.key key, toks) := by
  cases toks with
  | nil => rfl
  | cons t toks =>
    rcases follows t rfl with rfl | rfl | rfl
    · rfl
    · rfl
    · rfl

theorem primary_key (fuel : Nat) {key : String} (name : key ≠ "true" ∧ key ≠ "false") (toks : List Token) :
    Parser.primary regexes (fuel + 1) (.word key :: toks) = Parser.comparison regexes key toks := by
  rw [Parser.primary] <;> simp [name]

theorem comparison_value (key : String) (equal : Bool) (value : Token) (rest : List Token) :
    Parser.comparison regexes key ((if equal then .eq else .notEq) :: value :: rest) =
      (valueOf value).elim (.error ("expected a value, found " ++ describe value)) fun literal =>
        .ok (.equals key literal equal, rest) := by
  cases value with
  | word w =>
    by_cases isTrue : w = "true"
    · subst isTrue
      cases equal <;> rfl
    · by_cases isFalse : w = "false"
      · subst isFalse
        cases equal <;> rfl
      · have is : valueOf (.word w) = some (.str w) := by
          unfold valueOf
          split <;> simp_all
        rw [is]
        cases equal <;> simp [Parser.comparison]
  | _ => cases equal <;> rfl

theorem primary_starts {toks : List Token} {e : Expr} (derives : Derives regexes .primary toks e) :
    ∃ t more, toks = t :: more ∧ t ≠ .not := by
  cases derives with
  | group => exact ⟨_, _, rfl, Token.noConfusion⟩
  | _ => exact ⟨_, _, rfl, Token.noConfusion⟩

theorem derives_read {symbol : Nonterminal} {toks : List Token} {e : Expr} (derives : Derives regexes symbol toks e) :
    ∀ (fuel : Nat) (rest : List Token), calls symbol toks.length ≤ fuel → Follows symbol rest →
      reads regexes symbol fuel (toks ++ rest) = .ok (e, rest) := by
  induction derives with
  | @or toks more first e head tail ihHead ihTail =>
    intro fuel rest enough follows
    have some' : 1 ≤ toks.length := least_le head
    rw [List.length_append, calls] at enough
    obtain ⟨fuel, rfl⟩ : ∃ f, fuel = f + 1 := ⟨fuel - 1, by omega⟩
    have first := ihHead fuel (more ++ rest) (by rw [calls]; omega) (by
      intro t there
      rcases head_append there with there | there
      · exact .inr (orRest_starts tail t there)
      · exact .inl (follows t there))
    have second := ihTail fuel rest (by rw [calls]; omega) follows
    dsimp only [reads] at first second ⊢
    rw [List.append_assoc, Parser.or, first]
    exact second
  | orDone =>
    intro fuel rest _ follows
    apply orMore_stops
    intro t there
    rw [follows t there]
    exact Token.noConfusion
  | @orMore left right e toks more head tail ihHead ihTail =>
    intro fuel rest enough follows
    have some' : 1 ≤ toks.length := least_le head
    rw [List.length_cons, List.length_append, calls] at enough
    obtain ⟨fuel, rfl⟩ : ∃ f, fuel = f + 1 := ⟨fuel - 1, by omega⟩
    have first := ihHead fuel (more ++ rest) (by rw [calls]; omega) (by
      intro t there
      rcases head_append there with there | there
      · exact .inr (orRest_starts tail t there)
      · exact .inl (follows t there))
    have second := ihTail fuel rest (by rw [calls]; omega) follows
    dsimp only [reads] at first second ⊢
    rw [List.cons_append, List.append_assoc, Parser.orMore, first]
    exact second
  | @and toks more first e head tail ihHead ihTail =>
    intro fuel rest enough follows
    have some' : 1 ≤ toks.length := least_le head
    rw [List.length_append, calls] at enough
    obtain ⟨fuel, rfl⟩ : ∃ f, fuel = f + 1 := ⟨fuel - 1, by omega⟩
    have first := ihHead fuel (more ++ rest) (by rw [calls]; omega) (by
      intro t there
      rcases head_append there with there | there
      · exact .inr (.inr (andRest_starts tail t there))
      · exact (follows t there).imp_right .inl)
    have second := ihTail fuel rest (by rw [calls]; omega) follows
    dsimp only [reads] at first second ⊢
    rw [List.append_assoc, Parser.and, first]
    exact second
  | andDone =>
    intro fuel rest _ follows
    apply andMore_stops
    intro t there
    rcases follows t there with rfl | rfl
    · exact Token.noConfusion
    · exact Token.noConfusion
  | @andMore left right e toks more head tail ihHead ihTail =>
    intro fuel rest enough follows
    have some' : 1 ≤ toks.length := least_le head
    rw [List.length_cons, List.length_append, calls] at enough
    obtain ⟨fuel, rfl⟩ : ∃ f, fuel = f + 1 := ⟨fuel - 1, by omega⟩
    have first := ihHead fuel (more ++ rest) (by rw [calls]; omega) (by
      intro t there
      rcases head_append there with there | there
      · exact .inr (.inr (andRest_starts tail t there))
      · exact (follows t there).imp_right .inl)
    have second := ihTail fuel rest (by rw [calls]; omega) follows
    dsimp only [reads] at first second ⊢
    rw [List.cons_append, List.append_assoc, Parser.andMore, first]
    exact second
  | @not toks e inner ih =>
    intro fuel rest enough follows
    have some' : 1 ≤ toks.length := least_le inner
    rw [List.length_cons, calls] at enough
    obtain ⟨fuel, rfl⟩ : ∃ f, fuel = f + 1 := ⟨fuel - 1, by omega⟩
    have read := ih fuel rest (by rw [calls]; omega) follows
    dsimp only [reads] at read ⊢
    rw [List.cons_append, Parser.unary, read]
    rfl
  | @primary toks e inner ih =>
    intro fuel rest enough follows
    have some' : 1 ≤ toks.length := least_le inner
    rw [calls] at enough
    obtain ⟨fuel, rfl⟩ : ∃ f, fuel = f + 1 := ⟨fuel - 1, by omega⟩
    have read := ih fuel rest (by rw [calls]; omega) follows
    have plain : ∀ rest', toks ++ rest ≠ .not :: rest' := by
      obtain ⟨t, more, rfl, other⟩ := primary_starts inner
      intro rest' same
      exact other (List.cons_eq_cons.mp same).1
    dsimp only [reads] at read ⊢
    rw [Parser.unary, read]
    exact plain
  | @group toks e inner ih =>
    intro fuel rest enough follows
    rw [List.length_cons, List.length_append, calls] at enough
    obtain ⟨fuel, rfl⟩ : ∃ f, fuel = f + 1 := ⟨fuel - 1, by omega⟩
    have read := ih fuel (.close :: rest) (by rw [calls]; omega) (by
      intro t there
      exact (Option.some.inj there).symm)
    dsimp only [reads] at read ⊢
    rw [List.cons_append, List.append_assoc, Parser.primary]
    show (Parser.or regexes fuel (toks ++ .close :: rest)).bind _ = _
    rw [read]
    rfl
  | true =>
    intro fuel rest enough _
    obtain ⟨fuel, rfl⟩ : ∃ f, fuel = f + 1 := ⟨fuel - 1, by rw [calls, List.length_singleton] at enough; omega⟩
    rfl
  | false =>
    intro fuel rest enough _
    obtain ⟨fuel, rfl⟩ : ∃ f, fuel = f + 1 := ⟨fuel - 1, by rw [calls, List.length_singleton] at enough; omega⟩
    rfl
  | key name =>
    intro fuel rest enough follows
    obtain ⟨fuel, rfl⟩ : ∃ f, fuel = f + 1 := ⟨fuel - 1, by rw [calls, List.length_singleton] at enough; omega⟩
    exact (primary_key fuel name rest).trans (comparison_key _ follows)
  | @equals key value literal name is =>
    intro fuel rest enough _
    rw [List.length_cons, List.length_cons, calls] at enough
    obtain ⟨fuel, rfl⟩ : ∃ f, fuel = f + 1 := ⟨fuel - 1, by omega⟩
    apply (primary_key fuel name _).trans
    have compared := @comparison_value regexes key true value rest
    rw [is] at compared
    exact compared
  | @notEquals key value literal name is =>
    intro fuel rest enough _
    rw [List.length_cons, List.length_cons, calls] at enough
    obtain ⟨fuel, rfl⟩ : ∃ f, fuel = f + 1 := ⟨fuel - 1, by omega⟩
    apply (primary_key fuel name _).trans
    have compared := @comparison_value regexes key false value rest
    rw [is] at compared
    exact compared
  | @matched key pattern flags regex name compiles =>
    intro fuel rest enough _
    rw [List.length_cons, List.length_cons, calls] at enough
    obtain ⟨fuel, rfl⟩ : ∃ f, fuel = f + 1 := ⟨fuel - 1, by omega⟩
    apply (primary_key fuel name _).trans
    show (compile regexes pattern flags).map _ = _
    rw [compiles]
    rfl

/-! ## What is read the grammar derives -/

theorem bind_eq_ok {first : Parse} {next : Expr × List Token → Parse} {result : Expr × List Token}
    (read : first.bind next = .ok result) : ∃ value, first = .ok value ∧ next value = .ok result := by
  cases first with
  | error e => cases read
  | ok value => exact ⟨value, rfl, read⟩

theorem comparison_sound {key : String} (name : key ≠ "true" ∧ key ≠ "false") {toks rest : List Token} {e : Expr}
    (read : Parser.comparison regexes key toks = .ok (e, rest)) :
    ∃ used, toks = used ++ rest ∧ Derives regexes .primary (.word key :: used) e := by
  have compared : ∀ (equal : Bool) (more : List Token), toks = (if equal then .eq else .notEq) :: more →
      ∃ used, toks = used ++ rest ∧ Derives regexes .primary (.word key :: used) e := by
    rintro equal more rfl
    cases more with
    | nil => cases equal <;> cases read
    | cons value more =>
      rw [comparison_value] at read
      cases is : valueOf value with
      | none =>
        rw [is] at read
        cases read
      | some literal =>
        rw [is] at read
        cases read
        cases equal with
        | true => exact ⟨[.eq, value], rfl, .equals name is⟩
        | false => exact ⟨[.notEq, value], rfl, .notEquals name is⟩
  have alone : Parser.comparison regexes key toks = .ok (.key key, toks) →
      ∃ used, toks = used ++ rest ∧ Derives regexes .primary (.word key :: used) e := by
    intro plain
    rw [plain] at read
    cases read
    exact ⟨[], rfl, .key name⟩
  cases toks with
  | nil => exact alone rfl
  | cons t more =>
    cases t with
    | eq => exact compared true more rfl
    | notEq => exact compared false more rfl
    | match_ =>
      cases more with
      | nil => cases read
      | cons t more =>
        cases t with
        | regex pattern flags =>
          change (compile regexes pattern flags).map _ = _ at read
          cases compiles : compile regexes pattern flags with
          | error e =>
            rw [compiles] at read
            cases read
          | ok regex =>
            rw [compiles] at read
            cases read
            exact ⟨[.match_, .regex pattern flags], rfl, .matched name compiles⟩
        | _ => cases read
    | unsupported op => cases read
    | _ => exact alone rfl

theorem head_cases (t : Token) (toks : List Token) : (∃ more, toks = t :: more) ∨ ∀ u ∈ toks.head?, u ≠ t := by
  cases toks with
  | nil => exact .inr fun u there => nomatch there
  | cons u more =>
    by_cases same : u = t
    · exact .inl ⟨more, by rw [same]⟩
    · refine .inr fun v there => ?_
      rw [← Option.some.inj there]
      exact same

/-- A rest that does not go on derives nothing. -/
theorem orMore_sound {fuel : Nat} {left e : Expr} {toks rest : List Token} (stops : ∀ t ∈ toks.head?, t ≠ .or)
    (read : Parser.orMore regexes fuel left toks = .ok (e, rest)) :
    ∃ used, toks = used ++ rest ∧ Derives regexes (.orRest left) used e := by
  rw [orMore_stops fuel left stops] at read
  cases read
  exact ⟨[], rfl, .orDone⟩

theorem andMore_sound {fuel : Nat} {left e : Expr} {toks rest : List Token} (stops : ∀ t ∈ toks.head?, t ≠ .and)
    (read : Parser.andMore regexes fuel left toks = .ok (e, rest)) :
    ∃ used, toks = used ++ rest ∧ Derives regexes (.andRest left) used e := by
  rw [andMore_stops fuel left stops] at read
  cases read
  exact ⟨[], rfl, .andDone⟩

theorem unary_primary (fuel : Nat) {toks : List Token} (plain : ∀ t ∈ toks.head?, t ≠ .not) :
    Parser.unary regexes (fuel + 1) toks = Parser.primary regexes fuel toks := by
  rw [Parser.unary]
  rintro rest rfl
  exact plain .not rfl rfl

/-- What a group reads after what is in it. -/
def closing (read : Expr × List Token) : Parse :=
  match read.2 with
  | .close :: rest => .ok (read.1, rest)
  | t :: _ => .error ("expected `)`, found " ++ describe t)
  | [] => .error "expected `)`"

theorem primary_group (fuel : Nat) (toks : List Token) :
    Parser.primary regexes (fuel + 1) (.open_ :: toks) = (Parser.or regexes fuel toks).bind closing := rfl

theorem closing_sound {inner e : Expr} {toks rest : List Token} (read : closing (inner, toks) = .ok (e, rest)) :
    inner = e ∧ toks = .close :: rest := by
  cases toks with
  | nil => cases read
  | cons t toks =>
    cases t with
    | close =>
      cases read
      exact ⟨rfl, rfl⟩
    | _ => cases read

theorem read_sound (fuel : Nat) : ∀ (symbol : Nonterminal) (toks rest : List Token) (e : Expr),
    reads regexes symbol fuel toks = .ok (e, rest) → ∃ used, toks = used ++ rest ∧ Derives regexes symbol used e := by
  induction fuel with
  | zero =>
    intro symbol toks rest e read
    cases symbol with
    | orRest left =>
      rcases head_cases .or toks with ⟨more, rfl⟩ | stops
      · cases read
      · exact orMore_sound stops read
    | andRest left =>
      rcases head_cases .and toks with ⟨more, rfl⟩ | stops
      · cases read
      · exact andMore_sound stops read
    | _ => cases read
  | succ fuel ih =>
    intro symbol toks rest e read
    cases symbol with
    | or =>
      dsimp only [reads] at read
      rw [Parser.or] at read
      obtain ⟨⟨first, middle⟩, head, tail⟩ := bind_eq_ok read
      obtain ⟨used, rfl, derives⟩ := ih .and toks middle first head
      obtain ⟨more, rfl, derives'⟩ := ih (.orRest first) middle rest e tail
      exact ⟨used ++ more, (List.append_assoc _ _ _).symm, .or derives derives'⟩
    | orRest left =>
      rcases head_cases .or toks with ⟨toks, rfl⟩ | stops
      · dsimp only [reads] at read
        rw [Parser.orMore] at read
        obtain ⟨⟨right, middle⟩, head, tail⟩ := bind_eq_ok read
        obtain ⟨used, rfl, derives⟩ := ih .and toks middle right head
        obtain ⟨more, rfl, derives'⟩ := ih (.orRest (.or left right)) middle rest e tail
        exact ⟨.or :: (used ++ more), by rw [List.cons_append, List.append_assoc], .orMore derives derives'⟩
      · exact orMore_sound stops read
    | and =>
      dsimp only [reads] at read
      rw [Parser.and] at read
      obtain ⟨⟨first, middle⟩, head, tail⟩ := bind_eq_ok read
      obtain ⟨used, rfl, derives⟩ := ih .unary toks middle first head
      obtain ⟨more, rfl, derives'⟩ := ih (.andRest first) middle rest e tail
      exact ⟨used ++ more, (List.append_assoc _ _ _).symm, .and derives derives'⟩
    | andRest left =>
      rcases head_cases .and toks with ⟨toks, rfl⟩ | stops
      · dsimp only [reads] at read
        rw [Parser.andMore] at read
        obtain ⟨⟨right, middle⟩, head, tail⟩ := bind_eq_ok read
        obtain ⟨used, rfl, derives⟩ := ih .unary toks middle right head
        obtain ⟨more, rfl, derives'⟩ := ih (.andRest (.and left right)) middle rest e tail
        exact ⟨.and :: (used ++ more), by rw [List.cons_append, List.append_assoc], .andMore derives derives'⟩
      · exact andMore_sound stops read
    | unary =>
      dsimp only [reads] at read
      rcases head_cases .not toks with ⟨toks, rfl⟩ | plain
      · rw [Parser.unary] at read
        obtain ⟨⟨inner, middle⟩, first, same⟩ := Library.Outcome.map_ok.mp read
        cases same
        obtain ⟨used, rfl, derives⟩ := ih .unary toks middle inner first
        exact ⟨.not :: used, rfl, .not derives⟩
      · rw [unary_primary fuel plain] at read
        obtain ⟨used, rfl, derives⟩ := ih .primary toks rest e read
        exact ⟨used, rfl, .primary derives⟩
    | primary =>
      dsimp only [reads] at read
      cases toks with
      | nil => cases read
      | cons t toks =>
        cases t with
        | open_ =>
          rw [primary_group] at read
          obtain ⟨⟨inner, middle⟩, first, closed⟩ := bind_eq_ok read
          obtain ⟨rfl, rfl⟩ := closing_sound closed
          obtain ⟨used, rfl, derives⟩ := ih .or toks (.close :: rest) inner first
          exact ⟨.open_ :: (used ++ [.close]), by simp, .group derives⟩
        | word w =>
          by_cases isTrue : w = "true"
          · subst isTrue
            cases read
            exact ⟨[.word "true"], rfl, .true⟩
          · by_cases isFalse : w = "false"
            · subst isFalse
              cases read
              exact ⟨[.word "false"], rfl, .false⟩
            · rw [primary_key fuel ⟨isTrue, isFalse⟩] at read
              obtain ⟨used, rfl, derives⟩ := comparison_sound ⟨isTrue, isFalse⟩ read
              exact ⟨.word w :: used, rfl, derives⟩
        | _ => cases read

/-! ## The parser ends -/

/-- Calls with which no reading of so many tokens runs out. -/
def limit : Nonterminal → Nat → Nat
  | .or, n => 5 * n + 4
  | .orRest _, n => 5 * n + 1
  | .and, n => 5 * n + 3
  | .andRest _, n => 5 * n + 1
  | .unary, n => 5 * n + 2
  | .primary, n => 5 * n + 1

theorem append_ne_empty (text : String) {first : String} (some' : first ≠ "") : first ++ text ≠ "" := by
  intro empty
  exact some' (String.append_eq_empty_iff.mp empty).1

theorem compile_error {pattern flags error : String} (failed : compile regexes pattern flags = .error error) : error ≠ "" := by
  unfold compile at failed
  split at failed
  · rw [← Except.error.inj failed, String.append_assoc]
    exact append_ne_empty _ (by decide)
  · split at failed
    · cases failed
    · rw [← Except.error.inj failed]
      exact append_ne_empty _ (by decide)

theorem comparison_error {key : String} {toks : List Token} : Parser.comparison regexes key toks ≠ .error "" := by
  have compared : ∀ (equal : Bool) (more : List Token), toks = (if equal then .eq else .notEq) :: more →
      Parser.comparison regexes key toks ≠ .error "" := by
    rintro equal more rfl failed
    cases more with
    | nil =>
      cases equal with
      | true => exact absurd (Except.error.inj failed) (by decide)
      | false => exact absurd (Except.error.inj failed) (by decide)
    | cons value more =>
      rw [comparison_value] at failed
      cases is : valueOf value with
      | none =>
        rw [is] at failed
        exact append_ne_empty _ (by decide) (Except.error.inj failed)
      | some literal =>
        rw [is] at failed
        cases failed
  intro failed
  cases toks with
  | nil => cases failed
  | cons t more =>
    cases t with
    | eq => exact compared true more rfl failed
    | notEq => exact compared false more rfl failed
    | match_ =>
      cases more with
      | nil => exact absurd (Except.error.inj failed) (by decide)
      | cons t more =>
        cases t with
        | regex pattern flags =>
          change (compile regexes pattern flags).map _ = _ at failed
          cases compiles : compile regexes pattern flags with
          | error e =>
            rw [compiles] at failed
            exact compile_error compiles (Except.error.inj failed)
          | ok regex =>
            rw [compiles] at failed
            cases failed
        | _ => exact absurd (Except.error.inj failed) (by decide)
    | unsupported op =>
      have said := Except.error.inj failed
      rw [String.append_assoc] at said
      exact append_ne_empty _ (by decide) said
    | _ => cases failed

theorem closing_error (read : Expr × List Token) : closing read ≠ .error "" := by
  obtain ⟨e, toks⟩ := read
  intro failed
  cases toks with
  | nil => exact absurd (Except.error.inj failed) (by decide)
  | cons t toks =>
    cases t with
    | close => cases failed
    | _ => exact append_ne_empty _ (by decide) (Except.error.inj failed)

theorem bind_ne_error {first : Parse} {next : Expr × List Token → Parse} (head : first ≠ .error "")
    (tail : ∀ e rest, first = .ok (e, rest) → next (e, rest) ≠ .error "") : first.bind next ≠ .error "" := by
  cases first with
  | error e =>
    intro failed
    exact head (congrArg Except.error (Except.error.inj failed))
  | ok value => exact tail value.1 value.2 rfl

/-- What a rule reads leaves less, by what it derives at least. -/
theorem read_shorter {fuel : Nat} {symbol : Nonterminal} {toks rest : List Token} {e : Expr}
    (read : reads regexes symbol fuel toks = .ok (e, rest)) : rest.length + least symbol ≤ toks.length := by
  obtain ⟨used, rfl, derives⟩ := read_sound fuel symbol toks rest e read
  have some' := least_le derives
  rw [List.length_append]
  omega

theorem read_ends (fuel : Nat) : ∀ (symbol : Nonterminal) (toks : List Token), limit symbol toks.length ≤ fuel →
    reads regexes symbol fuel toks ≠ .error "" := by
  induction fuel with
  | zero =>
    intro symbol toks enough
    cases symbol with
    | _ =>
      rw [limit] at enough
      omega
  | succ fuel ih =>
    intro symbol toks enough
    cases symbol with
    | or =>
      rw [limit] at enough
      dsimp only [reads]
      rw [Parser.or]
      apply bind_ne_error
      · exact ih .and toks (by rw [limit]; omega)
      · intro first rest read
        have shorter := @read_shorter regexes fuel .and toks rest first read
        rw [least] at shorter
        exact ih (.orRest first) rest (by rw [limit]; omega)
    | orRest left =>
      rw [limit] at enough
      dsimp only [reads]
      rcases head_cases .or toks with ⟨toks, rfl⟩ | stops
      · rw [List.length_cons] at enough
        rw [Parser.orMore]
        apply bind_ne_error
        · exact ih .and toks (by rw [limit]; omega)
        · intro right rest read
          have shorter := @read_shorter regexes fuel .and toks rest right read
          rw [least] at shorter
          exact ih (.orRest (.or left right)) rest (by rw [limit]; omega)
      · rw [orMore_stops (fuel + 1) left stops]
        simp
    | and =>
      rw [limit] at enough
      dsimp only [reads]
      rw [Parser.and]
      apply bind_ne_error
      · exact ih .unary toks (by rw [limit]; omega)
      · intro first rest read
        have shorter := @read_shorter regexes fuel .unary toks rest first read
        rw [least] at shorter
        exact ih (.andRest first) rest (by rw [limit]; omega)
    | andRest left =>
      rw [limit] at enough
      dsimp only [reads]
      rcases head_cases .and toks with ⟨toks, rfl⟩ | stops
      · rw [List.length_cons] at enough
        rw [Parser.andMore]
        apply bind_ne_error
        · exact ih .unary toks (by rw [limit]; omega)
        · intro right rest read
          have shorter := @read_shorter regexes fuel .unary toks rest right read
          rw [least] at shorter
          exact ih (.andRest (.and left right)) rest (by rw [limit]; omega)
      · rw [andMore_stops (fuel + 1) left stops]
        simp
    | unary =>
      rw [limit] at enough
      dsimp only [reads]
      rcases head_cases .not toks with ⟨toks, rfl⟩ | plain
      · rw [List.length_cons] at enough
        rw [Parser.unary]
        have inner := ih .unary toks (by rw [limit]; omega)
        dsimp only [reads] at inner
        intro failed
        cases read : Parser.unary regexes fuel toks with
        | error e =>
          rw [read] at failed inner
          exact inner (congrArg Except.error (Except.error.inj failed))
        | ok value =>
          rw [read] at failed
          cases failed
      · rw [unary_primary fuel plain]
        exact ih .primary toks (by rw [limit]; omega)
    | primary =>
      rw [limit] at enough
      dsimp only [reads]
      intro failed
      cases toks with
      | nil => exact absurd (Except.error.inj failed) (by decide)
      | cons t toks =>
        rw [List.length_cons] at enough
        cases t with
        | open_ =>
          rw [primary_group] at failed
          revert failed
          apply bind_ne_error
          · exact ih .or toks (by rw [limit]; omega)
          · exact fun e rest _ => closing_error (e, rest)
        | word w =>
          by_cases isTrue : w = "true"
          · subst isTrue
            cases failed
          · by_cases isFalse : w = "false"
            · subst isFalse
              cases failed
            · rw [primary_key fuel ⟨isTrue, isFalse⟩] at failed
              exact comparison_error failed
        | _ => exact append_ne_empty _ (by decide) (Except.error.inj failed)

/-! ## Whole token lists -/

/-- What `parse` makes of the tokens. -/
def parseTokens (regexes : Regexes) (toks : List Token) : Except String Expr :=
  (Parser.or regexes (5 * toks.length + 4) toks).bind fun read =>
    match read.2 with
    | [] => .ok read.1
    | t :: _ => .error ("unexpected " ++ describe t)

theorem parseTokens_iff (toks : List Token) (e : Expr) : parseTokens regexes toks = .ok e ↔ Derives regexes .or toks e := by
  constructor
  · intro parsed
    unfold parseTokens at parsed
    cases read : Parser.or regexes (5 * toks.length + 4) toks with
    | error e =>
      rw [read] at parsed
      cases parsed
    | ok value =>
      obtain ⟨e', rest⟩ := value
      rw [read] at parsed
      cases rest with
      | nil =>
        cases parsed
        obtain ⟨used, split, derives⟩ := @read_sound regexes (5 * toks.length + 4) .or toks [] e' read
        rw [List.append_nil] at split
        exact split ▸ derives
      | cons t rest => cases parsed
  · intro derives
    have read := derives_read derives (5 * toks.length + 4) [] (by rw [calls]; omega) (fun t there => nomatch there)
    rw [List.append_nil] at read
    dsimp only [reads] at read
    rw [parseTokens, read]
    rfl

/-- A token list has one tree at most. -/
theorem derives_unique {toks : List Token} {e e' : Expr} (first : Derives regexes .or toks e) (second : Derives regexes .or toks e') :
    e = e' := by
  have parsed := (parseTokens_iff toks e).mpr first
  rw [(parseTokens_iff toks e').mpr second] at parsed
  exact (Except.ok.inj parsed).symm

end Oxplow.Proofs.WhenGrammar
