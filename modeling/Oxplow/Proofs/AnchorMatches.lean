import Mathlib.Data.List.MinMax
import Mathlib.Data.Prod.Lex
import Oxplow.Comments.Anchor
import Oxplow.Library.EditDistance

/-! A comment whose quote is in the text is where its context and its hint place it; one whose
quote is not is at a part of the text that is nearest to the quote in its context. -/

namespace Oxplow.Proofs.AnchorMatches
open Library.EditDistance Comments

variable {text pattern hay front rest : Text}

/-! ## The table -/

/-- A cell holds the cost and the start of the nearest of the parts that end at its column. -/
def Holds (pattern front : Text) (cell : Cell) : Prop := Nearest pattern front cell.cost cell.start

/-- The cells of a row, from the column after `front` to the end. -/
def Row (pattern front rest : Text) (row : List Cell) : Prop :=
  row.length = rest.length + 1 ∧ ∀ j cell, row[j]? = some cell → Holds pattern (front ++ rest.take j) cell

variable {x y : UInt16} {diag up left : Cell}

theorem next_holds (both : Holds pattern front diag) (above : Holds pattern (front ++ [y]) up) (before : Holds (pattern ++ [x]) front left) :
    Holds (pattern ++ [x]) (front ++ [y]) (.next (x == y) diag up left) := by
  have least := fun k => Nearest.next both above before k
  have changes : Edits (pattern ++ [x]) ((front ++ [y]).drop diag.start) (diag.cost + if x = y then 0 else 1) := by
    rw [List.drop_append_of_le_length both.inside]
    simpa using both.edits.append (.pair x y .nil)
  have deletes : Edits (pattern ++ [x]) ((front ++ [y]).drop up.start) (up.cost + 1) := by
    simpa using above.edits.append (.delete x .nil)
  have adds : Edits (pattern ++ [x]) ((front ++ [y]).drop left.start) (left.cost + 1) := by
    rw [List.drop_append_of_le_length before.inside]
    simpa using before.edits.append (.add y .nil)
  have inside : ∀ cell : Cell, cell.start ≤ front.length → cell.start ≤ (front ++ [y]).length := by
    intro cell within
    rw [List.length_append]
    omega
  simp only [Cell.next, beq_iff_eq]
  generalize (if x = y then 0 else 1 : Nat) = cost at changes least ⊢
  split
  · rename_i first
    exact ⟨inside diag both.inside, changes, least (diag.cost + cost) ⟨Nat.le_refl _, first.1, first.2⟩⟩
  · rename_i other
    split
    · exact ⟨above.inside, deletes, least (up.cost + 1) (by omega)⟩
    · exact ⟨inside left before.inside, adds, least (left.cost + 1) (by omega)⟩

theorem cells_row {above : List Cell} (before : Holds (pattern ++ [x]) front left) (row : Row pattern front rest above) :
    Row (pattern ++ [x]) front rest (left :: cells x left above rest) := by
  obtain ⟨length, holds⟩ := row
  induction rest generalizing front left above with
  | nil =>
    have ended : cells x left above [] = [] := by
      unfold cells
      split <;> trivial
    rw [ended]
    refine ⟨rfl, fun j cell found => ?_⟩
    cases j with
    | zero =>
      obtain rfl := Option.some.inj found
      simpa using before
    | succ j => cases found
  | cons y rest ih =>
    match above, length with
    | diag :: up :: above, length =>
      have both : Holds pattern front diag := by simpa using holds 0 diag rfl
      have above_ : Holds pattern (front ++ [y]) up := by simpa using holds 1 up rfl
      obtain ⟨size, later⟩ := ih (next_holds both above_ before) (Nat.succ.inj length) fun j cell found => by simpa using holds (j + 1) cell found
      refine ⟨congrArg (· + 1) size, fun j cell found => ?_⟩
      cases j with
      | zero =>
        obtain rfl := Option.some.inj found
        simpa using before
      | succ j => simpa using later j cell found

theorem lastRow_row (later : Text) {above : List Cell} (row : Row pattern [] hay above) :
    Row (pattern ++ later) [] hay (lastRow hay pattern.length above later) := by
  induction later generalizing pattern above with
  | nil => simpa [lastRow] using row
  | cons c later ih =>
    have first : Holds (pattern ++ [c]) [] ⟨pattern.length + 1, 0⟩ := by
      simpa [Holds] using nearest_empty (pattern ++ [c])
    have next := ih (cells_row first row)
    simpa [lastRow] using next

theorem firstRow_row (hay : Text) : Row [] [] hay (firstRow hay) := by
  refine ⟨by simp [firstRow], fun j cell found => ?_⟩
  obtain ⟨inside, rfl⟩ := List.getElem?_eq_some_iff.mp found
  have size : (hay.take j).length = j := List.length_take_of_le (by simpa [firstRow, Nat.lt_succ_iff] using inside)
  simpa [Holds, firstRow, size] using nearest_nil (hay.take j)

theorem nearestEnd_spec (row : List Cell) (j bestDist : Nat) (bestEnd : Option Nat) :
    (∀ cell ∈ row, (nearestEnd j bestDist bestEnd row).2 ≤ cell.cost) ∧ (nearestEnd j bestDist bestEnd row).2 ≤ bestDist ∧
      (nearestEnd j bestDist bestEnd row = (bestEnd, bestDist) ∨
        ∃ i cell, row[i]? = some cell ∧ nearestEnd j bestDist bestEnd row = (some (j + i), cell.cost) ∧ cell.cost < bestDist) := by
  induction row generalizing j bestDist bestEnd with
  | nil => exact ⟨nofun, Nat.le_refl _, .inl rfl⟩
  | cons first row ih =>
    rw [nearestEnd]
    split
    · rename_i nearer
      obtain ⟨all, low, which⟩ := ih (j + 1) first.cost (some j)
      refine ⟨List.forall_mem_cons.mpr ⟨low, all⟩, by omega, .inr ?_⟩
      rcases which with same | ⟨i, cell, found, same, less⟩
      · exact ⟨0, first, rfl, same, nearer⟩
      · exact ⟨i + 1, cell, found, by rw [same]; congr 2; omega, by omega⟩
    · rename_i further
      obtain ⟨all, low, which⟩ := ih (j + 1) bestDist bestEnd
      refine ⟨List.forall_mem_cons.mpr ⟨by omega, all⟩, low, which.imp_right ?_⟩
      intro ⟨i, cell, found, same, less⟩
      exact ⟨i + 1, cell, found, by rw [same]; congr 2; omega, less⟩

/-- A part ends in a column after the first. -/
theorem part_ends {part : Text} (within : part <:+: hay) (some_ : hay ≠ []) :
    ∃ j s, j < hay.length ∧ (hay.take (j + 1)).drop s = part := by
  obtain ⟨before, after, rfl⟩ := within
  have long : 0 < (before ++ part ++ after).length := List.length_pos_iff.mpr some_
  by_cases first : before ++ part = []
  · obtain ⟨rfl, rfl⟩ := List.append_eq_nil_iff.mp first
    exact ⟨0, 1, long, by simp⟩
  · have ends : 0 < (before ++ part).length := List.length_pos_iff.mpr first
    refine ⟨(before ++ part).length - 1, before.length, ?_, ?_⟩
    · simp only [List.length_append] at ends ⊢
      omega
    · rw [Nat.sub_add_cancel ends, List.take_left, List.drop_left]

/-- No part of the text is near enough. -/
def Far (pattern hay : Text) (maxDist : Nat) : Prop := pattern = [] ∨ hay = [] ∨ ∀ part k, part <:+: hay → Edits pattern part k → maxDist < k

/-- The match is a part of the text, at the least distance that any part has. -/
structure NearestPart (pattern hay : Text) (m : Match) : Prop where
  ordered : m.start ≤ m.stop
  inside : m.stop ≤ hay.length
  edits : Edits pattern ((hay.take m.stop).drop m.start) m.dist
  least : ∀ part k, part <:+: hay → Edits pattern part k → m.dist ≤ k

theorem fuzzySubstring_spec (pattern hay : Text) (maxDist : Nat) :
    match fuzzySubstring pattern hay maxDist with
    | none => Far pattern hay maxDist
    | some m => m.dist ≤ maxDist ∧ NearestPart pattern hay m := by
  by_cases void : pattern = [] ∨ hay = []
  · simp only [fuzzySubstring, if_pos void]
    exact void.imp_right .inl
  obtain ⟨filled, some_⟩ := not_or.mp void
  have row : Row pattern [] hay (lastRow hay 0 (firstRow hay) pattern) := by simpa using lastRow_row pattern (firstRow_row hay)
  obtain ⟨length, holds⟩ := row
  simp only [fuzzySubstring, if_neg void]
  generalize lastRow hay 0 (firstRow hay) pattern = last at length holds
  have column : ∀ j, j < hay.length → ∃ cell, last.tail[j]? = some cell ∧ Holds pattern (hay.take (j + 1)) cell := by
    intro j inside
    obtain ⟨cell, found⟩ : ∃ cell, last[j + 1]? = some cell := ⟨last[j + 1], List.getElem?_eq_getElem (by omega)⟩
    exact ⟨cell, by simpa using found, holds (j + 1) cell found⟩
  obtain ⟨all, low, which⟩ := nearestEnd_spec last.tail 1 (maxDist + 1) none
  have beats : ∀ part k, part <:+: hay → Edits pattern part k → (nearestEnd 1 (maxDist + 1) none last.tail).2 ≤ k := by
    intro part k within edits
    obtain ⟨j, s, inside, rfl⟩ := part_ends within some_
    obtain ⟨cell, found, nearest⟩ := column j inside
    exact Nat.le_trans (all cell (List.mem_of_getElem? found)) (nearest.least s k edits)
  rcases which with none_ | ⟨i, cell, found, best, near⟩
  · simp only [none_] at beats ⊢
    exact .inr (.inr beats)
  · have inside : i < hay.length := by
      have bound := (List.getElem?_eq_some_iff.mp found).1
      rw [List.length_tail] at bound
      omega
    obtain ⟨cell', found', nearest⟩ := column i inside
    obtain rfl : cell = cell' := Option.some.inj (found.symm.trans found')
    have within : ¬ maxDist < cell.cost := by omega
    have there : last[1 + i]? = some cell := by
      rw [Nat.add_comm]
      simpa using found
    simp only [best] at beats
    simp only [best, if_neg within, there, Option.map_some]
    have size : (hay.take (i + 1)).length = i + 1 := List.length_take_of_le inside
    refine ⟨by omega, ?_, by simp only; omega, ?_, beats⟩
    · have start := nearest.inside
      simp only
      omega
    · rw [Nat.add_comm 1 i]
      exact nearest.edits

/-- There is a match exactly when some part of the text is near enough, and then none is nearer. -/
theorem nearest_match (pattern hay : Text) (maxDist : Nat) : (fuzzySubstring pattern hay maxDist = none ↔ Far pattern hay maxDist) ∧
    ∀ m, fuzzySubstring pattern hay maxDist = some m → NearestPart pattern hay m := by
  have spec := fuzzySubstring_spec pattern hay maxDist
  cases found : fuzzySubstring pattern hay maxDist with
  | none =>
    rw [found] at spec
    exact ⟨⟨fun _ => spec, fun _ => rfl⟩, nofun⟩
  | some m =>
    rw [found] at spec
    obtain ⟨near, nearest⟩ := spec
    refine ⟨⟨nofun, ?_⟩, fun m' same => Option.some.inj same ▸ nearest⟩
    intro far
    rcases far with empty | empty | far
    · rw [fuzzySubstring, if_pos (.inl empty)] at found
      cases found
    · rw [fuzzySubstring, if_pos (.inr empty)] at found
      cases found
    · have within : (hay.take m.stop).drop m.start <:+: hay := (List.drop_suffix _ _).isInfix.trans (List.take_prefix _ _).isInfix
      have beyond := far _ _ within nearest.edits
      omega

/-! ## The quote -/

/-- The quote is there in the text. -/
def Occurs (text quote : Text) (off : Nat) : Prop := quote <+: text.drop off

variable {quote : Text} {off : Nat} {a : AnchorInput}

theorem indexOf_some {start idx : Nat} (found : indexOf text quote start = some idx) :
    start ≤ idx ∧ idx ≤ text.length ∧ Occurs text quote idx ∧ ∀ i, start ≤ i → i < idx → ¬ Occurs text quote i := by
  obtain ⟨here, member, none⟩ := List.find?_range'_eq_some.mp found
  have within := List.mem_range'_1.mp member
  have occurs : Occurs text quote idx := List.isPrefixOf_iff_prefix.mp here
  have low : idx ≤ text.length := by omega
  refine ⟨within.1, low, occurs, ?_⟩
  intro i after earlier occurs
  have never := none i after earlier
  rw [List.isPrefixOf_iff_prefix.mpr occurs] at never
  cases never

theorem indexOf_none {start : Nat} (absent : indexOf text quote start = none) (off : Nat) (after : start ≤ off) (inside : off ≤ text.length) :
    ¬ Occurs text quote off := by
  intro occurs
  have never := List.find?_eq_none.mp absent off (List.mem_range'_1.mpr ⟨after, by omega⟩)
  exact never (List.isPrefixOf_iff_prefix.mpr occurs)

theorem mem_offsetsFrom {fuel start : Nat} (enough : text.length < fuel + start) :
    off ∈ offsetsFrom text quote fuel start ↔ start ≤ off ∧ off ≤ text.length ∧ Occurs text quote off := by
  induction fuel generalizing start with
  | zero => simp only [offsetsFrom, List.not_mem_nil, false_iff]; omega
  | succ fuel ih =>
    rw [offsetsFrom]
    cases found : indexOf text quote start with
    | none =>
      simp only [List.not_mem_nil, false_iff]
      intro ⟨after, inside, occurs⟩
      exact indexOf_none found off after inside occurs
    | some idx =>
      obtain ⟨from_, inside, occurs, first⟩ := indexOf_some found
      rw [List.mem_cons, ih (by omega)]
      refine ⟨?_, ?_⟩
      · intro either
        rcases either with rfl | ⟨after, inside, occurs⟩
        · exact ⟨from_, inside, occurs⟩
        · exact ⟨by omega, inside, occurs⟩
      · intro ⟨after, inside, occurs⟩
        by_cases same : off = idx
        · exact .inl same
        · refine .inr ⟨?_, inside, occurs⟩
          apply Nat.lt_of_le_of_ne _ (Ne.symm same)
          apply Nat.le_of_not_lt
          exact fun earlier => first off after earlier occurs

/-- The offsets are those of the occurrences. -/
theorem mem_allOffsets (filled : quote ≠ []) : off ∈ allOffsets text quote ↔ Occurs text quote off := by
  rw [allOffsets, mem_offsetsFrom (by omega)]
  refine ⟨fun h => h.2.2, fun occurs => ⟨Nat.zero_le _, ?_, occurs⟩⟩
  apply Nat.le_of_not_lt
  intro beyond
  rw [Occurs, List.drop_eq_nil_of_le (Nat.le_of_lt beyond)] at occurs
  exact filled (List.prefix_nil.mp occurs)

def scoreAt (text : Text) (a : AnchorInput) (off : Nat) : Nat := contextScore text off a.quote.length a.before a.after

/-- An occurrence that is placed as well as another, by the context and then by the hint. -/
def AsGood (text : Text) (a : AnchorInput) (off other : Nat) : Prop :=
  scoreAt text a other < scoreAt text a off ∨ scoreAt text a other = scoreAt text a off ∧ hintDistance a off ≤ hintDistance a other

def rank (text : Text) (a : AnchorInput) (off : Nat) : Nat ×ₗ Natᵒᵈ := toLex (scoreAt text a off, OrderDual.toDual (hintDistance a off))

theorem rank_le {off other : Nat} : rank text a other ≤ rank text a off ↔ AsGood text a off other := Prod.Lex.toLex_le_toLex

theorem rank_lt {off other : Nat} : rank text a other < rank text a off ↔
    scoreAt text a other < scoreAt text a off ∨ scoreAt text a other = scoreAt text a off ∧ hintDistance a off < hintDistance a other :=
  Prod.Lex.toLex_lt_toLex

/-- The best offset is the first of the highest rank. -/
theorem pickBest_argmax (offsets : List Nat) : pickBest text offsets a = offsets.argmax (rank text a) := by
  have keeps : ∀ (best : Option Nat) (off : Nat), pickBetter text a (best.map fun o => (o, scoreAt text a o, hintDistance a o)) off =
      (List.argAux (fun b c => rank text a c < rank text a b) best off).map fun o => (o, scoreAt text a o, hintDistance a o) := by
    intro best off
    cases best with
    | none => rfl
    | some best =>
      simp only [pickBetter, List.argAux, Option.map_some, rank_lt, eq_comm (a := scoreAt text a best)]
      by_cases better : scoreAt text a best < scoreAt text a off ∨ scoreAt text a off = scoreAt text a best ∧ hintDistance a off < hintDistance a best
      · rw [if_pos better]
        exact if_pos better
      · rw [if_neg better]
        exact if_neg better
  rw [pickBest, List.argmax, ← Option.map_none (f := fun o => (o, scoreAt text a o, hintDistance a o)), List.foldl_hom _ keeps, Option.map_map]
  exact congrFun Option.map_id _

theorem occurs_inside (occurs : Occurs text quote off) : quote = [] ∨ off + quote.length ≤ text.length := by
  have short := occurs.length_le
  rw [List.length_drop] at short
  by_cases empty : quote = []
  · exact .inl empty
  · have filled : 0 < quote.length := List.length_pos_iff.mpr empty
    exact .inr (by omega)

theorem slice_length (text : Text) (start stop : Int) : (slice text start stop).length + place text start ≤ max text.length (place text start) := by
  rw [slice, List.length_drop, List.length_take]
  omega

/-- What is found nearly is inside the text. -/
theorem fuzzyResolve_inside {length : Nat} (found : fuzzyResolve text a = some (off, length)) : off + length ≤ text.length := by
  simp only [fuzzyResolve] at found
  split at found
  · cases found
  split at found
  · cases found
  obtain ⟨⟨low, high⟩, ranged, found⟩ := Option.bind_eq_some_iff.mp found
  obtain ⟨m, nearest, found⟩ := Option.bind_eq_some_iff.mp found
  have least := fuzzySubstring_spec (a.before.getD [] ++ a.quote ++ a.after.getD []) (slice text low high)
    ((a.before.getD [] ++ a.quote ++ a.after.getD []).length / 4)
  simp only [nearest] at least
  have filled : slice text low high ≠ [] := by
    intro empty
    rw [fuzzySubstring, if_pos (.inr empty)] at nearest
    cases nearest
  have positive : 0 ≤ low := by
    unfold fuzzyRange at ranged
    split at ranged
    · obtain ⟨rfl, -⟩ := Prod.mk.inj (Option.some.inj ranged)
      exact le_max_left ..
    · split at ranged
      · cases ranged
      · obtain ⟨rfl, -⟩ := Prod.mk.inj (Option.some.inj ranged)
        exact Int.le_refl 0
  have bound := slice_length text low high
  have long : 0 < (slice text low high).length := List.length_pos_iff.mpr filled
  have here : place text low = low.toNat := by
    rw [place, if_neg (by omega)] at bound ⊢
    omega
  rw [here] at bound
  have ends := least.2.inside
  split at found
  · cases found
  · obtain ⟨rfl, rfl⟩ := Prod.mk.inj (Option.some.inj found)
    omega

theorem resolve_occurring (filled : a.quote ≠ []) {there : Nat} (occurs : Occurs text a.quote there) :
    ∃ off, resolveAnchor text a = ⟨some off, a.quote.length, .exact⟩ ∧ Occurs text a.quote off ∧
      ∀ other, Occurs text a.quote other → AsGood text a off other := by
  have some_ : ¬ a.quote.length = 0 := fun none => filled (List.length_eq_zero_iff.mp none)
  have occurring : ∀ off, off ∈ allOffsets text a.quote ↔ Occurs text a.quote off := fun off => mem_allOffsets filled
  have listed : allOffsets text a.quote ≠ [] := List.ne_nil_of_mem ((occurring there).mpr occurs)
  have answer : resolveAnchor text a = ⟨(allOffsets text a.quote).argmax (rank text a), a.quote.length, .exact⟩ := by
    simp only [resolveAnchor, if_neg some_, ← pickBest_argmax]
    match allOffsets text a.quote, listed with
    | [only], _ => rfl
    | first :: second :: later, _ => rfl
  have found : (allOffsets text a.quote).argmax (rank text a) ≠ none := fun none => listed (List.argmax_eq_none.mp none)
  obtain ⟨best, greatest⟩ := Option.ne_none_iff_exists'.mp found
  refine ⟨best, answer.trans (by rw [greatest]), (occurring best).mp (List.argmax_mem greatest), ?_⟩
  exact fun other occurs => rank_le.mp (List.le_of_mem_argmax ((occurring other).mpr occurs) greatest)

/-- Without an occurrence it is placed nearly or not at all. -/
theorem resolve_absent (absent : ¬ (a.quote ≠ [] ∧ ∃ off, Occurs text a.quote off)) :
    (resolveAnchor text a).confidence ≠ .exact ∧
      ∀ off, (resolveAnchor text a).offset = some off → off + (resolveAnchor text a).length ≤ text.length := by
  by_cases empty : a.quote = []
  · simp [resolveAnchor, empty]
  have some_ : ¬ a.quote.length = 0 := fun none => empty (List.length_eq_zero_iff.mp none)
  have none : allOffsets text a.quote = [] := by
    apply List.eq_nil_iff_forall_not_mem.mpr
    intro off member
    exact absent ⟨empty, off, (mem_allOffsets empty).mp member⟩
  simp only [resolveAnchor, if_neg some_, none]
  cases nearly : fuzzyResolve text a with
  | none => exact ⟨nofun, nofun⟩
  | some place =>
    refine ⟨nofun, ?_⟩
    intro off same
    obtain rfl := Option.some.inj same
    exact fuzzyResolve_inside nearly

/-- A comment is placed exactly when its quote is in the text, and then at an occurrence that no
other beats in its context, and then in its nearness to the hint; every place is in the text. -/
theorem anchor_exact (text : Text) (a : AnchorInput) :
    ((resolveAnchor text a).confidence = .exact ↔ a.quote ≠ [] ∧ ∃ off, Occurs text a.quote off) ∧
      ((resolveAnchor text a).confidence = .exact → ∃ off, resolveAnchor text a = ⟨some off, a.quote.length, .exact⟩ ∧
        Occurs text a.quote off ∧ ∀ other, Occurs text a.quote other → AsGood text a off other) ∧
      ∀ off, (resolveAnchor text a).offset = some off → off + (resolveAnchor text a).length ≤ text.length := by
  by_cases present : a.quote ≠ [] ∧ ∃ off, Occurs text a.quote off
  · obtain ⟨filled, there, occurs⟩ := present
    obtain ⟨off, answer, here, good⟩ := resolve_occurring filled occurs
    refine ⟨⟨fun _ => ⟨filled, there, occurs⟩, fun _ => by rw [answer]⟩, fun _ => ⟨off, answer, here, good⟩, ?_⟩
    intro other same
    rw [answer] at same ⊢
    obtain rfl := Option.some.inj same
    exact (occurs_inside here).resolve_left filled
  · obtain ⟨other, inside⟩ := resolve_absent present
    exact ⟨⟨fun same => absurd same other, fun there => absurd there present⟩, fun same => absurd same other, inside⟩

/-! ## A comment just made -/

theorem agreement_le (as bs : Text) : agreement as bs ≤ as.length := by
  induction as generalizing bs with
  | nil => exact Nat.le_refl 0
  | cons a as ih =>
    cases bs with
    | nil => exact Nat.zero_le _
    | cons b bs =>
      rw [agreement]
      split
      · exact Nat.succ_le_succ (ih bs)
      · exact Nat.zero_le _

theorem agreement_whole {as bs : Text} (starts : as <+: bs) : agreement as bs = as.length := by
  induction as generalizing bs with
  | nil => rfl
  | cons a as ih =>
    cases bs with
    | nil => exact absurd (List.prefix_nil.mp starts) (List.cons_ne_nil _ _)
    | cons b bs =>
      obtain ⟨rfl, later⟩ := List.cons_prefix_cons.mp starts
      rw [agreement, if_pos rfl, ih later, List.length_cons]

theorem slice_nat {start stop : Nat} (inside : stop ≤ text.length) (ordered : start ≤ stop) :
    slice text start stop = (text.take stop).drop start := by
  have first : place text start = start := by
    rw [place, if_neg (by omega)]
    omega
  have last : place text stop = stop := by
    rw [place, if_neg (by omega)]
    omega
  rw [slice, first, last]

/-- A comment made on a part of a text, with what surrounds it. -/
def madeOn (text : Text) (start stop : Nat) : AnchorInput :=
  ⟨slice text start stop, (extractContext text start stop).1, (extractContext text start stop).2, some start⟩

/-- In the text that it was made on, a comment is where it was made. -/
theorem anchor_kept (text : Text) (start stop : Nat) (some_ : start < stop) (inside : stop ≤ text.length) :
    resolveAnchor text (madeOn text start stop) = ⟨some start, stop - start, .exact⟩ := by
  have quote : (madeOn text start stop).quote = (text.take stop).drop start := slice_nat inside (Nat.le_of_lt some_)
  have size : (madeOn text start stop).quote.length = stop - start := by
    rw [quote, List.length_drop, List.length_take]
    omega
  have filled : (madeOn text start stop).quote ≠ [] := List.ne_nil_of_length_pos (by omega)
  have here : Occurs text (madeOn text start stop).quote start := by
    rw [Occurs, quote, List.drop_take]
    exact List.take_prefix _ _
  obtain ⟨off, answer, -, good⟩ := resolve_occurring filled here
  -- Its own context agrees as far as it goes, and its hint is at no distance.
  have before : (extractContext text start stop).1.reverse <+: (text.take start).reverse := by
    have low : (max 0 (start - contextLen : Int)) = ((start - contextLen : Nat) : Int) := by omega
    rw [extractContext, low, slice_nat (by omega) (by omega)]
    exact List.reverse_prefix.mpr (List.drop_suffix _ _)
  have after : (extractContext text start stop).2 <+: text.drop (start + (madeOn text start stop).quote.length) := by
    have past : start + (madeOn text start stop).quote.length = stop := by omega
    have high : (min text.length (stop + contextLen) : Int) = ((min text.length (stop + contextLen) : Nat) : Int) := by omega
    rw [past, extractContext, high, slice_nat (by omega) (by omega), List.drop_take]
    exact List.take_prefix _ _
  have most : scoreAt text (madeOn text start stop) off ≤ scoreAt text (madeOn text start stop) start := by
    simp only [scoreAt, contextScore, madeOn, Option.getD_some] at before after ⊢
    rw [agreement_whole before, agreement_whole after]
    exact Nat.add_le_add (agreement_le _ _) (agreement_le _ _)
  have level := good start here
  simp only [AsGood, hintDistance, madeOn, Option.elim_some] at level most
  have same : off = start := by omega
  rw [answer, size, same]

theorem anchor_kept_first : resolveAnchor [97, 97, 97] (madeOn [97, 97, 97] 1 2) = ⟨some 1, 2 - 1, .exact⟩ :=
  anchor_kept [97, 97, 97] 1 2 (by decide) (by decide)

end Oxplow.Proofs.AnchorMatches
