import Mathlib.Data.List.Forall2
import Mathlib.Data.Set.Basic

/-! Sequences of repeated sets of letters: the ways a word is cut along one, and exactly when
there is never more than one way. The alphabet is any. -/

namespace Oxplow.Library

/-- Letters of one set, `least` to `most` of them (`none`: no limit). -/
structure Repeat (α : Type) where
  letters : Set α
  least : Nat
  most : Option Nat

namespace Repeat

variable {α : Type}

def Allows (r : Repeat α) (n : Nat) : Prop := r.least ≤ n ∧ ∀ most ∈ r.most, n ≤ most

def Varies (r : Repeat α) : Prop := r.most ≠ some r.least

/-- It matches something, and each of its letters can be had. -/
def Usable (r : Repeat α) : Prop := r.letters.Nonempty ∧ r.Allows r.least

/-- Two sets a letter is in both of. -/
def Shares (s t : Set α) : Prop := (s ∩ t).Nonempty

/-- The set at each place, when the repeats have these lengths. -/
def spread : List (Repeat α) → List Nat → List (Set α)
  | r :: rs, n :: ns => List.replicate n r.letters ++ spread rs ns
  | _, _ => []

/-- `word` cut along `rs` in pieces of these lengths. -/
structure Way (rs : List (Repeat α)) (lengths : List Nat) (word : List α) : Prop where
  allowed : List.Forall₂ Allows rs lengths
  matched : List.Forall₂ (fun a letters => a ∈ letters) word (spread rs lengths)

/-- No word is cut in two ways along the first of them, however many. -/
def OneWay (rs : List (Repeat α)) : Prop :=
  ∀ i word lengths others, Way (rs.take i) lengths word → Way (rs.take i) others word → lengths = others

/-- One copy of the repeats is ahead by the places `lead`; the repeats left can be given lengths
that bring both level again, each place having a letter for both. -/
inductive MakesUp : List (Set α) → List (Repeat α) → Prop where
  | level {rs : List (Repeat α)} : MakesUp [] rs
  | behind {lead front back : List (Set α)} {r : Repeat α} {rs : List (Repeat α)} {n m : Nat} (slow : r.Allows n)
      (fast : r.Allows m) (cut : lead ++ List.replicate m r.letters = front ++ back)
      (shared : List.Forall₂ Shares (List.replicate n r.letters) front) (rest : MakesUp back rs) : MakesUp lead (r :: rs)
  | past {lead front back : List (Set α)} {r : Repeat α} {rs : List (Repeat α)} {n m : Nat} (slow : r.Allows n)
      (fast : r.Allows m) (cut : List.replicate n r.letters = front ++ back)
      (shared : List.Forall₂ Shares front (lead ++ List.replicate m r.letters)) (rest : MakesUp back rs) :
      MakesUp lead (r :: rs)

/-- A repeat can take some letters more, and those after it can make up for them. -/
def Slips (rs : List (Repeat α)) : Prop :=
  ∃ before r after more, rs = before ++ r :: after ∧ 0 < more ∧ r.Allows (r.least + more) ∧
    MakesUp (List.replicate more r.letters) after

/-- A repeat of varying length that another follows has right behind it letters of fixed number, at
least one, none of which it matches. -/
def FencedAtOnce (rs : List (Repeat α)) : Prop :=
  ∀ before r after, rs = before ++ r :: after → r.Varies → (∃ later ∈ after, later.Varies) →
    ∃ fence rest, after = fence :: rest ∧ ¬ fence.Varies ∧ 1 ≤ fence.least ∧ ¬ Shares fence.letters r.letters

theorem Shares.symm {s t : Set α} (shares : Shares s t) : Shares t s := by
  obtain ⟨a, left, right⟩ := shares
  exact ⟨a, right, left⟩

variable {xs ys : List (Set α)}

theorem shares_symm (shared : List.Forall₂ Shares xs ys) : List.Forall₂ Shares ys xs :=
  shared.flip.imp fun _ _ shares => Shares.symm shares

/-- Two lists of sets share a letter at each place when one word is in both. -/
theorem common_word :
    (∃ word : List α, List.Forall₂ (fun a s => a ∈ s) word xs ∧ List.Forall₂ (fun a s => a ∈ s) word ys) ↔
      List.Forall₂ Shares xs ys := by
  constructor
  · rintro ⟨word, first, second⟩
    induction first generalizing ys with
    | nil =>
      cases second
      exact .nil
    | cons left _ ih =>
      cases second with
      | cons right rest => exact .cons ⟨_, left, right⟩ (ih rest)
  · intro shared
    induction shared with
    | nil => exact ⟨[], .nil, .nil⟩
    | cons shares _ ih =>
      obtain ⟨a, left, right⟩ := shares
      obtain ⟨word, first, second⟩ := ih
      exact ⟨a :: word, .cons left first, .cons right second⟩

variable {rs : List (Repeat α)}

/-- One word is cut in two ways just when the sets at each place share a letter. -/
theorem two_ways_iff {lengths others : List Nat} :
    (∃ word, Way rs lengths word ∧ Way rs others word) ↔
      List.Forall₂ Allows rs lengths ∧ List.Forall₂ Allows rs others ∧
        List.Forall₂ Shares (spread rs lengths) (spread rs others) := by
  constructor
  · rintro ⟨word, first, second⟩
    exact ⟨first.allowed, second.allowed, common_word.mp ⟨word, first.matched, second.matched⟩⟩
  · rintro ⟨first, second, shared⟩
    obtain ⟨word, left, right⟩ := common_word.mpr shared
    exact ⟨word, ⟨first, left⟩, ⟨second, right⟩⟩

section Splitting

variable {R : Set α → Set α → Prop}

/-- The longer of two beginnings is cut where the shorter ends. -/
theorem cut_longer {us vs : List (Set α)} (both : List.Forall₂ R (xs ++ us) (ys ++ vs)) (shorter : xs.length ≤ ys.length) :
    ∃ front back, ys = front ++ back ∧ List.Forall₂ R xs front ∧ List.Forall₂ R us (back ++ vs) := by
  refine ⟨ys.take xs.length, ys.drop xs.length, (List.take_append_drop ..).symm, ?_, ?_⟩
  · have first := List.forall₂_take xs.length both
    rwa [List.take_left, List.take_append_of_le_length shorter] at first
  · have last := List.forall₂_drop xs.length both
    rwa [List.drop_left, List.drop_append_of_le_length shorter] at last

end Splitting

/-- Making up for a lead, run by run, is having lengths for both copies. -/
theorem makesUp_iff {lead : List (Set α)} :
    MakesUp lead rs ↔ ∃ i slow fast, List.Forall₂ Allows (rs.take i) slow ∧ List.Forall₂ Allows (rs.take i) fast ∧
      List.Forall₂ Shares (spread (rs.take i) slow) (lead ++ spread (rs.take i) fast) := by
  constructor
  · intro up
    induction up with
    | level => exact ⟨0, [], [], .nil, .nil, .nil⟩
    | @behind lead front back r rs n m slow fast cut shared _ ih =>
      obtain ⟨i, ns, ms, first, second, rest⟩ := ih
      refine ⟨i + 1, n :: ns, m :: ms, .cons slow first, .cons fast second, ?_⟩
      have whole : lead ++ spread (r :: rs.take i) (m :: ms) = front ++ (back ++ spread (rs.take i) ms) := by
        rw [spread, ← List.append_assoc, cut, List.append_assoc]
      rw [List.take_succ_cons, whole]
      exact List.rel_append shared rest
    | @past lead front back r rs n m slow fast cut shared _ ih =>
      obtain ⟨i, ns, ms, first, second, rest⟩ := ih
      refine ⟨i + 1, n :: ms, m :: ns, .cons slow second, .cons fast first, ?_⟩
      have whole : spread (r :: rs.take i) (n :: ms) = front ++ (back ++ spread (rs.take i) ms) := by
        rw [spread, cut, List.append_assoc]
      have other : lead ++ spread (r :: rs.take i) (m :: ns) =
          (lead ++ List.replicate m r.letters) ++ spread (rs.take i) ns := by
        rw [spread, List.append_assoc]
      rw [List.take_succ_cons, whole, other]
      exact List.rel_append shared (shares_symm rest)
  · rintro ⟨i, slow, fast, first, second, shared⟩
    induction rs generalizing lead i slow fast with
    | nil =>
      rw [List.take_nil] at first second shared
      cases first
      cases second
      cases lead with
      | nil => exact .level
      | cons s lead => cases shared
    | cons r rs ih =>
      cases i with
      | zero =>
        cases first
        cases second
        cases lead with
        | nil => exact .level
        | cons s lead => cases shared
      | succ i =>
        rw [List.take_succ_cons] at first second shared
        cases first with
        | @cons _ n _ ns slowHead slowRest =>
        cases second with
        | @cons _ m _ ms fastHead fastRest =>
        rw [spread, spread, ← List.append_assoc] at shared
        rcases Nat.le_total n (lead.length + m) with shorter | longer
        · obtain ⟨front, back, cut, head, rest⟩ := cut_longer shared (by simpa using shorter)
          exact .behind slowHead fastHead cut head (ih i ns ms slowRest fastRest rest)
        · obtain ⟨front, back, cut, head, rest⟩ := cut_longer (shares_symm shared) (by simpa using longer)
          exact .past slowHead fastHead cut (shares_symm head) (ih i ms ns fastRest slowRest rest)

theorem usable_lengths (usable : ∀ r ∈ rs, r.Usable) :
    List.Forall₂ Allows rs (rs.map least) ∧ List.Forall₂ Shares (spread rs (rs.map least)) (spread rs (rs.map least)) := by
  induction rs with
  | nil => exact ⟨.nil, .nil⟩
  | cons r rs ih =>
    obtain ⟨allowed, shared⟩ := ih fun other member => usable other (List.mem_cons_of_mem _ member)
    obtain ⟨⟨a, inside⟩, least⟩ := usable r (List.mem_cons_self ..)
    refine ⟨.cons least allowed, List.rel_append ?_ shared⟩
    apply List.forall₂_same.mpr
    intro s member
    rw [List.eq_of_mem_replicate member]
    exact ⟨a, inside, inside⟩

/-- Two choices of lengths that differ: one run is longer in one of them, and it is made up for. -/
theorem slips_of_two :
    ∀ {i : Nat} {ns ms : List Nat}, List.Forall₂ Allows (rs.take i) ns →
    List.Forall₂ Allows (rs.take i) ms → List.Forall₂ Shares (spread (rs.take i) ns) (spread (rs.take i) ms) → ns ≠ ms →
    Slips rs := by
  have longer : ∀ {r : Repeat α} {rs : List (Repeat α)} {i n m : Nat} {ns ms : List Nat}, n < m → r.Allows n → r.Allows m →
      List.Forall₂ Allows (rs.take i) ns → List.Forall₂ Allows (rs.take i) ms →
      List.Forall₂ Shares (List.replicate n r.letters ++ spread (rs.take i) ns)
        (List.replicate m r.letters ++ spread (rs.take i) ms) → Slips (r :: rs) := by
    intro r rs i n m ns ms less short long first second shared
    obtain ⟨front, back, cut, head, rest⟩ := cut_longer shared (by simpa using less.le)
    have sizes : front.length = n := by simpa using head.length_eq.symm
    have tail : back = List.replicate (m - n) r.letters := by
      have dropped := congrArg (List.drop n) cut
      rw [List.drop_replicate, ← sizes, List.drop_left] at dropped
      rw [← dropped, sizes]
    have fits : r.Allows (r.least + (m - n)) := by
      have low := short.1
      refine ⟨Nat.le_add_right .., fun most bound => ?_⟩
      have high := long.2 most bound
      omega
    exact ⟨[], r, rs, m - n, rfl, Nat.sub_pos_of_lt less, fits, makesUp_iff.mpr ⟨i, ns, ms, first, second, tail ▸ rest⟩⟩
  induction rs with
  | nil =>
    intro i ns ms first second _ differ
    rw [List.take_nil] at first second
    cases first
    cases second
    exact absurd rfl differ
  | cons r rs ih =>
    intro i ns ms first second shared differ
    cases i with
    | zero =>
      cases first
      cases second
      exact absurd rfl differ
    | succ i =>
      rw [List.take_succ_cons] at first second shared
      cases first with
      | @cons _ n _ ns slowHead slowRest =>
      cases second with
      | @cons _ m _ ms fastHead fastRest =>
      rw [spread, spread] at shared
      rcases Nat.lt_trichotomy n m with less | rfl | more
      · exact longer less slowHead fastHead slowRest fastRest shared
      · have rest := List.forall₂_drop n shared
        have same (tail : List (Set α)) : (List.replicate n r.letters ++ tail).drop n = tail := by
          simp
        rw [same, same] at rest
        obtain ⟨before, run, after, extra, whole, facts⟩ := ih slowRest fastRest rest fun equal => differ (by rw [equal])
        exact ⟨r :: before, run, after, extra, by rw [whole, List.cons_append], facts⟩
      · exact longer more fastHead slowHead fastRest slowRest (shares_symm shared)

theorem spread_before (before rs : List (Repeat α)) (ns : List Nat) :
    spread (before ++ rs) (before.map least ++ ns) = spread before (before.map least) ++ spread rs ns := by
  induction before with
  | nil => rfl
  | cons r before ih =>
    simp only [List.cons_append, List.map_cons, spread]
    rw [ih, List.append_assoc]

/-- A run made up for is two ways to cut a word. -/
theorem two_of_slips (usable : ∀ r ∈ rs, r.Usable) (slips : Slips rs) : ¬ OneWay rs := by
  obtain ⟨before, r, after, more, rfl, positive, fits, up⟩ := slips
  obtain ⟨i, slow, fast, first, second, shared⟩ := makesUp_iff.mp up
  have part : (before ++ r :: after).take (before.length + (i + 1)) = before ++ r :: after.take i := by
    rw [List.take_length_add_append, List.take_succ_cons]
  have early : ∀ run ∈ before, run.Usable := fun run member => usable run (List.mem_append_left _ member)
  have here : ∀ run ∈ [r], run.Usable := by
    intro run member
    rw [List.mem_singleton.mp member]
    exact usable r (List.mem_append_right _ (List.mem_cons_self ..))
  obtain ⟨allowed, same⟩ := usable_lengths early
  obtain ⟨-, alike⟩ := usable_lengths here
  have head : List.Forall₂ Shares (List.replicate r.least r.letters) (List.replicate r.least r.letters) := by
    simpa [spread] using alike
  have both : List.Forall₂ Shares (spread (before ++ r :: after.take i) (before.map Repeat.least ++ r.least :: slow))
      (spread (before ++ r :: after.take i) (before.map Repeat.least ++ (r.least + more) :: fast)) := by
    rw [spread_before, spread_before, spread, spread, List.replicate_add, List.append_assoc]
    exact List.rel_append same (List.rel_append head shared)
  have least : r.Allows r.least := (here r (List.mem_singleton_self r)).2
  have one : List.Forall₂ Allows (before ++ r :: after.take i) (before.map Repeat.least ++ r.least :: slow) :=
    List.rel_append allowed (.cons least first)
  have other : List.Forall₂ Allows (before ++ r :: after.take i) (before.map Repeat.least ++ (r.least + more) :: fast) :=
    List.rel_append allowed (.cons fits second)
  rw [← part] at one other both
  obtain ⟨word, way, way'⟩ := two_ways_iff.mpr ⟨one, other, both⟩
  intro oneWay
  have equal := oneWay _ word _ _ way way'
  have heads := (List.cons.inj (List.append_cancel_left equal)).1
  omega

/-- With usable repeats, a word is never cut in two ways just when no run slips. -/
theorem oneWay_iff (usable : ∀ r ∈ rs, r.Usable) : OneWay rs ↔ ¬ Slips rs := by
  constructor
  · exact fun oneWay slips => two_of_slips usable slips oneWay
  · intro firm i word lengths others first second
    by_contra differ
    obtain ⟨allowed, allowed', shared⟩ := two_ways_iff.mp ⟨word, first, second⟩
    exact firm (slips_of_two allowed allowed' shared differ)

/-- Runs of fixed length leave a lead as it is. -/
theorem no_makesUp_fixed {lead : List (Set α)} (fixed : ∀ r ∈ rs, ¬ r.Varies) (ahead : lead ≠ []) : ¬ MakesUp lead rs := by
  have same {r : Repeat α} {n m : Nat} (settled : ¬ r.Varies) (first : r.Allows n) (second : r.Allows m) : n = m := by
    have exactly : r.most = some r.least := not_not.mp settled
    have high := first.2 r.least exactly
    have high' := second.2 r.least exactly
    have low := first.1
    have low' := second.1
    omega
  intro up
  induction up with
  | level => exact ahead rfl
  | @behind lead front back r rs n m slow fast cut shared _ ih =>
    apply ih fun run member => fixed run (List.mem_cons_of_mem _ member)
    rintro rfl
    have equal := same (fixed r (List.mem_cons_self ..)) slow fast
    have sizes := congrArg List.length cut
    have fronts := shared.length_eq
    have some_ := List.length_pos_iff.mpr ahead
    simp only [List.length_append, List.length_replicate, List.length_nil] at sizes fronts
    omega
  | @past lead front back r rs n m slow fast cut shared _ ih =>
    have equal := same (fixed r (List.mem_cons_self ..)) slow fast
    have sizes := congrArg List.length cut
    have fronts := shared.length_eq
    have some_ := List.length_pos_iff.mpr ahead
    simp only [List.length_append, List.length_replicate] at sizes fronts
    omega

/-- A fence right behind a run's extra letters stops whoever is behind. -/
theorem no_makesUp_fence {fence r : Repeat α} {rest : List (Repeat α)} {more : Nat} (some_ : 0 < more)
    (needed : 1 ≤ fence.least) (clear : ¬ Shares fence.letters r.letters) :
    ¬ MakesUp (List.replicate more r.letters) (fence :: rest) := by
  obtain ⟨more, rfl⟩ : ∃ k, more = k + 1 := ⟨more - 1, by omega⟩
  intro up
  rw [List.replicate_succ] at up
  cases up with
  | @behind _ front back _ _ n m slow fast cut shared up =>
    obtain ⟨n, rfl⟩ : ∃ k, n = k + 1 := ⟨n - 1, by have low := slow.1; omega⟩
    rw [List.replicate_succ] at shared
    cases shared with
    | cons shares _ =>
      rw [(List.cons.inj cut).1] at clear
      exact clear shares
  | @past _ front back _ _ n m slow fast cut shared up =>
    cases shared with
    | @cons s _ front _ shares _ =>
      have member : s ∈ List.replicate n fence.letters := by
        rw [cut]
        exact List.mem_cons_self ..
      rw [List.eq_of_mem_replicate member] at shares
      exact clear shares

/-- Fences right behind the runs leave one way. -/
theorem fenced_oneWay (usable : ∀ r ∈ rs, r.Usable) (fenced : FencedAtOnce rs) : OneWay rs := by
  apply (oneWay_iff usable).mpr
  rintro ⟨before, r, after, more, rfl, positive, fits, up⟩
  have varies : r.Varies := by
    intro fixed
    have high := fits.2 r.least fixed
    omega
  by_cases later : ∃ run ∈ after, run.Varies
  · obtain ⟨fence, rest, rfl, -, needed, clear⟩ := fenced before r after rfl varies later
    exact no_makesUp_fence positive needed clear up
  · apply no_makesUp_fixed (fun run member varies => later ⟨run, member, varies⟩) _ up
    intro none
    have sizes := congrArg List.length none
    simp only [List.length_replicate, List.length_nil] at sizes
    omega

end Repeat

end Oxplow.Library
