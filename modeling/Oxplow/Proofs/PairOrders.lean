import Mathlib.Data.List.Perm.Lattice
import Oxplow.Duplicates.Scan
import Oxplow.Library.FirstMax

/-! When the order of the hash maps cannot be seen in the blocks that are reported. -/

namespace Oxplow.Proofs.PairOrders
open Oxplow.Duplicates Oxplow.Library

/-- The pair's matches in a family. -/
def matchesOf (subtrees : List SubtreeRef) (pair : FnId × FnId) (hash : UInt64) : List Match :=
  (links (family subtrees hash)).filter fun m => m.pair = pair

/-- The first of the greatest of them. -/
def topOf (subtrees : List SubtreeRef) (pair : FnId × FnId) (hash : UInt64) : Option Match :=
  firstMax Match.size (matchesOf subtrees pair hash)

/-- The family has a match of the greatest size there is for the pair. -/
def reaches (subtrees : List SubtreeRef) (pair : FnId × FnId) (hash : UInt64) : Bool :=
  (topOf subtrees pair hash).any fun m =>
    (hashes subtrees).all fun other => (topOf subtrees pair other).all fun m' => m'.size ≤ m.size

/-- The pairs of functions that have a match. -/
def pairsOf (subtrees : List SubtreeRef) : List (FnId × FnId) :=
  (((hashes subtrees).flatMap fun hash => links (family subtrees hash)).map Match.pair).dedup

/-- The pairs that two families next to each other decide between. -/
def contested (subtrees : List SubtreeRef) (before : List UInt64) (left right : UInt64) : List (FnId × FnId) :=
  (pairsOf subtrees).filter fun pair =>
    reaches subtrees pair left && reaches subtrees pair right && before.all fun hash => !reaches subtrees pair hash

/-- The blocks these pairs get from a family. -/
def blocksFrom (subtrees : List SubtreeRef) (pairs : List (FnId × FnId)) (hash : UInt64) : List DuplicateBlock :=
  pairs.filterMap fun pair => (topOf subtrees pair hash).map blockOf

/-- Two families give the same blocks to the pairs they decide between, whichever were walked before. -/
def Interchangeable (subtrees : List SubtreeRef) : Prop :=
  ∀ before left right after, (before ++ left :: right :: after).Perm (hashes subtrees) →
    (blocksFrom subtrees (contested subtrees before left right) left).Perm
      (blocksFrom subtrees (contested subtrees before left right) right)

/-- Blocks that can be reported together and that the sort takes for equal are equal. -/
def Separated (subtrees : List SubtreeRef) : Prop :=
  ∀ pair ∈ pairsOf subtrees, ∀ other ∈ pairsOf subtrees, ∀ left ∈ hashes subtrees, ∀ right ∈ hashes subtrees,
    reaches subtrees pair left = true → reaches subtrees other right = true →
    (left = right ∨ ¬ (reaches subtrees pair right = true ∧ reaches subtrees other left = true)) →
    ∀ m n, topOf subtrees pair left = some m → topOf subtrees other right = some n →
      blockKey (blockOf m) = blockKey (blockOf n) → blockOf m = blockOf n

/-! ## The best match of a pair -/

theorem get_note (best : Best) (candidate : Match) (pair : FnId × FnId) :
    (note best candidate).get pair =
      if candidate.pair = pair then better Match.size (best.get pair) (some candidate) else best.get pair := by
  rw [note, InsertionMap.get_set]
  by_cases same : candidate.pair = pair
  · subst same
    rw [if_pos rfl, if_pos rfl]
    cases best.get candidate.pair with
    | none =>
      rw [Option.getD_none, none_better]
      by_cases positive : 0 < candidate.size
      · rw [if_pos positive]
      · rw [if_neg positive, Nat.eq_zero_of_not_pos positive |>.symm]
    | some entry =>
      simp only [Option.getD_some, better]
      split <;> rfl
  · rw [if_neg same, if_neg (Ne.symm same)]

theorem get_foldl_note (candidates : List Match) (best : Best) (pair : FnId × FnId) :
    (candidates.foldl note best).get pair =
      better Match.size (best.get pair) (firstMax Match.size (candidates.filter fun m => m.pair = pair)) := by
  induction candidates generalizing best with
  | nil => simp [firstMax]
  | cons candidate candidates ih =>
    rw [List.foldl_cons, ih, get_note]
    by_cases same : candidate.pair = pair
    · rw [if_pos same, List.filter_cons_of_pos (by simpa using same), firstMax_cons, better_assoc]
    · rw [if_neg same, List.filter_cons_of_neg (by simpa using same)]

theorem get_bestOf (subtrees : List SubtreeRef) (walk : List UInt64) (pair : FnId × FnId) :
    (bestOf (walk.map (family subtrees))).get pair = firstMax Match.size (walk.filterMap (topOf subtrees pair)) := by
  rw [bestOf, get_foldl_note, InsertionMap.get_empty, none_better, List.flatMap_map, List.filter_flatMap, firstMax_flatMap]
  rfl

variable {subtrees : List SubtreeRef} {pair : FnId × FnId} {hash : UInt64}

theorem reaches_iff :
    reaches subtrees pair hash = true ↔ ∃ m, topOf subtrees pair hash = some m ∧
      ∀ other ∈ hashes subtrees, ∀ m' ∈ topOf subtrees pair other, m'.size ≤ m.size := by
  simp [reaches, Option.any_eq_true, Option.all_eq_true]

variable {walk : List UInt64}

/-- The first family walked that reaches the greatest size decides. -/
theorem chosen (whole : walk.Perm (hashes subtrees)) (pair : FnId × FnId) :
    (bestOf (walk.map (family subtrees))).get pair = (walk.find? (reaches subtrees pair)).bind (topOf subtrees pair) := by
  rw [get_bestOf]
  cases found : walk.find? (reaches subtrees pair) with
  | none =>
    rw [Option.bind_none]
    by_contra some_
    obtain ⟨m, best⟩ := Option.ne_none_iff_exists'.mp some_
    obtain ⟨hash, member, top⟩ := List.mem_filterMap.mp (mem_of_firstMax best)
    apply List.find?_eq_none.mp found hash member
    apply reaches_iff.mpr
    refine ⟨m, top, fun other there m' top' => ?_⟩
    exact le_firstMax best (List.mem_filterMap.mpr ⟨other, whole.mem_iff.mpr there, top'⟩)
  | some hash =>
    obtain ⟨reach, before, after, rfl, early⟩ := List.find?_eq_some_iff_append.mp found
    obtain ⟨m, top, most⟩ := reaches_iff.mp reach
    rw [Option.bind_some, top, List.filterMap_append, List.filterMap_cons, top]
    apply firstMax_middle
    · intro b member
      obtain ⟨other, there, top'⟩ := List.mem_filterMap.mp member
      by_contra large
      have known : other ∈ hashes subtrees := whole.mem_iff.mp (List.mem_append_left _ there)
      have unreached := early other there
      rw [Bool.not_eq_true'] at unreached
      have reached : reaches subtrees pair other = true := by
        apply reaches_iff.mpr
        refine ⟨b, top', fun third inside m' top'' => ?_⟩
        have below := most third inside m' top''
        omega
      rw [reached] at unreached
      cases unreached
    · intro b member
      obtain ⟨other, there, top'⟩ := List.mem_filterMap.mp member
      exact most other (whole.mem_iff.mp (List.mem_append_right _ (List.mem_cons_of_mem _ there))) b top'

theorem mem_pairsOf : pair ∈ pairsOf subtrees ↔ ∃ hash ∈ hashes subtrees, (topOf subtrees pair hash).isSome = true := by
  have some_ (hash : UInt64) :
      (topOf subtrees pair hash).isSome = true ↔ ∃ m ∈ links (family subtrees hash), m.pair = pair := by
    rw [← Option.ne_none_iff_isSome, topOf, Ne, firstMax_eq_none, matchesOf, List.filter_eq_nil_iff]
    simp
  simp only [pairsOf, List.mem_dedup, List.mem_map, List.mem_flatMap, some_]
  constructor
  · rintro ⟨m, ⟨hash, known, linked⟩, own⟩
    exact ⟨hash, known, m, linked, own⟩
  · rintro ⟨hash, known, m, linked, own⟩
    exact ⟨m, ⟨hash, known, linked⟩, own⟩

/-- One block for each pair that has a match. -/
def blocksOf (subtrees : List SubtreeRef) (walk : List UInt64) : List DuplicateBlock :=
  (pairsOf subtrees).filterMap fun pair => ((bestOf (walk.map (family subtrees))).get pair).map blockOf

theorem values_perm (whole : walk.Perm (hashes subtrees)) :
    (((bestOf (walk.map (family subtrees))).entries.map Prod.snd).map blockOf).Perm (blocksOf subtrees walk) := by
  have keyed : (bestOf (walk.map (family subtrees))).entries.Perm
      ((pairsOf subtrees).filterMap fun pair => ((bestOf (walk.map (family subtrees))).get pair).map (Prod.mk pair)) := by
    apply (List.perm_ext_iff_of_nodup ?_ ?_).mpr
    · rintro ⟨pair, m⟩
      rw [← InsertionMap.get_eq_some, List.mem_filterMap]
      constructor
      · intro best
        refine ⟨pair, ?_, by rw [best]; rfl⟩
        rw [get_bestOf] at best
        obtain ⟨hash, member, top⟩ := List.mem_filterMap.mp (mem_of_firstMax best)
        exact mem_pairsOf.mpr ⟨hash, whole.mem_iff.mp member, by rw [top]; rfl⟩
      · rintro ⟨other, -, best⟩
        obtain ⟨m', best, same⟩ := Option.map_eq_some_iff.mp best
        cases same
        exact best
    · exact List.Nodup.of_map _ (bestOf (walk.map (family subtrees))).distinct
    · apply List.Nodup.filterMap
      · intro pair other entry first second
        obtain ⟨m, -, rfl⟩ := Option.map_eq_some_iff.mp first
        obtain ⟨m', -, same⟩ := Option.map_eq_some_iff.mp second
        exact (congrArg Prod.fst same).symm
      · exact List.nodup_dedup _
  have moved := (keyed.map Prod.snd).map blockOf
  refine moved.trans (List.Perm.of_eq ?_)
  rw [List.map_map, List.map_filterMap, blocksOf]
  congr 1
  funext pair
  rw [Option.map_map]
  rfl

/-- What `pair_up` can return are the blocks of some walk, arranged in any way and sorted. -/
theorem pairUp_iff {out : List DuplicateBlock} :
    PairUp subtrees out ↔ ∃ walk : List UInt64, walk.Perm (hashes subtrees) ∧
      ∃ arranged : List DuplicateBlock, arranged.Perm (blocksOf subtrees walk) ∧ out = sortBlocks arranged := by
  constructor
  · rintro ⟨best, values, ⟨walk, whole, rfl⟩, perm, rfl⟩
    exact ⟨walk, whole, values.map blockOf, (perm.map blockOf).trans (values_perm whole), rfl⟩
  · rintro ⟨walk, whole, arranged, perm, rfl⟩
    obtain ⟨values, perm', rfl⟩ := exists_map_perm (perm.trans (values_perm whole).symm)
    exact ⟨_, values, ⟨walk, whole, rfl⟩, perm', rfl⟩

/-- The result is one just when all walks give the same blocks, and those that compare equal are equal. -/
theorem one_result_iff :
    (∀ out out', PairUp subtrees out → PairUp subtrees out' → out = out') ↔
      (∀ walk walk' : List UInt64, walk.Perm (hashes subtrees) → walk'.Perm (hashes subtrees) →
          (blocksOf subtrees walk).Perm (blocksOf subtrees walk')) ∧
        ∀ walk : List UInt64, walk.Perm (hashes subtrees) → ∀ x ∈ blocksOf subtrees walk, ∀ y ∈ blocksOf subtrees walk,
          blockKey x = blockKey y → x = y := by
  constructor
  · intro one
    constructor
    · intro walk walk' whole whole'
      have same := one _ _ (pairUp_iff.mpr ⟨walk, whole, _, List.Perm.refl _, rfl⟩)
        (pairUp_iff.mpr ⟨walk', whole', _, List.Perm.refl _, rfl⟩)
      rw [sortBlocks, sortBlocks] at same
      have left := List.perm_insertionSort (fun x y => blockKey x ≤ blockKey y) (blocksOf subtrees walk)
      have right := List.perm_insertionSort (fun x y => blockKey x ≤ blockKey y) (blocksOf subtrees walk')
      exact left.symm.trans ((List.Perm.of_eq same).trans right)
    · intro walk whole
      apply (sorted_unique_iff blockKey).mp
      intro others perm
      exact one _ _ (pairUp_iff.mpr ⟨walk, whole, others, perm, rfl⟩)
        (pairUp_iff.mpr ⟨walk, whole, _, List.Perm.refl _, rfl⟩)
  · rintro ⟨same, separate⟩ out out' first second
    obtain ⟨walk, whole, arranged, perm, rfl⟩ := pairUp_iff.mp first
    obtain ⟨walk', whole', arranged', perm', rfl⟩ := pairUp_iff.mp second
    have unique := (sorted_unique_iff blockKey).mpr (separate walk whole)
    exact (unique arranged perm).trans (unique arranged' (perm'.trans (same walk' walk whole' whole))).symm

/-! ## Families next to each other -/

variable {before after : List UInt64} {left right : UInt64}

/-- Two neighbours changing places matters to the pairs they decide between. -/
theorem chosen_swap (whole : (before ++ left :: right :: after).Perm (hashes subtrees))
    (apart : ¬ (reaches subtrees pair left && reaches subtrees pair right &&
      before.all fun hash => !reaches subtrees pair hash) = true) :
    (bestOf ((before ++ left :: right :: after).map (family subtrees))).get pair =
      (bestOf ((before ++ right :: left :: after).map (family subtrees))).get pair := by
  have swapped : (before ++ right :: left :: after).Perm (hashes subtrees) :=
    ((List.Perm.swap left right after).append_left before).trans whole
  rw [chosen whole, chosen swapped, List.find?_append, List.find?_append]
  congr 1
  cases early : before.find? (reaches subtrees pair) with
  | some hash => rfl
  | none =>
    have none_ : (before.all fun hash => !reaches subtrees pair hash) = true := by
      rw [List.all_eq_true]
      intro hash member
      simpa using List.find?_eq_none.mp early hash member
    rw [none_, Bool.and_true] at apart
    cases first : reaches subtrees pair left <;> cases second : reaches subtrees pair right <;>
      simp_all

theorem chosen_contested (whole : (before ++ left :: right :: after).Perm (hashes subtrees))
    (reach : reaches subtrees pair left = true) (none_ : (before.all fun hash => !reaches subtrees pair hash) = true) :
    (bestOf ((before ++ left :: right :: after).map (family subtrees))).get pair = topOf subtrees pair left := by
  have early : before.find? (reaches subtrees pair) = none := by
    rw [List.find?_eq_none]
    intro hash member
    simpa using List.all_eq_true.mp none_ hash member
  rw [chosen whole, List.find?_append, early, Option.none_or, List.find?_cons_of_pos reach, Option.bind_some]

/-- The blocks of a walk, those of the contested pairs first. -/
theorem blocksOf_split (whole : (before ++ left :: right :: after).Perm (hashes subtrees)) :
    (blocksFrom subtrees (contested subtrees before left right) left ++
      ((pairsOf subtrees).filter fun pair => !(reaches subtrees pair left && reaches subtrees pair right &&
        before.all fun hash => !reaches subtrees pair hash)).filterMap fun pair =>
          ((bestOf ((before ++ left :: right :: after).map (family subtrees))).get pair).map blockOf).Perm
      (blocksOf subtrees (before ++ left :: right :: after)) := by
  have parts := List.filter_append_perm (fun pair => reaches subtrees pair left && reaches subtrees pair right &&
    before.all fun hash => !reaches subtrees pair hash) (pairsOf subtrees)
  have mapped := parts.filterMap fun pair =>
    ((bestOf ((before ++ left :: right :: after).map (family subtrees))).get pair).map blockOf
  rw [List.filterMap_append] at mapped
  refine List.Perm.trans (List.Perm.of_eq ?_) mapped
  congr 1
  apply List.filterMap_congr
  intro pair member
  have both := (List.mem_filter.mp member).2
  rw [Bool.and_eq_true, Bool.and_eq_true] at both
  rw [chosen_contested whole both.1.1 both.2]

/-- The two orders of neighbours give the same blocks just when the contested pairs get the same. -/
theorem swap_iff (whole : (before ++ left :: right :: after).Perm (hashes subtrees)) :
    (blocksOf subtrees (before ++ left :: right :: after)).Perm (blocksOf subtrees (before ++ right :: left :: after)) ↔
      (blocksFrom subtrees (contested subtrees before left right) left).Perm
        (blocksFrom subtrees (contested subtrees before left right) right) := by
  have swapped : (before ++ right :: left :: after).Perm (hashes subtrees) :=
    ((List.Perm.swap left right after).append_left before).trans whole
  have first := blocksOf_split whole
  have second := blocksOf_split swapped
  have turned (pair : FnId × FnId) : (reaches subtrees pair right && reaches subtrees pair left &&
      before.all fun hash => !reaches subtrees pair hash) =
        (reaches subtrees pair left && reaches subtrees pair right && before.all fun hash => !reaches subtrees pair hash) := by
    rw [Bool.and_comm (reaches subtrees pair right)]
  have same : contested subtrees before right left = contested subtrees before left right := by
    simp only [contested, turned]
  simp only [turned] at second
  rw [same] at second
  have rest : (((pairsOf subtrees).filter fun pair => !(reaches subtrees pair left && reaches subtrees pair right &&
        before.all fun hash => !reaches subtrees pair hash)).filterMap fun pair =>
          ((bestOf ((before ++ left :: right :: after).map (family subtrees))).get pair).map blockOf) =
      (((pairsOf subtrees).filter fun pair => !(reaches subtrees pair left && reaches subtrees pair right &&
        before.all fun hash => !reaches subtrees pair hash)).filterMap fun pair =>
          ((bestOf ((before ++ right :: left :: after).map (family subtrees))).get pair).map blockOf) := by
    apply List.filterMap_congr
    intro pair member
    have outside := (List.mem_filter.mp member).2
    rw [chosen_swap whole fun both => by rw [both] at outside; cases outside]
  rw [← rest] at second
  constructor
  · intro perm
    exact (List.perm_append_right_iff _).mp ((first.trans perm).trans second.symm)
  · intro perm
    exact (first.symm.trans (perm.append_right _)).trans second

theorem walks_agree_iff :
    (∀ walk walk' : List UInt64, walk.Perm (hashes subtrees) → walk'.Perm (hashes subtrees) →
        (blocksOf subtrees walk).Perm (blocksOf subtrees walk')) ↔ Interchangeable subtrees := by
  constructor
  · intro agree before left right after whole
    have swapped : (before ++ right :: left :: after).Perm (hashes subtrees) :=
      ((List.Perm.swap left right after).append_left before).trans whole
    exact (swap_iff whole).mp (agree _ _ whole swapped)
  · intro interchangeable walk walk' whole whole'
    apply related_of_swaps (P := fun w w' => (blocksOf subtrees w).Perm (blocksOf subtrees w'))
      (fun _ => List.Perm.refl _) (fun _ _ _ first second => first.trans second) _ (whole.trans whole'.symm) whole
    intro before left right after whole
    exact (swap_iff whole).mpr (interchangeable before left right after whole)

/-! ## Blocks reported together -/

theorem mem_blocksOf (whole : walk.Perm (hashes subtrees)) {block : DuplicateBlock} (member : block ∈ blocksOf subtrees walk) :
    ∃ pair ∈ pairsOf subtrees, ∃ hash ∈ hashes subtrees,
      walk.find? (reaches subtrees pair) = some hash ∧ reaches subtrees pair hash = true ∧
        ∃ m, topOf subtrees pair hash = some m ∧ blockOf m = block := by
  obtain ⟨pair, known, best⟩ := List.mem_filterMap.mp member
  rw [chosen whole] at best
  obtain ⟨m, decided, rfl⟩ := Option.map_eq_some_iff.mp best
  obtain ⟨hash, found, top⟩ := Option.bind_eq_some_iff.mp decided
  exact ⟨pair, known, hash, whole.mem_iff.mp (List.mem_of_find?_eq_some found), found, List.find?_some found, m, top, rfl⟩

/-- Of two families each first for its pair, not both reach both pairs. -/
theorem not_both_of_first {other : FnId × FnId} (first : walk.find? (reaches subtrees pair) = some left)
    (second : walk.find? (reaches subtrees other) = some right) :
    left = right ∨ ¬ (reaches subtrees pair right = true ∧ reaches subtrees other left = true) := by
  by_contra neither
  obtain ⟨differ, both⟩ := not_or.mp neither
  obtain ⟨reachRight, reachLeft⟩ := not_not.mp both
  obtain ⟨-, before, after, whole, early⟩ := List.find?_eq_some_iff_append.mp first
  obtain ⟨-, before', after', whole', early'⟩ := List.find?_eq_some_iff_append.mp second
  have split := whole.symm.trans whole'
  rcases List.append_eq_append_iff.mp split with ⟨gap, front, back⟩ | ⟨gap, front, back⟩
  · cases gap with
    | nil => exact differ (List.cons.inj back).1
    | cons hash gap =>
      obtain ⟨rfl, -⟩ := List.cons.inj back
      have unreached := early' left (by rw [front]; simp)
      rw [reachLeft] at unreached
      cases unreached
  · cases gap with
    | nil => exact differ (List.cons.inj back).1.symm
    | cons hash gap =>
      obtain ⟨rfl, -⟩ := List.cons.inj back
      have unreached := early right (by rw [front]; simp)
      rw [reachRight] at unreached
      cases unreached

theorem mem_of_chosen (whole : walk.Perm (hashes subtrees)) (known : pair ∈ pairsOf subtrees) {m : Match}
    (first : walk.find? (reaches subtrees pair) = some hash) (top : topOf subtrees pair hash = some m) :
    blockOf m ∈ blocksOf subtrees walk := by
  refine List.mem_filterMap.mpr ⟨pair, known, ?_⟩
  rw [chosen whole, first, Option.bind_some, top]
  rfl

theorem separate_iff :
    (∀ walk : List UInt64, walk.Perm (hashes subtrees) → ∀ x ∈ blocksOf subtrees walk, ∀ y ∈ blocksOf subtrees walk,
        blockKey x = blockKey y → x = y) ↔ Separated subtrees := by
  constructor
  · intro separate pair known other known' left here right there reach reach' apart m n top top' equal
    -- A walk in which `left` is first for `pair` and `right` first for `other`.
    have distinct : (hashes subtrees).Nodup := List.nodup_dedup _
    obtain ⟨walk, whole, first, second⟩ : ∃ walk : List UInt64, walk.Perm (hashes subtrees) ∧
        walk.find? (reaches subtrees pair) = some left ∧ walk.find? (reaches subtrees other) = some right := by
      by_cases same : left = right
      · subst same
        refine ⟨left :: (hashes subtrees).erase left, (List.perm_cons_erase here).symm, ?_, ?_⟩
        · exact List.find?_cons_of_pos reach
        · exact List.find?_cons_of_pos reach'
      · have not_both := apart.resolve_left same
        have later : right ∈ (hashes subtrees).erase left := (List.mem_erase_of_ne (Ne.symm same)).mpr there
        have both : (left :: right :: ((hashes subtrees).erase left).erase right).Perm (hashes subtrees) :=
          ((List.perm_cons_erase later).symm.cons left).trans (List.perm_cons_erase here).symm
        by_cases crossed : reaches subtrees other left = true
        · have uncrossed : ¬ reaches subtrees pair right = true := fun reached => not_both ⟨reached, crossed⟩
          refine ⟨_, (List.Perm.swap left right _).trans both, ?_, ?_⟩
          · rw [List.find?_cons_of_neg uncrossed, List.find?_cons_of_pos reach]
          · rw [List.find?_cons_of_pos reach']
        · refine ⟨_, both, ?_, ?_⟩
          · rw [List.find?_cons_of_pos reach]
          · rw [List.find?_cons_of_neg crossed, List.find?_cons_of_pos reach']
    exact separate walk whole _ (mem_of_chosen whole known first top) _ (mem_of_chosen whole known' second top') equal
  · intro separated walk whole x inX y inY equal
    obtain ⟨pair, known, left, here, first, reach, m, top, rfl⟩ := mem_blocksOf whole inX
    obtain ⟨other, known', right, there, second, reach', n, top', rfl⟩ := mem_blocksOf whole inY
    exact separated pair known other known' left here right there reach reach' (not_both_of_first first second) m n top top' equal

/-- The result does not depend on the order of the maps just when neighbouring families can change
places and blocks that compare equal are equal. -/
theorem one_result_unless_tied (subtrees : List SubtreeRef) :
    (∀ out out', PairUp subtrees out → PairUp subtrees out' → out = out') ↔ Interchangeable subtrees ∧ Separated subtrees := by
  rw [one_result_iff, walks_agree_iff, separate_iff]

/-- Two loops of one function, of one size, each with its like in another function. -/
def twoLoops : List SubtreeRef :=
  [⟨"a.rs", 0, 90, 1, 6, 40, 1⟩, ⟨"a.rs", 0, 90, 10, 16, 40, 2⟩, ⟨"b.rs", 0, 90, 1, 6, 40, 1⟩, ⟨"b.rs", 0, 90, 20, 26, 40, 2⟩]

theorem two_results : ¬ ∀ (subtrees : List SubtreeRef) (out out' : List DuplicateBlock), PairUp subtrees out →
    PairUp subtrees out' → out = out' := by
  intro one
  have first : PairUp twoLoops [⟨"a.rs", 1, 6, "b.rs", 1, 6, 6⟩] :=
    ⟨bestOf ([1, 2].map (family twoLoops)), _, ⟨[1, 2], by decide +kernel, rfl⟩, List.Perm.refl _, by decide +kernel⟩
  have second : PairUp twoLoops [⟨"a.rs", 10, 16, "b.rs", 20, 26, 7⟩] :=
    ⟨bestOf ([2, 1].map (family twoLoops)), _, ⟨[2, 1], by decide +kernel, rfl⟩, List.Perm.refl _, by decide +kernel⟩
  have same := one twoLoops _ _ first second
  exact absurd same (by decide +kernel)

end Oxplow.Proofs.PairOrders
