import Oxplow.Proofs.ScopedScans

/-! Which cloned functions of a scope a scan shows: a function that shares its family's first file
with the family's first function is linked to that one alone, and the link is dropped. -/

namespace Oxplow.Proofs.ClonedFunctions
open Oxplow.Duplicates Oxplow.Library
open Oxplow.Proofs.PairOrders Oxplow.Proofs.ScopedScans

/-- A subtree of the function has the hash of a subtree of another file. -/
def Cloned (subtrees : List SubtreeRef) (fn : FnId) : Prop :=
  ∃ s ∈ subtrees, fnOf s = fn ∧ ∃ t ∈ subtrees, t.hash = s.hash ∧ t.path ≠ s.path

/-- In a family with another file the function is the first, or another file sorts before its own. -/
def Led (subtrees : List SubtreeRef) (fn : FnId) : Prop :=
  ∃ s ∈ subtrees, fnOf s = fn ∧ (∃ t ∈ subtrees, t.hash = s.hash ∧ t.path ≠ s.path) ∧
    ((∀ t ∈ subtrees, t.hash = s.hash → fn ≤ fnOf t) ∨ ∃ t ∈ subtrees, t.hash = s.hash ∧ t.path < s.path)

/-- `out` is what a scan of the scope reports, as the blocks of these matches. -/
def ReportOf (subtrees : List SubtreeRef) (scope : List String) (values : List Match) (out : List DuplicateBlock) : Prop :=
  ∃ best, Pairs subtrees best ∧ values.Perm (best.entries.map Prod.snd) ∧ out = scopeBlocks (sortBlocks (values.map blockOf)) scope

variable {subtrees : List SubtreeRef} {scope : List String}

theorem scopedReport_iff {out : List DuplicateBlock} :
    ScopedReport subtrees scope out ↔ ∃ values, ReportOf subtrees scope values out := by
  constructor
  · rintro ⟨raw, ⟨best, values, pairs, perm, rfl⟩, rfl⟩
    exact ⟨values, best, pairs, perm, rfl⟩
  · rintro ⟨values, best, pairs, perm, rfl⟩
    exact ⟨_, ⟨best, values, pairs, perm, rfl⟩, rfl⟩

/-- The function is on a side of a match whose block is reported. -/
def Shown (scope : List String) (values : List Match) (out : List DuplicateBlock) (fn : FnId) : Prop :=
  ∃ m ∈ values, (fnOf m.lo = fn ∨ fnOf m.hi = fn) ∧ ∃ block ∈ out, scopeBlock scope (blockOf m) = some block

/-! ## Links of a family -/

theorem order_le (a b : SubtreeRef) : fnOf (order a b).1 ≤ fnOf (order a b).2 := by
  unfold order
  split
  · assumption
  · rename_i later
    exact (lt_of_not_ge later).le

theorem order_fst {a b : SubtreeRef} (later : fnOf b < fnOf a) : order a b = (b, a) := by
  rw [order, if_neg (not_le_of_gt later)]

variable {s t : SubtreeRef}

theorem path_le (earlier : fnOf s ≤ fnOf t) : s.path ≤ t.path := by
  rcases Prod.Lex.le_iff.mp earlier with less | ⟨same, -⟩
  · exact le_of_lt less
  · exact le_of_eq same

theorem path_lt (earlier : fnOf s ≤ fnOf t) (apart : s.path ≠ t.path) : s.path < t.path :=
  lt_of_le_of_ne (path_le earlier) apart

theorem fn_lt (earlier : s.path < t.path) : fnOf s < fnOf t := Prod.Lex.lt_iff.mpr (.inl earlier)

variable {fam : List SubtreeRef}

/-- The first member of a family is of its first function. -/
theorem first_least {rest : List SubtreeRef} {first : SubtreeRef}
    (sorted : (fam.insertionSort fun a b => sortKey a ≤ sortKey b) = first :: rest) :
    first ∈ fam ∧ ∀ t ∈ fam, fnOf first ≤ fnOf t := by
  have inside {t : SubtreeRef} : t ∈ first :: rest ↔ t ∈ fam := by rw [← sorted, List.mem_insertionSort]
  refine ⟨inside.mp (List.mem_cons_self ..), fun t member => ?_⟩
  have ordered : (first :: rest).Pairwise fun a b => sortKey a ≤ sortKey b := by
    rw [← sorted]
    exact List.pairwise_insertionSort (fun a b => sortKey a ≤ sortKey b) fam
  rcases List.mem_cons.mp (inside.mpr member) with rfl | later
  · exact le_rfl
  · have below := (List.pairwise_cons.mp ordered).1 t later
    rcases Prod.Lex.le_iff.mp below with less | ⟨same, -⟩
    · exact le_of_lt less
    · exact le_of_eq same

/-- One side of each link is of the family's first function. -/
theorem linked_first {m : Match} (linked : m ∈ links fam) : fnOf m.lo ≤ fnOf m.hi ∧ ∀ t ∈ fam, fnOf m.lo ≤ fnOf t := by
  unfold links at linked
  split at linked
  · cases linked
  dsimp only at linked
  split at linked
  · cases linked
  rename_i first rest sorted
  split at linked
  · cases linked
  rename_i other found
  obtain ⟨-, least⟩ := first_least sorted
  obtain ⟨member, here, rfl⟩ := List.mem_map.mp linked
  have up := order_le member (if fnOf member = fnOf first then other else first)
  refine ⟨up, fun t there => le_trans ?_ (least t there)⟩
  show fnOf (order member (if fnOf member = fnOf first then other else first)).1 ≤ fnOf first
  by_cases own : fnOf member = fnOf first
  · rw [if_pos own, order]
    split
    · exact le_of_eq own
    · rename_i later
      exact own ▸ (lt_of_not_ge later).le
  · rw [if_neg own, order]
    split
    · assumption
    · exact le_rfl

/-- Each function of a family but the first is linked to the first. -/
theorem linked_to_first (here : s ∈ fam) (least : ∀ u ∈ fam, fnOf s ≤ fnOf u) (there : t ∈ fam) (apart : fnOf t ≠ fnOf s) :
    ∃ m ∈ links fam, fnOf m.lo = fnOf s ∧ fnOf m.hi = fnOf t := by
  have two : ¬ fam.length < 2 := by
    intro short
    match fam, here, there, short with
    | [_], here, there, _ =>
      rw [List.mem_singleton.mp here, List.mem_singleton.mp there] at apart
      exact apart rfl
  cases sorted : fam.insertionSort fun a b => sortKey a ≤ sortKey b with
  | nil =>
    have none_ : s ∈ ([] : List SubtreeRef) := by rw [← sorted, List.mem_insertionSort]; exact here
    exact nomatch none_
  | cons first rest =>
    obtain ⟨inside, earliest⟩ := first_least sorted
    have same : fnOf first = fnOf s := le_antisymm (earliest s here) (least first inside)
    have sortedIn : t ∈ first :: rest := by rw [← sorted, List.mem_insertionSort]; exact there
    have apart' : fnOf t ≠ fnOf first := fun own => apart (own.trans same)
    cases found : (first :: rest).find? fun u => fnOf u ≠ fnOf first with
    | none =>
      have all := List.find?_eq_none.mp found t sortedIn
      exact absurd apart' (by simpa using all)
    | some other =>
      have later : fnOf first < fnOf t := lt_of_le_of_ne (earliest t there) (Ne.symm apart')
      refine ⟨link t first, ?_, ?_⟩
      · simp only [links, if_neg two, sorted, found]
        exact List.mem_map.mpr ⟨t, sortedIn, by rw [if_neg apart']⟩
      · rw [link, order_fst later]
        exact ⟨same, rfl⟩

/-! ## Functions shown -/

theorem mem_family {hash : UInt64} : s ∈ family subtrees hash ↔ s ∈ subtrees ∧ s.hash = hash := by
  simp [family]

/-- A family has a member of its first function. -/
theorem exists_least (here : s ∈ fam) : ∃ first ∈ fam, ∀ t ∈ fam, fnOf first ≤ fnOf t := by
  cases sorted : fam.insertionSort fun a b => sortKey a ≤ sortKey b with
  | nil =>
    have none_ : s ∈ ([] : List SubtreeRef) := by rw [← sorted, List.mem_insertionSort]; exact here
    exact nomatch none_
  | cons first rest => exact ⟨first, first_least sorted⟩

variable {fn : FnId}

/-- The functions that have a link to another file. -/
theorem led_iff :
    Led subtrees fn ↔ ∃ hash, ∃ m ∈ links (family subtrees hash), (fnOf m.lo = fn ∨ fnOf m.hi = fn) ∧ m.lo.path ≠ m.hi.path := by
  constructor
  · rintro ⟨s, here, rfl, ⟨t, there, same, apart⟩, lead⟩
    have member : s ∈ family subtrees s.hash := mem_family.mpr ⟨here, rfl⟩
    refine ⟨s.hash, ?_⟩
    rcases lead with least | ⟨u, inside, own, earlier⟩
    · have leads : ∀ v ∈ family subtrees s.hash, fnOf s ≤ fnOf v := fun v known => least v (mem_family.mp known).1 (mem_family.mp known).2
      have differ : fnOf t ≠ fnOf s := fun equal => apart (congrArg pathOf equal)
      obtain ⟨m, linked, lo, hi⟩ := linked_to_first member leads (mem_family.mpr ⟨there, same⟩) differ
      refine ⟨m, linked, .inl lo, fun equal => apart ?_⟩
      have := congrArg pathOf lo
      have := congrArg pathOf hi
      simp_all [pathOf, fnOf]
    · obtain ⟨first, firstIn, least⟩ := exists_least member
      have before : first.path < s.path := lt_of_le_of_lt (path_le (least u (mem_family.mpr ⟨inside, own⟩))) earlier
      obtain ⟨m, linked, lo, hi⟩ := linked_to_first firstIn least member (ne_of_gt (fn_lt before))
      refine ⟨m, linked, .inr hi, fun equal => absurd before ?_⟩
      have := congrArg pathOf lo
      have := congrArg pathOf hi
      simp_all [pathOf, fnOf]
  · rintro ⟨hash, m, linked, side, apart⟩
    obtain ⟨loIn, hiIn⟩ := mem_links linked
    obtain ⟨loKnown, loHash⟩ := mem_family.mp loIn
    obtain ⟨hiKnown, hiHash⟩ := mem_family.mp hiIn
    obtain ⟨ordered, least⟩ := linked_first linked
    rcases side with rfl | rfl
    · refine ⟨m.lo, loKnown, rfl, ⟨m.hi, hiKnown, hiHash.trans loHash.symm, Ne.symm apart⟩, .inl fun t known own => ?_⟩
      exact least t (mem_family.mpr ⟨known, own.trans loHash⟩)
    · refine ⟨m.hi, hiKnown, rfl, ⟨m.lo, loKnown, loHash.trans hiHash.symm, apart⟩, .inr ⟨m.lo, loKnown, loHash.trans hiHash.symm, ?_⟩⟩
      exact path_lt ordered apart

/-- A pair of functions has a best match just when one of its links is in some family. -/
theorem get_isSome {best : Best} (pairs : Pairs subtrees best) {pair : FnId × FnId} :
    (∃ m, best.get pair = some m) ↔ ∃ hash, ∃ m ∈ links (family subtrees hash), m.pair = pair := by
  obtain ⟨walk, perm, rfl⟩ := pairs
  have reached (hash : UInt64) : (∃ m, topOf subtrees pair hash = some m) ↔ ∃ m ∈ links (family subtrees hash), m.pair = pair := by
    rw [← Option.isSome_iff_exists, ← Option.ne_none_iff_isSome, topOf, Ne, firstMax_eq_none, matchesOf, List.filter_eq_nil_iff]
    simp
  rw [get_bestOf]
  constructor
  · rintro ⟨m, found⟩
    obtain ⟨hash, -, top⟩ := List.mem_filterMap.mp (mem_of_firstMax found)
    exact ⟨hash, (reached hash).mp ⟨m, top⟩⟩
  · rintro ⟨hash, linked⟩
    obtain ⟨m, top⟩ := (reached hash).mpr linked
    have walked : hash ∈ walk := perm.mem_iff.mpr (hash_known (Option.isSome_iff_exists.mpr ⟨m, top⟩))
    apply Option.isSome_iff_exists.mp
    apply Option.ne_none_iff_isSome.mp
    rw [Ne, firstMax_eq_none]
    exact List.ne_nil_of_mem (List.mem_filterMap.mpr ⟨hash, walked, top⟩)

theorem shown_iff_led {values : List Match} {out : List DuplicateBlock} (report : ReportOf subtrees scope values out)
    (inScope : pathOf fn ∈ scope) : Shown scope values out fn ↔ Led subtrees fn := by
  obtain ⟨best, pairs, perm, rfl⟩ := report
  have value {m : Match} : m ∈ values ↔ best.get m.pair = some m := by
    rw [perm.mem_iff, List.mem_map]
    constructor
    · rintro ⟨⟨pair, m⟩, entry, rfl⟩
      have found := InsertionMap.get_eq_some.mpr entry
      rwa [← pair_of_get pairs found] at found
    · exact fun found => ⟨_, InsertionMap.get_eq_some.mp found, rfl⟩
  rw [led_iff]
  constructor
  · rintro ⟨m, member, side, block, -, kept⟩
    have apart := (scopeBlock_isSome.mp (Option.isSome_iff_exists.mpr ⟨block, kept⟩)).1
    obtain ⟨hash, m', linked, own⟩ := (get_isSome pairs).mp ⟨m, value.mp member⟩
    have lo : fnOf m'.lo = fnOf m.lo := congrArg Prod.fst own
    have hi : fnOf m'.hi = fnOf m.hi := congrArg Prod.snd own
    refine ⟨hash, m', linked, lo ▸ hi ▸ side, fun equal => apart ?_⟩
    calc pathOf (fnOf m.lo) = m'.lo.path := congrArg pathOf lo.symm
      _ = m'.hi.path := equal
      _ = pathOf (fnOf m.hi) := congrArg pathOf hi
  · rintro ⟨hash, m', linked, side, apart⟩
    obtain ⟨m, found⟩ := (get_isSome pairs).mpr ⟨hash, m', linked, rfl⟩
    have own : m.pair = m'.pair := pair_of_get pairs found
    have lo : fnOf m.lo = fnOf m'.lo := congrArg Prod.fst own
    have hi : fnOf m.hi = fnOf m'.hi := congrArg Prod.snd own
    have kept : InScope scope m.pair := by
      rw [own]
      refine ⟨apart, ?_⟩
      rcases side with rfl | rfl
      · exact .inl inScope
      · exact .inr inScope
    obtain ⟨block, shown⟩ := Option.isSome_iff_exists.mp (scopeBlock_isSome.mpr kept)
    have member : m ∈ values := value.mpr (own ▸ found)
    refine ⟨m, member, lo ▸ hi ▸ side, block, ?_, shown⟩
    exact List.mem_filterMap.mpr ⟨blockOf m, (List.mem_insertionSort _).mpr (List.mem_map.mpr ⟨m, member, rfl⟩), shown⟩

/-! ## The corpus -/

theorem mem_scopedSubtrees {g : Grammars} {files : List (String × String)} {opts : DupOptions} :
    s ∈ scopedSubtrees g files scope opts ↔ s ∈ wholeSubtrees g files opts ∧
      (s.path ∈ scope ∨ ∃ t ∈ wholeSubtrees g files opts, t.path ∈ scope ∧ t.hash = s.hash) := by
  have inside {t : SubtreeRef} : (t ∈ (files.filter fun file => file.1 ∈ scope).flatMap fun file => scanFile g file.1 file.2 opts none) ↔
      t ∈ wholeSubtrees g files opts ∧ t.path ∈ scope := by
    simp only [wholeSubtrees, List.mem_flatMap, List.mem_filter, decide_eq_true_eq]
    constructor
    · rintro ⟨file, ⟨known, covered⟩, read⟩
      exact ⟨⟨file, known, read⟩, path_of_scanFile read ▸ covered⟩
    · rintro ⟨⟨file, known, read⟩, covered⟩
      exact ⟨file, ⟨known, path_of_scanFile read ▸ covered⟩, read⟩
  have outside : (s ∈ (files.filter fun file => !(file.1 ∈ scope)).flatMap fun file => scanFile g file.1 file.2 opts none) ↔
      s ∈ wholeSubtrees g files opts ∧ s.path ∉ scope := by
    simp only [wholeSubtrees, List.mem_flatMap, List.mem_filter, Bool.not_eq_true', decide_eq_false_iff_not]
    constructor
    · rintro ⟨file, ⟨known, away⟩, read⟩
      exact ⟨⟨file, known, read⟩, path_of_scanFile read ▸ away⟩
    · rintro ⟨⟨file, known, read⟩, away⟩
      exact ⟨file, ⟨known, path_of_scanFile read ▸ away⟩, read⟩
  have wanted : (s ∈ (files.filter fun file => !(file.1 ∈ scope)).flatMap fun file => scanFile g file.1 file.2 opts
        (some (((files.filter fun file => file.1 ∈ scope).flatMap fun file => scanFile g file.1 file.2 opts none).map SubtreeRef.hash))) ↔
      (s ∈ wholeSubtrees g files opts ∧ s.path ∉ scope) ∧ ∃ t ∈ wholeSubtrees g files opts, t.path ∈ scope ∧ t.hash = s.hash := by
    simp only [scanFile_wanted]
    rw [← List.filter_flatMap, List.mem_filter, outside, decide_eq_true_eq, List.mem_map]
    simp only [inside, and_assoc]
  rw [scopedSubtrees, List.mem_append, inside, wanted]
  tauto

/-- What leads a function of the scope is in the scan. -/
theorem led_scoped {g : Grammars} {files : List (String × String)} {opts : DupOptions} (inScope : pathOf fn ∈ scope) :
    Led (scopedSubtrees g files scope opts) fn ↔ Led (wholeSubtrees g files opts) fn := by
  have scanned {s t : SubtreeRef} (known : s ∈ wholeSubtrees g files opts) (own : fnOf s = fn) (same : t.hash = s.hash) :
      t ∈ scopedSubtrees g files scope opts ↔ t ∈ wholeSubtrees g files opts := by
    rw [mem_scopedSubtrees]
    have covered : s.path ∈ scope := by
      rw [← own] at inScope
      exact inScope
    exact and_iff_left (.inr ⟨s, known, covered, same.symm⟩)
  constructor
  · rintro ⟨s, here, own, ⟨t, there, same, apart⟩, lead⟩
    have known := (mem_scopedSubtrees.mp here).1
    refine ⟨s, known, own, ⟨t, (scanned known own same).mp there, same, apart⟩, ?_⟩
    rcases lead with least | ⟨u, inside, equal, earlier⟩
    · exact .inl fun t also equal => least t ((scanned known own equal).mpr also) equal
    · exact .inr ⟨u, (scanned known own equal).mp inside, equal, earlier⟩
  · rintro ⟨s, known, own, ⟨t, there, same, apart⟩, lead⟩
    refine ⟨s, (scanned known own rfl).mpr known, own, ⟨t, (scanned known own same).mpr there, same, apart⟩, ?_⟩
    rcases lead with least | ⟨u, inside, equal, earlier⟩
    · exact .inl fun t also equal => least t ((scanned known own equal).mp also) equal
    · exact .inr ⟨u, (scanned known own equal).mpr inside, equal, earlier⟩

/-- A function of the scope that is cloned in another file is shown just when it leads a family with
another file or another file does. -/
theorem clone_shown_iff (g : Grammars) (files : List (String × String)) (scope : List String) (opts : DupOptions)
    {values : List Match} {out : List DuplicateBlock} (report : ReportOf (scopedSubtrees g files scope opts) scope values out)
    (fn : FnId) (inScope : pathOf fn ∈ scope) :
    (Cloned (wholeSubtrees g files opts) fn → Shown scope values out fn) ↔
      (Cloned (wholeSubtrees g files opts) fn → Led (wholeSubtrees g files opts) fn) := by
  rw [shown_iff_led report inScope, led_scoped inScope]

/-- Every text is functions of one shape, one for each of its lines. -/
def lineGrammars : Grammars where
  languageForPath _ := some .rust
  parse _ text :=
    some (.mk "source_file" 0 text.utf8ByteSize 0 0
      (if text = "fn f() \x7b\x7d\nfn g() \x7b\x7d" then [.mk "function_item" 0 9 0 0 [], .mk "function_item" 10 19 1 1 []]
      else [.mk "function_item" 0 9 0 0 []]))
  isFunctionNode _ node _ := node.kind == "function_item"
  isSkipNode _ _ _ := false

def lineFiles : List (String × String) := [("a.rs", "fn f() \x7b\x7d\nfn g() \x7b\x7d"), ("b.rs", "fn h() \x7b\x7d")]

def lineSubtrees : List SubtreeRef :=
  [⟨"a.rs", 0, 9, 1, 1, 1, 16762844708711245905⟩, ⟨"a.rs", 10, 19, 2, 2, 1, 16762844708711245905⟩,
    ⟨"b.rs", 0, 9, 1, 1, 1, 16762844708711245905⟩]

theorem lineSubtrees_scoped : scopedSubtrees lineGrammars lineFiles ["a.rs"] ⟨1, 1⟩ = lineSubtrees := by
  decide +kernel

theorem lineSubtrees_whole : wholeSubtrees lineGrammars lineFiles ⟨1, 1⟩ = lineSubtrees := by
  decide +kernel

/-- The matches of the one family. -/
def lineValues : List Match := (bestOf ([16762844708711245905].map (family lineSubtrees))).entries.map Prod.snd

theorem lineValues_report : ReportOf (scopedSubtrees lineGrammars lineFiles ["a.rs"] ⟨1, 1⟩) ["a.rs"] lineValues
    [⟨"a.rs", 1, 1, "b.rs", 1, 1, 1⟩] := by
  rw [lineSubtrees_scoped]
  exact ⟨_, ⟨[16762844708711245905], by decide, rfl⟩, List.Perm.refl _, by decide⟩

theorem clone_shown_line :
    (Cloned (wholeSubtrees lineGrammars lineFiles ⟨1, 1⟩) (toLex ("a.rs", toLex (0, 9))) →
        Shown ["a.rs"] lineValues [⟨"a.rs", 1, 1, "b.rs", 1, 1, 1⟩] (toLex ("a.rs", toLex (0, 9)))) ↔
      (Cloned (wholeSubtrees lineGrammars lineFiles ⟨1, 1⟩) (toLex ("a.rs", toLex (0, 9))) →
        Led (wholeSubtrees lineGrammars lineFiles ⟨1, 1⟩) (toLex ("a.rs", toLex (0, 9)))) :=
  clone_shown_iff lineGrammars lineFiles ["a.rs"] ⟨1, 1⟩ lineValues_report (toLex ("a.rs", toLex (0, 9))) (by decide)

/-- The second function of `a.rs` is cloned in `b.rs` and on no block. -/
theorem clone_unshown : ¬ ∀ (g : Grammars) (files : List (String × String)) (scope : List String) (opts : DupOptions)
    (values : List Match) (out : List DuplicateBlock), ReportOf (scopedSubtrees g files scope opts) scope values out →
    ∀ fn, pathOf fn ∈ scope → Cloned (wholeSubtrees g files opts) fn → Shown scope values out fn := by
  intro all
  have cloned : Cloned (wholeSubtrees lineGrammars lineFiles ⟨1, 1⟩) (toLex ("a.rs", toLex (10, 19))) := by
    rw [lineSubtrees_whole]
    exact ⟨⟨"a.rs", 10, 19, 2, 2, 1, 16762844708711245905⟩, by decide, rfl, ⟨"b.rs", 0, 9, 1, 1, 1, 16762844708711245905⟩, by decide, rfl,
      by decide⟩
  obtain ⟨m, member, side, block, -, kept⟩ := all _ _ _ _ _ _ lineValues_report (toLex ("a.rs", toLex (10, 19))) (by decide) cloned
  have unkept : ∀ m ∈ lineValues, fnOf m.lo = toLex ("a.rs", toLex (10, 19)) ∨ fnOf m.hi = toLex ("a.rs", toLex (10, 19)) →
      scopeBlock ["a.rs"] (blockOf m) = none := by
    decide
  rw [unkept m member side] at kept
  exact nomatch kept

end Oxplow.Proofs.ClonedFunctions
