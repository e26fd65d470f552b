import Oxplow.Library.Buckets
import Oxplow.Git.AstMerge

/-! The structural merge loses and duplicates no declaration: the ordered list
holds the winner of every key once, and nothing else. -/

namespace Oxplow.Proofs.AstMerge
open Library Ast

/-! ## Maps -/

/-- The item of a list that has a key. -/
def withKey (items : List Item) (key : String) : Option Item := items.find? (·.key = key)

variable {items : List Item} {key : String} {item : Item}

theorem withKey_key (found : withKey items key = some item) : item.key = key := by
  simpa using List.find?_some found

theorem withKey_isSome_iff (items : List Item) (key : String) :
    (withKey items key).isSome = true ↔ key ∈ items.map Item.key := by
  simp [withKey, List.find?_isSome]

/-- A side with distinct keys is indexed, and its map answers each key with the
item that has it. -/
theorem indexByKey_distinct (distinct : (items.map Item.key).Nodup) :
    ∃ map : ItemMap, indexByKey items = some map ∧ ∀ key, map.get key = withKey items key := by
  have loop : ∀ (items : List Item) (start : ItemMap), (items.map Item.key).Nodup →
      (∀ it ∈ items, start.get it.key = none) →
      ∃ map : ItemMap, items.foldlM (fun (map : ItemMap) it =>
          if map.containsKey it.key then none else some (map.insert it.key it)) start = some map ∧
        ∀ key, map.get key = (withKey items key).or (start.get key) := by
    intro items
    induction items with
    | nil => exact fun start _ _ => ⟨start, rfl, fun key => rfl⟩
    | cons it items ih =>
      intro start distinct free
      have fresh := (List.nodup_cons.mp distinct).1
      have unused := free it (by simp)
      have later : ∀ other ∈ items, (start.insert it.key it).get other.key = none := by
        intro other member
        have differ : other.key ≠ it.key := fun same => fresh (same ▸ List.mem_map_of_mem member)
        rw [Table.get_insert, if_neg differ]
        exact free other (by simp [member])
      obtain ⟨map, built, answers⟩ := ih (start.insert it.key it) distinct.of_cons later
      refine ⟨map, ?_, ?_⟩
      · rw [List.foldlM_cons]
        simpa [Table.containsKey, unused] using built
      · intro key
        rw [answers key, Table.get_insert]
        unfold withKey
        by_cases same : key = it.key
        · have absent : items.find? (·.key = key) = none := by
            apply List.find?_eq_none.mpr
            intro other member
            have differ : other.key ≠ key := fun eq => fresh (same ▸ eq ▸ List.mem_map_of_mem member)
            simpa using differ
          subst same
          simp [absent]
        · have differ : it.key ≠ key := fun eq => same eq.symm
          simp [same, differ]
  obtain ⟨map, built, answers⟩ := loop items [] distinct (fun _ _ => rfl)
  refine ⟨map, built, ?_⟩
  intro key
  simpa [Table.get] using answers key

/-! ## The resolved keys -/

variable {bmap omap tmap : ItemMap}

theorem mem_allKeys (key : String) :
    key ∈ allKeys bmap omap tmap ↔ bmap.containsKey key = true ∨ omap.containsKey key = true ∨ tmap.containsKey key = true := by
  unfold allKeys
  rw [List.mem_dedup, List.mem_insertionSort, List.mem_append, List.mem_append]
  simp only [Table.mem_keys_iff, or_assoc]

/-- A key no side has is dropped. -/
theorem mem_allKeys_of_kept (kept : classify (bmap.get key) (omap.get key) (tmap.get key) = .ok (some item)) :
    key ∈ allKeys bmap omap tmap := by
  rw [mem_allKeys]
  unfold Table.containsKey
  by_contra absent
  simp only [not_or, Bool.not_eq_true, Option.isSome_eq_false_iff, Option.isNone_iff_eq_none] at absent
  obtain ⟨inBase, inOurs, inTheirs⟩ := absent
  rw [inBase, inOurs, inTheirs] at kept
  cases kept

/-- Without a conflict, the resolved map answers each key with the item its
classification keeps. -/
theorem resolveKeys_agree (agree : ∀ key, classify (bmap.get key) (omap.get key) (tmap.get key) ≠ .error {}) :
    (resolveKeys bmap omap tmap).2 = [] ∧
      ∀ key item, (resolveKeys bmap omap tmap).1.get key = some item ↔
        classify (bmap.get key) (omap.get key) (tmap.get key) = .ok (some item) := by
  have loop : ∀ (keys : List String) (resolved : ItemMap) (conflicts : List String),
      (∀ key item, resolved.get key = some item →
        classify (bmap.get key) (omap.get key) (tmap.get key) = .ok (some item)) →
      let result := keys.foldl (resolveKey bmap omap tmap) (resolved, conflicts)
      result.2 = conflicts ∧ ∀ key item, result.1.get key = some item ↔
        resolved.get key = some item ∨
          key ∈ keys ∧ classify (bmap.get key) (omap.get key) (tmap.get key) = .ok (some item) := by
    intro keys
    induction keys with
    | nil => simp
    | cons first keys ih =>
      intro resolved conflicts consistent
      rw [List.foldl_cons, resolveKey]
      cases outcome : classify (bmap.get first) (omap.get first) (tmap.get first) with
      | error overlap => exact absurd outcome (agree first)
      | ok kept =>
        cases kept with
        | none =>
          obtain ⟨clean, answers⟩ := ih resolved conflicts consistent
          refine ⟨clean, ?_⟩
          intro key item
          rw [answers key item]
          by_cases same : key = first
          · subst same
            simp [outcome]
          · simp [same]
        | some winner =>
          obtain ⟨clean, answers⟩ := ih (resolved.insert first winner) conflicts (by
            intro key item found
            rw [Table.get_insert] at found
            by_cases same : key = first
            · subst same
              rw [if_pos rfl] at found
              rw [outcome, found]
            · rw [if_neg same] at found
              exact consistent key item found)
          refine ⟨clean, ?_⟩
          intro key item
          rw [answers key item, Table.get_insert]
          by_cases same : key = first
          · subst same
            have earlier := consistent key item
            rw [outcome] at earlier
            simp only [if_true, List.mem_cons, true_or, true_and, outcome]
            constructor
            · rintro (found | ⟨_, kept⟩)
              · exact .inr (by rw [found])
              · exact .inr kept
            · rintro (found | kept)
              · exact .inl (by simpa using earlier found)
              · exact .inl (by simpa using kept)
          · simp [same]
  obtain ⟨clean, answers⟩ := loop (allKeys bmap omap tmap) [] [] (by simp [Table.get])
  refine ⟨clean, ?_⟩
  intro key item
  refine (answers key item).trans ?_
  constructor
  · rintro (found | ⟨_, kept⟩)
    · cases found
    · exact kept
  · exact fun kept => .inr ⟨mem_allKeys_of_kept kept, kept⟩

/-! ## The buckets -/

section
variable (bmap omap resolved : ItemMap)

/-- What a side's walk puts into the buckets, with the anchor of each item. -/
def placements (skipBothAdd : Bool) : Option String → List Item → List (Option String × Item)
  | _, [] => []
  | anchor, it :: rest =>
    if bmap.containsKey it.key then
      placements skipBothAdd (if resolved.containsKey it.key then some it.key else anchor) rest
    else if skipBothAdd && omap.containsKey it.key then placements skipBothAdd anchor rest
    else match resolved.get it.key with
      | some item => (anchor, item) :: placements skipBothAdd anchor rest
      | none => placements skipBothAdd anchor rest

/-- The placements at one anchor, in order. -/
def bucketOf (anchor : Option String) (entries : List (Option String × Item)) : List Item :=
  (entries.filter (·.1 = anchor)).map (·.2)

theorem bucketOf_append (anchor : Option String) (first rest : List (Option String × Item)) :
    bucketOf anchor (first ++ rest) = bucketOf anchor first ++ bucketOf anchor rest := by
  simp [bucketOf]

theorem bucketOf_cons (anchor : Option String) (entry : Option String × Item) (rest : List (Option String × Item)) :
    bucketOf anchor (entry :: rest) = bucketOf anchor [entry] ++ bucketOf anchor rest :=
  bucketOf_append anchor [entry] rest

theorem push_buckets (buckets : Buckets) (anchor : Option String) (item : Item) :
    (buckets.push anchor item).front = buckets.front ++ bucketOf none [(anchor, item)] ∧
      ∀ key, (buckets.push anchor item).after key = buckets.after key ++ bucketOf (some key) [(anchor, item)] := by
  cases anchor with
  | none => simp [Buckets.push, bucketOf]
  | some anchor =>
    refine ⟨by simp [Buckets.push, bucketOf], ?_⟩
    intro key
    by_cases same : key = anchor
    · simp [Buckets.push, bucketOf, same]
    · have differ : anchor ≠ key := fun eq => same eq.symm
      simp [Buckets.push, bucketOf, same, differ]

theorem place_buckets (skipBothAdd : Bool) (side : List Item) (buckets : Buckets) :
    (place bmap omap resolved buckets side skipBothAdd).front =
        buckets.front ++ bucketOf none (placements bmap omap resolved skipBothAdd none side) ∧
      ∀ key, (place bmap omap resolved buckets side skipBothAdd).after key =
        buckets.after key ++ bucketOf (some key) (placements bmap omap resolved skipBothAdd none side) := by
  have loop : ∀ (side : List Item) (anchor : Option String) (buckets : Buckets),
      let last := (side.foldl (placeItem bmap omap resolved skipBothAdd) (anchor, buckets)).2
      last.front = buckets.front ++ bucketOf none (placements bmap omap resolved skipBothAdd anchor side) ∧
        ∀ key, last.after key =
          buckets.after key ++ bucketOf (some key) (placements bmap omap resolved skipBothAdd anchor side) := by
    intro side
    induction side with
    | nil => simp [placements, bucketOf]
    | cons it side ih =>
      intro anchor buckets
      simp only [List.foldl_cons, placeItem, placements]
      by_cases inBase : bmap.containsKey it.key = true
      · rw [if_pos inBase, if_pos inBase]
        exact ih _ buckets
      · rw [if_neg inBase, if_neg inBase]
        by_cases skipped : (skipBothAdd && omap.containsKey it.key) = true
        · rw [if_pos skipped, if_pos skipped]
          exact ih _ buckets
        · rw [if_neg skipped, if_neg skipped]
          cases resolved.get it.key with
          | none => exact ih _ buckets
          | some item =>
            obtain ⟨front, after⟩ := ih anchor (buckets.push anchor item)
            obtain ⟨pushedFront, pushedAfter⟩ := push_buckets buckets anchor item
            refine ⟨?_, ?_⟩
            · rw [bucketOf_cons, ← List.append_assoc, ← pushedFront]
              exact front
            · intro key
              rw [bucketOf_cons, ← List.append_assoc, ← pushedAfter]
              exact after key
  exact loop side none buckets

/-- An anchor is a base key that survives. -/
theorem placements_anchor (skipBothAdd : Bool) (side : List Item) (anchor : Option String)
    (valid : ∀ key ∈ anchor, bmap.containsKey key = true ∧ resolved.containsKey key = true) :
    ∀ entry ∈ placements bmap omap resolved skipBothAdd anchor side,
      ∀ key ∈ entry.1, bmap.containsKey key = true ∧ resolved.containsKey key = true := by
  induction side generalizing anchor with
  | nil => simp [placements]
  | cons it side ih =>
    unfold placements
    split
    next inBase =>
      apply ih
      split
      next survives =>
        rintro key ⟨⟩
        exact ⟨inBase, survives⟩
      next => exact valid
    next =>
      split
      next => exact ih anchor valid
      next =>
        split
        next item found =>
          intro entry member
          rcases List.mem_cons.mp member with rfl | member
          · exact valid
          · exact ih anchor valid entry member
        next => exact ih anchor valid

/-- The items placed are the winners of the side's added keys, in its order. -/
theorem placements_items (skipBothAdd : Bool) (side : List Item) (anchor : Option String) :
    (placements bmap omap resolved skipBothAdd anchor side).map (·.2) =
      ((side.map Item.key).filter (fun key =>
        !bmap.containsKey key && !(skipBothAdd && omap.containsKey key))).filterMap resolved.get := by
  induction side generalizing anchor with
  | nil => rfl
  | cons it side ih =>
    unfold placements
    rw [List.map_cons, List.filter_cons]
    by_cases inBase : bmap.containsKey it.key = true
    · simp only [inBase, if_true, Bool.not_true, Bool.false_and, Bool.false_eq_true, if_false]
      exact ih _
    · by_cases skipped : (skipBothAdd && omap.containsKey it.key) = true
      · rw [if_neg inBase, if_pos skipped, if_neg (by simp [skipped])]
        exact ih anchor
      · rw [if_neg inBase, if_neg skipped, if_pos (by simp [inBase, skipped])]
        cases found : resolved.get it.key with
        | none =>
          rw [List.filterMap_cons_none found]
          exact ih anchor
        | some item =>
          rw [List.filterMap_cons_some found, List.map_cons, ih anchor]

/-- The keys of the merged list: the base's, what ours adds, and what only theirs adds. -/
def mergedKeys (base ours theirs : List Item) : List String :=
  base.map Item.key ++ (ours.map Item.key).filter (fun key => !bmap.containsKey key) ++
    (theirs.map Item.key).filter (fun key => !bmap.containsKey key && !omap.containsKey key)

/-- Emptying the buckets after the base keys that survive, and the front bucket,
gives every placement once. -/
theorem buckets_perm {base : List Item} (distinct : (base.map Item.key).Nodup)
    (indexed : ∀ key, bmap.containsKey key = true → key ∈ base.map Item.key)
    {entries : List (Option String × Item)}
    (anchored : ∀ entry ∈ entries, ∀ key ∈ entry.1, bmap.containsKey key = true ∧ resolved.containsKey key = true) :
    (bucketOf none entries ++
      ((base.map Item.key).filter resolved.containsKey).flatMap (fun key => bucketOf (some key) entries)).Perm
        (entries.map (·.2)) := by
  let anchors : List (Option String) := none :: ((base.map Item.key).filter resolved.containsKey).map some
  have once : anchors.Nodup := by
    refine List.nodup_cons.mpr ⟨by simp, ?_⟩
    exact (distinct.filter _).map (Option.some_injective _)
  have cover : ∀ entry ∈ entries, entry.1 ∈ anchors := by
    intro entry member
    cases anchor : entry.1 with
    | none => simp [anchors]
    | some key =>
      obtain ⟨inBase, survives⟩ := anchored entry member key (by simp [anchor])
      have listed := List.mem_filter.mpr ⟨indexed key inBase, survives⟩
      exact List.mem_cons_of_mem _ (List.mem_map_of_mem listed)
  have emptied := (flatMap_filter_perm_of_cover (fun entry : Option String × Item => entry.1) once cover).map (·.2)
  refine (List.Perm.of_eq ?_).trans emptied
  simp [anchors, bucketOf, List.flatMap_map, List.map_flatMap]

/-- The ordered list is the winners of the merged keys, in some order. -/
theorem orderItems_perm {base : List Item} (distinct : (base.map Item.key).Nodup)
    (indexed : ∀ key, bmap.containsKey key = true → key ∈ base.map Item.key) (ours theirs : List Item) :
    (orderItems bmap omap resolved base ours theirs).Perm
      ((mergedKeys bmap omap base ours theirs).filterMap resolved.get) := by
  let entries := placements bmap omap resolved false none ours ++ placements bmap omap resolved true none theirs
  obtain ⟨oursFront, oursAfter⟩ := place_buckets bmap omap resolved false ours .empty
  obtain ⟨theirsFront, theirsAfter⟩ := place_buckets bmap omap resolved true theirs
    (place bmap omap resolved .empty ours false)
  have front : (place bmap omap resolved (place bmap omap resolved .empty ours false) theirs true).front =
      bucketOf none entries := by
    rw [theirsFront, oursFront, bucketOf_append]
    rfl
  have after : ∀ key, (place bmap omap resolved (place bmap omap resolved .empty ours false) theirs true).after key =
      bucketOf (some key) entries := by
    intro key
    rw [theirsAfter, oursAfter, bucketOf_append]
    rfl
  have anchored : ∀ entry ∈ entries, ∀ key ∈ entry.1,
      bmap.containsKey key = true ∧ resolved.containsKey key = true := by
    intro entry member
    rcases List.mem_append.mp member with member | member
    · exact placements_anchor bmap omap resolved false ours none (by simp) entry member
    · exact placements_anchor bmap omap resolved true theirs none (by simp) entry member
  -- Each base item gives its winner and, when it has one, the bucket after it.
  have split : ∀ base : List Item, (base.flatMap fun it =>
      match resolved.get it.key with
      | some winner => winner :: bucketOf (some it.key) entries
      | none => []).Perm ((base.map Item.key).filterMap resolved.get ++
        ((base.map Item.key).filter resolved.containsKey).flatMap (fun key => bucketOf (some key) entries)) := by
    intro base
    induction base with
    | nil => simp
    | cons it base ih =>
      rw [List.flatMap_cons, List.map_cons]
      cases found : resolved.get it.key with
      | none =>
        rw [List.filterMap_cons_none found, List.filter_cons_of_neg (by simp [Table.containsKey, found])]
        exact ih
      | some winner =>
        rw [List.filterMap_cons_some found, List.filter_cons_of_pos (by simp [Table.containsKey, found]),
          List.flatMap_cons, List.cons_append, List.cons_append]
        refine List.Perm.cons _ ?_
        refine (ih.append_left _).trans ?_
        simp only [← List.append_assoc]
        exact List.perm_append_comm.append_right _
  have placed := buckets_perm bmap resolved distinct indexed anchored
  have items : entries.map (·.2) = ((ours.map Item.key).filter (fun key => !bmap.containsKey key)).filterMap resolved.get ++
      ((theirs.map Item.key).filter (fun key => !bmap.containsKey key && !omap.containsKey key)).filterMap
        resolved.get := by
    rw [List.map_append, placements_items, placements_items]
    simp
  unfold orderItems mergedKeys
  simp only [front, after, List.filterMap_append, List.append_assoc]
  rw [← items]
  refine ((split base).append_left _).trans ?_
  rw [← List.append_assoc]
  refine (List.perm_append_comm.append_right _).trans ?_
  rw [List.append_assoc]
  exact placed.append_left _

end

/-- An item that is kept is ours' or theirs'. -/
theorem classify_kept {b o t : Option Item} (kept : classify b o t = .ok (some item)) : o = some item ∨ t = some item := by
  revert kept
  cases b <;> cases o <;> cases t <;> simp only [classify] <;> repeat' split
  all_goals simp +contextual

variable {base ours theirs : List Item}

theorem kept_key (kept : classify (withKey base key) (withKey ours key) (withKey theirs key) = .ok (some item)) :
    item.key = key := by
  rcases classify_kept kept with found | found
  · exact withKey_key found
  · exact withKey_key found

theorem containsKey_iff {map : ItemMap} (get : ∀ key, map.get key = withKey items key) (key : String) :
    map.containsKey key = true ↔ key ∈ items.map Item.key := by
  rw [← withKey_isSome_iff, Table.containsKey, get]

theorem mergedKeys_distinct (baseGet : ∀ key, bmap.get key = withKey base key) (oursGet : ∀ key, omap.get key = withKey ours key)
    (baseDistinct : (base.map Item.key).Nodup) (oursDistinct : (ours.map Item.key).Nodup)
    (theirsDistinct : (theirs.map Item.key).Nodup) : (mergedKeys bmap omap base ours theirs).Nodup := by
  unfold mergedKeys
  refine List.Nodup.append (List.Nodup.append baseDistinct (oursDistinct.filter _) ?_) (theirsDistinct.filter _) ?_
  · intro key inBase added
    have fresh := (List.mem_filter.mp added).2
    rw [(containsKey_iff baseGet key).mpr inBase] at fresh
    cases fresh
  · intro key earlier added
    have fresh := (List.mem_filter.mp added).2
    simp only [Bool.and_eq_true, Bool.not_eq_true'] at fresh
    rcases List.mem_append.mp earlier with inBase | inOurs
    · rw [(containsKey_iff baseGet key).mpr inBase] at fresh
      cases fresh.1
    · rw [(containsKey_iff oursGet key).mpr (List.mem_filter.mp inOurs).1] at fresh
      cases fresh.2

theorem mem_mergedKeys (oursGet : ∀ key, omap.get key = withKey ours key) (baseGet : ∀ key, bmap.get key = withKey base key)
    (some_side : key ∈ ours.map Item.key ∨ key ∈ theirs.map Item.key) : key ∈ mergedKeys bmap omap base ours theirs := by
  unfold mergedKeys
  rw [List.mem_append, List.mem_append, List.mem_filter, List.mem_filter]
  by_cases inBase : key ∈ base.map Item.key
  · exact .inl (.inl inBase)
  · have noBase : bmap.containsKey key = false := by
      rw [← Bool.not_eq_true, containsKey_iff baseGet]
      exact inBase
    by_cases inOurs : key ∈ ours.map Item.key
    · exact .inl (.inr ⟨inOurs, by simp [noBase]⟩)
    · have noOurs : omap.containsKey key = false := by
        rw [← Bool.not_eq_true, containsKey_iff oursGet]
        exact inOurs
      exact .inr ⟨some_side.resolve_left inOurs, by simp [noBase, noOurs]⟩

/-- For three sides with distinct keys and no key in conflict, the list handed to
`reconstruct` has the winner of each key once, and no other item. -/
theorem orderItems_exact (base ours theirs : List Item) (baseDistinct : (base.map Item.key).Nodup)
    (oursDistinct : (ours.map Item.key).Nodup) (theirsDistinct : (theirs.map Item.key).Nodup)
    (agree : ∀ key, classify (withKey base key) (withKey ours key) (withKey theirs key) ≠ .error {}) :
    ∃ bmap omap tmap resolved : ItemMap,
      indexByKey base = some bmap ∧ indexByKey ours = some omap ∧ indexByKey theirs = some tmap ∧
      resolveKeys bmap omap tmap = (resolved, []) ∧
      (∀ key item, classify (withKey base key) (withKey ours key) (withKey theirs key) = .ok (some item) →
        (orderItems bmap omap resolved base ours theirs).filter (·.key = key) = [item]) ∧
      ∀ item ∈ orderItems bmap omap resolved base ours theirs,
        classify (withKey base item.key) (withKey ours item.key) (withKey theirs item.key) = .ok (some item) := by
  obtain ⟨bmap, baseIndexed, baseGet⟩ := indexByKey_distinct baseDistinct
  obtain ⟨omap, oursIndexed, oursGet⟩ := indexByKey_distinct oursDistinct
  obtain ⟨tmap, theirsIndexed, theirsGet⟩ := indexByKey_distinct theirsDistinct
  have agreed : ∀ key, classify (bmap.get key) (omap.get key) (tmap.get key) ≠ .error {} := by
    intro key
    rw [baseGet, oursGet, theirsGet]
    exact agree key
  obtain ⟨clean, answers⟩ := resolveKeys_agree agreed
  simp only [baseGet, oursGet, theirsGet] at answers
  let resolved := (resolveKeys bmap omap tmap).1
  have ordered := orderItems_perm bmap omap resolved baseDistinct
    (fun key => (containsKey_iff baseGet key).mp) ours theirs
  have once := mergedKeys_distinct baseGet oursGet baseDistinct oursDistinct theirsDistinct
  refine ⟨bmap, omap, tmap, resolved, baseIndexed, oursIndexed, theirsIndexed, ?_, ?_, ?_⟩
  · rw [← clean]
  · intro key item kept
    have side : key ∈ ours.map Item.key ∨ key ∈ theirs.map Item.key := by
      rcases classify_kept kept with found | found
      · exact .inl ((withKey_isSome_iff ours key).mp (by simp [found]))
      · exact .inr ((withKey_isSome_iff theirs key).mp (by simp [found]))
    have carries : ∀ key item, resolved.get key = some item → item.key = key :=
      fun key item found => kept_key ((answers key item).mp found)
    have filtered := filter_filterMap_of_key resolved.get Item.key carries once key
    rw [if_pos (mem_mergedKeys oursGet baseGet side), (answers key item).mpr kept] at filtered
    have same := ordered.filter (fun item => decide (item.key = key))
    rw [filtered] at same
    exact List.perm_singleton.mp same
  · intro item member
    obtain ⟨key, _, found⟩ := List.mem_filterMap.mp (ordered.mem_iff.mp member)
    have kept := (answers key item).mp found
    rw [kept_key kept]
    exact kept

/-- Ours adds `use c;` before the first base item, theirs deletes `b` and adds
`d` after it. -/
theorem orderItems_exact_both_sides :
    let a : Item := ⟨"a", "fn a() {}", (0, 9)⟩
    let b : Item := ⟨"b", "fn b() {}", (10, 19)⟩
    let c : Item := ⟨"c", "use c;", (0, 6)⟩
    let d : Item := ⟨"d", "fn d() {}", (20, 29)⟩
    ∃ bmap omap tmap resolved : ItemMap,
      indexByKey [a, b] = some bmap ∧ indexByKey [c, a, b] = some omap ∧ indexByKey [a, d] = some tmap ∧
      resolveKeys bmap omap tmap = (resolved, []) ∧
      (∀ key item, classify (withKey [a, b] key) (withKey [c, a, b] key) (withKey [a, d] key) = .ok (some item) →
        (orderItems bmap omap resolved [a, b] [c, a, b] [a, d]).filter (·.key = key) = [item]) ∧
      ∀ item ∈ orderItems bmap omap resolved [a, b] [c, a, b] [a, d],
        classify (withKey [a, b] item.key) (withKey [c, a, b] item.key) (withKey [a, d] item.key) =
          .ok (some item) := by
  intro a b c d
  refine orderItems_exact [a, b] [c, a, b] [a, d] (by decide) (by decide) (by decide) ?_
  intro key
  by_cases isA : key = "a"
  · subst isA
    decide
  · by_cases isB : key = "b"
    · subst isB
      decide
    · by_cases isC : key = "c"
      · subst isC
        decide
      · by_cases isD : key = "d"
        · subst isD
          decide
        · simp [withKey, a, b, c, d, Ne.symm isA, Ne.symm isB, Ne.symm isC, Ne.symm isD, classify]

end Oxplow.Proofs.AstMerge
