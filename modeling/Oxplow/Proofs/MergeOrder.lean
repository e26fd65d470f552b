import Oxplow.Library.Anchors
import Oxplow.Proofs.AstMerge

/-! The order of a structural merge. Each addition goes where its side has it, after the last
surviving base item before it; what both sides add goes where ours has it. -/

namespace Oxplow.Proofs.MergeOrder
open Library Library.Anchors Ast AstMerge

/-! ## What is merged -/

/-- The items `mergeWithReconstruct` prints, when no key is in conflict. -/
def mergedList (base ours theirs : List Item) : Option (List Item) :=
  match indexByKey base, indexByKey ours, indexByKey theirs with
  | some bmap, some omap, some tmap =>
    if (resolveKeys bmap omap tmap).2 ≠ [] then none
    else some (orderItems bmap omap (resolveKeys bmap omap tmap).1 base ours theirs)
  | _, _, _ => none

theorem mergeWithReconstruct_merged {parse : String → Option (List Item)} {reconstruct : List Item → String}
    {base ours theirs : String} {b o t merged : List Item} (parsed : parse base = some b) (parsed' : parse ours = some o)
    (parsed'' : parse theirs = some t) (merges : mergedList b o t = some merged) :
    mergeWithReconstruct parse reconstruct base ours theirs =
      if (parse (reconstruct merged)).isNone then .bail .reparseFailed else .resolved (reconstruct merged) := by
  rw [mergedList] at merges
  split at merges
  · rename_i bmap omap tmap inBase inOurs inTheirs
    split at merges
    · cases merges
    · rename_i clean
      cases merges
      rw [mergeWithReconstruct, parsed, parsed', parsed'']
      simp only [inBase, inOurs, inTheirs]
      rw [if_neg clean]
  · cases merges

/-- What stands for a key, where the sides agree on it. -/
def winner (base ours theirs : List Item) (key : String) : Option Item :=
  match classify (withKey base key) (withKey ours key) (withKey theirs key) with
  | .ok kept => kept
  | .error _ => none

def survives (base ours theirs : List Item) (key : String) : Bool := (winner base ours theirs key).isSome

def keys (items : List Item) : List String := items.map Item.key

def inside (items : List Item) (key : String) : Bool := decide (key ∈ keys items)

theorem withKey_isSome (items : List Item) (key : String) : (withKey items key).isSome = inside items key := by
  rw [Bool.eq_iff_iff, withKey_isSome_iff, inside, decide_eq_true_eq, keys]

/-- A side's surviving additions, each with the surviving base item before it. -/
def entriesOf (base ours theirs side : List Item) : List (Option String × String) :=
  attach (inside base) (survives base ours theirs) none (keys side)

/-- What a side adds after a surviving base item, or before the first. -/
def added (base ours theirs side : List Item) (place : Option String) : List String :=
  bucket place (entriesOf base ours theirs side)

/-! ## The merged keys -/

section
variable {bmap omap resolved : ItemMap}

theorem placements_attach (carries : ∀ key item, resolved.get key = some item → item.key = key) (skipBothAdd : Bool)
    (side : List Item) (anchor : Option String) :
    (placements bmap omap resolved skipBothAdd anchor side).map (fun entry => (entry.1, entry.2.key)) =
      (attach bmap.containsKey resolved.containsKey anchor (keys side)).filter fun entry =>
        !(skipBothAdd && omap.containsKey entry.2) := by
  induction side generalizing anchor with
  | nil => rfl
  | cons it side ih =>
    rw [placements, keys, List.map_cons, attach]
    by_cases inBase : bmap.containsKey it.key = true
    · rw [if_pos inBase, if_pos inBase]
      exact ih _
    · rw [if_neg inBase, if_neg inBase]
      cases found : resolved.get it.key with
      | none =>
        have gone : ¬ resolved.containsKey it.key = true := by simp [Table.containsKey, found]
        rw [if_neg gone]
        split
        · exact ih anchor
        · exact ih anchor
      | some item =>
        have stays : resolved.containsKey it.key = true := by simp [Table.containsKey, found]
        rw [if_pos stays]
        by_cases skipped : (skipBothAdd && omap.containsKey it.key) = true
        · rw [if_pos skipped, List.filter_cons_of_neg (by simp [skipped])]
          exact ih anchor
        · rw [if_neg skipped, List.filter_cons_of_pos (by rw [Bool.eq_false_iff.mpr skipped]; rfl), List.map_cons, ih anchor, carries it.key item found]
          rfl

theorem bucketOf_keys (place : Option String) (entries : List (Option String × Item)) :
    (bucketOf place entries).map Item.key = bucket place (entries.map fun entry => (entry.1, entry.2.key)) := by
  rw [bucketOf, bucket, List.filter_map, List.map_map, List.map_map]
  rfl

theorem orderItems_flatMap (base ours theirs : List Item) : orderItems bmap omap resolved base ours theirs =
    (place bmap omap resolved (place bmap omap resolved .empty ours false) theirs true).front ++
      base.flatMap fun it => (resolved.get it.key).elim [] fun winner =>
        winner :: (place bmap omap resolved (place bmap omap resolved .empty ours false) theirs true).after it.key := by
  apply congrArg (HAppend.hAppend _)
  apply List.flatMap_congr
  intro it _
  cases resolved.get it.key with
  | none => rfl
  | some winner => rfl

theorem orderItems_spread (carries : ∀ key item, resolved.get key = some item → item.key = key) (base ours theirs : List Item) :
    keys (orderItems bmap omap resolved base ours theirs) =
      spread ((keys base).filter resolved.containsKey)
        (attach bmap.containsKey resolved.containsKey none (keys ours) ++
          (attach bmap.containsKey resolved.containsKey none (keys theirs)).filter fun entry => !omap.containsKey entry.2) := by
  have first := @placements_attach bmap omap resolved carries false ours none
  have second := @placements_attach bmap omap resolved carries true theirs none
  have all : ((attach bmap.containsKey resolved.containsKey none (keys ours)).filter fun entry =>
      !(false && omap.containsKey entry.2)) = attach bmap.containsKey resolved.containsKey none (keys ours) :=
    List.filter_eq_self.mpr fun _ _ => rfl
  rw [all] at first
  obtain ⟨oursFront, oursAfter⟩ := place_buckets bmap omap resolved false ours .empty
  obtain ⟨theirsFront, theirsAfter⟩ := place_buckets bmap omap resolved true theirs
    (place bmap omap resolved .empty ours false)
  have emptied : ∀ place, (bucketOf place (placements bmap omap resolved false none ours) ++
      bucketOf place (placements bmap omap resolved true none theirs)).map Item.key =
        bucket place (attach bmap.containsKey resolved.containsKey none (keys ours) ++
          (attach bmap.containsKey resolved.containsKey none (keys theirs)).filter fun entry => !omap.containsKey entry.2) := by
    intro place
    rw [List.map_append, bucketOf_keys, bucketOf_keys, first, second, bucket_append]
    rfl
  have walk : ∀ items : List Item, (items.flatMap fun it => (resolved.get it.key).elim [] fun winner =>
      winner :: (place bmap omap resolved (place bmap omap resolved .empty ours false) theirs true).after it.key).map Item.key = ((keys items).filter resolved.containsKey).flatMap fun key =>
        key :: bucket (some key) (attach bmap.containsKey resolved.containsKey none (keys ours) ++
          (attach bmap.containsKey resolved.containsKey none (keys theirs)).filter fun entry => !omap.containsKey entry.2) := by
    intro items
    induction items with
    | nil => rfl
    | cons it items ih =>
      have cut : keys (it :: items) = it.key :: keys items := rfl
      rw [List.flatMap_cons, List.map_append, ih, cut]
      cases found : resolved.get it.key with
      | none =>
        have gone : ¬ resolved.containsKey it.key = true := by simp [Table.containsKey, found]
        rw [List.filter_cons_of_neg gone]
        rfl
      | some item =>
        have stays : resolved.containsKey it.key = true := by simp [Table.containsKey, found]
        rw [List.filter_cons_of_pos stays, List.flatMap_cons, ← emptied (some it.key), theirsAfter, oursAfter]
        change item.key :: _ ++ _ = _
        rw [carries it.key item found]
        rfl
  rw [orderItems_flatMap, keys, List.map_append, theirsFront, oursFront]
  exact congrArg₂ (· ++ ·) (emptied none) (walk base)

end

/-! ## The merged list -/

section
variable {base ours theirs : List Item}

variable {key : String}

theorem winner_iff {item : Item} :
    winner base ours theirs key = some item ↔
    classify (withKey base key) (withKey ours key) (withKey theirs key) = .ok (some item) := by
  rw [winner]
  cases classify (withKey base key) (withKey ours key) (withKey theirs key) with
  | ok kept => simp
  | error _ => simp

theorem winner_key {item : Item} (found : winner base ours theirs key = some item) : item.key = key :=
  kept_key (winner_iff.mp found)

/-- A base item survives only where both sides still have it. -/
theorem survives_base (stays : survives base ours theirs key = true) (inBase : inside base key = true) :
    inside ours key = true ∧ inside theirs key = true := by
  obtain ⟨item, found⟩ := Option.isSome_iff_exists.mp stays
  have kept := winner_iff.mp found
  rw [← withKey_isSome] at inBase ⊢
  rw [← withKey_isSome]
  obtain ⟨b, hasBase⟩ := Option.isSome_iff_exists.mp inBase
  rw [hasBase] at kept
  cases inOurs : withKey ours key with
  | none =>
    rw [inOurs] at kept
    cases inTheirs : withKey theirs key with
    | none =>
      rw [inTheirs] at kept
      cases kept
    | some t =>
      rw [inTheirs, classify] at kept
      split at kept
      · cases kept
      · cases kept
  | some o =>
    rw [inOurs] at kept
    cases inTheirs : withKey theirs key with
    | none =>
      rw [inTheirs, classify] at kept
      split at kept
      · cases kept
      · cases kept
    | some t => exact ⟨rfl, rfl⟩

theorem filterMap_keys {resolved : ItemMap} (carries : ∀ key item, resolved.get key = some item → item.key = key)
    (list : List String) : keys (list.filterMap resolved.get) = list.filter resolved.containsKey := by
  induction list with
  | nil => rfl
  | cons key list ih =>
    cases found : resolved.get key with
    | none => rw [List.filterMap_cons_none found, List.filter_cons_of_neg (by simp [Table.containsKey, found]), ih]
    | some item =>
      rw [List.filterMap_cons_some found, List.filter_cons_of_pos (by simp [Table.containsKey, found]), ← ih, keys, List.map_cons,
        carries key item found]
      rfl

/-- The merged list has the winner of each key, and its keys are the surviving
base items with the additions after them. -/
theorem merged_exact (baseDistinct : (keys base).Nodup) (oursDistinct : (keys ours).Nodup) (theirsDistinct : (keys theirs).Nodup)
    (agree : ∀ key, classify (withKey base key) (withKey ours key) (withKey theirs key) ≠ .error {}) :
    ∃ merged, mergedList base ours theirs = some merged ∧
      keys merged = spread ((keys base).filter (survives base ours theirs)) (entriesOf base ours theirs ours ++
        (entriesOf base ours theirs theirs).filter fun entry => !inside ours entry.2) ∧
      (keys merged).Nodup ∧ ∀ key, withKey merged key = winner base ours theirs key := by
  obtain ⟨bmap, baseIndexed, baseGet⟩ := indexByKey_distinct baseDistinct
  obtain ⟨omap, oursIndexed, oursGet⟩ := indexByKey_distinct oursDistinct
  obtain ⟨tmap, theirsIndexed, theirsGet⟩ := indexByKey_distinct theirsDistinct
  have agreed : ∀ key, classify (bmap.get key) (omap.get key) (tmap.get key) ≠ .error {} := by
    intro key
    rw [baseGet, oursGet, theirsGet]
    exact agree key
  obtain ⟨clean, answers⟩ := resolveKeys_agree agreed
  simp only [baseGet, oursGet, theirsGet] at answers
  have resolvedGet : ∀ key, (resolveKeys bmap omap tmap).1.get key = winner base ours theirs key := by
    intro key
    apply Option.ext
    exact fun item => (answers key item).trans winner_iff.symm
  have carries : ∀ key item, (resolveKeys bmap omap tmap).1.get key = some item → item.key = key :=
    fun key item found => winner_key ((resolvedGet key).symm.trans found)
  have has : (resolveKeys bmap omap tmap).1.containsKey = survives base ours theirs := by
    funext key
    rw [Table.containsKey, resolvedGet, survives]
  have hasBase : bmap.containsKey = inside base := by
    funext key
    rw [Table.containsKey, baseGet, withKey_isSome]
  have hasOurs : omap.containsKey = inside ours := by
    funext key
    rw [Table.containsKey, oursGet, withKey_isSome]
  have ordered := orderItems_perm bmap omap (resolveKeys bmap omap tmap).1 baseDistinct
    (fun key => (containsKey_iff baseGet key).mp) ours theirs
  have listed : (keys (orderItems bmap omap (resolveKeys bmap omap tmap).1 base ours theirs)).Perm
      ((mergedKeys bmap omap base ours theirs).filter (survives base ours theirs)) := by
    rw [← has, ← filterMap_keys carries]
    exact ordered.map Item.key
  refine ⟨orderItems bmap omap (resolveKeys bmap omap tmap).1 base ours theirs, ?_, ?_, ?_, ?_⟩
  · rw [mergedList, baseIndexed, oursIndexed, theirsIndexed]
    exact if_neg (fun dirty => dirty clean)
  · rw [orderItems_spread carries, has, hasBase, hasOurs]
    rfl
  · apply listed.nodup_iff.mpr
    exact (mergedKeys_distinct baseGet oursGet baseDistinct oursDistinct theirsDistinct).filter _
  · intro key
    cases found : withKey (orderItems bmap omap (resolveKeys bmap omap tmap).1 base ours theirs) key with
    | some item =>
      have member := List.mem_of_find?_eq_some found
      obtain ⟨other, _, answer⟩ := List.mem_filterMap.mp (ordered.mem_iff.mp member)
      have same : other = key := (carries other item answer).symm.trans (withKey_key found)
      rw [← same, ← resolvedGet, answer]
    | none =>
      cases kept : winner base ours theirs key with
      | none => rfl
      | some item =>
        have side : key ∈ ours.map Item.key ∨ key ∈ theirs.map Item.key := by
          rcases classify_kept (winner_iff.mp kept) with inSide | inSide
          · exact .inl ((withKey_isSome_iff ours key).mp (by rw [inSide]; rfl))
          · exact .inr ((withKey_isSome_iff theirs key).mp (by rw [inSide]; rfl))
        have member : key ∈ keys (orderItems bmap omap (resolveKeys bmap omap tmap).1 base ours theirs) := by
          apply listed.mem_iff.mpr
          exact List.mem_filter.mpr ⟨mem_mergedKeys oursGet baseGet side, by rw [survives, kept]; rfl⟩
        have answered := (withKey_isSome_iff _ key).mpr member
        rw [found] at answered
        cases answered

end

/-! ## Each side's order -/

section
variable (base ours theirs side : List Item)

/-- The side keeps the base items that survive in base order. -/
def KeepsBase : Prop := Agrees (fun key => inside base key && survives base ours theirs key) (keys side) (keys base)

/-- Any two of the side's items that survive are merged in the side's order. -/
def KeepsOrder (merged : List Item) : Prop := Agrees (survives base ours theirs) (keys side) (keys merged)

end

section
variable {base ours theirs side : List Item}

theorem keepsBase_iff (baseDistinct : (keys base).Nodup) (sideDistinct : (keys side).Nodup)
    (has : ∀ key, survives base ours theirs key = true → inside base key = true → inside side key = true) :
    KeepsBase base ours theirs side ↔
      (keys base).filter (survives base ours theirs) = kept (inside base) (survives base ours theirs) (keys side) := by
  have listed : ∀ key ∈ keys side, (inside base key && survives base ours theirs key) = true → key ∈ keys base :=
    fun key _ both => of_decide_eq_true (Bool.and_eq_true_iff.mp both).1
  rw [KeepsBase, agrees_iff sideDistinct baseDistinct listed]
  have same : (keys base).filter (fun key => (inside base key && survives base ours theirs key) && decide (key ∈ keys side)) =
      (keys base).filter (survives base ours theirs) := by
    apply List.filter_congr
    intro key member
    have inBase : inside base key = true := decide_eq_true member
    cases stays : survives base ours theirs key with
    | false => rw [inBase]; rfl
    | true =>
      rw [inBase]
      exact has key stays inBase
  rw [same]
  rfl

theorem side_spread (sideDistinct : (keys side).Nodup)
    (keeps : (keys base).filter (survives base ours theirs) = kept (inside base) (survives base ours theirs) (keys side)) :
    (keys side).filter (survives base ours theirs) =
      spread ((keys base).filter (survives base ours theirs)) (entriesOf base ours theirs side) := by
  have front : ∀ key ∈ kept (inside base) (survives base ours theirs) (keys side), (none : Option String) ≠ some key :=
    fun key _ => (Option.some_ne_none key).symm
  rw [attach_spread (inside base) (survives base ours theirs) (sideDistinct.filter _) front, keeps]
  rfl

theorem spread_side {entries : List (Option String × String)}
    (has : ∀ key, survives base ours theirs key = true → inside base key = true → inside side key = true)
    (stay : ∀ entry ∈ entries, survives base ours theirs entry.2 = true) :
    (spread ((keys base).filter (survives base ours theirs)) entries).filter
        (fun key => survives base ours theirs key && decide (key ∈ keys side)) =
      spread ((keys base).filter (survives base ours theirs)) (entries.filter fun entry => inside side entry.2) := by
  rw [spread_filter]
  · congr 1
    apply List.filter_congr
    intro entry member
    rw [stay entry member]
    rfl
  · intro key member
    obtain ⟨inBase, stays⟩ := List.mem_filter.mp member
    rw [stays]
    exact has key stays (decide_eq_true inBase)

theorem entriesOf_inside {key : Option String × String} (member : key ∈ entriesOf base ours theirs side) :
    inside side key.2 = true := decide_eq_true (attach_key _ _ _ member).1

/-- What is placed, with what only one side has of it. -/
theorem entries_survive : ∀ entry ∈ entriesOf base ours theirs ours ++
    (entriesOf base ours theirs theirs).filter (fun entry => !inside ours entry.2), survives base ours theirs entry.2 = true := by
  intro entry member
  rcases List.mem_append.mp member with member | member
  · exact (attach_key _ _ _ member).2.2
  · exact (attach_key _ _ _ (List.mem_filter.mp member).1).2.2

/-- No addition stands after an item that is no surviving base item. -/
theorem added_elsewhere {key : String} (elsewhere : key ∉ (keys base).filter (survives base ours theirs)) :
    added base ours theirs side (some key) = [] := by
  rw [added, bucket, List.map_eq_nil_iff, List.filter_eq_nil_iff]
  intro entry member at'
  rcases attach_place _ _ entry member with front | ⟨other, anchor, same⟩
  · rw [front] at at'
    cases of_decide_eq_true at'
  · have here : other = key := Option.some.inj (same.symm.trans (of_decide_eq_true at'))
    obtain ⟨_, both⟩ := List.mem_filter.mp anchor
    obtain ⟨inBase, stays⟩ := Bool.and_eq_true_iff.mp both
    subst here
    exact elsewhere (List.mem_filter.mpr ⟨of_decide_eq_true inBase, stays⟩)

section
variable {merged : List Item} (once : (keys merged).Nodup) (answers : ∀ key, withKey merged key = winner base ours theirs key)
include answers

theorem survivor_merged (key : String) (stays : survives base ours theirs key = true) : key ∈ keys merged := by
  rw [survives, ← answers] at stays
  exact (withKey_isSome_iff merged key).mp stays

variable (listed : keys merged = spread ((keys base).filter (survives base ours theirs)) (entriesOf base ours theirs ours ++
  (entriesOf base ours theirs theirs).filter fun entry => !inside ours entry.2))
include once listed

/-- What ours adds is placed where ours has it. -/
theorem ours_order (baseDistinct : (keys base).Nodup) (oursDistinct : (keys ours).Nodup) (keeps : KeepsBase base ours theirs ours) :
    KeepsOrder base ours theirs ours merged := by
  have has : ∀ key, survives base ours theirs key = true → inside base key = true → inside ours key = true :=
    fun key stays inBase => (survives_base stays inBase).1
  rw [keepsBase_iff baseDistinct oursDistinct has] at keeps
  apply (agrees_iff oursDistinct once (fun key _ stays => survivor_merged answers key stays)).mpr
  rw [listed, spread_side has entries_survive, side_spread oursDistinct keeps, List.filter_append]
  have mine : (entriesOf base ours theirs ours).filter (fun entry => inside ours entry.2) = entriesOf base ours theirs ours :=
    List.filter_eq_self.mpr fun _ member => entriesOf_inside member
  have other : ((entriesOf base ours theirs theirs).filter fun entry => !inside ours entry.2).filter (fun entry => inside ours entry.2) =
      [] := by
    apply List.filter_eq_nil_iff.mpr
    intro entry member inOurs
    have absent := (List.mem_filter.mp member).2
    rw [inOurs] at absent
    cases absent
  rw [mine, other, List.append_nil]

/-- Theirs' order is kept exactly where each stretch of its additions begins with
what ours adds there too, in ours' order. -/
theorem theirs_order (baseDistinct : (keys base).Nodup) (theirsDistinct : (keys theirs).Nodup)
    (keeps : KeepsBase base ours theirs theirs) : KeepsOrder base ours theirs theirs merged ↔
      ∀ place, added base ours theirs theirs place = (added base ours theirs ours place).filter (inside theirs) ++
        (added base ours theirs theirs place).filter fun key => !inside ours key := by
  have has : ∀ key, survives base ours theirs key = true → inside base key = true → inside theirs key = true :=
    fun key stays inBase => (survives_base stays inBase).2
  rw [keepsBase_iff baseDistinct theirsDistinct has] at keeps
  have placed : ∀ place, bucket place ((entriesOf base ours theirs ours ++
      (entriesOf base ours theirs theirs).filter fun entry => !inside ours entry.2).filter fun entry => inside theirs entry.2) =
        (added base ours theirs ours place).filter (inside theirs) ++
          (added base ours theirs theirs place).filter fun key => !inside ours key := by
    intro place
    have mine : ((entriesOf base ours theirs theirs).filter fun entry => !inside ours entry.2).filter (fun entry => inside theirs entry.2) =
        (entriesOf base ours theirs theirs).filter fun entry => !inside ours entry.2 :=
      List.filter_eq_self.mpr fun _ member => entriesOf_inside (List.mem_filter.mp member).1
    rw [List.filter_append, mine, bucket_append, bucket_filter (inside theirs), bucket_filter fun key => !inside ours key]
    rfl
  have apart : ∀ entry ∈ (entriesOf base ours theirs ours ++
      (entriesOf base ours theirs theirs).filter fun entry => !inside ours entry.2).filter (fun entry => inside theirs entry.2),
        entry.2 ∉ (keys base).filter (survives base ours theirs) := by
    intro entry member inBase
    have outside : inside base entry.2 = false := by
      rcases List.mem_append.mp (List.mem_filter.mp member).1 with member | member
      · exact (attach_key _ _ _ member).2.1
      · exact (attach_key _ _ _ (List.mem_filter.mp member).1).2.1
    rw [inside, decide_eq_false_iff_not] at outside
    exact outside (List.mem_filter.mp inBase).1
  rw [KeepsOrder, agrees_iff theirsDistinct once (fun key _ stays => survivor_merged answers key stays), listed,
    spread_side has entries_survive, side_spread theirsDistinct keeps, spread_inj (baseDistinct.filter _) apart]
  simp only [placed]
  constructor
  · rintro ⟨front, after⟩ place
    cases place with
    | none => exact front.symm
    | some key =>
      by_cases here : key ∈ (keys base).filter (survives base ours theirs)
      · exact (after key here).symm
      · rw [added_elsewhere here, added_elsewhere here]
        rfl
  · exact fun same => ⟨(same none).symm, fun key _ => (same (some key)).symm⟩

end

end

end Oxplow.Proofs.MergeOrder

/-! A structural merge where one side is the base: the other side's items win, in its
order only where it keeps the base's. -/

namespace Oxplow.Proofs.MergeOrder
open Library Library.Anchors Ast AstMerge

/-- What an item is printed from. -/
def content (item : Item) : String × String := (item.key, item.text)

/-- A side keeps the items of the base that it still has in base order. -/
def InBaseOrder (base changed : List Item) : Prop := Agrees (inside base) (keys changed) (keys base)

theorem withKey_of_mem {items : List Item} (once : (keys items).Nodup) {item : Item} (member : item ∈ items) :
    withKey items item.key = some item := by
  have found : (withKey items item.key).isSome = true := (withKey_isSome_iff items item.key).mpr (List.mem_map_of_mem member)
  obtain ⟨other, answer⟩ := Option.isSome_iff_exists.mp found
  rw [answer]
  exact congrArg some (List.inj_on_of_nodup_map once (List.mem_of_find?_eq_some answer) member (withKey_key answer))

/-- A list with distinct keys is its keys with the texts they answer. -/
theorem content_of_keys {items : List Item} (once : (keys items).Nodup) {text : String → Option String}
    (texts : ∀ key, (withKey items key).map Item.text = text key) :
    items.map content = (keys items).map fun key => (key, (text key).getD "") := by
  rw [keys, List.map_map]
  apply List.map_congr_left
  intro item member
  have answer := texts item.key
  rw [withKey_of_mem once member] at answer
  simp only [Function.comp_apply, content, ← answer, Option.map_some, Option.getD_some]

section
variable {base ours theirs changed merged : List Item}

theorem survives_of_won (won : ∀ key, (winner base ours theirs key).map Item.text = (withKey changed key).map Item.text) :
    survives base ours theirs = inside changed := by
  funext key
  have same := congrArg Option.isSome (won key)
  rw [Option.isSome_map, Option.isSome_map, withKey_isSome] at same
  exact same

/-- Where the texts of one side win, its items are merged, in its order exactly when
it keeps the base's. -/
theorem change_wins (once : (keys merged).Nodup) (answers : ∀ key, withKey merged key = winner base ours theirs key)
    (listed : keys merged = spread ((keys base).filter (survives base ours theirs)) (entriesOf base ours theirs ours ++
      (entriesOf base ours theirs theirs).filter fun entry => !inside ours entry.2))
    (baseDistinct : (keys base).Nodup) (changedDistinct : (keys changed).Nodup)
    (won : ∀ key, (winner base ours theirs key).map Item.text = (withKey changed key).map Item.text)
    (order : KeepsBase base ours theirs changed → KeepsOrder base ours theirs changed merged) :
    (merged.map content).Perm (changed.map content) ∧ (merged.map content = changed.map content ↔ InBaseOrder base changed) := by
  have stays := survives_of_won won
  have texts : ∀ key, (withKey merged key).map Item.text = (withKey changed key).map Item.text := by
    intro key
    rw [answers]
    exact won key
  have members : ∀ key, key ∈ keys merged ↔ key ∈ keys changed := by
    intro key
    have same := congrArg Option.isSome (texts key)
    rw [Option.isSome_map, Option.isSome_map, Bool.eq_iff_iff, withKey_isSome_iff, withKey_isSome_iff] at same
    exact same
  have printed := content_of_keys once texts
  have printed' := content_of_keys changedDistinct (fun key => rfl)
  have firsts : ∀ items : List Item, (items.map content).map Prod.fst = keys items := by
    intro items
    rw [List.map_map]
    rfl
  have keysOnly : merged.map content = changed.map content ↔ keys merged = keys changed := by
    constructor
    · intro same
      rw [← firsts, ← firsts, same]
    · intro same
      rw [printed, printed', same]
  refine ⟨?_, keysOnly.trans ⟨?_, ?_⟩⟩
  · rw [printed, printed']
    exact ((List.perm_ext_iff_of_nodup once changedDistinct).mpr members).map _
  · intro same
    -- Between the base's items, the merged list has only additions.
    have anchors : (keys merged).filter (inside base) = (keys base).filter (inside changed) := by
      have additions : ∀ entry ∈ entriesOf base ours theirs ours ++
          (entriesOf base ours theirs theirs).filter (fun entry => !inside ours entry.2), inside base entry.2 = false := by
        intro entry member
        rcases List.mem_append.mp member with member | member
        · exact (attach_key _ _ _ member).2.1
        · exact (attach_key _ _ _ (List.mem_filter.mp member).1).2.1
      have none_left : (entriesOf base ours theirs ours ++
          (entriesOf base ours theirs theirs).filter fun entry => !inside ours entry.2).filter (fun entry => inside base entry.2) = [] := by
        apply List.filter_eq_nil_iff.mpr
        intro entry member inBase
        rw [additions entry member] at inBase
        cases inBase
      have inBase : ∀ key ∈ (keys base).filter (survives base ours theirs), inside base key = true :=
        fun key member => decide_eq_true (List.mem_filter.mp member).1
      rw [listed, spread_filter inBase, none_left, stays]
      exact spread_nil _
    have listed' : ∀ key ∈ keys changed, inside base key = true → key ∈ keys base := fun key _ inBase => of_decide_eq_true inBase
    apply (agrees_iff changedDistinct baseDistinct listed').mpr
    rw [← same, anchors, same]
    apply List.filter_congr
    intro key member
    have inBase : inside base key = true := decide_eq_true member
    rw [inBase]
    rfl
  · intro keeps
    have kept : KeepsBase base ours theirs changed :=
      fun a b first second => keeps a b (Bool.and_eq_true_iff.mp first).1 (Bool.and_eq_true_iff.mp second).1
    have ordered := (agrees_iff changedDistinct once (fun key member _ => (members key).mpr member)).mp (order kept)
    rw [stays] at ordered
    have whole : (keys changed).filter (inside changed) = keys changed :=
      List.filter_eq_self.mpr fun key member => decide_eq_true member
    have whole' : (keys merged).filter (fun key => inside changed key && decide (key ∈ keys changed)) = keys merged := by
      apply List.filter_eq_self.mpr
      intro key member
      have inChanged : inside changed key = true := decide_eq_true ((members key).mp member)
      rw [inChanged]
      exact inChanged
    rw [← whole', ordered, whole]

end

/-! ## One side is the base -/

theorem classify_ours (b o : Option Item) : classify b o b = .ok o := by
  cases b with
  | none => cases o with
    | none => rfl
    | some o => rfl
  | some b => cases o with
    | none => exact if_pos rfl
    | some o =>
      rw [classify]
      by_cases same : o.text = b.text
      · exact if_pos same
      · rw [if_neg same, if_neg same, if_pos rfl]

theorem classify_theirs (b t : Option Item) : ∃ kept, classify b b t = .ok kept ∧ kept.map Item.text = t.map Item.text := by
  cases b with
  | none => cases t with
    | none => exact ⟨none, rfl, rfl⟩
    | some t => exact ⟨some t, rfl, rfl⟩
  | some b => cases t with
    | none => exact ⟨none, if_pos rfl, rfl⟩
    | some t =>
      rw [classify]
      by_cases same : b.text = t.text
      · exact ⟨some b, if_pos same, congrArg some same⟩
      · exact ⟨some t, by rw [if_neg same, if_pos rfl], rfl⟩

/-- Where one side is the base, nothing is in conflict and the other side's text wins. -/
theorem ours_wins (b o : Option Item) :
    classify b o b ≠ .error {} ∧ ∀ kept, classify b o b = .ok kept → kept = o := by
  rw [classify_ours]
  constructor
  · intro wrong
    cases wrong
  · intro kept same
    exact (Except.ok.inj same).symm

theorem theirs_wins (b t : Option Item) :
    classify b b t ≠ .error {} ∧ ∀ kept, classify b b t = .ok kept → kept.map Item.text = t.map Item.text := by
  obtain ⟨won, answer, text⟩ := classify_theirs b t
  rw [answer]
  constructor
  · intro wrong
    cases wrong
  · intro kept same
    exact Except.ok.inj same ▸ text

theorem winner_of_ok {base ours theirs : List Item} {key : String} {side : Option Item}
    (clean : classify (withKey base key) (withKey ours key) (withKey theirs key) ≠ .error {})
    (kept : ∀ kept, classify (withKey base key) (withKey ours key) (withKey theirs key) = .ok kept →
      kept.map Item.text = side.map Item.text) : (winner base ours theirs key).map Item.text = side.map Item.text := by
  rw [winner]
  cases outcome : classify (withKey base key) (withKey ours key) (withKey theirs key) with
  | ok won => exact kept won outcome
  | error _ => exact absurd outcome clean

/-- What the base does not add stands nowhere. -/
theorem added_base {base ours theirs : List Item} (place : Option String) : added base ours theirs base place = [] := by
  rw [added, bucket, List.map_eq_nil_iff, List.filter_eq_nil_iff]
  intro entry member
  have outside := (attach_key _ _ _ member).2.1
  rw [entriesOf_inside member] at outside
  cases outside

/-- Changed on one side only, the merged items are the changed ones, and in the
changed order exactly where that side keeps the base's items in base order. -/
theorem one_sided_wins (base changed : List Item) (baseDistinct : (keys base).Nodup) (changedDistinct : (keys changed).Nodup) :
    (∃ merged, mergedList base changed base = some merged ∧ (merged.map content).Perm (changed.map content) ∧
      (merged.map content = changed.map content ↔ InBaseOrder base changed)) ∧
    ∃ merged, mergedList base base changed = some merged ∧ (merged.map content).Perm (changed.map content) ∧
      (merged.map content = changed.map content ↔ InBaseOrder base changed) := by
  constructor
  · have agree := fun key => (ours_wins (withKey base key) (withKey changed key)).1
    have won : ∀ key, (winner base changed base key).map Item.text = (withKey changed key).map Item.text := by
      intro key
      apply winner_of_ok (agree key)
      exact fun kept outcome => congrArg _ ((ours_wins (withKey base key) (withKey changed key)).2 kept outcome)
    obtain ⟨merged, merges, listed, once, answers⟩ := merged_exact baseDistinct changedDistinct baseDistinct agree
    exact ⟨merged, merges, change_wins once answers listed baseDistinct changedDistinct won
      (ours_order once answers listed baseDistinct changedDistinct)⟩
  · have agree := fun key => (theirs_wins (withKey base key) (withKey changed key)).1
    have won : ∀ key, (winner base base changed key).map Item.text = (withKey changed key).map Item.text :=
      fun key => winner_of_ok (agree key) (theirs_wins (withKey base key) (withKey changed key)).2
    obtain ⟨merged, merges, listed, once, answers⟩ := merged_exact baseDistinct baseDistinct changedDistinct agree
    refine ⟨merged, merges, change_wins once answers listed baseDistinct changedDistinct won ?_⟩
    intro keeps
    apply (theirs_order once answers listed baseDistinct changedDistinct keeps).mpr
    intro place
    have all : ((added base base changed changed place).filter fun key => !inside base key) = added base base changed changed place := by
      apply List.filter_eq_self.mpr
      intro key member
      obtain ⟨entry, there, same⟩ := List.mem_map.mp member
      have outside := (attach_key _ _ _ (List.mem_filter.mp there).1).2.1
      rw [← same, outside]
      rfl
    rw [added_base, all]
    rfl

/-- A side edits `b`, puts `c` before it and deletes `a`. -/
theorem one_sided_wins_edited :
    let a : Item := ⟨"a", "fn a() {}", (0, 9)⟩
    let b : Item := ⟨"b", "fn b() {}", (10, 19)⟩
    let b' : Item := ⟨"b", "fn b() { c() }", (10, 24)⟩
    let c : Item := ⟨"c", "fn c() {}", (0, 9)⟩
    (∃ merged, mergedList [a, b] [c, b'] [a, b] = some merged ∧ (merged.map content).Perm ([c, b'].map content) ∧
      (merged.map content = [c, b'].map content ↔ InBaseOrder [a, b] [c, b'])) ∧
    ∃ merged, mergedList [a, b] [a, b] [c, b'] = some merged ∧ (merged.map content).Perm ([c, b'].map content) ∧
      (merged.map content = [c, b'].map content ↔ InBaseOrder [a, b] [c, b']) :=
  one_sided_wins _ _ (by decide) (by decide)

/-- A side swaps two functions: the merge puts them back. -/
theorem swap_is_undone :
    let a : Item := ⟨"a", "fn a() {}", (0, 9)⟩
    let b : Item := ⟨"b", "fn b() {}", (10, 19)⟩
    let b' : Item := ⟨"b", "fn b() {}", (0, 9)⟩
    let a' : Item := ⟨"a", "fn a() {}", (10, 19)⟩
    mergedList [a, b] [b', a'] [a, b] = some [a', b'] ∧ mergedList [a, b] [a, b] [b', a'] = some [a, b] ∧
      [a', b'].map content ≠ [b', a'].map content ∧ [a, b].map content ≠ [b', a'].map content := by
  decide

end Oxplow.Proofs.MergeOrder
