import Mathlib.Data.List.Nodup
import Mathlib.Data.List.Perm.Basic

/-! Lists that share some of their items: when two have them in one order, and a list cut at
the items it shares with another. -/

namespace Oxplow.Library.Anchors

variable {α : Type} [DecidableEq α]

/-! ## The same order -/

/-- Any two items with `p` that `xs` has in one order, `ys` has in that order. -/
def Agrees (p : α → Bool) (xs ys : List α) : Prop := ∀ a b, p a = true → p b = true → [a, b].Sublist xs → [a, b].Sublist ys

omit [DecidableEq α] in
theorem pair_antisymm {items : List α} (once : items.Nodup) {a b : α} (first : [a, b].Sublist items) (second : [b, a].Sublist items) :
    a = b := by
  induction items with
  | nil => cases first
  | cons item items ih =>
    obtain ⟨fresh, once⟩ := List.nodup_cons.mp once
    cases first with
    | cons _ inside =>
      cases second with
      | cons _ inside' => exact ih once inside inside'
      | cons_cons _ inside' => exact absurd (inside.subset (by simp)) fresh
    | cons_cons _ inside =>
      cases second with
      | cons _ inside' => exact absurd (inside'.subset (by simp)) fresh
      | cons_cons _ _ => rfl

/-- Two orders agree exactly where what they share reads the same. -/
theorem agrees_iff {p : α → Bool} {xs ys : List α} (once : xs.Nodup) (once' : ys.Nodup) (inside : ∀ a ∈ xs, p a = true → a ∈ ys) :
    Agrees p xs ys ↔ ys.filter (fun a => p a && decide (a ∈ xs)) = xs.filter p := by
  constructor
  · intro agrees
    have pairs : ∀ items : List α, items.Sublist ys → items.Pairwise fun a b => [a, b].Sublist ys :=
      fun items part => List.pairwise_iff_forall_sublist.mpr fun two => two.trans part
    have mine : (xs.filter p).Pairwise fun a b => [a, b].Sublist ys := by
      apply List.pairwise_iff_forall_sublist.mpr
      intro a b two
      have first := (List.mem_filter.mp (two.subset (show a ∈ [a, b] by simp))).2
      have second := (List.mem_filter.mp (two.subset (show b ∈ [a, b] by simp))).2
      exact agrees a b first second (two.trans List.filter_sublist)
    apply List.Perm.eq_of_pairwise (fun a b _ _ first second => pair_antisymm once' first second) (pairs _ List.filter_sublist) mine
    apply (List.perm_ext_iff_of_nodup (once'.filter _) (once.filter _)).mpr
    intro a
    simp only [List.mem_filter, Bool.and_eq_true, decide_eq_true_eq]
    constructor
    · exact fun ⟨_, holds, member⟩ => ⟨member, holds⟩
    · exact fun ⟨member, holds⟩ => ⟨inside a member holds, holds, member⟩
  · intro same a b first second two
    have kept : [a, b].Sublist (xs.filter p) := by
      have part := two.filter p
      rwa [List.filter_cons_of_pos first, List.filter_cons_of_pos second, List.filter_nil] at part
    rw [← same] at kept
    exact kept.trans List.filter_sublist

/-! ## Cut at anchors -/

section
variable (anchors survives : α → Bool)

/-- Each surviving item that is no anchor, with the surviving anchor before it. -/
def attach : Option α → List α → List (Option α × α)
  | _, [] => []
  | place, key :: rest =>
    if anchors key then attach (if survives key then some key else place) rest
    else if survives key then (place, key) :: attach place rest
    else attach place rest

def bucket (place : Option α) (entries : List (Option α × α)) : List α := (entries.filter (·.1 = place)).map (·.2)

theorem bucket_append (place : Option α) (first rest : List (Option α × α)) :
    bucket place (first ++ rest) = bucket place first ++ bucket place rest := by
  rw [bucket, List.filter_append, List.map_append]
  rfl

theorem bucket_cons (place : Option α) (entry : Option α × α) (rest : List (Option α × α)) :
    bucket place (entry :: rest) = if entry.1 = place then entry.2 :: bucket place rest else bucket place rest := by
  rw [bucket, List.filter_cons]
  by_cases here : entry.1 = place
  · rw [if_pos (decide_eq_true here), if_pos here]
    rfl
  · rw [if_neg (by simpa using here), if_neg here]
    rfl

theorem bucket_filter (keep : α → Bool) (place : Option α) (entries : List (Option α × α)) :
    bucket place (entries.filter fun entry => keep entry.2) = (bucket place entries).filter keep := by
  rw [bucket, bucket, List.filter_map, List.filter_filter, List.filter_filter]
  congr 1
  apply List.filter_congr
  exact fun entry _ => Bool.and_comm _ _

/-- The anchors that survive, as a list has them. -/
def kept (side : List α) : List α := side.filter fun key => anchors key && survives key

omit [DecidableEq α] in
variable {place : Option α} {side : List α}

theorem attach_place :
    ∀ entry ∈ attach anchors survives place side, entry.1 = place ∨ ∃ key ∈ kept anchors survives side, entry.1 = some key := by
  induction side generalizing place with
  | nil => exact fun _ member => absurd member List.not_mem_nil
  | cons key rest ih =>
    intro entry member
    rw [attach] at member
    have later : (∃ other ∈ kept anchors survives rest, entry.1 = some other) →
        ∃ other ∈ kept anchors survives (key :: rest), entry.1 = some other := by
      rintro ⟨other, inside, same⟩
      exact ⟨other, ((List.sublist_cons_self key rest).filter _).subset inside, same⟩
    split at member
    · rename_i anchor
      rcases ih entry member with same | there
      · split at same
        · rename_i stays
          exact .inr ⟨key, List.mem_filter.mpr ⟨List.mem_cons_self, by rw [anchor, stays]; rfl⟩, same⟩
        · exact .inl same
      · exact .inr (later there)
    · split at member
      · rcases List.mem_cons.mp member with rfl | member
        · exact .inl rfl
        · exact (ih entry member).imp_right later
      · exact (ih entry member).imp_right later

omit [DecidableEq α] in
theorem attach_key :
    ∀ entry ∈ attach anchors survives place side, entry.2 ∈ side ∧ anchors entry.2 = false ∧ survives entry.2 = true := by
  induction side generalizing place with
  | nil => exact fun _ member => absurd member List.not_mem_nil
  | cons key rest ih =>
    intro entry member
    rw [attach] at member
    split at member
    · obtain ⟨inside, facts⟩ := ih entry member
      exact ⟨List.mem_cons_of_mem _ inside, facts⟩
    · rename_i added
      split at member
      · rename_i stays
        rcases List.mem_cons.mp member with rfl | member
        · exact ⟨List.mem_cons_self, Bool.eq_false_iff.mpr added, stays⟩
        · obtain ⟨inside, facts⟩ := ih entry member
          exact ⟨List.mem_cons_of_mem _ inside, facts⟩
      · obtain ⟨inside, facts⟩ := ih entry member
        exact ⟨List.mem_cons_of_mem _ inside, facts⟩

/-- Buckets put back after their anchors. -/
def spread (order : List α) (entries : List (Option α × α)) : List α :=
  bucket none entries ++ order.flatMap fun key => key :: bucket (some key) entries

theorem flatMap_bucket_cons {order : List α} {entry : Option α × α} (elsewhere : ∀ key ∈ order, entry.1 ≠ some key)
    (entries : List (Option α × α)) :
    (order.flatMap fun key => key :: bucket (some key) (entry :: entries)) = order.flatMap fun key => key :: bucket (some key) entries := by
  apply List.flatMap_congr
  intro key member
  rw [bucket_cons, if_neg (elsewhere key member)]

/-- A list's surviving items are its buckets, each after its anchor. -/
theorem attach_spread (once : (kept anchors survives side).Nodup) (outside : ∀ key ∈ kept anchors survives side, place ≠ some key) :
    side.filter survives = bucket place (attach anchors survives place side) ++
      (kept anchors survives side).flatMap fun key => key :: bucket (some key) (attach anchors survives place side) := by
  induction side generalizing place with
  | nil => rfl
  | cons key rest ih =>
    by_cases anchor : anchors key = true
    · by_cases stays : survives key = true
      · have here : kept anchors survives (key :: rest) = key :: kept anchors survives rest :=
          List.filter_cons_of_pos (by rw [anchor, stays]; rfl)
        rw [here] at once outside
        obtain ⟨fresh, once⟩ := List.nodup_cons.mp once
        have step : attach anchors survives place (key :: rest) = attach anchors survives (some key) rest := by
          rw [attach, if_pos anchor, if_pos stays]
        have rest' : rest.filter survives = bucket (some key) (attach anchors survives (some key) rest) ++
            (kept anchors survives rest).flatMap fun other => other :: bucket (some other) (attach anchors survives (some key) rest) := by
          apply ih once
          rintro other member same
          cases same
          exact fresh member
        have empty : bucket place (attach anchors survives (some key) rest) = [] := by
          rw [bucket, List.map_eq_nil_iff, List.filter_eq_nil_iff]
          intro entry member at'
          have at' := of_decide_eq_true at'
          rcases attach_place anchors survives entry member with same | ⟨other, inside, same⟩
          · exact outside key List.mem_cons_self (at'.symm.trans same)
          · exact outside other (List.mem_cons_of_mem _ inside) (at'.symm.trans same)
        rw [List.filter_cons_of_pos stays, here, step, empty, rest']
        rfl
      · have here : kept anchors survives (key :: rest) = kept anchors survives rest :=
          List.filter_cons_of_neg (by simp [stays])
        rw [here] at once outside ⊢
        rw [List.filter_cons_of_neg stays, attach, if_pos anchor, if_neg stays]
        exact ih once outside
    · have here : kept anchors survives (key :: rest) = kept anchors survives rest :=
        List.filter_cons_of_neg (by simp [anchor])
      rw [here] at once outside ⊢
      rw [attach, if_neg anchor]
      by_cases stays : survives key = true
      · rw [if_pos stays, List.filter_cons_of_pos stays, bucket_cons, if_pos rfl, flatMap_bucket_cons outside, List.cons_append,
          ih once outside]
      · rw [if_neg stays, List.filter_cons_of_neg stays]
        exact ih once outside

end

theorem spread_nil (order : List α) : spread order [] = order := by
  induction order with
  | nil => rfl
  | cons key order ih => exact congrArg (key :: ·) ih

variable {order : List α}

theorem spread_filter {keep : α → Bool} (stay : ∀ key ∈ order, keep key = true) (entries : List (Option α × α)) :
    (spread order entries).filter keep = spread order (entries.filter fun entry => keep entry.2) := by
  rw [spread, spread, List.filter_append, ← bucket_filter]
  congr 1
  induction order with
  | nil => rfl
  | cons key order ih =>
    rw [List.flatMap_cons, List.flatMap_cons, List.filter_append, List.filter_cons_of_pos (stay key List.mem_cons_self),
      ← bucket_filter, ih fun other member => stay other (List.mem_cons_of_mem _ member)]

/-- Two lists cut at the same anchors are equal exactly where each stretch is. -/
theorem spread_inj (once : order.Nodup) {entries entries' : List (Option α × α)} (apart : ∀ entry ∈ entries, entry.2 ∉ order) :
    spread order entries = spread order entries' ↔
      bucket none entries = bucket none entries' ∧ ∀ key ∈ order, bucket (some key) entries = bucket (some key) entries' := by
  have free : ∀ place, ∀ key ∈ order, key ∉ bucket place entries := by
    intro place key member inside
    obtain ⟨entry, there, rfl⟩ := List.mem_map.mp inside
    exact apart entry (List.mem_filter.mp there).1 member
  have walk : ∀ (rest : List α), (∀ key ∈ rest, key ∈ order) → rest.Nodup → ∀ place,
      (bucket place entries ++ rest.flatMap (fun key => key :: bucket (some key) entries) =
        bucket place entries' ++ rest.flatMap (fun key => key :: bucket (some key) entries') ↔
      bucket place entries = bucket place entries' ∧ ∀ key ∈ rest, bucket (some key) entries = bucket (some key) entries') := by
    intro rest
    induction rest with
    | nil =>
      intro _ _ place
      simp
    | cons key rest ih =>
      intro inside once place
      obtain ⟨fresh, once⟩ := List.nodup_cons.mp once
      have here := inside key List.mem_cons_self
      have later := ih (fun other member => inside other (List.mem_cons_of_mem _ member)) once (some key)
      have absent : key ∉ bucket (some key) entries ++ rest.flatMap fun key => key :: bucket (some key) entries := by
        intro member
        rcases List.mem_append.mp member with member | member
        · exact free (some key) key here member
        · obtain ⟨other, there, member⟩ := List.mem_flatMap.mp member
          rcases List.mem_cons.mp member with rfl | member
          · exact fresh there
          · exact free (some other) key here member
      rw [List.flatMap_cons, List.flatMap_cons, List.cons_append, List.cons_append,
        List.append_cons_inj_of_notMem (free place key here) absent, later]
      simp only [List.mem_cons, forall_eq_or_imp, true_and]
  exact walk order (fun _ member => member) once none

end Oxplow.Library.Anchors
