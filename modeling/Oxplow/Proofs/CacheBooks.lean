import Mathlib.Algebra.Ring.Nat
import Mathlib.Data.List.Induction
import Oxplow.Duplicates.Scan

/-! The cache of duplicate scans over any run of reads and writes: its order of use is that of its
entries, its bytes are theirs, and it forgets from the least recently used on. -/

namespace Oxplow.Proofs.CacheBooks
open Oxplow.Duplicates Oxplow.Library

/-- What some records cost the budget. -/
def bytesOf (records : List Record) : Nat := records.length * recordBytes

def totalBytes (entries : InsertionMap CacheKey Entry) : Nat := (entries.entries.map fun entry => bytesOf entry.2.records).sum

/-! ## Sums over entries -/

theorem sum_without {entries : List (CacheKey × Entry)} (distinct : (entries.map (·.1)).Nodup) (key : CacheKey) :
    (entries.map fun entry => bytesOf entry.2.records).sum =
      ((entries.filter (·.1 ≠ key)).map fun entry => bytesOf entry.2.records).sum +
        (List.lookup key entries).elim 0 fun entry => bytesOf entry.records := by
  induction entries with
  | nil => rfl
  | cons first entries ih =>
    obtain ⟨other, entry⟩ := first
    obtain ⟨fresh, distinct⟩ := List.nodup_cons.mp distinct
    rw [List.lookup_cons, List.filter_cons, List.map_cons, List.sum_cons, ih distinct]
    by_cases same : key = other
    · subst same
      have absent : List.lookup key entries = none := by
        rw [List.lookup_eq_none_iff]
        intro found member
        have differ : key ≠ found.1 := fun same => fresh (List.mem_map.mpr ⟨found, member, same.symm⟩)
        simpa using differ
      simp [absent]
      omega
    · have differ : (key == other) = false := by simpa using same
      have kept : other ≠ key := fun equal => same equal.symm
      simp [differ, kept]
      omega

theorem totalBytes_delete (entries : InsertionMap CacheKey Entry) (key : CacheKey) :
    totalBytes entries = totalBytes (entries.delete key) + (entries.get key).elim 0 fun entry => bytesOf entry.records :=
  sum_without entries.distinct key

theorem set_delete (entries : InsertionMap CacheKey Entry) (key : CacheKey) (entry : Entry) :
    ((entries.set key entry).delete key).entries = (entries.delete key).entries := by
  unfold InsertionMap.delete InsertionMap.set
  dsimp only
  split
  · rw [List.filter_map]
    have kept : ∀ e ∈ entries.entries, ((fun e : CacheKey × Entry => decide (e.1 ≠ key)) ∘
        fun e => if e.1 = key then (key, entry) else e) e = decide (e.1 ≠ key) := by
      intro e _
      by_cases own : e.1 = key
      · simp [own]
      · simp [own]
    rw [List.filter_congr kept]
    conv_rhs => rw [← List.map_id (List.filter _ _)]
    apply List.map_congr_left
    intro e member
    have other : e.1 ≠ key := by simpa using (List.mem_filter.mp member).2
    rw [if_neg other]
    rfl
  · simp

theorem totalBytes_set (entries : InsertionMap CacheKey Entry) (key : CacheKey) (entry : Entry) :
    totalBytes (entries.set key entry) = totalBytes (entries.delete key) + bytesOf entry.records := by
  have split := totalBytes_delete (entries.set key entry) key
  rw [InsertionMap.get_set, if_pos rfl] at split
  rw [split, totalBytes, set_delete]
  rfl

/-! ## The order of use -/

/-- The places of the order, ticks rising, are those of the rows' ticks, and none is later than the cache's. -/
structure Places (order : List (Nat × CacheKey)) (row : CacheKey → Option Entry) (tick : Nat) : Prop where
  rising : (order.map (·.1)).Pairwise (· < ·)
  behind : ∀ place ∈ order, place.1 ≤ tick
  placed : ∀ time key, (time, key) ∈ order ↔ ∃ entry, row key = some entry ∧ entry.tick = time

variable {order : List (Nat × CacheKey)} {row : CacheKey → Option Entry} {tick : Nat} {key : CacheKey}

theorem Places.filter_tick (places : Places order row tick) {entry : Entry} (found : row key = some entry) :
    order.filter (·.1 ≠ entry.tick) = order.filter (·.2 ≠ key) := by
  apply List.filter_congr
  rintro ⟨time, other⟩ member
  have own : (entry.tick, key) ∈ order := (places.placed _ _).mpr ⟨entry, found, rfl⟩
  have distinct : (order.map (·.1)).Nodup := places.rising.imp Nat.ne_of_lt
  have unique : time = entry.tick ↔ other = key := by
    constructor
    · intro same
      exact (Prod.mk.inj (List.inj_on_of_nodup_map distinct member own same)).2
    · rintro rfl
      obtain ⟨entry', found', same⟩ := (places.placed _ _).mp member
      obtain rfl : entry = entry' := Option.some.inj (found.symm.trans found')
      exact same.symm
  simp [unique]

theorem Places.filter_absent (places : Places order row tick) (absent : row key = none) : order.filter (·.2 ≠ key) = order := by
  rw [List.filter_eq_self]
  rintro ⟨time, other⟩ member
  obtain ⟨entry, found, _⟩ := (places.placed _ _).mp member
  have differ : other ≠ key := by
    rintro rfl
    rw [absent] at found
    cases found
  simpa using differ

theorem Places.drop (places : Places order row tick) (key : CacheKey) :
    Places (order.filter (·.2 ≠ key)) (fun other => if other = key then none else row other) tick := by
  refine ⟨places.rising.sublist (List.filter_sublist.map _), fun place member => places.behind place (List.mem_filter.mp member).1, ?_⟩
  intro time other
  rw [List.mem_filter, places.placed]
  by_cases same : other = key
  · simp [same]
  · simp [same]

theorem Places.use (places : Places order row tick) (absent : row key = none) (entry : Entry) (now : entry.tick = tick + 1) :
    Places (order ++ [(tick + 1, key)]) (fun other => if other = key then some entry else row other) (tick + 1) := by
  refine ⟨?_, ?_, ?_⟩
  · rw [List.map_append, List.pairwise_append]
    refine ⟨places.rising, List.pairwise_singleton _ _, ?_⟩
    intro time before time' last
    obtain ⟨place, member, rfl⟩ := List.mem_map.mp before
    obtain rfl := List.mem_singleton.mp last
    exact Nat.lt_succ_of_le (places.behind place member)
  · intro place member
    rcases List.mem_append.mp member with member | last
    · exact Nat.le_succ_of_le (places.behind place member)
    · rw [List.mem_singleton.mp last]
  · intro time other
    rw [List.mem_append, places.placed, List.mem_singleton]
    by_cases same : other = key
    · simp [same, absent, now, eq_comm]
    · simp [same]

theorem Places.congr {row' : CacheKey → Option Entry} (places : Places order row tick) (same : ∀ key, row' key = row key) :
    Places order row' tick := by
  obtain rfl : row' = row := funext same
  exact places

/-- The first place goes with its row. -/
theorem Places.tail {time : Nat} (places : Places ((time, key) :: order) row tick) :
    Places order (fun other => if other = key then none else row other) tick := by
  have dropped := places.drop key
  have others : order.filter (·.2 ≠ key) = order := by
    rw [List.filter_eq_self]
    rintro ⟨time', other⟩ member
    have differ : other ≠ key := by
      rintro rfl
      obtain ⟨entry, found, own⟩ := (places.placed time other).mp List.mem_cons_self
      obtain ⟨entry', found', own'⟩ := (places.placed time' other).mp (List.mem_cons_of_mem _ member)
      obtain rfl : entry = entry' := Option.some.inj (found.symm.trans found')
      have later := (List.pairwise_cons.mp places.rising).1 time' (List.mem_map.mpr ⟨_, member, rfl⟩)
      dsimp only at later
      omega
    simpa using differ
  rw [List.filter_cons, if_neg (by simp), others] at dropped
  exact dropped

/-! ## One step -/

/-- The order of use, the entries and the bytes agree, and the bytes are in the budget. -/
structure Books (cache : DupCache) : Prop where
  places : Places cache.order cache.entries.get cache.tick
  bytes : cache.bytes = totalBytes cache.entries
  budget : cache.bytes ≤ cache.budget

/-- What eviction leaves: the first places go with their entries and what these cost. -/
theorem evict_spec (cost budget : Nat) {bytes : Nat} {entries : InsertionMap CacheKey Entry} (places : Places order entries.get tick)
    (total : bytes = totalBytes entries) :
    ∃ gone, order = gone ++ (DupCache.evict cost budget order entries bytes).1 ∧
      Places (DupCache.evict cost budget order entries bytes).1 (DupCache.evict cost budget order entries bytes).2.1.get tick ∧
      (DupCache.evict cost budget order entries bytes).2.2 = totalBytes (DupCache.evict cost budget order entries bytes).2.1 ∧
      (∀ key, (DupCache.evict cost budget order entries bytes).2.1.get key =
        if key ∈ gone.map (·.2) then none else entries.get key) ∧
      (cost ≤ budget → (DupCache.evict cost budget order entries bytes).2.2 + cost ≤ budget) := by
  induction order generalizing entries bytes with
  | nil =>
    have empty : totalBytes entries = 0 := by
      unfold totalBytes
      cases list : entries.entries with
      | nil => rfl
      | cons first rest =>
        have found : entries.get first.1 = some first.2 := InsertionMap.get_eq_some.mpr (list ▸ List.mem_cons_self)
        exact absurd ((places.placed _ _).mpr ⟨_, found, rfl⟩) List.not_mem_nil
    refine ⟨[], rfl, places, total, fun key => (if_neg List.not_mem_nil).symm, ?_⟩
    intro fits
    rw [DupCache.evict, total, empty]
    dsimp only
    omega
  | cons first order ih =>
    obtain ⟨time, oldest⟩ := first
    rw [DupCache.evict]
    by_cases over_ : budget < bytes + cost
    · rw [if_pos over_]
      obtain ⟨entry, found, _⟩ := (places.placed time oldest).mp List.mem_cons_self
      rw [found]
      dsimp only
      have split := totalBytes_delete entries oldest
      rw [found, Option.elim_some, ← total] at split
      have rest : Places order (entries.delete oldest).get tick :=
        places.tail.congr fun key => InsertionMap.get_delete
      have left : bytes - entry.records.length * recordBytes = totalBytes (entries.delete oldest) := by
        have own : bytesOf entry.records = entry.records.length * recordBytes := rfl
        omega
      obtain ⟨gone, parts, places, total, rows, fits⟩ := ih rest left
      refine ⟨(time, oldest) :: gone, congrArg ((time, oldest) :: ·) parts, places, total, ?_, fits⟩
      intro key
      rw [rows, InsertionMap.get_delete, List.map_cons]
      by_cases same : key = oldest
      · rw [if_pos same, ite_self, if_pos (List.mem_cons.mpr (.inl same))]
      · rw [if_neg same]
        simp only [List.mem_cons, same, false_or]
    · rw [if_neg over_]
      exact ⟨[], rfl, places, total, fun key => (if_neg List.not_mem_nil).symm, fun _ => by dsimp only; omega⟩

theorem books_empty (budget : Nat) : Books (.withBudget budget) := by
  refine ⟨⟨List.Pairwise.nil, fun place member => absurd member List.not_mem_nil, ?_⟩, rfl, Nat.zero_le _⟩
  intro time key
  constructor
  · intro member
    exact absurd member List.not_mem_nil
  · rintro ⟨entry, found, _⟩
    cases found

variable {cache : DupCache}

theorem get_miss (absent : cache.entries.get key = none) : cache.get key = (none, { cache with tick := cache.tick + 1 }) := by
  simp only [DupCache.get, absent]

/-- A read of a key that is there makes it the last used. -/
structure Hits (cache next : DupCache) (key : CacheKey) (entry : Entry) : Prop where
  books : Books next
  budget : next.budget = cache.budget
  order : next.order = cache.order.filter (·.2 ≠ key) ++ [(cache.tick + 1, key)]
  rows : ∀ other, next.entries.get other = if other = key then some { entry with tick := cache.tick + 1 } else cache.entries.get other

theorem get_hit (books : Books cache) {entry : Entry} (found : cache.entries.get key = some entry) :
    (cache.get key).1 = some entry.records ∧ Hits cache (cache.get key).2 key entry := by
  have order := books.places.filter_tick found
  simp only [DupCache.get, found, true_and]
  refine ⟨⟨?_, ?_, ?_⟩, rfl, ?_, fun other => InsertionMap.get_set⟩
  · rw [order]
    have used := (books.places.drop key).use (if_pos rfl) { entry with tick := cache.tick + 1 } rfl
    apply used.congr
    intro other
    rw [InsertionMap.get_set]
    by_cases same : other = key
    · simp [same]
    · simp [same]
  · have split := totalBytes_delete cache.entries key
    rw [found, Option.elim_some] at split
    dsimp only
    rw [totalBytes_set, ← split]
    exact books.bytes
  · exact books.budget
  · rw [order]

/-- A write that fits replaces the key's entry, makes it the last used and lets the first used of the others go. -/
structure Writes (cache next : DupCache) (key : CacheKey) (records : List Record) (gone left : List (Nat × CacheKey)) : Prop where
  books : Books next
  budget : next.budget = cache.budget
  others : cache.order.filter (·.2 ≠ key) = gone ++ left
  order : next.order = left ++ [(cache.tick + 1, key)]
  rows : ∀ other, next.entries.get other =
    if other = key then some ⟨records, cache.tick + 1⟩ else if other ∈ gone.map (·.2) then none else cache.entries.get other

variable {records : List Record}

theorem put_refused (large : cache.budget < bytesOf records) : cache.put key records = cache :=
  if_pos large

theorem put_eq (books : Books cache) (fits : bytesOf records ≤ cache.budget) :
    cache.put key records =
      let left := DupCache.evict (bytesOf records) cache.budget (cache.order.filter (·.2 ≠ key)) (cache.entries.delete key)
        (totalBytes (cache.entries.delete key))
      { cache with
        entries := left.2.1.set key ⟨records, cache.tick + 1⟩
        order := left.1 ++ [(cache.tick + 1, key)]
        tick := cache.tick + 1
        bytes := left.2.2 + bytesOf records } := by
  have split := totalBytes_delete cache.entries key
  have kept : ¬ cache.budget < records.length * recordBytes := Nat.not_lt.mpr fits
  unfold DupCache.put
  dsimp only
  rw [if_neg kept]
  cases found : cache.entries.get key with
  | none =>
    rw [found, Option.elim_none, Nat.add_zero] at split
    rw [books.places.filter_absent found, ← split, ← books.bytes]
    rfl
  | some entry =>
    have left : cache.bytes - entry.records.length * recordBytes = totalBytes (cache.entries.delete key) := by
      have own : bytesOf entry.records = entry.records.length * recordBytes := rfl
      have total := books.bytes
      rw [found, Option.elim_some] at split
      omega
    dsimp only
    rw [books.places.filter_tick found, left]
    rfl

theorem put_writes (books : Books cache) (fits : bytesOf records ≤ cache.budget) :
    ∃ gone left, Writes cache (cache.put key records) key records gone left := by
  have places : Places (cache.order.filter (·.2 ≠ key)) (cache.entries.delete key).get cache.tick :=
    (books.places.drop key).congr fun other => InsertionMap.get_delete
  obtain ⟨gone, others, places, total, rows, within⟩ := evict_spec (bytesOf records) cache.budget places rfl
  rw [put_eq books fits]
  dsimp only
  generalize DupCache.evict (bytesOf records) cache.budget (cache.order.filter (·.2 ≠ key)) (cache.entries.delete key)
    (totalBytes (cache.entries.delete key)) = evicted at others places total rows within ⊢
  obtain ⟨left, entries, bytes'⟩ := evicted
  have absent : entries.get key = none := by
    rw [rows, InsertionMap.get_delete, if_pos rfl, ite_self]
  refine ⟨gone, left, ⟨?_, ?_, ?_⟩, rfl, others, rfl, ?_⟩
  · exact (places.use absent ⟨records, cache.tick + 1⟩ rfl).congr fun other => InsertionMap.get_set
  · have split := totalBytes_delete entries key
    rw [absent, Option.elim_none, Nat.add_zero] at split
    dsimp only at total ⊢
    rw [totalBytes_set, ← split, ← total]
  · exact within fits
  · intro other
    dsimp only at rows ⊢
    rw [InsertionMap.get_set, rows, InsertionMap.get_delete]
    by_cases same : other = key
    · rw [if_pos same, if_pos same]
    · rw [if_neg same, if_neg same, if_neg same]

/-! ## Runs -/

inductive Op where
  | get (key : CacheKey)
  | put (key : CacheKey) (records : List Record)

def step (cache : DupCache) : Op → DupCache
  | .get key => (cache.get key).2
  | .put key records => cache.put key records

def run (budget : Nat) (ops : List Op) : DupCache := ops.foldl step (.withBudget budget)

/-- The records that a read of a key would give. -/
def held (cache : DupCache) (key : CacheKey) : Option (List Record) := (cache.get key).1

/-- The operation makes the cache forget the key. -/
def Evicts (cache : DupCache) (op : Op) (key : CacheKey) : Prop :=
  (held cache key).isSome = true ∧ held (step cache op) key = none

/-- The key is read or written; a write too large to keep touches nothing. -/
def uses (budget : Nat) (key : CacheKey) : Op → Bool
  | .get other => other = key
  | .put other records => other = key && bytesOf records ≤ budget

/-- How many operations ago a key was last used. -/
def sinceUse (budget : Nat) (ops : List Op) (key : CacheKey) : Nat := ops.reverse.findIdx (uses budget key)

/-- The last write of a key that was kept, with nothing since that makes the cache forget it. -/
structure LastKept (budget : Nat) (ops : List Op) (key : CacheKey) (records : List Record) (before after : List Op) : Prop where
  split : ops = before ++ .put key records :: after
  fits : bytesOf records ≤ budget
  last : ∀ records', .put key records' ∈ after → budget < bytesOf records'
  stays : ∀ first op, first ++ [op] <+: after → ¬ Evicts (run budget (before ++ .put key records :: first)) op key

theorem run_snoc (budget : Nat) (ops : List Op) (op : Op) : run budget (ops ++ [op]) = step (run budget ops) op := by
  simp [run]

theorem held_eq (cache : DupCache) (key : CacheKey) : held cache key = (cache.entries.get key).map Entry.records := by
  unfold held DupCache.get
  cases cache.entries.get key with
  | none => rfl
  | some entry => rfl

theorem sinceUse_snoc (budget : Nat) (ops : List Op) (op : Op) (key : CacheKey) :
    sinceUse budget (ops ++ [op]) key = if uses budget key op = true then 0 else sinceUse budget ops key + 1 := by
  rw [sinceUse, List.reverse_append]
  show List.findIdx (uses budget key) (op :: ops.reverse) = _
  rw [List.findIdx_cons]
  cases uses budget key op with
  | true => rfl
  | false => rfl

/-- Books that are in the order of the last uses. -/
structure Kept (budget : Nat) (ops : List Op) (cache : DupCache) : Prop where
  books : Books cache
  bounded : cache.budget = budget
  recent : cache.order.Pairwise fun first second => sinceUse budget ops second.2 < sinceUse budget ops first.2

variable {budget : Nat} {ops : List Op} {op : Op}

theorem pairwise_unused {places : List (Nat × CacheKey)}
    (recent : places.Pairwise fun first second => sinceUse budget ops second.2 < sinceUse budget ops first.2)
    (unused : ∀ place ∈ places, uses budget place.2 op = false) :
    places.Pairwise fun first second => sinceUse budget (ops ++ [op]) second.2 < sinceUse budget (ops ++ [op]) first.2 := by
  apply recent.imp_of_mem
  intro first second inside inside' later
  rw [sinceUse_snoc, sinceUse_snoc, unused first inside, unused second inside']
  simpa using later

variable {key : CacheKey}

/-- The order with one key moved to its end. -/
theorem pairwise_used {places : List (Nat × CacheKey)} {time : Nat}
    (recent : places.Pairwise fun first second => sinceUse budget ops second.2 < sinceUse budget ops first.2)
    (others : ∀ place ∈ places, uses budget place.2 op = false) (used : uses budget key op = true) :
    (places ++ [(time, key)]).Pairwise fun first second =>
      sinceUse budget (ops ++ [op]) second.2 < sinceUse budget (ops ++ [op]) first.2 := by
  refine List.pairwise_append.mpr ⟨pairwise_unused recent others, List.pairwise_singleton _ _, ?_⟩
  intro place inside last same
  obtain rfl := List.mem_singleton.mp same
  rw [sinceUse_snoc, sinceUse_snoc, others place inside, used]
  simp

variable {cache : DupCache}

theorem step_kept (kept : Kept budget ops cache) (op : Op) : Kept budget (ops ++ [op]) (step cache op) := by
  obtain ⟨books, same, recent⟩ := kept
  cases op with
  | get key =>
    have apart : ∀ place ∈ cache.order.filter (·.2 ≠ key), uses budget place.2 (.get key) = false := by
      intro place member
      have differ : place.2 ≠ key := by simpa using (List.mem_filter.mp member).2
      simpa [uses] using fun equal => differ equal.symm
    cases found : cache.entries.get key with
    | none =>
      rw [books.places.filter_absent found] at apart
      rw [step, get_miss found]
      exact ⟨⟨⟨books.places.rising, fun place member => Nat.le_succ_of_le (books.places.behind place member), books.places.placed⟩,
        books.bytes, books.budget⟩, same, pairwise_unused recent apart⟩
    | some entry =>
      have hits := (get_hit books found).2
      refine ⟨hits.books, hits.budget.trans same, ?_⟩
      rw [step, hits.order]
      exact pairwise_used (recent.sublist List.filter_sublist) apart (by simp [uses])
  | put key records =>
    rw [step]
    by_cases fits : bytesOf records ≤ cache.budget
    · obtain ⟨gone, left, writes⟩ := put_writes books fits
      refine ⟨writes.books, writes.budget.trans same, ?_⟩
      have part : left.Sublist (cache.order.filter (·.2 ≠ key)) := writes.others ▸ List.sublist_append_right gone left
      rw [writes.order]
      apply pairwise_used (recent.sublist (part.trans List.filter_sublist))
      · intro place member
        have differ : place.2 ≠ key := by simpa using (List.mem_filter.mp (part.subset member)).2
        have apart : key ≠ place.2 := fun equal => differ equal.symm
        simp [uses, apart]
      · rw [same] at fits
        simp [uses, fits]
    · rw [put_refused (Nat.lt_of_not_le fits)]
      rw [same] at fits
      exact ⟨books, same, pairwise_unused recent fun place member => by simp [uses, fits]⟩

theorem run_kept (budget : Nat) (ops : List Op) : Kept budget ops (run budget ops) := by
  induction ops using List.reverseRecOn with
  | nil => exact ⟨books_empty budget, rfl, List.Pairwise.nil⟩
  | append_singleton ops op ih =>
    rw [run_snoc]
    exact step_kept ih op

/-- A write of the key that is kept. -/
def Keeps (budget : Nat) (key : CacheKey) (records : List Record) (op : Op) : Prop :=
  op = .put key records ∧ bytesOf records ≤ budget

theorem held_write (books : Books cache) (fits : bytesOf records ≤ cache.budget) :
    held (cache.put key records) key = some records := by
  obtain ⟨gone, left, writes⟩ := put_writes books fits
  rw [held_eq, writes.rows, if_pos rfl]
  rfl

/-- Any other operation leaves a key's records, or makes the cache forget them. -/
theorem held_other (books : Books cache) (other : ∀ records, ¬ Keeps cache.budget key records op) (records : List Record) :
    held (step cache op) key = some records ↔ held cache key = some records ∧ ¬ Evicts cache op key := by
  have stays : ∀ kept, held (step cache op) key = some kept → held cache key = some kept := by
    intro kept there
    rw [held_eq] at there ⊢
    cases op with
    | get read =>
      cases found : cache.entries.get read with
      | none =>
        rw [step, get_miss found] at there
        exact there
      | some entry =>
        rw [step, (get_hit books found).2.rows] at there
        by_cases same : key = read
        · rw [same, found]
          rw [if_pos same] at there
          exact there
        · rw [if_neg same] at there
          exact there
    | put written records =>
      rw [step] at there
      by_cases fits : bytesOf records ≤ cache.budget
      · obtain ⟨gone, left, writes⟩ := put_writes books fits
        have differ : key ≠ written := fun same => other records ⟨by rw [same], fits⟩
        rw [writes.rows, if_neg differ] at there
        split at there
        · cases there
        · exact there
      · rw [put_refused (Nat.lt_of_not_le fits)] at there
        exact there
  constructor
  · intro there
    refine ⟨stays records there, fun evicts => ?_⟩
    rw [evicts.2] at there
    cases there
  · rintro ⟨before, remembers⟩
    cases there : held (step cache op) key with
    | none => exact absurd ⟨by rw [before, Option.isSome_some], there⟩ remembers
    | some kept => rw [← before, ← stays kept there]

theorem held_iff_lastKept (budget : Nat) (ops : List Op) (key : CacheKey) (records : List Record) :
    held (run budget ops) key = some records ↔ ∃ before after, LastKept budget ops key records before after := by
  induction ops using List.reverseRecOn generalizing records with
  | nil =>
    constructor
    · intro there
      cases there
    · rintro ⟨before, after, last⟩
      have split := last.split
      simp at split
  | append_singleton ops op ih =>
    obtain ⟨books, same, _⟩ := run_kept budget ops
    rw [run_snoc]
    by_cases writes : ∃ written, Keeps budget key written op
    · obtain ⟨written, rfl, fits⟩ := writes
      rw [step, held_write books (same.symm ▸ fits)]
      constructor
      · rintro ⟨⟩
        refine ⟨ops, [], rfl, fits, fun records' member => absurd member List.not_mem_nil, ?_⟩
        intro first op part
        simp at part
      · rintro ⟨before, after, last⟩
        rcases List.eq_nil_or_concat after with rfl | ⟨after, op, rfl⟩
        · have split := List.append_inj_right' last.split rfl
          simpa using split
        · have split := last.split
          rw [List.concat_eq_append, ← List.cons_append, ← List.append_assoc] at split
          have own := (List.cons_eq_cons.mp (List.append_inj_right' split rfl)).1
          have large := last.last written (by simp [own])
          omega
    · have other : ∀ written, ¬ Keeps (run budget ops).budget key written op := by
        rw [same]
        exact fun written keeps => writes ⟨written, keeps⟩
      rw [held_other books other, ih]
      constructor
      · rintro ⟨⟨before, after, last⟩, remembers⟩
        refine ⟨before, after ++ [op], ?_, last.fits, ?_, ?_⟩
        · rw [last.split]
          simp
        · intro records' member
          rcases List.mem_append.mp member with member | member
          · exact last.last records' member
          · apply Nat.lt_of_not_le
            intro fits
            exact writes ⟨records', (List.mem_singleton.mp member).symm, fits⟩
        · intro first op' part
          rcases List.prefix_concat_iff.mp part with whole | part
          · obtain ⟨rfl, own⟩ := List.append_inj' whole rfl
            obtain rfl := List.singleton_inj.mp own
            rw [← last.split]
            exact remembers
          · exact last.stays first op' part
      · rintro ⟨before, after, last⟩
        rcases List.eq_nil_or_concat after with rfl | ⟨after, op', rfl⟩
        · have own := List.singleton_inj.mp (List.append_inj_right' last.split rfl)
          exact absurd ⟨records, own, last.fits⟩ writes
        · have split := last.split
          rw [List.concat_eq_append, ← List.cons_append, ← List.append_assoc] at split
          obtain ⟨rfl, own⟩ := List.append_inj' split rfl
          obtain rfl := List.singleton_inj.mp own
          refine ⟨⟨before, after, rfl, last.fits, ?_, ?_⟩, ?_⟩
          · intro records' member
            exact last.last records' (by simp [member])
          · intro first op' part
            exact last.stays first op' (part.trans (by simp))
          · exact last.stays after op (by simp)

/-- A step forgets from the least recently used on. -/
theorem evicts_older {young old : CacheKey} (there : (held (run budget ops) old).isSome = true)
    (older : sinceUse budget (ops ++ [op]) young < sinceUse budget (ops ++ [op]) old) (evicts : Evicts (run budget ops) op young) :
    Evicts (run budget ops) op old := by
  refine ⟨there, ?_⟩
  obtain ⟨books, same, recent⟩ := run_kept budget ops
  rw [sinceUse_snoc, sinceUse_snoc] at older
  cases unused : uses budget old op with
  | true => simp [unused] at older
  | false =>
    obtain ⟨before, gone_⟩ := evicts
    rw [held_eq, Option.isSome_map] at before there
    rw [held_eq, Option.map_eq_none_iff] at gone_ ⊢
    obtain ⟨youngEntry, youngFound⟩ := Option.isSome_iff_exists.mp before
    obtain ⟨oldEntry, oldFound⟩ := Option.isSome_iff_exists.mp there
    cases op with
    | get key =>
      cases found : (run budget ops).entries.get key with
      | none =>
        rw [step, get_miss found, youngFound] at gone_
        cases gone_
      | some entry =>
        rw [step, (get_hit books found).2.rows] at gone_
        split at gone_
        · cases gone_
        · rw [youngFound] at gone_
          cases gone_
    | put key records =>
      by_cases fits : bytesOf records ≤ (run budget ops).budget
      · obtain ⟨gone, left, writes⟩ := put_writes books fits
        rw [step, writes.rows] at gone_ ⊢
        have apart : old ≠ key := by
          rintro rfl
          rw [same] at fits
          simp [uses, fits] at unused
        have apart' : young ≠ key := by
          rintro rfl
          simp at gone_
        rw [if_neg apart'] at gone_
        rw [if_neg apart]
        have lost : young ∈ gone.map (·.2) := by
          by_contra kept
          rw [if_neg kept, youngFound] at gone_
          cases gone_
        apply if_pos
        by_contra kept
        have place : (oldEntry.tick, old) ∈ gone ++ left := by
          rw [← writes.others, List.mem_filter]
          exact ⟨(books.places.placed _ _).mpr ⟨oldEntry, oldFound, rfl⟩, by simpa using apart⟩
        have inLeft : (oldEntry.tick, old) ∈ left :=
          (List.mem_append.mp place).resolve_left fun member => kept (List.mem_map.mpr ⟨_, member, rfl⟩)
        obtain ⟨first, inGone, rfl⟩ := List.mem_map.mp lost
        have order := recent.sublist (List.filter_sublist (p := fun place => decide (place.2 ≠ key)))
        rw [writes.others] at order
        have later := (List.pairwise_append.mp order).2.2 first inGone _ inLeft
        have unused' : uses budget first.2 (.put key records) = false := by
          have differ : key ≠ first.2 := fun equal => apart' equal.symm
          simp [uses, differ]
        rw [unused, unused'] at older
        simp only [Bool.false_eq_true, if_false] at older
        dsimp only at later
        omega
      · rw [step, put_refused (Nat.lt_of_not_le fits), youngFound] at gone_
        cases gone_

/-- Over any run of reads and writes the cache's order of use, entries and bytes agree and the bytes stay in the budget; a read
gives the records of the key's last write that was kept and not forgotten since; and a step that forgets a key forgets every key
used less recently. -/
theorem cache_keeps_books (budget : Nat) (ops : List Op) :
    (Books (run budget ops) ∧ (run budget ops).budget = budget) ∧
      (∀ key records, held (run budget ops) key = some records ↔ ∃ before after, LastKept budget ops key records before after) ∧
      ∀ op young old, (held (run budget ops) old).isSome = true →
        sinceUse budget (ops ++ [op]) young < sinceUse budget (ops ++ [op]) old →
        Evicts (run budget ops) op young → Evicts (run budget ops) op old := by
  obtain ⟨books, same, _⟩ := run_kept budget ops
  refine ⟨⟨books, same⟩, held_iff_lastKept budget ops, ?_⟩
  intro op young old there older evicts
  exact evicts_older there older evicts

end Oxplow.Proofs.CacheBooks
