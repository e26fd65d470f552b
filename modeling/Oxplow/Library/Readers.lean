import Mathlib.Data.List.Sort

/-! A reader of an append-only log that reads ahead in batches. What it has read and not
yet passed stays the next of the log, whatever is appended meanwhile. -/

namespace Oxplow.Library

variable {α : Type} {key : α → Nat} {log : List α} {reach : Nat} {ahead : List α}

/-- `ahead` are the items of the log next after `reach`, up to where the batch ends. -/
structure Ahead (key : α → Nat) (log : List α) (reach : Nat) (ahead : List α) : Prop where
  ordered : ahead.Pairwise fun a b => key a < key b
  above : ∀ a ∈ ahead, reach < key a
  logged : ∀ a ∈ ahead, ∃ b ∈ log, key b = key a
  complete : ∀ b ∈ log, reach < key b → (∃ a ∈ ahead, key a = key b) ∨ ∀ a ∈ ahead, key a < key b

namespace Ahead

/-- A batch of the log's next items. -/
theorem batch (sorted : log.Pairwise fun a b => key a < key b) (reach limit : Nat) :
    Ahead key log reach ((log.filter fun a => reach < key a).take limit) := by
  have ordered : (log.filter fun a => reach < key a).Pairwise fun a b => key a < key b := sorted.filter _
  refine ⟨ordered.sublist (List.take_sublist _ _), ?_, ?_, ?_⟩
  · intro a member
    simpa using (List.mem_filter.mp (List.mem_of_mem_take member)).2
  · intro a member
    exact ⟨a, (List.mem_filter.mp (List.mem_of_mem_take member)).1, rfl⟩
  · intro b member later
    have inside : b ∈ log.filter fun a => reach < key a := List.mem_filter.mpr ⟨member, by simpa using later⟩
    rw [← List.take_append_drop limit (log.filter fun a => reach < key a)] at inside ordered
    rcases List.mem_append.mp inside with first | rest
    · exact .inl ⟨b, first, rfl⟩
    · exact .inr fun a front => (List.pairwise_append.mp ordered).2.2 a front b rest

/-- Nothing lies between what was passed and the next item. -/
theorem no_gap {a : α} (ready : Ahead key log reach (a :: ahead)) {b : α} (member : b ∈ log) (later : reach < key b)
    (earlier : key b < key a) : False := by
  rcases ready.complete b member later with ⟨c, inside, same⟩ | after
  · rcases List.mem_cons.mp inside with rfl | inside
    · omega
    · have order := (List.pairwise_cons.mp ready.ordered).1 c inside
      omega
  · have order := after a (by simp)
    omega

/-- Passing the next item. -/
theorem pass {a : α} (ready : Ahead key log reach (a :: ahead)) : Ahead key log (key a) ahead := by
  obtain ⟨first, ordered⟩ := List.pairwise_cons.mp ready.ordered
  refine ⟨ordered, first, fun b inside => ready.logged b (by simp [inside]), ?_⟩
  intro b member later
  have start := ready.above a (by simp)
  rcases ready.complete b member (by omega) with ⟨c, inside, same⟩ | after
  · rcases List.mem_cons.mp inside with rfl | inside
    · omega
    · exact .inl ⟨c, inside, same⟩
  · exact .inr fun c inside => after c (by simp [inside])

/-- Items appended after what was read, and changes to items that keep their keys, make no
difference. -/
theorem grow {later : List α} (ready : Ahead key log reach ahead) (kept : ∀ a ∈ log, ∃ b ∈ later, key b = key a)
    (fresh : ∀ b ∈ later, (∃ a ∈ log, key a = key b) ∨ ∀ a ∈ log, key a < key b) : Ahead key later reach ahead := by
  refine ⟨ready.ordered, ready.above, ?_, ?_⟩
  · intro a inside
    obtain ⟨b, member, same⟩ := ready.logged a inside
    obtain ⟨c, there, again⟩ := kept b member
    exact ⟨c, there, again.trans same⟩
  · intro b member beyond
    rcases fresh b member with ⟨a, old, same⟩ | new
    · rcases ready.complete a old (by omega) with ⟨c, inside, found⟩ | after
      · exact .inl ⟨c, inside, found.trans same⟩
      · exact .inr fun c inside => same ▸ after c inside
    · right
      intro c inside
      obtain ⟨a, old, same⟩ := ready.logged c inside
      rw [← same]
      exact new a old

end Ahead
end Oxplow.Library

/-! Readers of a list whose items are stamped anew each time they change: each read asks for
what is stamped after the last stamp seen, and puts it in by key. -/

namespace Oxplow.Library.Polling

variable {α κ : Type} [DecidableEq κ] (key : α → κ) (stamp : α → Nat)

/-- The items stamped after `n`, oldest stamp first. -/
def since (items : List α) (n : Nat) : List α :=
  (items.filter fun a => n < stamp a).insertionSort fun a b => stamp a ≤ stamp b

structure Reader (α κ : Type) where
  held : κ → Option α
  seen : Nat

def Reader.empty : Reader α κ := ⟨fun _ => none, 0⟩

def Reader.upsert (r : Reader α κ) (a : α) : Reader α κ := ⟨Function.update r.held (key a) (some a), max r.seen (stamp a)⟩

def Reader.take (r : Reader α κ) (items : List α) : Reader α κ := items.foldl (Reader.upsert key stamp) r

/-- A read of the list. -/
def Reader.poll (r : Reader α κ) (items : List α) : Reader α κ := r.take key stamp (since stamp items r.seen)

variable {key stamp} {r : Reader α κ} {items items' : List α} {a : α}

theorem mem_since {n : Nat} : a ∈ since stamp items n ↔ a ∈ items ∧ n < stamp a := by
  rw [since, List.mem_insertionSort, List.mem_filter, decide_eq_true_iff]

theorem take_other (absent : ∀ b ∈ items, key b ≠ key a) : (r.take key stamp items).held (key a) = r.held (key a) := by
  induction items generalizing r with
  | nil => rfl
  | cons b items ih =>
    have first : key a ≠ key b := (absent b List.mem_cons_self).symm
    have rest := ih (r := r.upsert key stamp b) fun c member => absent c (List.mem_cons_of_mem _ member)
    exact rest.trans (Function.update_of_ne first _ _)

theorem take_own (distinct : (items.map key).Nodup) (member : a ∈ items) : (r.take key stamp items).held (key a) = some a := by
  induction items generalizing r with
  | nil => cases member
  | cons b items ih =>
    obtain ⟨fresh, distinct⟩ := List.nodup_cons.mp distinct
    rcases List.mem_cons.mp member with rfl | member
    · have absent : ∀ c ∈ items, key c ≠ key a := fun c inside same => fresh (same ▸ List.mem_map_of_mem inside)
      exact (take_other (r := r.upsert key stamp a) absent).trans (Function.update_self _ _ _)
    · exact ih distinct member

/-- What the reader has of every item whose stamp it has passed is the item as it is. -/
def UpToDate (key : α → κ) (stamp : α → Nat) (r : Reader α κ) (items : List α) : Prop :=
  ∀ a ∈ items, stamp a ≤ r.seen → r.held (key a) = some a

/-- After a read it has every item. -/
theorem UpToDate.poll (fresh : UpToDate key stamp r items) (distinct : (items.map key).Nodup) (member : a ∈ items) :
    (r.poll key stamp items).held (key a) = some a := by
  have apart : ((since stamp items r.seen).map key).Nodup := by
    have sorted : ((items.filter fun a => r.seen < stamp a).map key).Nodup := distinct.sublist (List.filter_sublist.map key)
    exact ((List.perm_insertionSort _ _).map key).nodup_iff.mpr sorted
  by_cases passed : stamp a ≤ r.seen
  · have absent : ∀ b ∈ since stamp items r.seen, key b ≠ key a := by
      intro b inside same
      obtain ⟨there, later⟩ := mem_since.mp inside
      have equal := List.inj_on_of_nodup_map distinct there member same
      rw [equal] at later
      omega
    exact (take_other absent).trans (fresh a member passed)
  · exact take_own apart (mem_since.mpr ⟨member, by omega⟩)

omit [DecidableEq κ] in
/-- Items that come or change are stamped after what the reader has seen. -/
theorem UpToDate.change (fresh : UpToDate key stamp r items) (changes : ∀ a ∈ items', a ∈ items ∨ r.seen < stamp a) :
    UpToDate key stamp r items' := by
  intro a member passed
  rcases changes a member with same | later
  · exact fresh a same passed
  · omega

theorem seen_take {bound : Nat} (start : r.seen ≤ bound) (stamped : ∀ a ∈ items, stamp a ≤ bound) : (r.take key stamp items).seen ≤ bound := by
  induction items generalizing r with
  | nil => exact start
  | cons b items ih =>
    apply ih
    · exact Nat.max_le.mpr ⟨start, stamped b List.mem_cons_self⟩
    · exact fun c member => stamped c (List.mem_cons_of_mem _ member)

theorem seen_poll {bound : Nat} (start : r.seen ≤ bound) (stamped : ∀ a ∈ items, stamp a ≤ bound) : (r.poll key stamp items).seen ≤ bound :=
  seen_take start fun a member => stamped a (mem_since.mp member).1

end Oxplow.Library.Polling

/-! One receiver's end of a bounded broadcast channel. A send never waits: past the bound the
oldest message is dropped, and the receiver is told that it fell behind before it gets the rest. -/

namespace Oxplow.Library

structure Receiver (α : Type) where
  queue : List α
  /-- Messages were dropped since it last received. -/
  lagged : Bool
  deriving DecidableEq

inductive Received (α : Type) where
  | message (a : α)
  | lagged
  deriving DecidableEq

namespace Receiver

variable {α : Type}

def empty : Receiver α := ⟨[], false⟩

def send (capacity : Nat) (r : Receiver α) (a : α) : Receiver α :=
  if r.queue.length < capacity then { r with queue := r.queue ++ [a] } else ⟨r.queue.tail ++ [a], true⟩

def receive : Receiver α → Option (Received α × Receiver α)
  | ⟨queue, true⟩ => some (.lagged, ⟨queue, false⟩)
  | ⟨a :: queue, false⟩ => some (.message a, ⟨queue, false⟩)
  | ⟨[], false⟩ => none

/-- The receiver is still to receive `a`, or to be told that it may have missed it. -/
def Hears (r : Receiver α) (a : α) : Prop := r.lagged = true ∨ a ∈ r.queue

theorem hears_sent (capacity : Nat) (r : Receiver α) (a : α) : (r.send capacity a).Hears a := by
  unfold send
  split
  · exact .inr (List.mem_append_right _ (List.mem_singleton_self a))
  · exact .inl rfl

variable {r : Receiver α} {a : α}

theorem Hears.send (hears : r.Hears a) (capacity : Nat) (b : α) : (r.send capacity b).Hears a := by
  unfold Receiver.send
  split
  · exact hears.imp_right (List.mem_append_left _)
  · exact .inl rfl

/-- What it was to receive it has received, or is still to receive. -/
theorem Hears.receive {next : Receiver α} (hears : r.Hears a) {got : Received α} (received : r.receive = some (got, next)) :
    got = .lagged ∨ got = .message a ∨ next.Hears a := by
  obtain ⟨queue, lagged⟩ := r
  cases lagged with
  | true =>
    obtain ⟨rfl, rfl⟩ := Prod.mk.inj (Option.some.inj received)
    exact .inl rfl
  | false =>
    cases queue with
    | nil => cases received
    | cons b queue =>
      obtain ⟨rfl, rfl⟩ := Prod.mk.inj (Option.some.inj received)
      rcases hears with lagged | member
      · cases lagged
      · rcases List.mem_cons.mp member with rfl | later
        · exact .inr (.inl rfl)
        · exact .inr (.inr (.inr later))

theorem not_hears_of_none (none : r.receive = none) : ¬ r.Hears a := by
  obtain ⟨queue, lagged⟩ := r
  cases lagged with
  | true => cases none
  | false =>
    cases queue with
    | nil =>
      rintro (lagged | member)
      · cases lagged
      · cases member
    | cons => cases none

end Receiver

end Oxplow.Library
