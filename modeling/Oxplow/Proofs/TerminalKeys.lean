import Oxplow.Library.Machine
import Oxplow.Terminals.TerminalSessions

/-! Every registered session is the one its key finds, as long as no session is registered over
another and none while `close_all` empties the index. -/

namespace Oxplow.Proofs.TerminalKeys
open Library Terminals

variable {s next : Sessions} {dropped : Dropped} {call : Call} {index id : Nat} {key : SessionKey}

/-- While a session's key goes into the index nothing else can look for it. -/
structure Kept (s : Sessions) : Prop where
  found : ∀ (id : Nat) key, s.inner[id]? = some key → s.byKey[key]? = some id ∨ s.held = some (.indexing id key)
  unique : ∀ (id id' : Nat) key, s.inner[id]? = some key → s.inner[id']? = some key → id = id'
  fresh : ∀ id ∈ s.inner, id < s.nextId
  forwards : ∀ id ∈ s.forwarders, id < s.nextId
  exited : ∀ id key, Call.exited id key ∈ s.calls → id < s.nextId ∧ id ∉ s.inner
  indexing : ∀ id key, s.held = some (.indexing id key) → s.inner[id]? = some key
  unindexing : ∀ key, s.held = some (.unindexing key) → ∀ id : Nat, s.inner[id]? ≠ some key

/-- No session is registered under a key that has one, and the index is not emptied of one. -/
def ClearCall (s : Sessions) (ok : Bool) : Call → Prop
  | .spawn key => ok = true → s.held = none → ∀ id : Nat, s.inner[id]? ≠ some key
  | .clearKeys => ∀ (id : Nat) key, s.inner[id]? = some key → s.held = some (.indexing id key)
  | _ => True

def Clear (s : Sessions) : SessionStep → Prop
  | .proceed index ok => ∀ call, s.calls[index]? = some call → ClearCall s ok call
  | _ => True

theorem mem_inner (at_ : s.inner[id]? = some key) : id ∈ s.inner :=
  Std.ExtTreeMap.mem_iff_isSome_getElem?.mpr (by rw [at_]; rfl)

theorem absent_inner (absent : id ∉ s.inner) : s.inner[id]? ≠ some key := fun at_ => absent (mem_inner at_)

theorem getElem?_erase_inner {other : Nat} (at_ : (s.inner.erase other)[id]? = some key) :
    other ≠ id ∧ s.inner[id]? = some key := by
  rw [Std.ExtTreeMap.getElem?_erase] at at_
  split at at_
  · exact absurd at_ (Option.some_ne_none _).symm
  · rename_i apart
    exact ⟨fun same => apart (Std.LawfulEqCmp.compare_eq_iff_eq.mpr same), at_⟩

theorem kept_start : Kept .start := by
  apply Kept.mk <;> simp [Sessions.start]

/-! ## The calls under way -/

theorem Kept.calls (kept : Kept s) {calls : List Call}
    (exited : ∀ id key, Call.exited id key ∈ calls → Call.exited id key ∈ s.calls) : Kept { s with calls := calls } :=
  { kept with exited := fun id key member => kept.exited id key (exited id key member) }

theorem Kept.begin (kept : Kept s) (live : ∀ id key, call ≠ .exited id key) : Kept (s.begin call) := by
  apply kept.calls
  intro id key member
  rcases List.mem_append.mp member with old | new
  · exact old
  · exact absurd (List.mem_singleton.mp new).symm (live id key)

theorem Kept.finish (kept : Kept s) (index : Nat) : Kept (s.finish index) := by
  apply kept.calls
  intro id key member
  exact List.mem_of_mem_eraseIdx member

theorem Kept.become (kept : Kept s) (index : Nat) (live : ∀ id key, call ≠ .exited id key) : Kept (s.become index call) := by
  apply kept.calls
  intro id key member
  rcases List.mem_or_eq_of_mem_set member with old | new
  · exact old
  · exact absurd new.symm (live id key)

theorem Kept.missing (kept : Kept s) (index : Nat) (key : SessionKey) (purpose : Purpose) : Kept (s.missing index key purpose) := by
  cases purpose with
  | attach => exact kept.become index fun _ _ => Call.noConfusion
  | closeKey => exact kept.finish index

theorem Kept.foundCall (kept : Kept s) (index id : Nat) (purpose : Purpose) : Kept (s.found index id purpose) := by
  cases purpose with
  | attach => exact kept.finish index
  | closeKey => exact kept.become index fun _ _ => Call.noConfusion

/-! ## The two maps -/

theorem Kept.register (kept : Kept s) (free : s.held = none) (lone : ∀ id : Nat, s.inner[id]? ≠ some key) : Kept (s.register key) := by
  have inner : ∀ (id : Nat) key', (s.register key).inner[id]? = some key' →
      id = s.nextId ∧ key' = key ∨ s.inner[id]? = some key' ∧ key' ≠ key := by
    intro id key' at_
    simp only [Sessions.register, Std.ExtTreeMap.getElem?_insert] at at_
    split at at_
    · rename_i same
      exact .inl ⟨(Std.LawfulEqCmp.eq_of_compare same).symm, (Option.some.inj at_).symm⟩
    · exact .inr ⟨at_, fun same => lone id (same ▸ at_)⟩
  have new : (s.register key).inner[s.nextId]? = some key := Std.ExtTreeMap.getElem?_insert_self
  refine ⟨?_, ?_, ?_, ?_, ?_, ?_, fun _ holds => by simp [Sessions.register] at holds⟩
  · intro id key' at_
    rcases inner id key' at_ with ⟨rfl, rfl⟩ | ⟨old, _⟩
    · exact .inr rfl
    · refine .inl ((kept.found id key' old).resolve_right ?_)
      rw [free]
      exact (Option.some_ne_none _).symm
  · intro id id' key' at_ at_'
    rcases inner id key' at_ with ⟨rfl, rfl⟩ | ⟨old, apart⟩
    · rcases inner id' key' at_' with ⟨rfl, _⟩ | ⟨_, apart⟩
      · rfl
      · exact absurd rfl apart
    · rcases inner id' key' at_' with ⟨_, same⟩ | ⟨old', _⟩
      · exact absurd same apart
      · exact kept.unique id id' key' old old'
  · intro id member
    rcases Std.ExtTreeMap.mem_insert.mp member with same | old
    · exact Std.LawfulEqCmp.eq_of_compare same ▸ Nat.lt_succ_self _
    · exact Nat.lt_succ_of_lt (kept.fresh id old)
  · intro id member
    rcases Std.ExtTreeMap.mem_insert.mp member with same | old
    · exact Std.LawfulEqCmp.eq_of_compare same ▸ Nat.lt_succ_self _
    · exact Nat.lt_succ_of_lt (kept.forwards id old)
  · intro id key' member
    obtain ⟨below, absent⟩ := kept.exited id key' member
    refine ⟨Nat.lt_succ_of_lt below, fun inside => ?_⟩
    rcases Std.ExtTreeMap.mem_insert.mp inside with same | old
    · exact absurd (Std.LawfulEqCmp.eq_of_compare same) (Nat.ne_of_gt below)
    · exact absent old
  · intro id key' holds
    obtain ⟨rfl, rfl⟩ := Held.indexing.inj (Option.some.inj holds)
    exact new

/-- Sessions only go, and nothing else holds the sessions. -/
theorem Kept.erase (kept : Kept s) (free : s.held = none) (id : Nat) :
    Kept { s with inner := s.inner.erase id, forwarders := s.forwarders.erase id } where
  found := fun id' key at_ => kept.found id' key (getElem?_erase_inner at_).2
  unique := fun a b key at_ at_' => kept.unique a b key (getElem?_erase_inner at_).2 (getElem?_erase_inner at_').2
  fresh := fun id' member => kept.fresh id' (Std.ExtTreeMap.mem_of_mem_erase member)
  forwards := fun id' member => kept.forwards id' (Std.ExtTreeMap.mem_of_mem_erase member)
  exited := fun id' key member =>
    ⟨(kept.exited id' key member).1, fun inside => (kept.exited id' key member).2 (Std.ExtTreeMap.mem_of_mem_erase inside)⟩
  indexing := fun _ _ holds => absurd (free.symm.trans holds) (Option.some_ne_none _).symm
  unindexing := fun _ holds => absurd (free.symm.trans holds) (Option.some_ne_none _).symm

theorem Kept.remove (kept : Kept s) (free : s.held = none) (at_ : s.inner[id]? = some key) : Kept (s.remove id key) := by
  have erased := kept.erase free id
  refine { erased with found := ?_, indexing := ?_, unindexing := ?_ }
  · intro id' key' at_'
    refine .inl ((erased.found id' key' at_').resolve_right ?_)
    change s.held ≠ _
    rw [free]
    exact (Option.some_ne_none _).symm
  · intro _ _ holds
    exact absurd (Option.some.inj holds) Held.noConfusion
  · intro key' holds id' at_'
    obtain rfl := Held.unindexing.inj (Option.some.inj holds)
    obtain ⟨apart, old⟩ := getElem?_erase_inner at_'
    exact apart (kept.unique id id' key at_ old)

theorem Kept.exit (kept : Kept s) (free : s.held = none) (runs : s.forwarders[id]? = some key) :
    Kept { s.begin (.exited id key) with inner := s.inner.erase id, forwarders := s.forwarders.erase id } := by
  have erased := kept.erase free id
  refine { erased with exited := ?_ }
  intro id' key' member
  rcases List.mem_append.mp member with old | new
  · exact erased.exited id' key' old
  · obtain ⟨rfl, rfl⟩ := Call.exited.inj (List.mem_singleton.mp new)
    have running : id' ∈ s.forwarders := Std.ExtTreeMap.mem_iff_isSome_getElem?.mpr (by rw [runs]; rfl)
    exact ⟨kept.forwards id' running, fun inside => (Std.ExtTreeMap.mem_erase.mp inside).1 Std.ReflCmp.compare_self⟩

/-- What the index loses names no registered session. -/
theorem Kept.unindex (kept : Kept s) (key : SessionKey)
    (unnamed : ∀ id : Nat, s.inner[id]? = some key → s.held = some (.indexing id key)) :
    Kept { s with byKey := s.byKey.erase key } := by
  refine { kept with found := ?_ }
  intro id key' at_
  rcases kept.found id key' at_ with named | holds
  · by_cases same : key = key'
    · exact .inr (same ▸ unnamed id (same ▸ at_))
    · refine .inl ?_
      rw [Std.ExtTreeMap.getElem?_erase, if_neg fun alike => same (Std.LawfulEqCmp.eq_of_compare alike)]
      exact named
  · exact .inr holds

theorem Kept.drain (kept : Kept s) (free : s.held = none) : Kept { s with inner := ∅ } where
  found := fun _ _ at_ => by simp at at_
  unique := fun _ _ _ at_ => by simp at at_
  fresh := fun _ member => absurd member Std.ExtTreeMap.not_mem_empty
  forwards := kept.forwards
  exited := fun id key member => ⟨(kept.exited id key member).1, Std.ExtTreeMap.not_mem_empty⟩
  indexing := fun _ _ holds => absurd (free.symm.trans holds) (Option.some_ne_none _).symm
  unindexing := fun _ holds => absurd (free.symm.trans holds) (Option.some_ne_none _).symm

/-! ## Steps -/

theorem free_of_not_held (waits : ¬ s.held.isSome = true) : s.held = none := Option.not_isSome_iff_eq_none.mp waits

theorem Kept.proceed {ok : Bool} (kept : Kept s) (clear : Clear s (.proceed index ok))
    (moves : s.proceed index ok = some (next, dropped)) : Kept next := by
  unfold Sessions.proceed at moves
  split at moves
  · exact absurd moves (Option.some_ne_none _).symm
  · split at moves
    · obtain ⟨rfl, _⟩ := Prod.mk.inj (Option.some.inj moves)
      exact kept.missing _ _ _
    · obtain ⟨rfl, _⟩ := Prod.mk.inj (Option.some.inj moves)
      exact kept.become _ fun _ _ => Call.noConfusion
  · split at moves
    · exact absurd moves (Option.some_ne_none _).symm
    · split at moves
      · obtain ⟨rfl, _⟩ := Prod.mk.inj (Option.some.inj moves)
        exact kept.foundCall _ _ _
      · obtain ⟨rfl, _⟩ := Prod.mk.inj (Option.some.inj moves)
        exact kept.missing _ _ _
  · rename_i key at_
    split at moves
    · obtain ⟨rfl, _⟩ := Prod.mk.inj (Option.some.inj moves)
      exact kept.finish _
    · rename_i up
      split at moves
      · exact absurd moves (Option.some_ne_none _).symm
      · rename_i waits
        obtain ⟨rfl, _⟩ := Prod.mk.inj (Option.some.inj moves)
        have free := free_of_not_held waits
        have lone := clear (.spawn key) at_ (by simpa using up) free
        exact (kept.finish index).register free lone
  · split at moves
    · exact absurd moves (Option.some_ne_none _).symm
    · rename_i waits
      split at moves
      · obtain ⟨rfl, _⟩ := Prod.mk.inj (Option.some.inj moves)
        exact kept.finish _
      · rename_i key registered
        obtain ⟨rfl, _⟩ := Prod.mk.inj (Option.some.inj moves)
        exact (kept.finish index).remove (free_of_not_held waits) registered
  · rename_i id key at_
    split at moves
    · rename_i named
      obtain ⟨rfl, _⟩ := Prod.mk.inj (Option.some.inj moves)
      refine (kept.finish index).unindex key fun id' registered => ?_
      refine (kept.found id' key registered).resolve_left fun named' => ?_
      -- The session that the index named is the one that exited.
      obtain rfl := Option.some.inj (named.symm.trans named')
      exact absent_inner (kept.exited id key (List.mem_of_getElem? at_)).2 registered
    · obtain ⟨rfl, _⟩ := Prod.mk.inj (Option.some.inj moves)
      exact kept.finish _
  · obtain ⟨rfl, _⟩ := Prod.mk.inj (Option.some.inj moves)
    have become : Kept (s.become index .clearKeys) := kept.become index fun _ _ => Call.noConfusion
    exact { become with
      forwards := fun id member => become.forwards id (Std.ExtTreeMap.mem_of_mem_filter member) }
  · rename_i at_
    obtain ⟨rfl, _⟩ := Prod.mk.inj (Option.some.inj moves)
    have become : Kept (s.become index .clearInput) := kept.become index fun _ _ => Call.noConfusion
    exact { become with found := fun id key registered => .inr (clear .clearKeys at_ id key registered) }
  · obtain ⟨rfl, _⟩ := Prod.mk.inj (Option.some.inj moves)
    exact kept.finish _

theorem Kept.advance (kept : Kept s) (moves : s.advance = some (next, dropped)) : Kept next := by
  unfold Sessions.advance at moves
  split at moves
  · exact absurd moves (Option.some_ne_none _).symm
  · rename_i id key holds
    obtain ⟨rfl, _⟩ := Prod.mk.inj (Option.some.inj moves)
    refine ⟨?_, kept.unique, kept.fresh, kept.forwards, kept.exited,
      fun _ _ held => absurd held.symm (Option.some_ne_none _), fun _ held => absurd held.symm (Option.some_ne_none _)⟩
    intro id' key' registered
    refine .inl ?_
    rw [Std.ExtTreeMap.getElem?_insert]
    by_cases same : key = key'
    · subst same
      rw [if_pos Std.ReflCmp.compare_self, kept.unique id id' key (kept.indexing id key holds) registered]
    · rw [if_neg fun alike => same (Std.LawfulEqCmp.eq_of_compare alike)]
      refine (kept.found id' key' registered).resolve_right fun holds' => ?_
      exact same (Held.indexing.inj (Option.some.inj (holds.symm.trans holds'))).2
  · rename_i key holds
    obtain ⟨rfl, _⟩ := Prod.mk.inj (Option.some.inj moves)
    have gone := kept.unindexing key holds
    have unindexed := kept.unindex key fun id registered => absurd registered (gone id)
    refine ⟨?_, kept.unique, kept.fresh, kept.forwards, kept.exited,
      fun _ _ held => absurd (Option.some.inj held) Held.noConfusion, fun _ held => absurd (Option.some.inj held) Held.noConfusion⟩
    intro id' key' registered
    refine .inl ((unindexed.found id' key' registered).resolve_right fun holds' => ?_)
    exact absurd (Option.some.inj (holds.symm.trans holds')) Held.noConfusion
  · rename_i key holds
    obtain ⟨rfl, _⟩ := Prod.mk.inj (Option.some.inj moves)
    refine ⟨?_, kept.unique, kept.fresh, kept.forwards, kept.exited,
      fun _ _ held => absurd held.symm (Option.some_ne_none _), fun _ held => absurd held.symm (Option.some_ne_none _)⟩
    intro id' key' registered
    refine .inl ((kept.found id' key' registered).resolve_right fun holds' => ?_)
    exact absurd (Option.some.inj (holds.symm.trans holds')) Held.noConfusion

theorem Kept.step {event : SessionStep} (kept : Kept s) (clear : Clear s event) (moves : s.step event = some (next, dropped)) :
    Kept next := by
  cases event with
  | attach key | closeKey key | close id =>
    obtain ⟨rfl, _⟩ := Prod.mk.inj (Option.some.inj moves)
    exact kept.begin fun _ _ => Call.noConfusion
  | closeAll =>
    simp only [Sessions.step] at moves
    split at moves
    · exact absurd moves (Option.some_ne_none _).symm
    · rename_i waits
      obtain ⟨rfl, _⟩ := Prod.mk.inj (Option.some.inj moves)
      have begun : Kept (s.begin (.abort s.inner.keys)) := kept.begin fun _ _ => Call.noConfusion
      exact begun.drain (free_of_not_held waits)
  | proceed index ok => exact kept.proceed clear moves
  | exit id =>
    simp only [Sessions.step] at moves
    split at moves
    · exact absurd moves (Option.some_ne_none _).symm
    · rename_i waits
      obtain ⟨key, runs, same⟩ := Option.map_eq_some_iff.mp moves
      obtain ⟨rfl, _⟩ := Prod.mk.inj same
      exact kept.exit (free_of_not_held waits) runs
  | advance => exact kept.advance moves

/-! ## Runs -/

/-- Calling `close_key` with nothing between its steps. -/
def closeAlone (s : Sessions) (key : SessionKey) : List RegistryStep :=
  [.session (.closeKey key), .session (.proceed s.calls.length true), .session (.proceed s.calls.length true),
    .session (.proceed s.calls.length true)]

/-- A key has one live session at most, and finds it. -/
structure OneLive (s : Registry) : Prop where
  unique : ∀ (id id' : Nat) key, s.sessions.inner[id]? = some key → s.sessions.inner[id']? = some key → id = id'
  found : ∀ (id : Nat) key, s.sessions.inner[id]? = some key →
    s.sessions.byKey[key]? = some id ∨ s.sessions.held = some (.indexing id key)
  closes : s.sessions.held = none → ∀ (id : Nat) key, s.sessions.inner[id]? = some key →
    id ∉ (Machine.run Registry.step s (closeAlone s.sessions key)).sessions.inner

theorem run_session {s : Registry} {step : SessionStep} (moves : s.sessions.step step = some (next, dropped)) :
    Machine.advance Registry.step s (.session step) = ⟨next, s.inputs.drop dropped⟩ := by
  apply Machine.advance_of_some
  simp only [Registry.step, moves, Option.map_some]
  rfl

/-- Closing a key whose session the index names ends that session. -/
theorem closes_named {s : Registry} (free : s.sessions.held = none) (registered : s.sessions.inner[id]? = some key)
    (named : s.sessions.byKey[key]? = some id) :
    id ∉ (Machine.run Registry.step s (closeAlone s.sessions key)).sessions.inner := by
  let called := s.sessions.begin (.lookup key .closeKey)
  let looked := called.become s.sessions.calls.length (.check key .closeKey id)
  let checked := looked.become s.sessions.calls.length (.close id)
  have last (call : Call) : (s.sessions.calls ++ [call])[s.sessions.calls.length]? = some call := by simp
  have looks : called.step (.proceed s.sessions.calls.length true) = some (looked, .none) := by
    change called.proceed _ _ = _
    unfold Sessions.proceed
    rw [show called.calls[s.sessions.calls.length]? = some (.lookup key .closeKey) from last _]
    simp only [show called.byKey[key]? = some id from named]
    rfl
  have at_ : looked.calls[s.sessions.calls.length]? = some (.check key .closeKey id) := by
    simp [looked, called, Sessions.become, Sessions.begin]
  have checks : looked.step (.proceed s.sessions.calls.length true) = some (checked, .none) := by
    change looked.proceed _ _ = _
    unfold Sessions.proceed
    rw [at_]
    have held : ¬ looked.held.isSome = true := by
      change ¬ s.sessions.held.isSome = true
      rw [free]
      exact Bool.false_ne_true
    simp only [if_neg held, if_pos (show id ∈ looked.inner from mem_inner registered)]
    rfl
  have at_' : checked.calls[s.sessions.calls.length]? = some (.close id) := by
    simp [checked, looked, called, Sessions.become, Sessions.begin]
  have closes : checked.step (.proceed s.sessions.calls.length true) =
      some ((checked.finish s.sessions.calls.length).remove id key, .none) := by
    change checked.proceed _ _ = _
    unfold Sessions.proceed
    rw [at_']
    have held : ¬ checked.held.isSome = true := by
      change ¬ s.sessions.held.isSome = true
      rw [free]
      exact Bool.false_ne_true
    simp only [if_neg held, show checked.inner[id]? = some key from registered]
  have begins : s.sessions.step (.closeKey key) = some (called, .none) := rfl
  rw [closeAlone, Machine.run_cons, run_session begins, Machine.run_cons, run_session looks, Machine.run_cons, run_session checks,
    Machine.run_cons, run_session closes]
  exact fun inside => (Std.ExtTreeMap.mem_erase.mp inside).1 Std.ReflCmp.compare_self

theorem Kept.oneLive {s : Registry} (kept : Kept s.sessions) : OneLive s where
  unique := kept.unique
  found := kept.found
  closes := by
    intro free id key registered
    apply closes_named free registered
    refine (kept.found id key registered).resolve_right fun holds => ?_
    exact absurd (free.symm.trans holds) (Option.some_ne_none _).symm

/-- Clear steps of the sessions; input is written at any time. -/
def ClearStep (s : Registry) : RegistryStep → Prop
  | .session step => Clear s.sessions step
  | .input _ => True

/-- A window attaches, and its terminal is closed by its key. -/
def attachAndClose : List RegistryStep :=
  [.session (.attach "a"), .session (.proceed 0 true), .session (.proceed 0 true), .session .advance]

/-- Two windows attach to a key at once, and neither finds a session. -/
def attachTwice : List RegistryStep :=
  [.session (.attach "a"), .session (.attach "a"), .session (.proceed 0 true), .session (.proceed 1 true), .session (.proceed 0 true),
    .session .advance, .session (.proceed 0 true), .session .advance]

end Oxplow.Proofs.TerminalKeys
