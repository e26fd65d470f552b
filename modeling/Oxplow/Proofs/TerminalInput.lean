import Oxplow.Library.Machine
import Oxplow.Terminals.TerminalSessions

/-! Messages are written to the terminals of a key in the order they were queued, as long as no
queue of the key starts while an earlier one still holds messages. -/

namespace Oxplow.Proofs.TerminalInput
open Library Terminals

def message : Stage → Option Nat
  | .receiving => none
  | .waiting message _ | .sending message _ _ | .writing message _ => some message

/-- The messages a drain has yet to write, in order. -/
def pending (drain : Drain) : List Nat := (message drain.stage).toList ++ drain.queue

def writtenTo (s : Inputs) (key : SessionKey) : List Nat :=
  s.written.filterMap fun entry => if entry.1 = key then some entry.2.2 else none

variable {s next : Inputs} {drain : Drain} {key : SessionKey} {index : Nat}

/-- A queue starts for the key. Every earlier one of the key is drained. -/
def Drained (s : Inputs) (key : SessionKey) : Prop :=
  ∀ (index : Nat) drain, s.drains[index]? = some drain → drain.key = key → pending drain = []

/-- One drain of a key holds messages at most, the one its queue leads to where there is one,
and they come after what is written. -/
structure Kept (s : Inputs) : Prop where
  lone : ∀ (i j : Nat) d e, s.drains[i]? = some d → s.drains[j]? = some e → d.key = e.key → pending d ≠ [] → pending e ≠ [] → i = j
  current : ∀ key (i : Nat), s.input[key]? = some i → ∃ d, s.drains[i]? = some d ∧ d.key = key ∧
    ∀ (j : Nat) e, s.drains[j]? = some e → e.key = key → pending e ≠ [] → j = i
  ordered : ∀ (i : Nat) d, s.drains[i]? = some d → (writtenTo s d.key ++ pending d).Pairwise (· < ·)
  written : ∀ key, (writtenTo s key).Pairwise (· < ·)
  below : ∀ (i : Nat) d, s.drains[i]? = some d → ∀ m ∈ pending d, m < s.nextMessage
  past : ∀ key, ∀ m ∈ writtenTo s key, m < s.nextMessage
  fresh : ∀ i ∈ s.drains, i < s.nextDrain

theorem kept_start : Kept .start := by
  apply Kept.mk <;> simp [Inputs.start, writtenTo]

theorem getElem?_setDrain {other : Nat} {found : Drain} (at_ : (s.setDrain index drain).drains[other]? = some found) :
    index = other ∧ drain = found ∨ s.drains[other]? = some found ∧ index ≠ other := by
  simp only [Inputs.setDrain, Std.ExtTreeMap.getElem?_insert] at at_
  split at at_
  · exact .inl ⟨Std.LawfulEqCmp.eq_of_compare ‹_›, Option.some.inj at_⟩
  · rename_i apart
    exact .inr ⟨at_, fun same => apart (Std.LawfulEqCmp.compare_eq_iff_eq.mpr same)⟩

theorem setDrain_self : (s.setDrain index drain).drains[index]? = some drain := Std.ExtTreeMap.getElem?_insert_self

theorem setDrain_of_ne {other : Nat} (apart : index ≠ other) : (s.setDrain index drain).drains[other]? = s.drains[other]? := by
  simp only [Inputs.setDrain]
  rw [Std.ExtTreeMap.getElem?_insert, if_neg fun alike => apart (Std.LawfulEqCmp.eq_of_compare alike)]

variable {later : Drain}

theorem fresh_setDrain (kept : Kept s) (at_ : s.drains[index]? = some drain) :
    ∀ i ∈ (s.setDrain index later).drains, i < s.nextDrain := by
  intro i member
  rcases Std.ExtTreeMap.mem_insert.mp member with same | old
  · obtain rfl := Std.LawfulEqCmp.eq_of_compare same
    exact kept.fresh index (Std.ExtTreeMap.mem_iff_isSome_getElem?.mpr (by rw [at_]; rfl))
  · exact kept.fresh i old

/-! ## A drain goes on -/

/-- A drain that holds no more than it did keeps the order. -/
theorem Kept.shrink (kept : Kept s) (at_ : s.drains[index]? = some drain) (key : later.key = drain.key)
    (fewer : (pending later).Sublist (pending drain)) : Kept (s.setDrain index later) := by
  have held {i : Nat} {d : Drain} (found : (s.setDrain index later).drains[i]? = some d) :
      ∃ e, s.drains[i]? = some e ∧ d.key = e.key ∧ (pending d).Sublist (pending e) := by
    rcases getElem?_setDrain found with ⟨rfl, rfl⟩ | ⟨old, _⟩
    · exact ⟨drain, at_, key, fewer⟩
    · exact ⟨d, old, rfl, List.Sublist.refl _⟩
  have more {d e : Drain} (sub : (pending d).Sublist (pending e)) (some_ : pending d ≠ []) : pending e ≠ [] :=
    fun none_ => some_ (List.eq_nil_of_sublist_nil (none_ ▸ sub))
  refine ⟨?_, ?_, ?_, kept.written, ?_, kept.past, fresh_setDrain kept at_⟩
  · intro i j d e atI atJ same someD someE
    obtain ⟨d', atI', keyD, subD⟩ := held atI
    obtain ⟨e', atJ', keyE, subE⟩ := held atJ
    exact kept.lone i j d' e' atI' atJ' (keyD.symm.trans (same.trans keyE)) (more subD someD) (more subE someE)
  · intro key' i leads
    obtain ⟨d, atI, keyD, others⟩ := kept.current key' i leads
    have now : ∃ d', (s.setDrain index later).drains[i]? = some d' ∧ d'.key = key' := by
      by_cases same : index = i
      · subst same
        obtain rfl := Option.some.inj (at_.symm.trans atI)
        exact ⟨later, setDrain_self, key.trans keyD⟩
      · exact ⟨d, (setDrain_of_ne same).trans atI, keyD⟩
    obtain ⟨d', atI', keyD'⟩ := now
    refine ⟨d', atI', keyD', fun j e atJ keyE someE => ?_⟩
    obtain ⟨e', atJ', keyE', subE⟩ := held atJ
    exact others j e' atJ' (keyE'.symm.trans keyE) (more subE someE)
  · intro i d found
    obtain ⟨e, atI, keyE, sub⟩ := held found
    rw [keyE]
    exact (kept.ordered i e atI).sublist ((List.Sublist.refl _).append sub)
  · intro i d found m member
    obtain ⟨e, atI, _, sub⟩ := held found
    exact kept.below i e atI m (sub.subset member)

/-- What a drain holds first is written. -/
theorem Kept.write (kept : Kept s) {first id : Nat} {rest : List Nat} (at_ : s.drains[index]? = some drain)
    (key : later.key = drain.key) (holds : pending drain = first :: rest) (left : pending later = rest) :
    Kept { s.setDrain index later with written := s.written ++ [(drain.key, id, first)] } := by
  have shrunk : Kept (s.setDrain index later) := by
    apply kept.shrink at_ key
    rw [holds, left]
    exact List.sublist_cons_self first rest
  let after : Inputs := { s.setDrain index later with written := s.written ++ [(drain.key, id, first)] }
  have own : writtenTo after drain.key = writtenTo s drain.key ++ [first] := by
    simp [writtenTo, after, List.filterMap_append]
  have apart {other : SessionKey} (different : drain.key ≠ other) : writtenTo after other = writtenTo s other := by
    simp [writtenTo, after, List.filterMap_append, different]
  have inOrder : (writtenTo s drain.key ++ first :: rest).Pairwise (· < ·) := holds ▸ kept.ordered index drain at_
  have written : (writtenTo s drain.key ++ [first]).Pairwise (· < ·) := by
    refine List.Pairwise.sublist ?_ inOrder
    exact (List.Sublist.refl _).append (List.singleton_sublist.mpr List.mem_cons_self)
  have holds_ : pending drain ≠ [] := by
    rw [holds]
    exact List.cons_ne_nil first rest
  refine ⟨shrunk.lone, shrunk.current, ?_, ?_, shrunk.below, ?_, shrunk.fresh⟩
  · intro i d found
    by_cases same : drain.key = d.key
    · rw [← same, own]
      rcases getElem?_setDrain found with ⟨rfl, rfl⟩ | ⟨old, different⟩
      · rw [left, List.append_assoc]
        exact inOrder
      · have idle : pending d = [] := by
          apply Classical.byContradiction
          intro some_
          exact different (kept.lone index i drain d at_ old same holds_ some_)
        rw [idle, List.append_nil]
        exact written
    · rw [apart same]
      exact shrunk.ordered i d found
  · intro other
    by_cases same : drain.key = other
    · subst same
      rw [own]
      exact written
    · rw [apart same]
      exact kept.written other
  · intro other m member
    by_cases same : drain.key = other
    · subst same
      rw [own] at member
      rcases List.mem_append.mp member with old | new
      · exact kept.past drain.key m old
      · obtain rfl := List.mem_singleton.mp new
        exact kept.below index drain at_ m (holds ▸ List.mem_cons_self)
    · rw [apart same] at member
      exact kept.past other m member

/-! ## A message is queued -/

/-- The newest message goes behind the others. -/
theorem pairwise_concat {earlier : List Nat} {m : Nat} (ordered : earlier.Pairwise (· < ·)) (below : ∀ n ∈ earlier, n < m) :
    (earlier ++ [m]).Pairwise (· < ·) := by
  apply List.pairwise_append.mpr
  refine ⟨ordered, List.pairwise_singleton _ _, fun n member m' last => ?_⟩
  obtain rfl := List.mem_singleton.mp last
  exact below n member

theorem Kept.queue (kept : Kept s) (leads : s.input[key]? = some index) (at_ : s.drains[index]? = some drain) :
    Kept { s.setDrain index { drain with queue := drain.queue ++ [s.nextMessage] } with nextMessage := s.nextMessage + 1 } := by
  obtain ⟨d, found, keyD, others⟩ := kept.current key index leads
  obtain rfl := Option.some.inj (at_.symm.trans found)
  let later : Drain := { drain with queue := drain.queue ++ [s.nextMessage] }
  have held : pending later = pending drain ++ [s.nextMessage] := (List.append_assoc _ _ _).symm
  refine ⟨?_, ?_, ?_, kept.written, ?_, fun key m member => Nat.lt_succ_of_lt (kept.past key m member), fresh_setDrain kept at_⟩
  · intro i j d e atI atJ same someD someE
    rcases getElem?_setDrain atI with ⟨rfl, rfl⟩ | ⟨oldI, _⟩
    · rcases getElem?_setDrain atJ with ⟨rfl, rfl⟩ | ⟨oldJ, _⟩
      · rfl
      · exact (others j e oldJ (same.symm.trans keyD) someE).symm
    · rcases getElem?_setDrain atJ with ⟨rfl, rfl⟩ | ⟨oldJ, _⟩
      · exact others i d oldI (same.trans keyD) someD
      · exact kept.lone i j d e oldI oldJ same someD someE
  · intro key' i leads'
    by_cases same : key = key'
    · subst same
      obtain rfl := Option.some.inj (leads.symm.trans leads')
      refine ⟨later, setDrain_self, keyD, fun j e atJ keyE someE => ?_⟩
      rcases getElem?_setDrain atJ with ⟨rfl, _⟩ | ⟨old, _⟩
      · rfl
      · exact others j e old keyE someE
    · obtain ⟨d', atI, keyD', others'⟩ := kept.current key' i leads'
      have different : index ≠ i := fun alike => by
        obtain rfl := alike
        obtain rfl := Option.some.inj (at_.symm.trans atI)
        exact same (keyD.symm.trans keyD')
      refine ⟨d', (setDrain_of_ne different).trans atI, keyD', fun j e atJ keyE someE => ?_⟩
      rcases getElem?_setDrain atJ with ⟨rfl, rfl⟩ | ⟨old, _⟩
      · exact absurd (keyD.symm.trans keyE) same
      · exact others' j e old keyE someE
  · intro i d found
    rcases getElem?_setDrain found with ⟨rfl, rfl⟩ | ⟨old, _⟩
    · change (writtenTo s drain.key ++ pending later).Pairwise (· < ·)
      rw [held, ← List.append_assoc]
      apply pairwise_concat (kept.ordered index drain at_)
      intro n member
      rcases List.mem_append.mp member with wrote | waits
      · exact kept.past drain.key n wrote
      · exact kept.below index drain at_ n waits
    · exact kept.ordered i d old
  · intro i d found m member
    rcases getElem?_setDrain found with ⟨rfl, rfl⟩ | ⟨old, _⟩
    · rcases List.mem_append.mp (held ▸ member : m ∈ pending drain ++ [s.nextMessage]) with waits | new
      · exact Nat.lt_succ_of_lt (kept.below index drain at_ m waits)
      · exact List.mem_singleton.mp new ▸ Nat.lt_succ_self _
    · exact Nat.lt_succ_of_lt (kept.below i d old m member)

/-- A new queue for a key whose earlier ones are drained. -/
theorem Kept.open_ (kept : Kept s) (drained : Drained s key) :
    Kept { s.setDrain s.nextDrain ⟨key, [s.nextMessage], .receiving⟩ with
      input := s.input.insert key s.nextDrain
      nextDrain := s.nextDrain + 1
      nextMessage := s.nextMessage + 1 } := by
  have older {i : Nat} {d : Drain} (at_ : s.drains[i]? = some d) : i < s.nextDrain :=
    kept.fresh i (Std.ExtTreeMap.mem_iff_isSome_getElem?.mpr (by rw [at_]; rfl))
  refine ⟨?_, ?_, ?_, kept.written, ?_, fun key m member => Nat.lt_succ_of_lt (kept.past key m member), ?_⟩
  · intro i j d e atI atJ same someD someE
    rcases getElem?_setDrain atI with ⟨rfl, rfl⟩ | ⟨oldI, _⟩
    · rcases getElem?_setDrain atJ with ⟨rfl, rfl⟩ | ⟨oldJ, _⟩
      · rfl
      · exact absurd (drained j e oldJ same.symm) someE
    · rcases getElem?_setDrain atJ with ⟨rfl, rfl⟩ | ⟨oldJ, _⟩
      · exact absurd (drained i d oldI same) someD
      · exact kept.lone i j d e oldI oldJ same someD someE
  · intro key' i leads
    simp only [Std.ExtTreeMap.getElem?_insert] at leads
    by_cases same : key = key'
    · subst same
      rw [if_pos Std.ReflCmp.compare_self] at leads
      obtain rfl := Option.some.inj leads
      refine ⟨_, setDrain_self, rfl, fun j e atJ keyE someE => ?_⟩
      rcases getElem?_setDrain atJ with ⟨rfl, _⟩ | ⟨old, _⟩
      · rfl
      · exact absurd (drained j e old keyE) someE
    · rw [if_neg fun alike => same (Std.LawfulEqCmp.eq_of_compare alike)] at leads
      obtain ⟨d, atI, keyD, others⟩ := kept.current key' i leads
      refine ⟨d, (setDrain_of_ne (Nat.ne_of_gt (older atI))).trans atI, keyD, fun j e atJ keyE someE => ?_⟩
      rcases getElem?_setDrain atJ with ⟨rfl, rfl⟩ | ⟨old, _⟩
      · exact absurd keyE same
      · exact others j e old keyE someE
  · intro i d found
    rcases getElem?_setDrain found with ⟨rfl, rfl⟩ | ⟨old, _⟩
    · exact pairwise_concat (kept.written key) (kept.past key)
    · exact kept.ordered i d old
  · intro i d found m member
    rcases getElem?_setDrain found with ⟨rfl, rfl⟩ | ⟨old, _⟩
    · exact List.mem_singleton.mp member ▸ Nat.lt_succ_self _
    · exact Nat.lt_succ_of_lt (kept.below i d old m member)
  · intro i member
    rcases Std.ExtTreeMap.mem_insert.mp member with same | old
    · exact Std.LawfulEqCmp.eq_of_compare same ▸ Nat.lt_succ_self _
    · exact Nat.lt_succ_of_lt (kept.fresh i old)

/-! ## Steps -/

def Clear (s : Inputs) : InputStep → Prop
  | .enqueue key => s.input[key]? = none → Drained s key
  | _ => True

theorem Kept.enqueue (kept : Kept s) (clear : Clear s (.enqueue key)) : Kept (s.enqueue key) := by
  unfold Inputs.enqueue
  split
  · rename_i index drain found
    obtain ⟨i, leads, found⟩ := Option.bind_eq_some_iff.mp found
    obtain ⟨d, at_, same⟩ := Option.map_eq_some_iff.mp found
    obtain ⟨rfl, rfl⟩ := Prod.mk.inj same
    exact kept.queue leads at_
  · rename_i missing
    apply kept.open_
    apply clear
    -- A queue that is there has its drain.
    cases leads : s.input[key]? with
    | none => rfl
    | some i =>
      obtain ⟨d, at_, _⟩ := kept.current key i leads
      simp [leads, at_] at missing

theorem Kept.drop (kept : Kept s) (dropped : Dropped) : Kept (s.drop dropped) := by
  cases dropped with
  | none => exact kept
  | key key =>
    refine ⟨kept.lone, ?_, kept.ordered, kept.written, kept.below, kept.past, kept.fresh⟩
    intro key' i leads
    simp only [Inputs.drop, Std.ExtTreeMap.getElem?_erase] at leads
    split at leads
    · exact absurd leads (Option.some_ne_none _).symm
    · exact kept.current key' i leads
  | all =>
    refine ⟨kept.lone, ?_, kept.ordered, kept.written, kept.below, kept.past, kept.fresh⟩
    intro key' i leads
    simp [Inputs.drop] at leads

theorem Kept.step {live : Nat → Option SessionKey} {event : InputStep} (kept : Kept s) (clear : Clear s event)
    (moves : s.step live event = some next) : Kept next := by
  cases event with
  | enqueue key =>
    obtain rfl := Option.some.inj moves
    exact kept.enqueue clear
  | receive index =>
    obtain ⟨drain, at_, moves⟩ := Option.bind_eq_some_iff.mp moves
    split at moves
    · rename_i stage queue
      obtain rfl := Option.some.inj moves
      refine kept.shrink at_ rfl ?_
      simp [pending, stage, queue, message]
    · exact absurd moves (Option.some_ne_none _).symm
  | ready index id =>
    obtain ⟨drain, at_, moves⟩ := Option.bind_eq_some_iff.mp moves
    split at moves
    · rename_i stage
      split at moves
      · obtain rfl := Option.some.inj moves
        refine kept.shrink at_ rfl ?_
        simp [pending, stage, message]
      · exact absurd moves (Option.some_ne_none _).symm
    · exact absurd moves (Option.some_ne_none _).symm
  | timeOut index =>
    obtain ⟨drain, at_, moves⟩ := Option.bind_eq_some_iff.mp moves
    split at moves
    · obtain rfl := Option.some.inj moves
      exact kept.shrink at_ rfl (List.nil_sublist _)
    · exact absurd moves (Option.some_ne_none _).symm
  | send index valid =>
    obtain ⟨drain, at_, moves⟩ := Option.bind_eq_some_iff.mp moves
    split at moves
    · rename_i stage
      split at moves
      · obtain rfl := Option.some.inj moves
        refine kept.shrink at_ rfl ?_
        simp [pending, stage, message]
      · split at moves
        · obtain rfl := Option.some.inj moves
          refine kept.shrink at_ rfl ?_
          simp [pending, stage, message]
        · split at moves
          · obtain rfl := Option.some.inj moves
            exact kept.shrink at_ rfl (List.nil_sublist _)
          · obtain rfl := Option.some.inj moves
            refine kept.shrink at_ rfl ?_
            simp [pending, stage, message]
    · exact absurd moves (Option.some_ne_none _).symm
  | write index ok =>
    obtain ⟨drain, at_, moves⟩ := Option.bind_eq_some_iff.mp moves
    split at moves
    · rename_i first id stage
      have holds : pending drain = first :: drain.queue := by simp [pending, stage, message]
      obtain rfl := Option.some.inj moves
      cases ok with
      | true => exact kept.write at_ rfl holds rfl
      | false =>
        refine kept.shrink at_ rfl ?_
        rw [holds]
        exact List.sublist_cons_self _ _
    · exact absurd moves (Option.some_ne_none _).symm

/-! ## Runs -/

def ClearStep (s : Registry) : RegistryStep → Prop
  | .session _ => True
  | .input step => Clear s.inputs step

/-- The messages written to a key's terminals are in the order they were queued, each once. -/
def InOrder (s : Registry) : Prop := ∀ key, (writtenTo s.inputs key).Pairwise (· < ·)

theorem input_in_order (events : List RegistryStep) (clear : Machine.Admits Registry.step ClearStep .start events) :
    InOrder (Machine.run Registry.step .start events) := by
  refine (Machine.run_allowed (fun _ _ => True) (fun _ => trivial) (fun _ _ => trivial)
    (fun s => Kept s.inputs) ?_ kept_start clear).1.written
  intro s event next out kept clear moves
  refine ⟨?_, trivial⟩
  cases event with
  | session step =>
    obtain ⟨moved, _, same⟩ := Option.map_eq_some_iff.mp moves
    obtain ⟨rfl, _⟩ := Prod.mk.inj same
    exact kept.drop moved.2
  | input step =>
    simp only [Registry.step] at moves
    split at moves
    · exact absurd moves (Option.some_ne_none _).symm
    · obtain ⟨inputs, stepped, same⟩ := Option.map_eq_some_iff.mp moves
      obtain ⟨rfl, _⟩ := Prod.mk.inj same
      exact kept.step clear stepped

/-- Two messages go to one terminal. -/
def typed : List RegistryStep :=
  [.session (.attach "a"), .session (.proceed 0 true), .session (.proceed 0 true), .session .advance, .input (.enqueue "a"),
    .input (.enqueue "a"), .input (.receive 0), .input (.ready 0 0), .input (.send 0 true), .input (.write 0 true),
    .input (.receive 0), .input (.ready 0 0), .input (.send 0 true), .input (.write 0 true)]

theorem input_in_order_typed : InOrder (Machine.run Registry.step .start typed) := by
  apply input_in_order
  refine ⟨trivial, trivial, trivial, trivial, ?_, ?_, trivial, trivial, trivial, trivial, trivial, trivial, trivial, trivial, trivial⟩
  · intro _ index drain at_
    exact absurd (at_ : (∅ : Std.ExtTreeMap Nat Drain)[index]? = some drain) (by simp)
  · intro none_
    exact absurd none_ (by decide)

/-- Two messages wait for a terminal; its process ends, a third message is queued, and the next
process has all three. -/
def typedAcrossExit : List RegistryStep :=
  [.session (.attach "a"), .session (.proceed 0 true), .session (.proceed 0 true), .session .advance, .session (.exit 0),
    .input (.enqueue "a"), .input (.enqueue "a"), .input (.receive 0), .session (.proceed 0 true), .input (.enqueue "a"),
    .input (.receive 1), .session (.attach "a"), .session (.proceed 0 true), .session (.proceed 0 true), .session .advance,
    .input (.ready 0 1), .input (.send 0 true), .input (.write 0 true), .input (.ready 1 1), .input (.send 1 true),
    .input (.write 1 true), .input (.receive 0), .input (.ready 0 1), .input (.send 0 true), .input (.write 0 true)]

set_option maxRecDepth 4000 in
theorem input_out_of_order : ¬ InOrder (Machine.run Registry.step .start typedAcrossExit) := by
  intro holds
  have written : writtenTo (Machine.run Registry.step .start typedAcrossExit).inputs "a" = [0, 2, 1] := by decide
  exact absurd (written ▸ holds "a") (by decide)

end Oxplow.Proofs.TerminalInput
