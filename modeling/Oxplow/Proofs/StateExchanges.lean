import Oxplow.Extensions.ExtensionState

/-! Exchanges of an extension's values: what a writer replaces, over every order of reads,
exchanges and removals. -/

namespace Oxplow.Proofs.StateExchanges
open Extensions Library Outcome StateStore

variable {fromStr : String → Option Values} {store next : StateStore} {namespace_ other : Namespace} {expected : Option Stamp}
  {schemaVersion : Nat} {values : Values}

/-! ## One transaction -/

theorem readRow_stamp {row : StateRow} {read : Snapshot} (reads : readRow fromStr row = .ok read) :
    (read.stamp.schemaVersion : Int) = row.schemaVersion ∧ (read.stamp.revision : Int) = row.revision := by
  unfold readRow at reads
  obtain ⟨_, bounds, reads⟩ := bind_ok.mp reads
  obtain ⟨_, _, reads⟩ := bind_ok.mp reads
  obtain ⟨parsed, _, reads⟩ := bind_ok.mp reads
  obtain ⟨_, _, reads⟩ := bind_ok.mp reads
  cases pure_ok.mp reads
  have inside := ensure_ok.mp bounds
  exact ⟨Int.toNat_of_nonneg (Int.le_of_lt inside.1), Int.toNat_of_nonneg (Int.le_of_lt inside.2.2)⟩

theorem snapshotTx_none (reads : snapshotTx fromStr store namespace_ = .ok none) : store.get namespace_ = none := by
  unfold snapshotTx at reads
  obtain ⟨_, _, reads⟩ := bind_ok.mp reads
  cases found : store.get namespace_ with
  | none => rfl
  | some row =>
    rw [found] at reads
    obtain ⟨read, _, same⟩ := map_ok.mp reads
    cases same

theorem snapshotTx_some {read : Snapshot} (reads : snapshotTx fromStr store namespace_ = .ok (some read)) :
    ∃ row, store.get namespace_ = some row ∧ readRow fromStr row = .ok read := by
  unfold snapshotTx at reads
  obtain ⟨_, _, reads⟩ := bind_ok.mp reads
  cases found : store.get namespace_ with
  | none =>
    rw [found] at reads
    cases reads
  | some row =>
    rw [found] at reads
    obtain ⟨again, read, same⟩ := map_ok.mp reads
    cases same
    exact ⟨row, rfl, read⟩

/-- The revision of the row that a write with the stamp expected leaves. -/
def revisionAfter (expected : Option Stamp) : Nat := expected.elim 1 fun stamp => stamp.revision + 1

/-- A write that changes a row puts its own in the namespace's place. -/
theorem write_changed {row : StateRow} (changed : (write store namespace_ expected row).2 = 1) :
    (write store namespace_ expected row).1 = store.insert namespace_ row := by
  cases expected with
  | none =>
    simp only [write, insertNew] at changed ⊢
    cases found : store.get namespace_ with
    | none => rfl
    | some current =>
      rw [found] at changed
      cases changed
  | some stamp =>
    simp only [write, update] at changed ⊢
    cases found : store.get namespace_ with
    | none =>
      rw [found] at changed
      cases changed
    | some current =>
      rw [found] at changed
      simp only at changed ⊢
      split
      next => rfl
      next differs =>
        rw [if_neg differs] at changed
        cases changed

/-- An exchange that is accepted: the namespace had the stamp expected, and its row is replaced. -/
theorem exchange_ok {read : Snapshot}
    (accepted : compareExchangeTx fromStr store namespace_ expected schemaVersion values = .ok (next, read)) :
    (∃ current, snapshotTx fromStr store namespace_ = .ok current ∧ current.map (·.stamp) = expected) ∧
      next = store.insert namespace_ ⟨schemaVersion, revisionAfter expected, values.json⟩ := by
  unfold compareExchangeTx at accepted
  obtain ⟨_, _, accepted⟩ := bind_ok.mp accepted
  obtain ⟨_, _, accepted⟩ := bind_ok.mp accepted
  obtain ⟨_, _, accepted⟩ := bind_ok.mp accepted
  obtain ⟨_, _, accepted⟩ := bind_ok.mp accepted
  obtain ⟨current, reads, accepted⟩ := bind_ok.mp accepted
  obtain ⟨_, same, accepted⟩ := bind_ok.mp accepted
  obtain ⟨revision, stepped, accepted⟩ := bind_ok.mp accepted
  obtain ⟨_, _, accepted⟩ := bind_ok.mp accepted
  obtain rfl := ensure_ok.mp same
  refine ⟨⟨current, reads, rfl⟩, ?_⟩
  have revisions : revision = revisionAfter (current.map (·.stamp)) := by
    cases current with
    | none => exact (Except.ok.inj stepped).symm
    | some read =>
      obtain ⟨_, _, same⟩ := map_ok.mp stepped
      exact same.symm
  rw [revisions] at accepted
  by_cases changed :
      (write store namespace_ (current.map (·.stamp)) ⟨schemaVersion, revisionAfter (current.map (·.stamp)), values.json⟩).2 = 1
  · have written := write_changed changed
    simp only [if_pos changed] at accepted
    rw [← written]
    exact (congrArg Prod.fst (pure_ok.mp accepted)).symm
  · simp only [if_neg changed] at accepted
    obtain ⟨_, _, accepted⟩ := bind_ok.mp accepted
    cases accepted

theorem after_accepted {done : StateStore × Snapshot}
    (accepted : compareExchangeTx fromStr store namespace_ expected schemaVersion values = .ok done) :
    store.after fromStr (.compareExchange namespace_ expected schemaVersion values) = done.1 := by
  simp only [after, accepted]

theorem after_refused {error : StateError}
    (refused : compareExchangeTx fromStr store namespace_ expected schemaVersion values = .error error) :
    store.after fromStr (.compareExchange namespace_ expected schemaVersion values) = store := by
  simp only [after, refused]

/-! ## Runs -/

/-- The transaction writes the namespace's row, or removes it. -/
def Touches (fromStr : String → Option Values) (store : StateStore) (namespace_ : Namespace) : StateCall → Prop
  | .snapshot _ => False
  | .compareExchange other expected schemaVersion values =>
    other = namespace_ ∧ ∃ done, compareExchangeTx fromStr store other expected schemaVersion values = .ok done
  | .forgetExtension extension => extension = namespace_.extension ∧ (store.get namespace_).isSome

/-- None of the transactions writes or removes the namespace's row. -/
def Untouched (fromStr : String → Option Values) (namespace_ : Namespace) : StateStore → List StateCall → Prop
  | _, [] => True
  | store, call :: calls => ¬ Touches fromStr store namespace_ call ∧ Untouched fromStr namespace_ (store.after fromStr call) calls

theorem get_forgetExtensionTx (extension : String) :
    (store.forgetExtensionTx extension).get namespace_ =
      if namespace_.extension = extension then none else store.get namespace_ := by
  unfold forgetExtensionTx
  rw [Table.get_delete]
  simp

/-- A transaction that does not touch the row leaves it. -/
theorem after_untouched {call : StateCall} (untouched : ¬ Touches fromStr store namespace_ call) :
    (store.after fromStr call).get namespace_ = store.get namespace_ := by
  cases call with
  | snapshot => rfl
  | compareExchange other expected schemaVersion values =>
    cases outcome : compareExchangeTx fromStr store other expected schemaVersion values with
    | error error => rw [after_refused outcome]
    | ok done =>
      rw [after_accepted outcome, (exchange_ok outcome).2, Table.get_insert, if_neg]
      intro same
      exact untouched ⟨same.symm, done, outcome⟩
  | forgetExtension extension =>
    change (store.forgetExtensionTx extension).get namespace_ = _
    rw [get_forgetExtensionTx]
    split
    next same =>
      cases found : store.get namespace_ with
      | none => rfl
      | some row => exact absurd ⟨same.symm, by rw [found]; rfl⟩ untouched
    next => rfl

/-- A write of a row that is there gives it the next revision. -/
theorem after_touched {call : StateCall} {row : StateRow} (found : store.get namespace_ = some row)
    (touched : Touches fromStr store namespace_ call) (kept : call ≠ .forgetExtension namespace_.extension) :
    ∃ written, (store.after fromStr call).get namespace_ = some written ∧ written.revision = row.revision + 1 := by
  cases call with
  | snapshot => exact touched.elim
  | compareExchange other expected schemaVersion values =>
    obtain ⟨rfl, ⟨next, read⟩, accepted⟩ := touched
    obtain ⟨⟨current, reads, rfl⟩, rfl⟩ := exchange_ok accepted
    rw [after_accepted accepted]
    refine ⟨_, (Table.get_insert _ _ _ _).trans (if_pos rfl), ?_⟩
    cases current with
    | none => cases found.symm.trans (snapshotTx_none reads)
    | some current =>
      obtain ⟨same, there, stamped⟩ := snapshotTx_some reads
      cases found.symm.trans there
      rw [← (readRow_stamp stamped).2]
      rfl
  | forgetExtension extension => exact absurd (congrArg _ touched.1) kept

/-- While its extension is not forgotten a row stays, and its revision says whether it was written. -/
theorem run_grows {calls : List StateCall} (kept : .forgetExtension namespace_.extension ∉ calls) {store : StateStore}
    {row : StateRow} (found : store.get namespace_ = some row) :
    ∃ last, (run fromStr store calls).get namespace_ = some last ∧ row.revision ≤ last.revision ∧
      (last.revision = row.revision → last = row ∧ Untouched fromStr namespace_ store calls) := by
  induction calls generalizing store row with
  | nil => exact ⟨row, found, Int.le_refl _, fun _ => ⟨rfl, trivial⟩⟩
  | cons call calls ih =>
    obtain ⟨first, others⟩ := not_or.mp (List.mem_cons.not.mp kept)
    by_cases touched : Touches fromStr store namespace_ call
    · obtain ⟨written, there, revision⟩ := after_touched found touched (Ne.symm first)
      obtain ⟨last, ends, grows, _⟩ := ih others there
      exact ⟨last, ends, by omega, fun same => by omega⟩
    · obtain ⟨last, ends, grows, same⟩ := ih others ((after_untouched touched).trans found)
      exact ⟨last, ends, grows, fun equal => ⟨(same equal).1, touched, (same equal).2⟩⟩

/-- Where a row is there and none of the transactions touches it, its extension is not forgotten. -/
theorem not_forgotten {calls : List StateCall} {store : StateStore} {row : StateRow} (found : store.get namespace_ = some row)
    (untouched : Untouched fromStr namespace_ store calls) : .forgetExtension namespace_.extension ∉ calls := by
  induction calls generalizing store with
  | nil => exact List.not_mem_nil
  | cons call calls ih =>
    intro member
    rcases List.mem_cons.mp member with rfl | later
    · exact untouched.1 ⟨rfl, by rw [found]; rfl⟩
    · exact ih ((after_untouched untouched.1).trans found) untouched.2 later

/-! ## Lost updates -/

/-- An accepted exchange of a run, that expects the stamp a read before it gave. -/
structure Exchange (fromStr : String → Option Values) (store : StateStore) (calls : List StateCall) where
  before : List StateCall
  middle : List StateCall
  after : List StateCall
  namespace_ : Namespace
  read : Snapshot
  schemaVersion : Nat
  values : Values
  split : calls = before ++ .snapshot namespace_ ::
    (middle ++ .compareExchange namespace_ (some read.stamp) schemaVersion values :: after)
  reads : snapshotTx fromStr (run fromStr store before) namespace_ = .ok (some read)
  accepted : ∃ done, compareExchangeTx fromStr (run fromStr (run fromStr store before) middle) namespace_ (some read.stamp)
    schemaVersion values = .ok done

/-- The exchange replaces the values that were read: nothing wrote or removed them in between. -/
def Exchange.ReplacesRead {calls : List StateCall} (exchange : Exchange fromStr store calls) : Prop :=
  Untouched fromStr exchange.namespace_ (run fromStr store exchange.before) exchange.middle ∧
    snapshotTx fromStr (run fromStr (run fromStr store exchange.before) exchange.middle) exchange.namespace_ =
      .ok (some exchange.read)

/-- The exchange's extension is forgotten between the read and the write. -/
def Exchange.Forgotten {calls : List StateCall} (exchange : Exchange fromStr store calls) : Prop :=
  .forgetExtension exchange.namespace_.extension ∈ exchange.middle

theorem Exchange.replacesRead_iff {calls : List StateCall} (exchange : Exchange fromStr store calls) :
    exchange.ReplacesRead ↔ ¬ exchange.Forgotten := by
  obtain ⟨row, found, stamped⟩ := snapshotTx_some exchange.reads
  constructor
  · exact fun replaces => not_forgotten found replaces.1
  · intro kept
    obtain ⟨last, ends, _, same⟩ := @run_grows fromStr _ _ kept _ _ found
    obtain ⟨done, accepted⟩ := exchange.accepted
    obtain ⟨⟨current, reads, stamps⟩, _⟩ := exchange_ok accepted
    obtain ⟨current, rfl, stamp⟩ := Option.map_eq_some_iff.mp stamps
    obtain ⟨again, there, current_⟩ := snapshotTx_some reads
    cases ends.symm.trans there
    have revision : last.revision = row.revision := by
      rw [← (readRow_stamp current_).2, ← (readRow_stamp stamped).2, stamp]
    obtain ⟨rfl, untouched⟩ := same revision
    obtain rfl := Except.ok.inj (current_.symm.trans stamped)
    exact ⟨untouched, reads⟩

/-- The namespaces a transaction may write or remove. -/
def Concerns (namespace_ : Namespace) : StateCall → Prop
  | .snapshot _ => False
  | .compareExchange other _ _ _ => other = namespace_
  | .forgetExtension extension => extension = namespace_.extension

/-- What a transaction does: it writes an absent namespace only when there is none, changes nothing
when it is refused, and changes no namespace it does not name. -/
structure Contained (fromStr : String → Option Values) (store : StateStore) (call : StateCall) : Prop where
  fresh : ∀ namespace_ schemaVersion values done, call = .compareExchange namespace_ none schemaVersion values →
    compareExchangeTx fromStr store namespace_ none schemaVersion values = .ok done → store.get namespace_ = none
  refused : ∀ namespace_ expected schemaVersion values error, call = .compareExchange namespace_ expected schemaVersion values →
    compareExchangeTx fromStr store namespace_ expected schemaVersion values = .error error → store.after fromStr call = store
  others : ∀ namespace_, ¬ Concerns namespace_ call → (store.after fromStr call).get namespace_ = store.get namespace_

theorem contained (call : StateCall) : Contained fromStr store call where
  fresh := by
    intro namespace_ schemaVersion values done _ accepted
    obtain ⟨⟨current, reads, stamps⟩, _⟩ := exchange_ok accepted
    rw [Option.map_eq_none_iff.mp stamps] at reads
    exact snapshotTx_none reads
  refused := by
    rintro namespace_ expected schemaVersion values error rfl refused
    exact after_refused refused
  others := by
    intro namespace_ apart
    apply after_untouched
    cases call with
    | snapshot => exact id
    | compareExchange => exact fun touches => apart touches.1
    | forgetExtension => exact fun touches => apart touches.1

/-- Over every run, an accepted exchange replaces what its caller read exactly when the extension
was not forgotten in between. -/
theorem exchanges_lose_nothing_iff (fromStr : String → Option Values) (store : StateStore) (calls : List StateCall) :
    (∀ before call after, calls = before ++ call :: after → Contained fromStr (run fromStr store before) call) ∧
      ((∀ exchange : Exchange fromStr store calls, exchange.ReplacesRead) ↔
        ∀ exchange : Exchange fromStr store calls, ¬ exchange.Forgotten) :=
  ⟨fun _ call _ _ => contained call, forall_congr' fun exchange => exchange.replacesRead_iff⟩

/-! ## A stamp that comes back -/

def cacheOfNotes : Namespace := ⟨"notes", .project, .cache⟩

def noValues : Values := ⟨[], .nil⟩

def oneValue : Values := ⟨[("key", .null)], by decide⟩

/-- The parser, on the two texts of the run. -/
def parsed (text : String) : Option Values :=
  if text = "\x7b\x7d" then some noValues else if text = "\x7b\"key\":null\x7d" then some oneValue else none

/-- The extension is removed and comes back; its new values are lost to a writer that read the old. -/
def comesBack : List StateCall :=
  [.compareExchange cacheOfNotes none 1 noValues, .snapshot cacheOfNotes, .forgetExtension "notes",
    .compareExchange cacheOfNotes none 1 oneValue, .compareExchange cacheOfNotes (some ⟨1, 1⟩) 1 noValues]

/-- The writer that read the values before the removal. -/
def lateWriter : Exchange parsed [] comesBack where
  before := [.compareExchange cacheOfNotes none 1 noValues]
  middle := [.forgetExtension "notes", .compareExchange cacheOfNotes none 1 oneValue]
  after := []
  namespace_ := cacheOfNotes
  read := ⟨⟨1, 1⟩, noValues⟩
  schemaVersion := 1
  values := noValues
  split := rfl
  reads := rfl
  accepted := ⟨_, rfl⟩

theorem update_lost : ¬ ∀ (fromStr : String → Option Values) (store : StateStore) (calls : List StateCall),
    (∀ before call after, calls = before ++ call :: after → Contained fromStr (run fromStr store before) call) ∧
      ∀ exchange : Exchange fromStr store calls, exchange.ReplacesRead := by
  intro all
  have forgotten : lateWriter.Forgotten := List.mem_cons_self
  exact lateWriter.replacesRead_iff.mp ((all parsed [] comesBack).2 lateWriter) forgotten

end Oxplow.Proofs.StateExchanges
