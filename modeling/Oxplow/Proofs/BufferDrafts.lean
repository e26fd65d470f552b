import Oxplow.Proofs.BufferPlaces

/-! No draft is lost, in the runs in which no step reaches one of the orders the store doesn't
guard against. -/

namespace Oxplow.Proofs.BufferDrafts
open Library Editor

variable {s t : Store} {o : Nat} {h h' : Held} {key : Key} {n : Nat} {path : String} {here here' : Prop} {services services' : Option Nat}

/-! ## The condition -/

/-- No other buffer that is ready, or that a person's text is on its way to, has the key. -/
def clearFor (s : Store) (key : Key) (o : Nat) : Bool :=
  (s.held.get key).all fun other => other == o || s.objects[other]?.all fun h => h.buffer.state != .ready && h.unsavedText.isNone

/-- The buffer that a rename moves is ready, no earlier move of it waits, and the new key is clear. -/
def calmMove (stream from_ to_ : String) (s : Store) (entry : Key × Nat) : Bool :=
  s.objects[entry.2]?.all fun h =>
    !(h.buffer.stream == stream && isUnder h.buffer.path from_) ||
      h.buffer.state == .ready && h.moves.isEmpty && s.held.get entry.1 == some entry.2 &&
        clearFor s ⟨stream, movedPath h.buffer.path from_ to_⟩ entry.2

def calmMoves (stream from_ to_ : String) : Store → List (Key × Nat) → Bool
  | _, [] => true
  | s, entry :: entries => calmMove stream from_ to_ s entry && calmMoves stream from_ to_ (s.move stream from_ to_ entry) entries

/-- A read that finds this puts it for the saved text. -/
def replaces (b : Buffer) (disk : String) : Bool := disk != b.saved && (disk == b.draft || !isDirty b)

/-- The step isn't one of those the store doesn't guard against. -/
def calm (s : Store) : Event → Bool
  | .open_ key => (s.found key).all fun here => here.2.buffer.state != .loading || s.pending.contains key || here.2.unsavedText.isNone
  | .modelFailed o => s.objects[o]?.all fun h => s.held.get h.buffer.key != some o || h.unsavedText.isNone
  | .moveFailed _ _ => false
  | .type o _ _ => s.objects[o]?.all fun h => h.buffer.state == .ready
  | .lookDone o j => s.objects[o]?.all fun h => h.looks[j]?.all fun look => look.seen.all fun seen =>
    match seen.1 with
    | some (.text disk) => s.held.get look.key != some o || !replaces h.buffer disk || seen.2 == h.ended
    | _ => true
  | .renamed stream from_ to_ => calmMoves stream from_ to_ s s.held.entries
  | .deleted stream path => s.held.entries.all fun entry => s.objects[entry.2]?.all fun h =>
    !(h.buffer.stream == stream && isUnder h.buffer.path path) || h.moves.isEmpty
  | .restore key saved draft => (s.found key).all fun here =>
    here.2.moves.isEmpty && here.2.unsavedText.all fun text => text == draft && draft != saved
  | _ => true

/-! ## Every step -/

structure Kept (s : Store) : Prop where
  sound : Sound s
  texts : Texts s

/-- The same buffers and documents with other calls waiting for a load. -/
theorem Kept.pending (kept : Kept s) (pending : List Key) : Kept { s with pending } :=
  ⟨kept.sound.congr rfl rfl rfl rfl rfl rfl, kept.texts⟩

theorem Kept.put (kept : Kept s) (there : s.objects[o]? = some h) (key : h'.buffer.key = h.buffer.key)
    (placed : Placed (s.held.get h.buffer.key = some o) (s.streams h.buffer.stream) h')
    (documented : s.held.get h.buffer.key = some o → (Documented h' ↔ Documented h))
    (text : s.held.get h.buffer.key = some o → ∀ text, h.unsavedText = some text → h'.unsavedText = some text) : Kept (s.put o h') := by
  refine ⟨kept.sound.put there key placed documented, ?_⟩
  intro entry member
  exact (kept.texts entry member).put kept.sound there fun here _ => text here entry.2

/-! ### Moves -/

/-- The new key is no other ready buffer's, and no text is on its way to it. -/
theorem clearFor_iff : clearFor s key o = true ↔
    ∀ {i k}, s.held.get key = some i → s.objects[i]? = some k → i ≠ o → k.buffer.state ≠ .ready ∧ k.unsavedText = none := by
  simp only [clearFor, Option.all_eq_true, Bool.or_eq_true, Bool.and_eq_true, beq_iff_eq, bne_iff_ne, ne_eq, Option.isNone_iff_eq_none]
  constructor
  · intro clear i k at_ there other
    exact ((clear i at_).resolve_left other) k there
  · intro clear i at_
    by_cases own : i = o
    · exact .inl own
    · exact .inr fun k there => clear at_ there own

variable {path' : String}

theorem moveTo_held {other : Key} : (s.moveTo key o h path').held.get other =
    if other = ⟨h.buffer.stream, path'⟩ then some o else if other = key then none else s.held.get other := by
  change ((s.held.delete key).set ⟨h.buffer.stream, path'⟩ o).get other = _
  rw [InsertionMap.get_set, InsertionMap.get_delete]

theorem moveTo_object (there : s.objects[o]? = some h) {i : Nat} : (s.moveTo key o h path').objects[i]? =
    if i = o then some (h.moveTo path' (s.streams h.buffer.stream)) else s.objects[i]? :=
  put_object there

theorem Placed.moveTo (placed : Placed here (some n) h) (ready : h.buffer.state = .ready) (still : h.moves = []) :
    Placed True (some n) (h.moveTo path' (some n)) := by
  have disposed := placed.disposed
  refine ⟨?_, .inr ⟨⟨n, some h.buffer.draft⟩, ?_, ready, trivial, rfl⟩, ?_, fun _ => disposed, placed.asOf⟩
  · intro loading
    exact absurd (loading.symm.trans (placed.settled_of_ready ready)) (by decide)
  · change h.moves ++ [⟨n, some h.buffer.draft⟩] = _
    rw [still, List.nil_append]
  · intro m text found
    exact absurd (disposed _ (List.mem_of_getElem? found)) (by simp)

theorem docOpen_moveTo (sound : Sound s) (at_ : s.held.get h.buffer.key = some o) (there : s.objects[o]? = some h)
    (services : s.streams h.buffer.stream = some n) (clear : clearFor s ⟨h.buffer.stream, path'⟩ o = true) (n' : Nat) :
    DocOpen (s.moveTo h.buffer.key o h path') n' path ↔ DocOpen s n' path ∧ ¬ (n' = n ∧ path = h.buffer.path) := by
  have waits : ¬ Documented (h.moveTo path' (s.streams h.buffer.stream)) := by
    rw [services]
    intro documented
    have moves : h.moves ++ [⟨n, some h.buffer.draft⟩] = [] := documented.2
    simp at moves
  constructor
  · rintro ⟨stream, i, k, at', found, documented, services'⟩
    rw [moveTo_held] at at'
    rw [moveTo_object there] at found
    split at at'
    · cases at'
      rw [if_pos rfl] at found
      exact absurd (Option.some.inj found ▸ documented) waits
    · split at at'
      · cases at'
      · rename_i away
        have other : i ≠ o := by
          rintro rfl
          exact away (sound.keyed at' there).symm
        rw [if_neg other] at found
        refine ⟨⟨stream, i, k, at', found, documented, services'⟩, ?_⟩
        rintro ⟨rfl, rfl⟩
        exact away (congrArg (Key.mk · h.buffer.path) (sound.apart services' services))
  · rintro ⟨⟨stream, i, k, at', found, documented, services'⟩, away⟩
    have other : (⟨stream, path⟩ : Key) ≠ h.buffer.key := by
      intro same
      have stream_eq : stream = h.buffer.stream := congrArg Key.stream same
      subst stream_eq
      exact away ⟨Option.some.inj (services'.symm.trans services), congrArg Key.path same⟩
    have differ : i ≠ o := by
      rintro rfl
      exact other (sound.keyed at' there).symm
    have apart : (⟨stream, path⟩ : Key) ≠ ⟨h.buffer.stream, path'⟩ := by
      intro same
      rw [same] at at'
      exact (clearFor_iff.mp clear at' found differ).1 documented.1
    refine ⟨stream, i, k, ?_, ?_, documented, services'⟩
    · rw [moveTo_held, if_neg apart, if_neg other, at']
    · rw [moveTo_object there, if_neg differ, found]

theorem Sound.moveTo (sound : Sound s) (at_ : s.held.get h.buffer.key = some o) (there : s.objects[o]? = some h)
    (ready : h.buffer.state = .ready) (still : h.moves = []) (clear : clearFor s ⟨h.buffer.stream, path'⟩ o = true) :
    Sound (s.moveTo h.buffer.key o h path') := by
  obtain ⟨n, services⟩ := sound.served at_
  replace services : s.streams h.buffer.stream = some n := services
  refine ⟨?_, ?_, ?_, sound.started, sound.apart, ?_⟩
  · intro i k found
    rw [moveTo_object there] at found
    rw [moveTo_held]
    by_cases own : i = o
    · rw [if_pos own] at found
      cases Option.some.inj found
      have placed := sound.placed there
      rw [services] at placed
      rw [services]
      refine (placed.moveTo ready still).frame ?_ fun _ => services
      rw [own]
      exact ⟨fun _ => if_pos rfl, fun _ => trivial⟩
    · rw [if_neg own] at found
      have placed := sound.placed found
      by_cases onto : k.buffer.key = ⟨h.buffer.stream, path'⟩
      · rw [if_pos onto]
        have away : ¬ some o = some i := fun same => own (Option.some.inj same).symm
        by_cases at' : s.held.get k.buffer.key = some i
        · have unready := (clearFor_iff.mp clear (onto ▸ at') found own).1
          have left : Placed False none k := placed.leave (placed.still_of_unready unready) (.inl unready)
          exact left.frame (by simp [away]) False.elim
        · exact placed.frame ⟨fun there => absurd there at', fun same => absurd same away⟩ fun _ => rfl
      · rw [if_neg onto]
        refine placed.frame ?_ fun _ => rfl
        split
        · rename_i same
          rw [same, at_]
          simp [Ne.symm own]
        · rfl
  · intro other i at'
    rw [moveTo_held] at at'
    rw [moveTo_object there]
    split at at'
    · rename_i same
      cases at'
      exact ⟨_, if_pos rfl, same.symm⟩
    · split at at'
      · cases at'
      · rename_i away
        have differ : i ≠ o := by
          rintro rfl
          exact away (sound.keyed at' there).symm
        rw [if_neg differ]
        exact sound.own at'
  · intro other i at'
    rw [moveTo_held] at at'
    split at at'
    · rename_i same
      rw [same]
      exact ⟨n, services⟩
    · split at at'
      · cases at'
      · exact sound.served at'
  · intro n' path
    have was := sound.documents n' path
    rw [DocKept, docOpen_moveTo sound at_ there services clear n']
    have told : (s.moveTo h.buffer.key o h path').closed n' path =
        if n' = n ∧ path = h.buffer.path then s.closed n' path + 1 else s.closed n' path := by
      change (s.tellClosed (s.streams h.buffer.stream) h.buffer.path).closed n' path = _
      rw [services, tellClosed_closed]
    rw [told]
    change (_ → s.opened n' path = _) ∧ (_ → s.opened n' path = _)
    by_cases here : n' = n ∧ path = h.buffer.path
    · obtain ⟨rfl, rfl⟩ := here
      have open_ : DocOpen s n' h.buffer.path := (docOpen_iff sound at_ there services).mpr ⟨ready, still⟩
      rw [if_pos ⟨rfl, rfl⟩]
      exact ⟨fun both => absurd ⟨rfl, rfl⟩ both.2, fun _ => was.1 open_⟩
    · rw [if_neg here]
      exact ⟨fun both => was.1 both.1, fun neither => was.2 fun open_ => neither ⟨open_, here⟩⟩

theorem Texts.moveTo (texts : Texts s) (sound : Sound s) (at_ : s.held.get h.buffer.key = some o) (there : s.objects[o]? = some h)
    (clear : clearFor s ⟨h.buffer.stream, path'⟩ o = true) : Texts (s.moveTo h.buffer.key o h path') := by
  intro text member
  obtain ⟨text, inside, rfl⟩ := List.mem_map.mp member
  obtain ⟨i, k, at', found, held⟩ := texts text inside
  by_cases own : text.1 = h.buffer.key
  · rw [if_pos own]
    have same : some i = some o := at'.symm.trans (own ▸ at_)
    cases Option.some.inj same
    rw [there] at found
    cases Option.some.inj found
    exact ⟨o, _, moveTo_held.trans (if_pos rfl), (moveTo_object there).trans (if_pos rfl), held⟩
  · rw [if_neg own]
    have differ : i ≠ o := by
      rintro rfl
      exact own (sound.keyed at' there).symm
    refine ⟨i, k, ?_, (moveTo_object there).trans ((if_neg differ).trans found), held⟩
    rw [moveTo_held, if_neg ?_, if_neg own, at']
    intro onto
    rw [onto] at at'
    have none_ := (clearFor_iff.mp clear at' found differ).2
    exact absurd (none_.symm.trans held) (by simp)

variable {stream : String}

theorem Kept.move {from_ to_ : String} {entry : Key × Nat} (kept : Kept s) (allowed : calmMove stream from_ to_ s entry = true) :
    Kept (s.move stream from_ to_ entry) := by
  simp only [Store.move]
  split
  · exact kept
  · rename_i h there
    split
    · rename_i under
      simp only [calmMove, there, Option.all_some, under, beq_self_eq_true, Bool.and_self, Bool.not_true, Bool.false_or, Bool.and_eq_true,
        beq_iff_eq, List.isEmpty_iff] at allowed
      obtain ⟨⟨⟨ready, still⟩, at_⟩, clear⟩ := allowed
      have own := kept.sound.keyed at_ there
      rw [← own] at at_ ⊢
      rw [← under.1] at clear
      exact ⟨kept.sound.moveTo at_ there ready still clear, kept.texts.moveTo kept.sound at_ there clear⟩
    · exact kept

theorem Kept.moves {from_ to_ : String} {entries : List (Key × Nat)} (kept : Kept s)
    (allowed : calmMoves stream from_ to_ s entries = true) : Kept (entries.foldl (Store.move stream from_ to_) s) := by
  induction entries generalizing s with
  | nil => exact kept
  | cons entry entries ih =>
    obtain ⟨first, rest⟩ := (Bool.and_eq_true _ _).mp allowed
    exact ih (kept.move first) rest

/-! ### Closes -/

/-- The buffer under a deleted path waits for no move. -/
def Still (stream path : String) (s : Store) (o : Nat) : Prop :=
  ∀ {h}, s.objects[o]? = some h → h.buffer.stream = stream ∧ isUnder h.buffer.path path = true → h.moves = []

theorem Kept.discard {path : String} {entry : Key × Nat} (kept : Kept s) (same : ∀ {o}, s.held.get entry.1 = some o → o = entry.2)
    (still : Still stream path s entry.2) : Kept (s.discard stream path entry) := by
  simp only [Store.discard]
  split
  · exact kept
  · rename_i h there
    split
    · rename_i under
      have closed : Sound (s.close entry.1) := kept.sound.close fun found => by
        obtain ⟨at_, there'⟩ := found_eq_some.mp found
        rw [same at_, there] at there'
        rw [← Option.some.inj there']
        exact still there under
      refine ⟨closed.congr rfl rfl rfl rfl rfl rfl, ?_⟩
      intro text member
      obtain ⟨inside, other⟩ := List.mem_filter.mp member
      exact (kept.texts text inside).close kept.sound (of_decide_eq_true other)
    · exact kept

theorem Kept.discards {path : String} {entries : List (Key × Nat)} (kept : Kept s)
    (same : ∀ entry ∈ entries, ∀ {o}, s.held.get entry.1 = some o → o = entry.2)
    (still : ∀ entry ∈ entries, Still stream path s entry.2) : Kept (entries.foldl (Store.discard stream path) s) := by
  induction entries generalizing s with
  | nil => exact kept
  | cons entry entries ih =>
    have first := kept.discard (same entry List.mem_cons_self) (still entry List.mem_cons_self)
    apply ih first
    · intro later member o at_
      apply same later (List.mem_cons_of_mem _ member)
      simp only [Store.discard] at at_
      split at at_
      · exact at_
      · split at at_
        · change (s.close entry.1).held.get later.1 = some o at at_
          rw [close_held kept.sound] at at_
          split at at_
          · cases at_
          · exact at_
        · exact at_
    · intro later member k found
      simp only [Store.discard] at found
      split at found
      · exact still later (List.mem_cons_of_mem _ member) found
      · split at found
        · obtain ⟨k', there, buffer, moves, _⟩ := close_object found
          rw [buffer, moves]
          exact still later (List.mem_cons_of_mem _ member) there
        · exact still later (List.mem_cons_of_mem _ member) found

theorem Kept.deleted {path : String} (kept : Kept s) (allowed : calm s (.deleted stream path) = true) :
    Kept (s.deleted stream path) := by
  apply kept.discards
  · intro entry member o at_
    have there : s.held.get entry.1 = some entry.2 := InsertionMap.get_eq_some.mpr member
    exact Option.some.inj (at_.symm.trans there)
  · intro entry member h there under
    have quiet := List.all_eq_true.mp allowed entry member
    simpa [there, under] using quiet

theorem Kept.restore {saved draft : String} (kept : Kept s) (allowed : calm s (.restore key saved draft) = true) :
    Kept (s.restore key saved draft) := by
  have here : ∀ {o h}, s.found key = some (o, h) → h.moves = [] ∧ ∀ {text}, h.unsavedText = some text → text = draft ∧ draft ≠ saved := by
    intro o h found
    simp only [calm, found, Option.all_some, Bool.and_eq_true, List.isEmpty_iff, Option.all_eq_true, beq_iff_eq, bne_iff_ne] at allowed
    exact ⟨allowed.1, fun held => allowed.2 _ held⟩
  have closed := kept.sound.close fun found => (here found).1
  have loaded : Sound ((s.close key).load key (some (saved, draft))) := by
    apply closed.load
    intro o h found
    have gone := (found_eq_some.mp found).1
    rw [close_held kept.sound, if_pos rfl] at gone
    cases gone
  have stays : ∀ text ∈ s.unsaved, Holds ((s.close key).load key (some (saved, draft))) text := by
    intro text member
    have holds := kept.texts text member
    by_cases own : text.1 = key
    · obtain ⟨o, h, at_, there, held⟩ := holds
      obtain ⟨same, differ⟩ := (here (found_eq_some.mpr ⟨own ▸ at_, there⟩)).2 held
      have is : text = (key, draft) := Prod.ext own same
      rw [is]
      exact holds_load differ
    · exact (holds.close kept.sound own).load _ own
  refine ⟨loaded.congr rfl rfl rfl rfl rfl rfl, ?_⟩
  intro text member
  change text ∈ (if draft = saved then s.unsaved else (key, draft) :: s.unsaved) at member
  split at member
  · exact stays text member
  · rename_i differ
    rcases List.mem_cons.mp member with rfl | member
    · exact holds_load differ
    · exact stays text member

theorem Kept.open_ (kept : Kept s) (allowed : calm s (.open_ key) = true) : Kept (s.open_ key) := by
  simp only [Store.open_]
  split
  · refine ⟨kept.sound.streamHeld key.stream, ?_⟩
    intro text member
    rw [streamHeld_unsaved] at member
    obtain ⟨o, h, at_, there, held⟩ := kept.texts text member
    exact ⟨o, h, by rw [streamHeld_held, at_], by rw [streamHeld_objects, there], held⟩
  · rename_i loading
    split
    · exact kept
    · rename_i waits
      have here : ∀ {o h}, s.found key = some (o, h) → h.buffer.state = .loading ∧ h.unsavedText = none := by
        intro o h found
        have state : h.buffer.state = .loading := by simpa [found] using loading
        simp only [calm, found, Option.all_some, state, bne_self_eq_false, Bool.false_or, Bool.eq_false_iff.mpr waits, Option.isNone_iff_eq_none] at allowed
        exact ⟨state, allowed⟩
      refine ⟨kept.sound.load none fun found => by simp [(here found).1], ?_⟩
      intro text member
      have unsaved : (s.load key none).unsaved = s.unsaved := streamHeld_unsaved key.stream
      rw [unsaved] at member
      have holds := kept.texts text member
      apply holds.load none
      rintro rfl
      obtain ⟨o, h, at_, there, held⟩ := holds
      exact absurd ((here (found_eq_some.mpr ⟨at_, there⟩)).2.symm.trans held) (by simp)

/-! ### Loads -/

theorem settle_over (load : h'.load = h.settle) : underway h' = false := by
  simp only [underway, load, Held.settle]
  cases h.opening <;> rfl

/-- A load that ends without a text to show. -/
theorem Placed.finish (placed : Placed here services h) (loading : underway h = true) (load : h'.load = h.settle)
    (models : h'.models = h.models ∨ h'.models = h.dispose.models) (model : h'.model = h.model) (moves : h'.moves = h.moves)
    (unready : h'.buffer.state ≠ .ready) (ended : h'.ended = h.ended) (asOf : h'.asOf = h.asOf) : Placed here services h' := by
  have still : h'.moves = [] := moves.trans (placed.still_of_unready (by simp [(placed.loads loading).1]))
  refine ⟨?_, .inl still, ?_, ?_, ?_⟩
  · intro again
    exact absurd (again.symm.trans (settle_over load)) (by decide)
  · intro m text found
    refine ⟨?_, fun ready => absurd ready unready⟩
    rw [model]
    rcases models with same | same
    · rw [same] at found
      exact (placed.live found).1
    · rw [same] at found
      exact absurd (placed.disposed _ (List.mem_of_getElem? found)) (by simp)
  · intro waits
    exact absurd (waits.symm.trans (awaits_of_still still (settle_over load))) (by decide)
  · rw [asOf, ended]
    exact placed.asOf

theorem undocumented (unready : h.buffer.state ≠ .ready) : ¬ Documented h := fun documented => unready documented.1

theorem Kept.finish (kept : Kept s) (there : s.objects[o]? = some h) (loading : underway h = true) (key : h'.buffer.key = h.buffer.key)
    (load : h'.load = h.settle) (models : h'.models = h.models ∨ h'.models = h.dispose.models) (model : h'.model = h.model)
    (moves : h'.moves = h.moves) (unready : h'.buffer.state ≠ .ready) (ended : h'.ended = h.ended) (asOf : h'.asOf = h.asOf)
    (empty : s.held.get h.buffer.key = some o → h.unsavedText = none) : Kept (s.put o h') := by
  have placed := kept.sound.placed there
  have unready' : h.buffer.state ≠ .ready := by simp [(placed.loads loading).1]
  apply kept.put there key (placed.finish loading load models model moves unready ended asOf)
  · intro _
    exact iff_of_false (undocumented unready) (undocumented unready')
  · intro here text held
    exact absurd ((empty here).symm.trans held) (by simp)

theorem unsavedText_loading (state : h.buffer.state = .loading) : h.unsavedText = h.load.brings := by
  simp [Held.unsavedText, isDirty, state]

theorem Kept.readDone {result : Except String (Option FileRead)} (kept : Kept s) (there : s.objects[o]? = some h) (reading : h.load = .reading) :
    Kept (s.readDone o h result) := by
  have loading : underway h = true := by simp [underway, reading]
  have placed := kept.sound.placed there
  have state := (placed.loads loading).1
  have empty : h.unsavedText = none := by simp [unsavedText_loading state, reading, Loading.brings]
  have finish : ∀ b : Buffer, b.key = h.buffer.key → b.state ≠ .ready → Kept (s.put o { h with buffer := b, load := h.settle }) := by
    intro b key unready
    exact kept.finish there loading key rfl (.inl rfl) rfl rfl unready rfl rfl fun _ => empty
  cases result with
  | error e => exact finish _ rfl (by simp)
  | ok read =>
    simp only [Store.readDone]
    split
    · cases read with
      | none => exact finish _ rfl (by simp)
      | some read =>
        cases read with
        | unshown reason => exact finish _ rfl (by simp)
        | text text =>
          refine kept.put there rfl ⟨fun _ => placed.loads loading, placed.moves, placed.live, fun _ => ?_, placed.asOf⟩ (fun _ => Iff.rfl) ?_
          · exact placed.silent (by simp [awaits, reading])
          · intro _ text held
            exact absurd (empty.symm.trans held) (by simp)
    · exact finish _ rfl (by simp [state])

theorem Kept.modelDone {saved draft : String} (kept : Kept s) (there : s.objects[o]? = some h) (load : h.load = .attaching saved draft) :
    Kept (s.put o { h.attach draft with load := .attached saved draft }) := by
  have loading : underway h = true := by simp [underway, load]
  have placed := kept.sound.placed there
  have state := (placed.loads loading).1
  have still := placed.still_of_unready (by simp [state])
  have silent := placed.silent (by simp [awaits, load])
  refine kept.put there rfl ⟨fun _ => placed.loads loading, .inl still, ?_, ?_, placed.asOf⟩ (fun _ => Iff.rfl) ?_
  · intro m text found
    exact ⟨models_attach silent found, fun ready => absurd (state.symm.trans ready) (by decide)⟩
  · intro waits
    simp [awaits, Held.attach, still] at waits
  · intro _ text held
    rw [unsavedText_loading state, load] at held
    exact (unsavedText_loading (h := { h.attach draft with load := .attached saved draft }) state).trans held

theorem Kept.attachDone {saved draft : String} (kept : Kept s) (there : s.objects[o]? = some h) (load : h.load = .attached saved draft) :
    Kept (s.attachDone o h saved draft) := by
  have loading : underway h = true := by simp [underway, load]
  have placed := kept.sound.placed there
  obtain ⟨state, own, services⟩ := placed.loads loading
  have still := placed.still_of_unready (by simp [state])
  simp only [Store.attachDone]
  split
  · rename_i here
    rw [← own] at here
    let ready : Held := { h with buffer := { h.buffer with saved, draft, state := .ready }, load := h.settle }
    have settled : underway ready = false := settle_over rfl
    have now : Placed (s.held.get h.buffer.key = some o) (s.streams h.buffer.stream) ready := by
      refine ⟨fun again => absurd (again.symm.trans settled) (by decide), .inl still, ?_, ?_, placed.asOf⟩
      · intro m text found
        exact ⟨(placed.live found).1, fun _ => here⟩
      · intro waits
        exact absurd (waits.symm.trans (awaits_of_still still settled)) (by decide)
    refine ⟨?_, ?_⟩
    · have opened : Sound ((s.put o ready).tellOpened h.services h.buffer.path) :=
        kept.sound.opens there rfl now here (services here) (undocumented (by simp [state])) ⟨rfl, still⟩
      exact opened
    · intro text member
      suffices holds : Holds (s.put o ready) text from holds
      refine (kept.texts text member).put kept.sound there fun _ _ held => ?_
      rw [unsavedText_loading state, load] at held
      change (if draft = saved then none else some draft) = some text.2 at held
      split at held
      · cases held
      · rename_i differ
        have dirty : isDirty ready.buffer = true := by simpa [ready, isDirty] using differ
        exact (if_pos dirty).trans held
  · rename_i gone
    rw [← own] at gone
    exact kept.finish there loading rfl rfl (.inr rfl) rfl rfl (by simp [Held.dispose, state]) rfl rfl fun here => absurd here gone

theorem Kept.settled (kept : Kept s) (there : s.objects[o]? = some h) (load : h.load = .settling) : Kept (s.put o { h with load := .done }) := by
  have placed := kept.sound.placed there
  refine kept.put there rfl ⟨fun loading => ?_, placed.moves, placed.live, fun waits => placed.silent ?_, placed.asOf⟩ (fun _ => Iff.rfl) ?_
  · simp [underway] at loading
  · simpa [awaits, load] using waits
  · intro _ text held
    simpa [Held.unsavedText, load, Loading.brings] using held

/-! ### Edits -/

variable {m : Nat} {text now : String}

theorem not_awaits (placed : Placed here services h) (live : h.models[m]? = some ⟨now, false⟩) : awaits h = false := by
  apply Bool.eq_false_iff.mpr
  intro waits
  exact absurd (placed.silent waits _ (List.mem_of_getElem? live)) (by simp)

theorem Placed.edit (placed : Placed here services h) (live : h.models[m]? = some ⟨now, false⟩) : Placed here services (h.edit m text) := by
  refine ⟨placed.loads, placed.moves, ?_, fun waits => ?_, placed.asOf⟩
  · intro m' text' found
    change (h.models.set m ⟨text, false⟩)[m']? = _ at found
    rw [List.getElem?_set] at found
    split at found
    · subst m'
      exact placed.live live
    · exact placed.live found
  · have waits' : awaits h = true := waits
    exact absurd (waits'.symm.trans (not_awaits placed live)) (by decide)

theorem Placed.draft (placed : Placed here services h) : Placed here services { h with buffer := { h.buffer with draft := text } } :=
  ⟨placed.loads, placed.moves, placed.live, placed.silent, placed.asOf⟩

/-- The draft written, by its model's listener or without it, or a disposed model's text alone. -/
theorem setDraft_cases (h : Held) (text : String) : h.setDraft text = { h with buffer := { h.buffer with draft := text } } ∨
    (∃ m now, h.models[m]? = some ⟨now, false⟩ ∧ h.setDraft text = h.edit m text) ∨
    ∃ m, h.setDraft text = { h with models := h.models.set m ⟨text, true⟩ } := by
  simp only [Held.setDraft]
  split
  · rename_i m model found
    have current := (Option.filter_eq_some_iff.mp found).1
    simp only [Held.current, Option.bind_eq_some_iff, Option.map_eq_some_iff, Prod.mk.injEq] at current
    obtain ⟨_, _, ⟨now, disposed⟩, there, rfl, rfl⟩ := current
    cases disposed with
    | false => exact .inr (.inl ⟨_, now, there, rfl⟩)
    | true => exact .inr (.inr ⟨_, rfl⟩)
  · exact .inl rfl

theorem Placed.setDraft (placed : Placed here services h) : Placed here services (h.setDraft text) := by
  rcases setDraft_cases h text with written | ⟨m, now, live, edited⟩ | ⟨m, disposed⟩
  · rw [written]
    exact placed.draft
  · rw [edited]
    exact placed.edit live
  · rw [disposed]
    refine ⟨placed.loads, placed.moves, ?_, fun waits => ?_, placed.asOf⟩
    · intro m' text' found
      change (h.models.set m ⟨text, true⟩)[m']? = _ at found
      rw [List.getElem?_set] at found
      split at found
      · split at found <;> simp at found
      · exact placed.live found
    · intro model member
      rcases List.mem_or_eq_of_mem_set member with old | rfl
      · exact placed.silent waits model old
      · rfl

/-- What putting a text in the model leaves as it was. -/
theorem setDraft_same : (h.setDraft text).buffer.key = h.buffer.key ∧ (h.setDraft text).buffer.state = h.buffer.state ∧
    (h.setDraft text).moves = h.moves ∧ (h.setDraft text).load = h.load := by
  rcases setDraft_cases h text with written | ⟨_, _, _, edited⟩ | ⟨_, disposed⟩
  · rw [written]
    exact ⟨rfl, rfl, rfl, rfl⟩
  · rw [edited]
    exact ⟨rfl, rfl, rfl, rfl⟩
  · rw [disposed]
    exact ⟨rfl, rfl, rfl, rfl⟩

theorem Kept.type (kept : Kept s) (there : s.objects[o]? = some h) (live : h.models[m]? = some ⟨now, false⟩) (ready : h.buffer.state = .ready) :
    Kept (s.type o h m text) := by
  have placed := kept.sound.placed there
  have here := (placed.live live).2 ready
  have edited : Sound (s.put o (h.edit m text)) := kept.sound.put there rfl (placed.edit live) fun _ => Iff.rfl
  refine ⟨edited.congr rfl rfl rfl rfl rfl rfl, ?_⟩
  have others : ∀ entry ∈ s.unsaved.filter (·.1 ≠ h.buffer.key), Holds (s.put o (h.edit m text)) entry := by
    intro entry member
    obtain ⟨inside, other⟩ := List.mem_filter.mp member
    exact (kept.texts entry inside).put kept.sound there fun _ own _ => absurd own (of_decide_eq_true other)
  intro entry member
  change entry ∈ (if text = h.buffer.saved then _ else _ : Unsaved) at member
  split at member
  · exact others entry member
  · rename_i differ
    rcases List.mem_cons.mp member with rfl | member
    · refine ⟨o, h.edit m text, here, put_own there, ?_⟩
      simp [Held.unsavedText, Held.edit, isDirty, ready, differ]
    · exact others entry member

/-! ### Saves -/

/-- What a buffer's calls wait for has no part in what holds of it. -/
theorem Kept.waits (kept : Kept s) (there : s.objects[o]? = some h) (saving : Bool) (saves : List String) (looks : List Look) :
    Kept (s.put o { h with buffer := { h.buffer with saving }, saves, looks }) := by
  have placed := kept.sound.placed there
  exact kept.put there rfl ⟨placed.loads, placed.moves, placed.live, placed.silent, placed.asOf⟩ (fun _ => Iff.rfl) fun _ _ held => held

theorem Kept.saveDone {j : Nat} {content : String} (kept : Kept s) (there : s.objects[o]? = some h) : Kept (s.saveDone o h j content) := by
  have placed := kept.sound.placed there
  let written : Held :=
    { h with
      buffer := { h.buffer with saving := false, saved := content, conflict := none }
      saves := h.saves.eraseIdx j, ended := h.ended + 1, asOf := h.ended + 1 }
  have saved : Sound (s.put o written) :=
    kept.sound.put there rfl ⟨placed.loads, placed.moves, placed.live, placed.silent, rfl⟩ fun _ => Iff.rfl
  refine ⟨saved.congr rfl rfl rfl rfl rfl rfl, ?_⟩
  have others : ∀ entry ∈ s.unsaved.filter (·.1 ≠ h.buffer.key), Holds (s.put o written) entry := by
    intro entry member
    obtain ⟨inside, other⟩ := List.mem_filter.mp member
    exact (kept.texts entry inside).put kept.sound there fun _ own _ => absurd own (of_decide_eq_true other)
  intro entry member
  change entry ∈ (if s.held.get h.buffer.key = some o then
    if isDirty written.buffer then (h.buffer.key, h.buffer.draft) :: s.unsaved.filter (·.1 ≠ h.buffer.key)
    else s.unsaved.filter (·.1 ≠ h.buffer.key) else s.unsaved) at member
  split at member
  · rename_i here
    split at member
    · rename_i dirty
      rcases List.mem_cons.mp member with rfl | member
      · exact ⟨o, written, here, put_own there, if_pos dirty⟩
      · exact others entry member
    · exact others entry member
  · rename_i gone
    exact (kept.texts entry member).put kept.sound there fun here _ _ => absurd here gone

/-! ### Looks -/

variable {disk : String} {asOf : Nat}

theorem look_same (h : Held) (disk : String) (asOf : Nat) : (h.look disk asOf).buffer.key = h.buffer.key ∧ (h.look disk asOf).buffer.state = h.buffer.state ∧
    (h.look disk asOf).moves = h.moves ∧ (h.look disk asOf).load = h.load := by
  simp only [Held.look]
  split
  · exact ⟨rfl, rfl, rfl, rfl⟩
  · split
    · exact ⟨rfl, rfl, rfl, rfl⟩
    · split
      · exact ⟨rfl, rfl, rfl, rfl⟩
      · exact setDraft_same

theorem Placed.look (placed : Placed here services h) (current : replaces h.buffer disk = true → asOf = h.ended) :
    Placed here services (h.look disk asOf) := by
  simp only [Held.look]
  split
  · exact placed
  · rename_i changed
    split
    · rename_i drafted
      have newest := current (by subst drafted; simp [replaces, changed])
      exact ⟨placed.loads, placed.moves, placed.live, placed.silent, newest⟩
    · split
      · exact ⟨placed.loads, placed.moves, placed.live, placed.silent, placed.asOf⟩
      · rename_i clean
        have newest := current (by simp [replaces, changed, clean])
        have read : Placed here services { h with buffer := { h.buffer with saved := disk }, asOf } :=
          ⟨placed.loads, placed.moves, placed.live, placed.silent, newest⟩
        exact read.setDraft

/-- An unsaved text stands, when it isn't what the disk has. -/
theorem look_unsavedText (placed : Placed here services h) (held : h.unsavedText = some text) (differ : text ≠ disk) :
    (h.look disk asOf).unsavedText = some text := by
  by_cases ready : h.buffer.state = .ready
  · have brings : h.load.brings = none := by
      have settled := placed.settled_of_ready ready
      simp only [underway] at settled
      cases load : h.load <;> simp_all [Loading.brings]
    have dirty : isDirty h.buffer = true := by
      apply Bool.of_not_eq_false
      intro clean
      simp [Held.unsavedText, clean, brings] at held
    have draft : h.buffer.draft = text := by simpa [Held.unsavedText, dirty] using held
    simp only [Held.look]
    split
    · exact held
    · rw [if_neg (draft.trans_ne differ).symm]
      exact held
  · have clean : isDirty h.buffer = false := by simp [isDirty, ready]
    obtain ⟨_, state, _, load⟩ := look_same h disk asOf
    have clean' : isDirty (h.look disk asOf).buffer = false := by simp [isDirty, state, ready]
    simp only [Held.unsavedText, clean, Bool.false_eq_true, if_false] at held
    simp only [Held.unsavedText, clean', load, Bool.false_eq_true, if_false]
    exact held

theorem Kept.lookDone {j : Nat} {read : Option FileRead} (kept : Kept s) (there : s.objects[o]? = some h)
    (current : ∀ {disk}, read = some (.text disk) → s.held.get key = some o → replaces h.buffer disk = true → asOf = h.ended) :
    Kept (s.lookDone o h j key read asOf) := by
  have rest := kept.waits there h.buffer.saving h.saves (h.looks.eraseIdx j)
  simp only [Store.lookDone]
  split
  · rename_i disk
    split
    · rename_i at_
      let seen : Held := { h with looks := h.looks.eraseIdx j }
      have placed := kept.sound.placed there
      have placed' : Placed (s.held.get h.buffer.key = some o) (s.streams h.buffer.stream) seen :=
        ⟨placed.loads, placed.moves, placed.live, placed.silent, placed.asOf⟩
      obtain ⟨same, state, moves, _⟩ := look_same seen disk asOf
      have looked : Sound (s.put o (seen.look disk asOf)) := by
        apply kept.sound.put there same (placed'.look (current rfl at_))
        intro _
        simp only [Documented, state, moves, seen]
      refine ⟨looked.congr rfl rfl rfl rfl rfl rfl, ?_⟩
      intro entry member
      obtain ⟨inside, other⟩ := List.mem_filter.mp member
      refine (kept.texts entry inside).put kept.sound there fun _ own held => ?_
      apply look_unsavedText placed' held
      intro same
      have own' : entry.1 = key := own.trans (kept.sound.keyed at_ there)
      exact of_decide_eq_true other (Prod.ext own' same)
    · exact rest
  · exact rest

/-! ### Moved buffers -/

theorem only_move {move : Move} {j : Nat} (placed : Placed here services h) (waits : h.moves[j]? = some move) :
    j = 0 ∧ h.moves = [move] ∧ h.buffer.state = .ready ∧ here ∧ services = some move.services := by
  rcases placed.moves with still | ⟨only, moves, ready, there, found⟩
  · rw [still] at waits
    cases waits
  · rw [moves] at waits
    have first : j = 0 := by
      have short := (List.getElem?_eq_some_iff.mp waits).1
      simpa using short
    subst first
    cases Option.some.inj waits
    exact ⟨rfl, moves, ready, there, found⟩

theorem Kept.moveDone {move : Move} {j : Nat} {draft : String} (kept : Kept s) (there : s.objects[o]? = some h)
    (waits : h.moves[j]? = some move) (awaited : move.awaited = some draft) :
    Kept (s.put o { h.attach draft with moves := h.moves.set j { move with awaited := none } }) := by
  have placed := kept.sound.placed there
  obtain ⟨rfl, moves, ready, here, services⟩ := only_move placed waits
  have settled := placed.settled_of_ready ready
  have silent := placed.silent (by simp [awaits, moves, awaited])
  have after : h.moves.set 0 { move with awaited := none } = [{ move with awaited := none }] := by rw [moves]; rfl
  refine kept.put there rfl ⟨fun loading => ?_, .inr ⟨{ move with awaited := none }, after, ready, here, services⟩, ?_, ?_, placed.asOf⟩ ?_ ?_
  · exact absurd (loading.symm.trans settled) (by decide)
  · intro m text found
    exact ⟨models_attach silent found, fun _ => here⟩
  · intro waits
    let moved : Held := { h.attach draft with moves := h.moves.set 0 { move with awaited := none } }
    have quiet : awaits moved = false := awaits_of_quiet (by simp [moved, after]) settled
    exact absurd (waits.symm.trans quiet) (by decide)
  · intro _
    refine iff_of_false (fun documented => ?_) fun documented => ?_
    · exact absurd (after.symm.trans documented.2) (by simp)
    · exact absurd (moves.symm.trans documented.2) (by simp)
  · intro _ text held
    exact held

theorem Kept.moved {move : Move} {j : Nat} (kept : Kept s) (there : s.objects[o]? = some h) (waits : h.moves[j]? = some move) :
    Kept ((s.put o { h with moves := h.moves.eraseIdx j }).tellOpened move.services h.buffer.path) := by
  have placed := kept.sound.placed there
  obtain ⟨rfl, moves, ready, here, services⟩ := only_move placed waits
  have settled := placed.settled_of_ready ready
  let arrived : Held := { h with moves := h.moves.eraseIdx 0 }
  have still : arrived.moves = [] := by
    change h.moves.eraseIdx 0 = []
    rw [moves]
    rfl
  have now : Placed (s.held.get h.buffer.key = some o) (s.streams h.buffer.stream) arrived := by
    refine ⟨placed.loads, .inl still, placed.live, fun waits => ?_, placed.asOf⟩
    exact absurd (waits.symm.trans (awaits_of_still still settled)) (by decide)
  refine ⟨?_, ?_⟩
  · suffices opened : Sound ((s.put o arrived).tellOpened move.services h.buffer.path) from opened
    refine kept.sound.opens there rfl now here services (fun documented => ?_) ⟨ready, still⟩
    exact absurd (moves.symm.trans documented.2) (by simp)
  · intro text member
    have holds : Holds (s.put o arrived) text := (kept.texts text member).put kept.sound there fun _ _ held => held
    exact holds

/-! ### The step -/

theorem kept_empty : Kept .empty := by
  refine ⟨⟨?_, ?_, ?_, ?_, ?_, ?_⟩, ?_⟩
  · intro o h found
    simp [Store.empty] at found
  · intro key o at_
    cases at_
  · intro key o at_
    cases at_
  · intro stream n found
    cases found
  · intro a b n found
    cases found
  · intro n path
    refine ⟨?_, fun _ => rfl⟩
    rintro ⟨_, _, _, at_, _⟩
    cases at_
  · intro text member
    cases member

theorem kept_step {event : Event} {next : Store} {out : Unit} (kept : Kept s) (allowed : calm s event = true)
    (moves : s.step event = some (next, out)) : Kept next := by
  cases event with
  | open_ key =>
    cases moves
    exact kept.open_ allowed
  | readDone o result =>
    obtain ⟨h, found, is⟩ := Option.map_eq_some_iff.mp moves
    obtain ⟨there, reading⟩ := Option.filter_eq_some_iff.mp found
    cases is
    exact kept.readDone there (of_decide_eq_true reading)
  | modelDone o =>
    obtain ⟨h, there, goes⟩ := Option.bind_eq_some_iff.mp moves
    split at goes
    · cases goes
      exact kept.modelDone there ‹_›
    · cases goes
  | modelFailed o =>
    obtain ⟨h, there, goes⟩ := Option.bind_eq_some_iff.mp moves
    split at goes
    · rename_i load
      cases goes
      have loading : underway h = true := by simp [underway, load]
      have state := ((kept.sound.placed there).loads loading).1
      refine kept.finish there loading rfl rfl (.inl rfl) rfl rfl (by simp [state]) rfl rfl fun here => ?_
      simpa [calm, there, here] using allowed
    · cases goes
  | attachDone o =>
    obtain ⟨h, there, goes⟩ := Option.bind_eq_some_iff.mp moves
    split at goes
    · cases goes
      exact kept.attachDone there ‹_›
    · cases goes
  | settled o =>
    obtain ⟨h, found, is⟩ := Option.map_eq_some_iff.mp moves
    obtain ⟨there, settling⟩ := Option.filter_eq_some_iff.mp found
    cases is
    exact (kept.settled there (of_decide_eq_true settling)).pending _
  | type o m text =>
    obtain ⟨h, there, goes⟩ := Option.bind_eq_some_iff.mp moves
    obtain ⟨⟨now, disposed⟩, found, is⟩ := Option.map_eq_some_iff.mp goes
    obtain ⟨found, live⟩ := Option.filter_eq_some_iff.mp found
    cases is
    cases disposed with
    | true => cases live
    | false =>
      have ready : h.buffer.state = .ready := by simpa [calm, there] using allowed
      exact kept.type there found ready
  | save key =>
    obtain ⟨⟨o, h⟩, found, is⟩ := Option.map_eq_some_iff.mp moves
    have there := (found_eq_some.mp (Option.filter_eq_some_iff.mp found).1).2
    cases is
    exact kept.waits there true _ h.looks
  | saveDone o j =>
    obtain ⟨h, there, goes⟩ := Option.bind_eq_some_iff.mp moves
    obtain ⟨content, _, is⟩ := Option.map_eq_some_iff.mp goes
    cases is
    exact kept.saveDone there
  | saveFailed o j =>
    obtain ⟨h, there, goes⟩ := Option.bind_eq_some_iff.mp moves
    obtain ⟨content, _, is⟩ := Option.map_eq_some_iff.mp goes
    cases is
    exact kept.waits there false _ h.looks
  | diskChanged key =>
    obtain ⟨⟨o, h⟩, found, is⟩ := Option.map_eq_some_iff.mp moves
    have there := (found_eq_some.mp (Option.filter_eq_some_iff.mp found).1).2
    cases is
    exact kept.waits there h.buffer.saving h.saves _
  | looked o j read =>
    obtain ⟨h, there, goes⟩ := Option.bind_eq_some_iff.mp moves
    obtain ⟨look, _, is⟩ := Option.map_eq_some_iff.mp goes
    cases is
    exact kept.waits there h.buffer.saving h.saves _
  | lookDone o j =>
    obtain ⟨h, there, goes⟩ := Option.bind_eq_some_iff.mp moves
    obtain ⟨look, waits, goes⟩ := Option.bind_eq_some_iff.mp goes
    obtain ⟨⟨read, asOf⟩, seen, is⟩ := Option.map_eq_some_iff.mp goes
    cases is
    apply kept.lookDone there
    rintro disk rfl at_ changes
    simpa [calm, there, waits, seen, at_, changes] using allowed
  | lookFailed o j =>
    obtain ⟨h, there, goes⟩ := Option.bind_eq_some_iff.mp moves
    obtain ⟨look, _, is⟩ := Option.map_eq_some_iff.mp goes
    cases is
    exact kept.waits there h.buffer.saving h.saves _
  | renamed stream from_ to_ =>
    cases moves
    exact kept.moves allowed
  | moveDone o j =>
    obtain ⟨h, there, goes⟩ := Option.bind_eq_some_iff.mp moves
    obtain ⟨move, waits, goes⟩ := Option.bind_eq_some_iff.mp goes
    obtain ⟨draft, awaited, is⟩ := Option.map_eq_some_iff.mp goes
    cases is
    exact kept.moveDone there waits awaited
  | moveFailed o j => cases allowed
  | moved o j =>
    obtain ⟨h, there, goes⟩ := Option.bind_eq_some_iff.mp moves
    obtain ⟨move, found, is⟩ := Option.map_eq_some_iff.mp goes
    cases is
    exact kept.moved there (Option.filter_eq_some_iff.mp found).1
  | deleted stream path =>
    cases moves
    exact kept.deleted allowed
  | restore key saved draft =>
    cases moves
    exact kept.restore allowed

theorem kept_run {events : List Event} (calmly : Machine.Admits Store.step (fun s event => calm s event = true) .empty events) :
    Kept (Machine.run Store.step .empty events) := by
  refine (Machine.run_allowed (fun _ _ => True) (fun _ => trivial) (fun _ _ => trivial) Kept ?_ kept_empty calmly).1
  intro s event next out kept allowed moves
  exact ⟨kept_step kept allowed moves, trivial⟩

/-! ## The buffers keep every draft -/

/-- Each unsaved text is in its file's buffer, each saved text is as of the last save, a load
still to write has nobody's draft, a file's buffer is one of its own, and its document is open
once while the buffer is there and otherwise closed as often as it was opened. -/
structure Intact (s : Store) : Prop where
  texts : ∀ text ∈ s.unsaved, Holds s text
  current : ∀ {o : Nat} {h : Held}, s.objects[o]? = some h → h.asOf = h.ended
  loads : ∀ {o : Nat} {h : Held}, s.objects[o]? = some h → underway h = true → h.buffer.state = .loading
  own : ∀ {key o}, s.held.get key = some o → ∃ h, s.objects[o]? = some h ∧ h.buffer.key = key
  documents : ∀ n path, DocKept s n path

/-- A read of the disk leaves a draft, and asks where it isn't what the file has. -/
def Asks (s : Store) : Prop :=
  ∀ {o j h look disk asOf next out}, s.objects[o]? = some h → isDirty h.buffer = true → h.looks[j]? = some look →
    look.seen = some (some (.text disk), asOf) → s.step (.lookDone o j) = some (next, out) →
    ∃ h', next.objects[o]? = some h' ∧ h'.buffer.draft = h.buffer.draft ∧
      (s.held.get look.key = some o → disk ≠ h.buffer.saved → disk ≠ h.buffer.draft → h'.buffer.conflict = some disk)

theorem look_asks (disk : String) (asOf : Nat) (dirty : isDirty h.buffer = true) : (h.look disk asOf).buffer.draft = h.buffer.draft ∧
    (disk ≠ h.buffer.saved → disk ≠ h.buffer.draft → (h.look disk asOf).buffer.conflict = some disk) := by
  simp only [Held.look]
  split
  · exact ⟨rfl, fun differ => absurd ‹_› differ⟩
  · split
    · exact ⟨rfl, fun _ differ => absurd ‹_› differ⟩
    · exact ⟨rfl, fun _ _ => rfl⟩

theorem asks (s : Store) : Asks s := by
  intro o j h look disk asOf next out there dirty waits seen moves
  simp only [Store.step, there, waits, seen, Option.bind_some, Option.map_some, Option.some.injEq, Prod.mk.injEq] at moves
  obtain ⟨rfl, _⟩ := moves
  simp only [Store.lookDone]
  split
  · obtain ⟨draft, conflict⟩ := look_asks (h := { h with looks := h.looks.eraseIdx j }) disk asOf dirty
    exact ⟨_, put_own there, draft, fun _ => conflict⟩
  · exact ⟨_, put_own there, rfl, fun at_ => absurd at_ ‹_›⟩

theorem drafts_kept {events : List Event} (calmly : Machine.Admits Store.step (fun s event => calm s event = true) .empty events) :
    Intact (Machine.run Store.step .empty events) ∧ Asks (Machine.run Store.step .empty events) := by
  have kept := kept_run calmly
  refine ⟨⟨kept.texts, ?_, ?_, kept.sound.own, kept.sound.documents⟩, asks _⟩
  · intro o h there
    exact (kept.sound.placed there).asOf
  · intro o h there loading
    exact ((kept.sound.placed there).loads loading).1

private def aFile : Key := ⟨"s", "a"⟩

/-- A file opened and edited. -/
private def typing : List Event :=
  [.open_ aFile, .readDone 0 (.ok (some (.text "old"))), .modelDone 0, .attachDone 0, .settled 0, .type 0 0 "new"]

theorem drafts_kept_typed : Machine.Admits Store.step (fun s event => calm s event = true) .empty (typing ++ [.renamed "s" "a" "b", .moveDone 0 0, .moved 0 0]) ∧
    Intact (Machine.run Store.step .empty (typing ++ [.renamed "s" "a" "b", .moveDone 0 0, .moved 0 0])) ∧
    Asks (Machine.run Store.step .empty (typing ++ [.renamed "s" "a" "b", .moveDone 0 0, .moved 0 0])) := by
  have calmly : Machine.Admits Store.step (fun s event => calm s event = true) .empty (typing ++ [.renamed "s" "a" "b", .moveDone 0 0, .moved 0 0]) := by
    decide
  exact ⟨calmly, drafts_kept calmly⟩

/-- A `diskChanged` reads the file before a save and goes on after it: the saved text and the
draft are the older text again. And an `open` of a file that is being restored drops the draft. -/
theorem save_undone :
    ((Machine.run Store.step .empty (typing ++ [.diskChanged aFile, .looked 0 0 (some (.text "old")), .save aFile, .saveDone 0 0, .lookDone 0 0])).objects[0]?.map
      fun h => (h.buffer.saved, h.buffer.draft)) = some ("old", "old") ∧
    ¬ Intact (Machine.run Store.step .empty (typing ++ [.diskChanged aFile, .looked 0 0 (some (.text "old")), .save aFile, .saveDone 0 0, .lookDone 0 0])) ∧
    ¬ Intact (Machine.run Store.step .empty [.restore aFile "old" "new", .open_ aFile]) := by
  refine ⟨by decide, fun intact => ?_, fun intact => ?_⟩
  · have found : (Machine.run Store.step .empty
        (typing ++ [.diskChanged aFile, .looked 0 0 (some (.text "old")), .save aFile, .saveDone 0 0, .lookDone 0 0])).objects[0]?.map
          (fun h => (h.asOf, h.ended)) = some (0, 1) := by decide
    obtain ⟨h, there, same⟩ := Option.map_eq_some_iff.mp found
    have asOf := intact.current there
    simp_all
  · obtain ⟨o, h, at_, there, held⟩ := intact.texts (aFile, "new") (by decide)
    have is : (Machine.run Store.step .empty [.restore aFile "old" "new", .open_ aFile]).held.get aFile = some 1 := by decide
    have same := Option.some.inj (at_.symm.trans is)
    subst same
    have text : (Machine.run Store.step .empty [.restore aFile "old" "new", .open_ aFile]).objects[1]?.map Held.unsavedText = some none := by decide
    rw [there] at text
    simp_all

end Oxplow.Proofs.BufferDrafts
