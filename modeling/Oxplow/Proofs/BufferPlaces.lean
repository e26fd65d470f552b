import Oxplow.Editor.Buffers

/-! The places of the buffers: each file has at most one, and its document is open once while
the buffer is there. What closing, loading and changing one buffer keeps of that. -/

namespace Oxplow.Proofs.BufferDrafts
open Library Editor

variable {s t : Store} {o : Nat} {h h' : Held} {key : Key} {n : Nat} {path : String} {here here' : Prop} {services services' : Option Nat}

/-! ## One buffer -/

/-- Its load may still write to it. -/
def underway (h : Held) : Bool :=
  match h.load with
  | .reading | .attaching _ _ | .attached _ _ => true
  | .settling | .done => false

/-- It waits for a model. -/
def awaits (h : Held) : Bool :=
  (match h.load with
    | .reading | .attaching _ _ => true
    | .attached _ _ | .settling | .done => false) ||
  h.moves.any fun move => move.awaited.isSome

/-- Its file's language services should have it open. -/
def Documented (h : Held) : Prop := h.buffer.state = .ready ∧ h.moves = []

/-- What holds of a buffer that is its file's (`here`) or no longer is, in a stream with these
services. -/
structure Placed (here : Prop) (services : Option Nat) (h : Held) : Prop where
  loads : underway h = true → h.buffer.state = .loading ∧ h.buffer.key = h.key ∧ (here → services = some h.services)
  moves : h.moves = [] ∨ ∃ move, h.moves = [move] ∧ h.buffer.state = .ready ∧ here ∧ services = some move.services
  live : ∀ {m text}, h.models[m]? = some ⟨text, false⟩ → h.model = some m ∧ (h.buffer.state = .ready → here)
  silent : awaits h = true → ∀ model ∈ h.models, model.disposed = true
  asOf : h.asOf = h.ended

theorem Placed.frame (placed : Placed here services h) (same : here ↔ here') (kept : here → services' = services) :
    Placed here' services' h := by
  refine ⟨?_, ?_, ?_, placed.silent, placed.asOf⟩
  · intro loading
    obtain ⟨state, own, found⟩ := placed.loads loading
    exact ⟨state, own, fun there => (kept (same.mpr there)).trans (found (same.mpr there))⟩
  · apply placed.moves.imp_right
    intro ⟨move, only, ready, there, found⟩
    exact ⟨move, only, ready, same.mp there, (kept there).trans found⟩
  · intro m text found
    exact ⟨(placed.live found).1, fun ready => same.mp ((placed.live found).2 ready)⟩

/-- A buffer that gives up its place. -/
theorem Placed.leave (placed : Placed here services h) (still : h.moves = []) (quiet : h.buffer.state ≠ .ready ∨ ∀ model ∈ h.models, model.disposed = true) :
    Placed False services' h := by
  refine ⟨?_, .inl still, ?_, placed.silent, placed.asOf⟩
  · intro loading
    obtain ⟨state, own, _⟩ := placed.loads loading
    exact ⟨state, own, False.elim⟩
  · intro m text found
    refine ⟨(placed.live found).1, fun ready => ?_⟩
    rcases quiet with unready | disposed
    · exact unready ready
    · exact absurd (disposed _ (List.mem_of_getElem? found)) (by simp)

theorem Placed.still_of_unready (placed : Placed here services h) (unready : h.buffer.state ≠ .ready) : h.moves = [] := by
  rcases placed.moves with still | ⟨_, _, ready, _⟩
  · exact still
  · exact absurd ready unready

theorem Placed.settled_of_ready (placed : Placed here services h) (ready : h.buffer.state = .ready) : underway h = false := by
  apply Bool.eq_false_iff.mpr
  intro loading
  exact absurd ((placed.loads loading).1.symm.trans ready) (by decide)

theorem awaits_of_quiet (quiet : h.moves.any (fun move => move.awaited.isSome) = false) (settled : underway h = false) : awaits h = false := by
  simp only [awaits, underway, quiet, Bool.or_false] at settled ⊢
  cases load : h.load <;> simp_all

theorem awaits_of_still (still : h.moves = []) (settled : underway h = false) : awaits h = false :=
  awaits_of_quiet (by simp [still]) settled

theorem Placed.disposed (placed : Placed here services h) : ∀ model ∈ h.dispose.models, model.disposed = true := by
  intro model member
  obtain ⟨i, found⟩ := List.mem_iff_getElem?.mp member
  change (h.model.elim h.models fun m => h.models.modify m fun model => { model with disposed := true })[i]? = some model at found
  apply Bool.of_not_eq_false
  intro live
  obtain ⟨text, disposed⟩ := model
  change disposed = false at live
  subst live
  cases current : h.model with
  | none =>
    rw [current] at found
    exact absurd ((placed.live found).1.symm.trans current) (by simp)
  | some m =>
    rw [current] at found
    change (h.models.modify m _)[i]? = _ at found
    rw [List.getElem?_modify] at found
    obtain ⟨before, there, changed⟩ := Option.map_eq_some_iff.mp found
    by_cases own : m = i
    · rw [if_pos own] at changed
      exact absurd (congrArg ModelHandle.disposed changed) (by simp)
    · rw [if_neg own] at changed
      rw [changed] at there
      exact own (Option.some.inj (current.symm.trans (placed.live there).1))

/-- Disposed of its model, a buffer keeps what else holds of it. -/
theorem Placed.dispose (placed : Placed here services h) : Placed here services h.dispose := by
  refine ⟨placed.loads, placed.moves, ?_, fun _ => placed.disposed, placed.asOf⟩
  intro m text found
  exact absurd (placed.disposed _ (List.mem_of_getElem? found)) (by simp)

/-- A new model, when the ones before are disposed. -/
theorem models_attach {text : String} (silent : ∀ model ∈ h.models, model.disposed = true) {m : Nat} {text' : String}
    (found : (h.attach text).models[m]? = some ⟨text', false⟩) : (h.attach text).model = some m := by
  change (h.models ++ [⟨text, false⟩])[m]? = _ at found
  change some h.models.length = some m
  rcases Nat.lt_trichotomy m h.models.length with before | same | after
  · rw [List.getElem?_append_left before] at found
    exact absurd (silent _ (List.mem_of_getElem? found)) (by simp)
  · rw [same]
  · rw [List.getElem?_eq_none (by simp; omega)] at found
    exact absurd found (by simp)

/-! ## The store -/

/-- The services have the path open: its file's buffer is ready, and no move of it waits. -/
def DocOpen (s : Store) (n : Nat) (path : String) : Prop :=
  ∃ stream o h, s.held.get ⟨stream, path⟩ = some o ∧ s.objects[o]? = some h ∧ Documented h ∧ s.streams stream = some n

/-- Of the calls that say a path is open and closed, one more says so when it is open. -/
def DocKept (s : Store) (n : Nat) (path : String) : Prop :=
  (DocOpen s n path → s.opened n path = s.closed n path + 1) ∧ (¬ DocOpen s n path → s.opened n path = s.closed n path)

structure Sound (s : Store) : Prop where
  placed : ∀ {o h}, s.objects[o]? = some h → Placed (s.held.get h.buffer.key = some o) (s.streams h.buffer.stream) h
  own : ∀ {key o}, s.held.get key = some o → ∃ h, s.objects[o]? = some h ∧ h.buffer.key = key
  served : ∀ {key o}, s.held.get key = some o → ∃ n, s.streams key.stream = some n
  started : ∀ {stream n}, s.streams stream = some n → n < s.started
  apart : ∀ {a b n}, s.streams a = some n → s.streams b = some n → a = b
  documents : ∀ n path, DocKept s n path

/-- A file's buffer holds an unsaved text. -/
def Holds (s : Store) (text : Key × String) : Prop :=
  ∃ o h, s.held.get text.1 = some o ∧ s.objects[o]? = some h ∧ h.unsavedText = some text.2

/-- Each unsaved text is in its file's buffer. -/
def Texts (s : Store) : Prop := ∀ text ∈ s.unsaved, Holds s text

theorem Sound.congr (sound : Sound s) (objects : t.objects = s.objects) (held : t.held = s.held) (streams : t.streams = s.streams)
    (started : t.started = s.started) (opened : t.opened = s.opened) (closed : t.closed = s.closed) : Sound t := by
  obtain ⟨tObjects, tHeld, _, tStreams, tStarted, tOpened, tClosed, _⟩ := t
  subst objects held streams started opened closed
  exact ⟨sound.placed, sound.own, sound.served, sound.started, sound.apart, sound.documents⟩

theorem Sound.keyed (sound : Sound s) (at_ : s.held.get key = some o) (there : s.objects[o]? = some h) : h.buffer.key = key := by
  obtain ⟨h', there', own⟩ := sound.own at_
  rw [there] at there'
  rw [Option.some.inj there', own]

theorem found_eq_some : s.found key = some (o, h) ↔ s.held.get key = some o ∧ s.objects[o]? = some h := by
  simp only [Store.found, Option.bind_eq_some_iff, Option.map_eq_some_iff, Prod.mk.injEq]
  constructor
  · rintro ⟨_, at_, _, there, rfl, rfl⟩
    exact ⟨at_, there⟩
  · rintro ⟨at_, there⟩
    exact ⟨o, at_, h, there, rfl, rfl⟩

theorem put_object (there : s.objects[o]? = some h) {i : Nat} : (s.put o h').objects[i]? = if i = o then some h' else s.objects[i]? := by
  change (s.objects.set o h')[i]? = _
  rw [List.getElem?_set]
  by_cases same : i = o
  · subst same
    simp [(List.getElem?_eq_some_iff.mp there).1]
  · rw [if_neg (Ne.symm same), if_neg same]

theorem put_own (there : s.objects[o]? = some h) : (s.put o h').objects[o]? = some h' := by
  rw [put_object there, if_pos rfl]

/-- A document that no change of one buffer is about. -/
theorem docOpen_put (sound : Sound s) (there : s.objects[o]? = some h)
    (same : s.held.get h.buffer.key = some o → s.streams h.buffer.stream = some n → h.buffer.path = path → (Documented h' ↔ Documented h)) :
    DocOpen (s.put o h') n path ↔ DocOpen s n path := by
  have about : ∀ {stream}, s.held.get ⟨stream, path⟩ = some o → s.streams stream = some n → (Documented h' ↔ Documented h) := by
    intro stream at_ services
    have own := sound.keyed at_ there
    rw [← own] at at_
    have stream_eq : h.buffer.stream = stream := congrArg Key.stream own
    exact same at_ (stream_eq ▸ services) (congrArg Key.path own)
  constructor
  · rintro ⟨stream, o', k, at_, found, documented, services⟩
    rw [put_object there] at found
    by_cases own : o' = o
    · subst own
      rw [if_pos rfl] at found
      rw [← Option.some.inj found] at documented
      exact ⟨stream, o', h, at_, there, (about at_ services).mp documented, services⟩
    · rw [if_neg own] at found
      exact ⟨stream, o', k, at_, found, documented, services⟩
  · rintro ⟨stream, o', k, at_, found, documented, services⟩
    by_cases own : o' = o
    · subst own
      rw [there] at found
      rw [← Option.some.inj found] at documented
      exact ⟨stream, o', h', at_, put_own there, (about at_ services).mpr documented, services⟩
    · refine ⟨stream, o', k, at_, ?_, documented, services⟩
      rw [put_object there, if_neg own, found]

/-- The document of the buffer at a key. -/
theorem docOpen_iff (sound : Sound s) (at_ : s.held.get key = some o) (there : s.objects[o]? = some h)
    (services : s.streams key.stream = some n) : DocOpen s n key.path ↔ Documented h := by
  constructor
  · rintro ⟨stream, o', k, at', found, documented, services'⟩
    have same := sound.apart services' services
    subst same
    have here : some o' = some o := at'.symm.trans at_
    rw [Option.some.inj here, there] at found
    rw [Option.some.inj found]
    exact documented
  · intro documented
    exact ⟨key.stream, o, h, at_, there, documented, services⟩

/-- What a change of one buffer that keeps its key has to keep, its document apart. -/
theorem Sound.change (sound : Sound s) (there : s.objects[o]? = some h) (key : h'.buffer.key = h.buffer.key)
    (placed : Placed (s.held.get h.buffer.key = some o) (s.streams h.buffer.stream) h')
    (objects : t.objects = (s.put o h').objects) (held : t.held = s.held) (streams : t.streams = s.streams) (started : t.started = s.started)
    (documents : ∀ n path, DocKept t n path) : Sound t := by
  refine ⟨?_, ?_, ?_, ?_, ?_, documents⟩
  · intro i k found
    rw [objects, put_object there] at found
    rw [held, streams]
    by_cases own : i = o
    · subst own
      rw [if_pos rfl] at found
      rw [← Option.some.inj found, key, show h'.buffer.stream = h.buffer.stream from congrArg Key.stream key]
      exact placed
    · rw [if_neg own] at found
      exact sound.placed found
  · intro key' i at_
    rw [held] at at_
    obtain ⟨k, found, own⟩ := sound.own at_
    rw [objects, put_object there]
    by_cases same : i = o
    · subst same
      rw [there] at found
      exact ⟨h', if_pos rfl, key.trans (Option.some.inj found ▸ own)⟩
    · exact ⟨k, by rw [if_neg same, found], own⟩
  · intro key' i at_
    rw [held] at at_
    rw [streams]
    exact sound.served at_
  · intro stream n found
    rw [streams] at found
    rw [started]
    exact sound.started found
  · intro a b n first second
    rw [streams] at first second
    exact sound.apart first second

theorem Sound.put (sound : Sound s) (there : s.objects[o]? = some h) (key : h'.buffer.key = h.buffer.key)
    (placed : Placed (s.held.get h.buffer.key = some o) (s.streams h.buffer.stream) h')
    (documented : s.held.get h.buffer.key = some o → (Documented h' ↔ Documented h)) : Sound (s.put o h') := by
  apply sound.change there key placed rfl rfl rfl rfl
  intro n path
  have same : DocOpen (s.put o h') n path ↔ DocOpen s n path := docOpen_put sound there fun here _ _ => documented here
  exact ⟨fun open_ => (sound.documents n path).1 (same.mp open_), fun shut => (sound.documents n path).2 fun open_ => shut (same.mpr open_)⟩

/-- A buffer whose services hear that it opened. -/
theorem Sound.opens (sound : Sound s) (there : s.objects[o]? = some h) (key : h'.buffer.key = h.buffer.key)
    (placed : Placed (s.held.get h.buffer.key = some o) (s.streams h.buffer.stream) h')
    (here : s.held.get h.buffer.key = some o) (services : s.streams h.buffer.stream = some n) (before : ¬ Documented h)
    (after : Documented h') : Sound ((s.put o h').tellOpened n h.buffer.path) := by
  refine sound.change (t := (s.put o h').tellOpened n h.buffer.path) there key placed rfl rfl rfl rfl ?_
  intro n' path
  have was := sound.documents n' path
  change (DocOpen (s.put o h') n' path → (if n' = n ∧ path = h.buffer.path then s.opened n' path + 1 else s.opened n' path) = _) ∧
    (¬ DocOpen (s.put o h') n' path → (if n' = n ∧ path = h.buffer.path then s.opened n' path + 1 else s.opened n' path) = _)
  by_cases own : n' = n ∧ path = h.buffer.path
  · obtain ⟨rfl, rfl⟩ := own
    have shut : ¬ DocOpen s n' h.buffer.path := fun open_ => before ((docOpen_iff sound here there services).mp open_)
    have opens : DocOpen (s.put o h') n' h.buffer.path := ⟨h.buffer.stream, o, h', here, put_own there, after, services⟩
    rw [if_pos ⟨rfl, rfl⟩, was.2 shut]
    exact ⟨fun _ => rfl, fun closed => absurd opens closed⟩
  · have same : DocOpen (s.put o h') n' path ↔ DocOpen s n' path := docOpen_put sound there (fun _ found at_ =>
      absurd ⟨Option.some.inj (found.symm.trans services), at_.symm⟩ own)
    rw [if_neg own]
    exact ⟨fun open_ => was.1 (same.mp open_), fun closed => was.2 fun open_ => closed (same.mpr open_)⟩

variable {text : Key × String}

theorem Holds.put (holds : Holds s text) (sound : Sound s) (there : s.objects[o]? = some h)
    (kept : s.held.get h.buffer.key = some o → text.1 = h.buffer.key → h.unsavedText = some text.2 → h'.unsavedText = some text.2) :
    Holds (s.put o h') text := by
  obtain ⟨i, k, at_, found, held⟩ := holds
  by_cases own : i = o
  · subst own
    have key := sound.keyed at_ found
    rw [there] at found
    cases Option.some.inj found
    exact ⟨i, h', at_, put_own there, kept (key ▸ at_) key.symm held⟩
  · exact ⟨i, k, at_, (put_object there).trans ((if_neg own).trans found), held⟩

/-! ## Streams -/

/-- Services that start or stop where no buffer is held. -/
theorem Sound.restream (sound : Sound s) (objects : t.objects = s.objects) (held : t.held = s.held) (opened : t.opened = s.opened)
    (closed : t.closed = s.closed) (streams : ∀ {key o}, s.held.get key = some o → t.streams key.stream = s.streams key.stream)
    (started : ∀ {stream n}, t.streams stream = some n → n < t.started)
    (apart : ∀ {a b n}, t.streams a = some n → t.streams b = some n → a = b) : Sound t := by
  refine ⟨?_, ?_, ?_, started, apart, ?_⟩
  · intro o h found
    rw [objects] at found
    rw [held]
    exact (sound.placed found).frame Iff.rfl streams
  · intro key o at_
    rw [held] at at_
    rw [objects]
    exact sound.own at_
  · intro key o at_
    rw [held] at at_
    rw [streams at_]
    exact sound.served at_
  · intro n path
    have same : DocOpen t n path ↔ DocOpen s n path := by
      simp only [DocOpen, objects, held]
      constructor
      · rintro ⟨stream, o, h, at_, found, documented, services⟩
        exact ⟨stream, o, h, at_, found, documented, (streams at_).symm.trans services⟩
      · rintro ⟨stream, o, h, at_, found, documented, services⟩
        exact ⟨stream, o, h, at_, found, documented, (streams at_).trans services⟩
    simp only [DocKept, same, opened, closed]
    exact sound.documents n path

@[simp] theorem streamHeld_objects (stream : String) : (s.streamHeld stream).objects = s.objects := by
  simp only [Store.streamHeld]; split <;> rfl

@[simp] theorem streamHeld_held (stream : String) : (s.streamHeld stream).held = s.held := by
  simp only [Store.streamHeld]; split <;> rfl

@[simp] theorem streamHeld_unsaved (stream : String) : (s.streamHeld stream).unsaved = s.unsaved := by
  simp only [Store.streamHeld]; split <;> rfl

theorem streamHeld_started (stream : String) : ∃ n, (s.streamHeld stream).streams stream = some n := by
  simp only [Store.streamHeld]
  split
  · exact Option.isSome_iff_exists.mp ‹_›
  · exact ⟨s.started, if_pos rfl⟩

theorem Sound.streamHeld (sound : Sound s) (stream : String) : Sound (s.streamHeld stream) := by
  simp only [Store.streamHeld]
  split
  · exact sound
  · rename_i unstarted
    have fresh : ∀ {id n}, s.streams id = some n → id ≠ stream := by
      intro id n found same
      rw [same] at found
      exact unstarted (by simp [found])
    refine sound.restream rfl rfl rfl rfl ?_ ?_ ?_
    · intro key o at_
      obtain ⟨n, found⟩ := sound.served at_
      exact if_neg (fresh found)
    · intro id n found
      change (if id = stream then some s.started else s.streams id) = some n at found
      change n < s.started + 1
      split at found
      · cases found
        omega
      · exact Nat.lt_succ_of_lt (sound.started found)
    · intro a b n first second
      change (if a = stream then some s.started else s.streams a) = some n at first
      change (if b = stream then some s.started else s.streams b) = some n at second
      split at first <;> split at second
      · simp_all
      · cases first
        exact absurd (sound.started second) (Nat.lt_irrefl _)
      · cases second
        exact absurd (sound.started first) (Nat.lt_irrefl _)
      · exact sound.apart first second

/-! ## Closing -/

/-- The places after one buffer gives up its own. -/
theorem Sound.vacate (sound : Sound s) (at_ : s.held.get key = some o) (there : s.objects[o]? = some h) (still : h.moves = [])
    (objects : t.objects = (s.put o h.dispose).objects) (held : t.held = s.held.delete key) (streams : t.streams = s.streams)
    (started : t.started = s.started) (documents : ∀ n path, DocKept t n path) : Sound t := by
  have own := sound.keyed at_ there
  refine ⟨?_, ?_, ?_, ?_, ?_, documents⟩
  · intro i k found
    rw [objects, put_object there] at found
    rw [held, streams, InsertionMap.get_delete]
    by_cases same : i = o
    · subst same
      rw [if_pos rfl] at found
      cases Option.some.inj found
      have left : Placed False (s.streams h.buffer.stream) h.dispose :=
        (sound.placed there).dispose.leave still (.inr (sound.placed there).disposed)
      refine left.frame ?_ fun _ => rfl
      simp [show h.dispose.buffer.key = key from own]
    · rw [if_neg same] at found
      refine (sound.placed found).frame ?_ fun _ => rfl
      by_cases here : k.buffer.key = key
      · rw [if_pos here, here, at_]
        simp [Ne.symm same]
      · rw [if_neg here]
  · intro key' i at'
    rw [held, InsertionMap.get_delete] at at'
    by_cases same : key' = key
    · rw [if_pos same] at at'
      cases at'
    · rw [if_neg same] at at'
      obtain ⟨k, found, keyed⟩ := sound.own at'
      refine ⟨k, ?_, keyed⟩
      rw [objects, put_object there, if_neg ?_, found]
      rintro rfl
      rw [there] at found
      cases Option.some.inj found
      exact same (keyed.symm.trans own)
  · intro key' i at'
    rw [held, InsertionMap.get_delete] at at'
    split at at'
    · cases at'
    · rw [streams]
      exact sound.served at'
  · intro stream n found
    rw [streams] at found
    rw [started]
    exact sound.started found
  · intro a b n first second
    rw [streams] at first second
    exact sound.apart first second

theorem docOpen_vacate (sound : Sound s) (at_ : s.held.get key = some o) (there : s.objects[o]? = some h)
    (services : s.streams key.stream = some n) (objects : t.objects = (s.put o h.dispose).objects) (held : t.held = s.held.delete key)
    (streams : t.streams = s.streams) (n' : Nat) (path : String) : DocOpen t n' path ↔ DocOpen s n' path ∧ ¬ (n' = n ∧ path = key.path) := by
  simp only [DocOpen, objects, held, streams, InsertionMap.get_delete]
  constructor
  · rintro ⟨stream, i, k, at', found, documented, services'⟩
    split at at'
    · cases at'
    · rename_i away
      have other : i ≠ o := by
        rintro rfl
        obtain ⟨k', there', own⟩ := sound.own at'
        rw [there] at there'
        cases Option.some.inj there'
        exact away (own.symm.trans (sound.keyed at_ there))
      rw [put_object there, if_neg other] at found
      refine ⟨⟨stream, i, k, at', found, documented, services'⟩, ?_⟩
      rintro ⟨rfl, rfl⟩
      rw [sound.apart services' services] at away
      exact away rfl
  · rintro ⟨⟨stream, i, k, at', found, documented, services'⟩, away⟩
    have other : (⟨stream, path⟩ : Key) ≠ key := by
      rintro rfl
      exact away ⟨Option.some.inj (services'.symm.trans services), rfl⟩
    refine ⟨stream, i, k, (if_neg other).trans at', ?_, documented, services'⟩
    rw [put_object there, if_neg ?_, found]
    rintro rfl
    exact other ((sound.keyed at' found).symm.trans ((congrArg (·.buffer.key) (Option.some.inj (found.symm.trans there))).trans (sound.keyed at_ there)))

theorem not_inUse {stream : String} (sound : Sound s) (unused : s.inUse stream = false) : ∀ {key o}, s.held.get key = some o → key.stream ≠ stream := by
  intro key o at_ same
  obtain ⟨h, there, own⟩ := sound.own at_
  have used : s.inUse stream = true := by
    apply List.any_eq_true.mpr
    refine ⟨(key, o), InsertionMap.get_eq_some.mp at_, ?_⟩
    have stream_eq : h.buffer.stream = key.stream := congrArg Key.stream own
    simp [there, stream_eq, same]
  exact absurd (used.symm.trans unused) (by decide)

theorem tellClosed_closed {n' : Nat} {path' : String} :
    (s.tellClosed (some n) path).closed n' path' = if n' = n ∧ path' = path then s.closed n' path' + 1 else s.closed n' path' := by
  simp only [Store.tellClosed, Option.some.injEq]

/-- A ready buffer leaves its place, and its services hear that it closed. -/
theorem Sound.shut (sound : Sound s) (at_ : s.held.get key = some o) (there : s.objects[o]? = some h) (still : h.moves = [])
    (services : s.streams key.stream = some n) (ready : h.buffer.state = .ready) :
    Sound ((s.remove key o h).tellClosed (some n) key.path) := by
  refine sound.vacate (t := (s.remove key o h).tellClosed (some n) key.path) at_ there still rfl rfl rfl rfl ?_
  intro n' path
  have was := sound.documents n' path
  have gone := docOpen_vacate (t := (s.remove key o h).tellClosed (some n) key.path) sound at_ there services rfl rfl rfl n' path
  rw [DocKept, gone, tellClosed_closed]
  change (_ → s.opened n' path = (if n' = n ∧ path = key.path then s.closed n' path + 1 else s.closed n' path) + 1) ∧
    (_ → s.opened n' path = if n' = n ∧ path = key.path then s.closed n' path + 1 else s.closed n' path)
  by_cases here : n' = n ∧ path = key.path
  · obtain ⟨rfl, rfl⟩ := here
    have open_ : DocOpen s n' key.path := (docOpen_iff sound at_ there services).mpr ⟨ready, still⟩
    rw [if_pos ⟨rfl, rfl⟩]
    exact ⟨fun both => absurd ⟨rfl, rfl⟩ both.2, fun _ => was.1 open_⟩
  · rw [if_neg here]
    exact ⟨fun both => was.1 both.1, fun neither => was.2 fun open_ => neither ⟨open_, here⟩⟩

/-- One that isn't leaves without a word. -/
theorem Sound.drop (sound : Sound s) (at_ : s.held.get key = some o) (there : s.objects[o]? = some h) (unready : h.buffer.state ≠ .ready) :
    Sound (s.remove key o h) := by
  obtain ⟨n, services⟩ := sound.served at_
  have still := (sound.placed there).still_of_unready unready
  refine sound.vacate (t := s.remove key o h) at_ there still rfl rfl rfl rfl ?_
  intro n' path
  have was := sound.documents n' path
  have gone := docOpen_vacate (t := s.remove key o h) sound at_ there services rfl rfl rfl n' path
  rw [DocKept, gone]
  refine ⟨fun both => was.1 both.1, fun neither => was.2 fun open_ => neither ⟨open_, ?_⟩⟩
  rintro ⟨rfl, rfl⟩
  exact unready ((docOpen_iff sound at_ there services).mp open_).1

/-- A stream that no buffer is held of stops its services. -/
theorem Sound.retire {stream : String} (sound : Sound s) (unused : s.inUse stream = false) :
    Sound { s with streams := fun id => if id = stream then none else s.streams id } := by
  refine sound.restream rfl rfl rfl rfl (fun at_ => if_neg (not_inUse sound unused at_)) ?_ ?_
  · intro id n found
    change (if id = stream then none else s.streams id) = some n at found
    split at found
    · cases found
    · exact sound.started found
  · intro a b n first second
    change (if a = stream then none else s.streams a) = some n at first
    change (if b = stream then none else s.streams b) = some n at second
    split at first
    · cases first
    · split at second
      · cases second
      · exact sound.apart first second

theorem Sound.close (sound : Sound s) (still : ∀ {o h}, s.found key = some (o, h) → h.moves = []) : Sound (s.close key) := by
  cases found : s.found key with
  | none =>
    simp only [Store.close, found]
    exact sound
  | some here =>
    obtain ⟨o, h⟩ := here
    obtain ⟨at_, there⟩ := found_eq_some.mp found
    obtain ⟨n, services⟩ := sound.served at_
    have own := sound.keyed at_ there
    subst own
    simp only [Store.close, found]
    by_cases ready : h.buffer.state = .ready
    · have told := sound.shut at_ there (still found) services ready
      rw [if_pos ready, show s.streams h.buffer.stream = some n from services]
      split
      · exact told
      · rename_i unused
        exact told.retire (Bool.eq_false_iff.mpr unused)
    · have told := sound.drop at_ there ready
      rw [if_neg ready]
      split
      · exact told
      · rename_i unused
        exact told.retire (Bool.eq_false_iff.mpr unused)

theorem close_held (sound : Sound s) {other : Key} : (s.close key).held.get other = if other = key then none else s.held.get other := by
  cases found : s.found key with
  | none =>
    have vacant : s.held.get key = none := by
      cases at_ : s.held.get key with
      | none => rfl
      | some o =>
        obtain ⟨h, there, _⟩ := sound.own at_
        have held := found_eq_some.mpr ⟨at_, there⟩
        exact absurd (found.symm.trans held) (by simp)
    simp only [Store.close, found]
    split
    · subst other
      exact vacant
    · rfl
  | some here =>
    obtain ⟨o, h⟩ := here
    rw [← InsertionMap.get_delete]
    simp only [Store.close, found]
    split <;> split <;> rfl

theorem close_objects : (s.close key).objects = ((s.found key).elim s fun here => s.put here.1 here.2.dispose).objects := by
  cases found : s.found key with
  | none => simp only [Store.close, found, Option.elim]
  | some here =>
    simp only [Store.close, found, Option.elim]
    split <;> split <;> rfl

/-- A close changes no buffer but to dispose of its model. -/
theorem close_object {i : Nat} {k : Held} (after : (s.close key).objects[i]? = some k) :
    ∃ k', s.objects[i]? = some k' ∧ k.buffer = k'.buffer ∧ k.moves = k'.moves ∧ k.unsavedText = k'.unsavedText := by
  rw [close_objects] at after
  cases found : s.found key with
  | none =>
    rw [found] at after
    exact ⟨k, after, rfl, rfl, rfl⟩
  | some here =>
    rw [found] at after
    obtain ⟨o, h⟩ := here
    obtain ⟨_, there⟩ := found_eq_some.mp found
    change (s.put o h.dispose).objects[i]? = some k at after
    rw [put_object there] at after
    split at after
    · subst i
      cases Option.some.inj after
      exact ⟨h, there, rfl, rfl, rfl⟩
    · exact ⟨k, after, rfl, rfl, rfl⟩

theorem Holds.close (holds : Holds s text) (sound : Sound s) (other : text.1 ≠ key) : Holds (s.close key) text := by
  obtain ⟨o, h, at_, there, held⟩ := holds
  have kept : (s.close key).objects[o]? = some h := by
    rw [close_objects]
    cases found : s.found key with
    | none => exact there
    | some here =>
      obtain ⟨i, k⟩ := here
      obtain ⟨at', there'⟩ := found_eq_some.mp found
      change (s.put i k.dispose).objects[o]? = some h
      rw [put_object there', if_neg ?_, there]
      rintro rfl
      exact other ((sound.keyed at_ there).symm.trans (sound.keyed at' there))
  refine ⟨o, h, ?_, kept, held⟩
  rw [close_held sound, if_neg other, at_]

/-! ## Loading -/

theorem load_objects (s : Store) (key : Key) (given : Option (String × String)) :
    ∃ n, (s.streamHeld key.stream).streams key.stream = some n ∧ (s.load key given).objects = s.objects ++ [.start key n given] := by
  obtain ⟨n, services⟩ := streamHeld_started (s := s) key.stream
  refine ⟨n, services, ?_⟩
  simp only [Store.load, services, streamHeld_objects, Option.getD_some]

theorem load_held (given : Option (String × String)) {other : Key} :
    (s.load key given).held.get other = if other = key then some s.objects.length else s.held.get other := by
  simp only [Store.load, InsertionMap.get_set, streamHeld_held, streamHeld_objects]

theorem placed_start (given : Option (String × String)) : Placed here (some n) (.start key n given) := by
  refine ⟨fun _ => ⟨rfl, rfl, fun _ => rfl⟩, .inl rfl, fun found => ?_, fun _ _ member => ?_, rfl⟩
  · simp [Held.start] at found
  · simp [Held.start] at member

/-- A buffer that loads takes the place of none that is ready. -/
theorem Sound.load (sound : Sound s) (given : Option (String × String))
    (vacant : ∀ {o : Nat} {h : Held}, s.found key = some (o, h) → h.buffer.state ≠ .ready) : Sound (s.load key given) := by
  obtain ⟨n, services, objects⟩ := load_objects s key given
  have base := sound.streamHeld key.stream
  have old : ∀ {o : Nat} {h : Held}, s.objects[o]? = some h → (s.load key given).objects[o]? = some h := by
    intro o h there
    rw [objects, List.getElem?_append_left (List.getElem?_eq_some_iff.mp there).1, there]
  have split_ : ∀ {o : Nat} {h : Held}, (s.load key given).objects[o]? = some h → s.objects[o]? = some h ∧ o ≠ s.objects.length ∨ o = s.objects.length ∧ h = .start key n given := by
    intro o h found
    rw [objects] at found
    rcases Nat.lt_trichotomy o s.objects.length with before | same | after
    · rw [List.getElem?_append_left before] at found
      exact .inl ⟨found, Nat.ne_of_lt before⟩
    · subst same
      rw [List.getElem?_concat_length] at found
      exact .inr ⟨rfl, (Option.some.inj found).symm⟩
    · rw [List.getElem?_eq_none (by simp; omega)] at found
      cases found
  have new : (s.load key given).objects[s.objects.length]? = some (.start key n given) := by
    rw [objects, List.getElem?_concat_length]
  refine ⟨?_, ?_, ?_, base.started, base.apart, ?_⟩
  · intro o h found
    rcases split_ found with ⟨there, other⟩ | ⟨rfl, rfl⟩
    · have placed := base.placed (o := o) (h := h) (by rw [streamHeld_objects, there])
      rw [load_held]
      by_cases onto : h.buffer.key = key
      · rw [if_pos onto]
        have away : ¬ some s.objects.length = some o := fun same => other (Option.some.inj same).symm
        by_cases at_ : s.held.get key = some o
        · have unready := vacant (found_eq_some.mpr ⟨at_, there⟩)
          have left : Placed False none h := placed.leave (placed.still_of_unready unready) (.inl unready)
          exact left.frame (by simp [away]) False.elim
        · refine placed.frame ?_ fun _ => rfl
          rw [streamHeld_held, onto]
          exact ⟨fun at' => absurd at' at_, fun same => absurd same away⟩
      · rw [if_neg onto]
        refine placed.frame ?_ fun _ => rfl
        rw [streamHeld_held]
    · have there : (s.load key given).streams (Held.start key n given).buffer.stream = some n := services
      rw [there]
      exact placed_start given
  · intro other o at_
    rw [load_held] at at_
    split at at_
    · cases at_
      subst other
      exact ⟨_, new, rfl⟩
    · obtain ⟨h, there, own⟩ := sound.own at_
      exact ⟨h, old there, own⟩
  · intro other o at_
    rw [load_held] at at_
    split at at_
    · subst other
      exact ⟨n, services⟩
    · exact base.served (o := o) (by rw [streamHeld_held, at_])
  · intro n' path
    have same : DocOpen (s.load key given) n' path ↔ DocOpen (s.streamHeld key.stream) n' path := by
      constructor
      · rintro ⟨stream, o, h, at_, found, documented, there⟩
        rw [load_held] at at_
        rcases split_ found with ⟨before, other⟩ | ⟨rfl, rfl⟩
        · split at at_
          · exact absurd (Option.some.inj at_).symm other
          · exact ⟨stream, o, h, by rw [streamHeld_held, at_], by rw [streamHeld_objects, before], documented, there⟩
        · exact absurd documented.1 (by simp [Held.start])
      · rintro ⟨stream, o, h, at_, found, documented, there⟩
        rw [streamHeld_held] at at_
        rw [streamHeld_objects] at found
        refine ⟨stream, o, h, ?_, old found, documented, there⟩
        rw [load_held, if_neg ?_, at_]
        rintro rfl
        exact vacant (found_eq_some.mpr ⟨at_, found⟩) documented.1
    simp only [DocKept, same]
    exact base.documents n' path

theorem Holds.load (holds : Holds s text) (given : Option (String × String)) (other : text.1 ≠ key) :
    Holds (s.load key given) text := by
  obtain ⟨o, h, at_, there, held⟩ := holds
  obtain ⟨n, _, objects⟩ := load_objects s key given
  refine ⟨o, h, ?_, ?_, held⟩
  · rw [load_held, if_neg other, at_]
  · rw [objects, List.getElem?_append_left (List.getElem?_eq_some_iff.mp there).1, there]

theorem holds_load {saved draft : String} (differ : draft ≠ saved) : Holds (s.load key (some (saved, draft))) (key, draft) := by
  obtain ⟨n, _, objects⟩ := load_objects s key (some (saved, draft))
  refine ⟨s.objects.length, .start key n (some (saved, draft)), ?_, ?_, ?_⟩
  · rw [load_held, if_pos rfl]
  · rw [objects, List.getElem?_concat_length]
  · simp [Held.unsavedText, Held.start, isDirty, Loading.brings, differ]

end Oxplow.Proofs.BufferDrafts
