import Oxplow.Library.Machine
import Oxplow.Tabs.Session

/-! What every sequence of the session's functions keeps of its tabs. A page that a tab goes back
to, or steps to, may be one that another shows by now. -/

namespace Oxplow.Proofs.TabSessions
open Library Tabs

variable {State : Type} {s : Session State}

/-! ## Slots -/

theorem slotName_injective {m n : Nat} (same : slotName m = slotName n) : m = n := by
  have repr : Nat.repr m = Nat.repr n := by
    have texts : ("t" ++ Nat.repr m).toList = ("t" ++ Nat.repr n).toList := congrArg String.toList same
    rw [String.toList_append, String.toList_append] at texts
    exact String.toList_inj.mp (List.append_cancel_left texts)
  have digits := congrArg String.toList repr
  rw [Nat.toList_repr, Nat.toList_repr] at digits
  have read := congrArg (Nat.ofDigitChars 10 · 0) digits
  simpa only [Nat.ofDigitChars_toDigits (b := 10) (by decide) (by decide)] using read

/-- The state of a session, but for what its tabs show. -/
structure Steady (s : Session State) : Prop where
  inside : ∀ t ∈ s.tabs, t.at_ < t.entries.length
  slots : (s.tabs.map Tab.slot).Nodup
  numbered : ∀ t ∈ s.tabs, ∃ n < s.next, t.slot = slotName n
  active : ∀ slot ∈ s.active, slot ∈ s.tabs.map Tab.slot
  used : ∀ slot ∈ s.mru, slot ∈ s.tabs.map Tab.slot
  usedOnce : s.mru.Nodup

variable {t : Tab State}

theorem Steady.same_tab (steady : Steady s) {t' : Tab State} (member : t ∈ s.tabs) (member' : t' ∈ s.tabs)
    (same : t.slot = t'.slot) : t = t' :=
  List.inj_on_of_nodup_map steady.slots member member' same

variable {tabs : List (Tab State)} {slot : String}

theorem any_slot_iff : (tabs.any fun t => t.slot == slot) = true ↔ slot ∈ tabs.map Tab.slot := by
  simp only [List.any_eq_true, beq_iff_eq, List.mem_map]

theorem steady_emptySession : Steady (Session.emptySession : Session State) :=
  ⟨nofun, List.nodup_nil, nofun, nofun, nofun, List.nodup_nil⟩

/-! ## A tab changed -/

theorem map_apart (f : Tab State → Tab State) (apart : ∀ t ∈ tabs, t.slot ≠ slot) :
    (tabs.map fun t => if t.slot = slot then f t else t) = tabs := by
  have same : (tabs.map fun t => if t.slot = slot then f t else t) = tabs.map id :=
    List.map_congr_left fun t member => if_neg (apart t member)
  rw [same, List.map_id]

theorem modify_eq_map (distinct : (tabs.map Tab.slot).Nodup) {i : Nat} (f : Tab State → Tab State)
    (found : tabs.findIdx? (·.slot == slot) = some i) : tabs.modify i f = tabs.map fun t => if t.slot = slot then f t else t := by
  induction tabs generalizing i with
  | nil => cases found
  | cons first rest ih =>
    obtain ⟨fresh, later⟩ := List.nodup_cons.mp distinct
    rw [List.findIdx?_cons] at found
    by_cases here : first.slot = slot
    · rw [if_pos (by simpa using here)] at found
      obtain rfl := Option.some.inj found
      have apart : ∀ t ∈ rest, t.slot ≠ slot := fun t member same => fresh (List.mem_map.mpr ⟨t, member, same.trans here.symm⟩)
      rw [List.modify_zero_cons, List.map_cons, if_pos here, map_apart f apart]
    · rw [if_neg (by simpa using here)] at found
      obtain ⟨j, at_, rfl⟩ := Option.map_eq_some_iff.mp found
      rw [List.modify_succ_cons, List.map_cons, if_neg here, ih later at_]

theorem withTab_tabs (steady : Steady s) (slot : String) (f : Tab State → Tab State) :
    (s.withTab slot f).tabs = s.tabs.map fun t => if t.slot = slot then f t else t := by
  rw [Session.withTab]
  split
  · rename_i i found
    exact modify_eq_map steady.slots f found
  · rename_i none
    have apart : ∀ t ∈ s.tabs, t.slot ≠ slot := by
      intro t member same
      have missing := List.findIdx?_eq_none_iff.mp none t member
      simp [same] at missing
    exact (map_apart f apart).symm

theorem withTab_rest (s : Session State) (slot : String) (f : Tab State → Tab State) :
    (s.withTab slot f).active = s.active ∧ (s.withTab slot f).mru = s.mru ∧ (s.withTab slot f).next = s.next := by
  rw [Session.withTab]
  split
  · exact ⟨rfl, rfl, rfl⟩
  · exact ⟨rfl, rfl, rfl⟩

variable {slot : String} {f : Tab State → Tab State}

theorem mem_withTab (steady : Steady s) :
    t ∈ (s.withTab slot f).tabs ↔ ∃ old ∈ s.tabs, t = if old.slot = slot then f old else old := by
  rw [withTab_tabs steady, List.mem_map]
  simp only [eq_comm]

/-- A step that keeps the tab's slot keeps them all. -/
theorem withTab_slots (steady : Steady s) (same : ∀ t, t.slot = slot → (f t).slot = t.slot) : (s.withTab slot f).tabs.map Tab.slot = s.tabs.map Tab.slot := by
  rw [withTab_tabs steady, List.map_map]
  apply List.map_congr_left
  intro t _
  change (if t.slot = slot then f t else t).slot = t.slot
  split
  · exact same t ‹_›
  · rfl

theorem Steady.withTab (steady : Steady s) (same : ∀ t, t.slot = slot → (f t).slot = t.slot) (inside : ∀ t ∈ s.tabs, t.slot = slot → (f t).at_ < (f t).entries.length) :
    Steady (s.withTab slot f) := by
  obtain ⟨active, mru, next⟩ := withTab_rest s slot f
  have slots : (s.withTab slot f).tabs.map Tab.slot = s.tabs.map Tab.slot := withTab_slots steady same
  refine ⟨?_, ?_, ?_, ?_, ?_, ?_⟩
  · intro t member
    obtain ⟨old, there, rfl⟩ := (mem_withTab steady).mp member
    split
    · exact inside old there ‹_›
    · exact steady.inside old there
  · rw [slots]
    exact steady.slots
  · intro t member
    obtain ⟨old, there, rfl⟩ := (mem_withTab steady).mp member
    rw [next]
    split
    · rename_i here
      rw [same old here]
      exact steady.numbered old there
    · exact steady.numbered old there
  · rw [active, slots]
    exact steady.active
  · rw [mru, slots]
    exact steady.used
  · rw [mru]
    exact steady.usedOnce

/-! ## What is shown -/

/-- No two tabs show one page, in one mode. -/
def Once (s : Session State) : Prop := (s.tabs.map Tab.shown).Nodup

/-- No tab but `slot`'s shows the page. -/
def Hidden (s : Session State) (slot : String) (page : Option String) : Prop := ∀ other ∈ s.tabs, other.slot ≠ slot → other.shown ≠ page

theorem Once.same_tab (once : Once s) {t' : Tab State} (member : t ∈ s.tabs) (member' : t' ∈ s.tabs) (same : t.shown = t'.shown) :
    t = t' :=
  List.inj_on_of_nodup_map once member member' same

theorem tabs_nodup (steady : Steady s) : s.tabs.Nodup := List.Nodup.of_map Tab.slot steady.slots

theorem Once.withTab (once : Once s) (steady : Steady s) (hidden : ∀ t ∈ s.tabs, t.slot = slot → Hidden s slot (f t).shown) :
    Once (s.withTab slot f) := by
  rw [Once, withTab_tabs steady, List.map_map]
  refine List.Nodup.map_on ?_ (tabs_nodup steady)
  intro t member t' member' same
  simp only [Function.comp_apply] at same
  split at same
  · rename_i here
    split at same
    · rename_i here'
      exact steady.same_tab member member' (here.trans here'.symm)
    · rename_i apart
      exact absurd same.symm (hidden t member here t' member' apart)
  · rename_i apart
    split at same
    · rename_i here
      exact absurd same (hidden t' member' here t member apart)
    · exact once.same_tab member member' same

/-- A step that keeps what the tab shows. -/
theorem Once.withTab_same (once : Once s) (steady : Steady s) (same : ∀ t ∈ s.tabs, t.slot = slot → (f t).shown = t.shown) :
    Once (s.withTab slot f) := by
  apply once.withTab steady
  intro t member here other member' apart shown
  rw [same t member here] at shown
  exact apart (once.same_tab member' member shown ▸ here)

/-! ## The steps of one tab -/

theorem replace_shown (t : Tab State) (g : Entry State → Entry State) : (t.replace g).shown = t.current.map fun entry => showingOf (g entry).ref.id := by
  rw [Tab.shown, Tab.showsAt, Tab.replace, List.getElem?_modify_eq, Option.map_eq_map, Option.map_map]
  rfl

theorem replace_inside (inside : t.at_ < t.entries.length) (g : Entry State → Entry State) :
    (t.replace g).at_ < (t.replace g).entries.length := by
  rw [Tab.replace, List.length_modify]
  exact inside

theorem current_some (inside : t.at_ < t.entries.length) :
    ∃ entry, t.current = some entry ∧ t.shown = some (showingOf entry.ref.id) := by
  refine ⟨t.entries[t.at_], List.getElem?_eq_getElem inside, ?_⟩
  rw [Tab.shown, Tab.showsAt, List.getElem?_eq_getElem inside]
  rfl

theorem back_shown (t : Tab State) : t.back.shown = if 0 < t.at_ then t.showsAt (t.at_ - 1) else t.shown := by
  rw [Tab.back]
  split
  · rfl
  · rfl

theorem forward_shown (t : Tab State) : t.forward.shown = if t.at_ + 1 < t.entries.length then t.showsAt (t.at_ + 1) else t.shown := by
  rw [Tab.forward]
  split
  · rfl
  · rfl

theorem stepOrigin_shown (inside : t.at_ < t.entries.length) (index : Int) (items : Option (List TabRef)) :
    (t.stepOrigin index items).shown = (t.stepsTo index items).elim t.shown fun step => some (showingOf step.1.id) := by
  obtain ⟨entry, found, -⟩ := current_some inside
  rw [Tab.stepOrigin]
  split
  · rename_i ref origin steps
    rw [steps, replace_shown, found]
    rfl
  · rename_i none
    rw [none]
    rfl

theorem dropCurrent_shown (later : 0 < t.at_) : t.dropCurrent.shown = t.showsAt (t.at_ - 1) := by
  have earlier : t.at_ - 1 < t.at_ := by omega
  change (t.entries.eraseIdx t.at_)[t.at_ - 1]?.map (fun entry => showingOf entry.ref.id) = t.showsAt (t.at_ - 1)
  rw [List.getElem?_eraseIdx_of_lt earlier]
  rfl

theorem dropCurrent_inside (inside : t.at_ < t.entries.length) (later : 0 < t.at_) :
    t.dropCurrent.at_ < t.dropCurrent.entries.length := by
  rw [Tab.dropCurrent, List.length_eraseIdx_of_lt inside]
  change t.at_ - 1 < t.entries.length - 1
  omega

/-! ## The operations -/

theorem Steady.activate (steady : Steady s) (slot : Option String) : Steady (s.activate slot) := by
  cases slot with
  | none => exact ⟨steady.inside, steady.slots, steady.numbered, nofun, steady.used, steady.usedOnce⟩
  | some slot =>
    rw [Session.activate]
    split
    swap
    · exact steady
    rename_i there
    have member := any_slot_iff.mp there
    refine ⟨steady.inside, steady.slots, steady.numbered, ?_, ?_, ?_⟩
    · rintro _ ⟨⟩
      exact member
    · intro used inside
      rcases List.mem_cons.mp inside with rfl | other
      · exact member
      · exact steady.used used (List.mem_filter.mp other).1
    · refine List.nodup_cons.mpr ⟨fun inside => ?_, steady.usedOnce.filter _⟩
      simp at inside

theorem activate_tabs (s : Session State) (slot : Option String) : (s.activate slot).tabs = s.tabs := by
  cases slot with
  | none => rfl
  | some slot =>
    rw [Session.activate]
    split
    · rfl
    · rfl

theorem close_tabs (s : Session State) (slot : String) : (s.close slot).tabs = s.tabs.filter (·.slot != slot) := by
  rw [Session.close]
  split
  · rfl
  · rename_i none
    symm
    rw [List.filter_eq_self]
    intro t member
    rw [bne_iff_ne]
    exact fun same => none (any_slot_iff.mpr (List.mem_map.mpr ⟨t, member, same⟩))

theorem Steady.close (steady : Steady s) (slot : String) : Steady (s.close slot) := by
  have kept : ∀ other, other ≠ slot → other ∈ s.tabs.map Tab.slot → other ∈ (s.tabs.filter (·.slot != slot)).map Tab.slot := by
    intro other apart member
    obtain ⟨t, there, rfl⟩ := List.mem_map.mp member
    exact List.mem_map.mpr ⟨t, List.mem_filter.mpr ⟨there, bne_iff_ne.mpr apart⟩, rfl⟩
  rw [Session.close]
  split
  swap
  · exact steady
  refine ⟨?_, ?_, ?_, ?_, ?_, ?_⟩
  · exact fun t member => steady.inside t (List.mem_filter.mp member).1
  · exact steady.slots.sublist (List.filter_sublist.map _)
  · exact fun t member => steady.numbered t (List.mem_filter.mp member).1
  · intro active chosen
    simp only at chosen
    split at chosen
    · have listed := List.find?_some (Option.mem_def.mp chosen)
      exact any_slot_iff.mp listed
    · rename_i other
      exact kept active (fun same => other (same ▸ chosen)) (steady.active active chosen)
  · intro used member
    obtain ⟨inside, apart⟩ := List.mem_filter.mp member
    exact kept used (bne_iff_ne.mp apart) (steady.used used inside)
  · exact steady.usedOnce.filter _

theorem Once.close (once : Once s) (slot : String) : Once (s.close slot) := by
  rw [Once, close_tabs]
  exact once.sublist (List.filter_sublist.map _)

theorem Steady.closeAll (steady : Steady s) (slots : List String) : Steady (slots.foldl Session.close s) := by
  induction slots generalizing s with
  | nil => exact steady
  | cons slot slots ih => exact ih (steady.close slot)

theorem closeAll_tabs (s : Session State) (slots : List String) : (slots.foldl Session.close s).tabs = s.tabs.filter fun t => !slots.contains t.slot := by
  induction slots generalizing s with
  | nil => simp
  | cons slot slots ih =>
    rw [List.foldl_cons, ih, close_tabs, List.filter_filter]
    apply List.filter_congr
    intro t _
    rw [List.contains_cons, Bool.not_or, Bool.and_comm]
    rfl

theorem Steady.open_ (steady : Steady s) (entry : Entry State) (pinned : Bool) : Steady (s.open_ entry pinned) := by
  rw [Session.open_]
  split
  · apply Steady.activate
    exact steady.withTab (fun _ _ => rfl) fun t member _ => replace_inside (steady.inside t member) _
  · have fresh : ∀ t ∈ s.tabs, t.slot ≠ slotName s.next := by
      intro t member same
      obtain ⟨n, before, named⟩ := steady.numbered t member
      exact absurd (slotName_injective (named.symm.trans same)) (Nat.ne_of_lt before)
    refine ⟨?_, ?_, ?_, ?_, ?_, ?_⟩
    · intro t member
      rcases List.mem_append.mp member with old | new
      · exact steady.inside t old
      · rw [List.mem_singleton.mp new]
        exact Nat.zero_lt_one
    · rw [List.map_append]
      refine List.nodup_append.mpr ⟨steady.slots, List.nodup_singleton _, ?_⟩
      intro slot member new last same
      obtain ⟨t, there, rfl⟩ := List.mem_map.mp member
      exact fresh t there (same.trans (List.mem_singleton.mp last))
    · intro t member
      rcases List.mem_append.mp member with old | new
      · obtain ⟨n, before, named⟩ := steady.numbered t old
        exact ⟨n, Nat.lt_succ_of_lt before, named⟩
      · rw [List.mem_singleton.mp new]
        exact ⟨s.next, Nat.lt_succ_self _, rfl⟩
    · rintro _ ⟨⟩
      rw [List.map_append]
      exact List.mem_append_right _ (List.mem_singleton.mpr rfl)
    · intro used member
      rw [List.map_append]
      rcases List.mem_cons.mp member with rfl | other
      · exact List.mem_append_right _ (List.mem_singleton.mpr rfl)
      · exact List.mem_append_left _ (steady.used used (List.mem_filter.mp other).1)
    · refine List.nodup_cons.mpr ⟨fun inside => ?_, steady.usedOnce.filter _⟩
      simp at inside

theorem Once.open_ (once : Once s) (steady : Steady s) (entry : Entry State) (pinned : Bool) : Once (s.open_ entry pinned) := by
  rw [Session.open_]
  split
  · rename_i there found
    rw [Once, activate_tabs]
    apply once.withTab_same steady
    intro t member same
    obtain rfl : t = there := steady.same_tab member (List.mem_of_find?_eq_some found) same
    have shows : t.shown = some (showingOf entry.ref.id) := by simpa using List.find?_some found
    obtain ⟨now, current, -⟩ := current_some (steady.inside t member)
    rw [replace_shown, current, shows]
    rfl
  · rename_i none
    rw [Once, List.map_append]
    refine List.nodup_append.mpr ⟨once, List.nodup_singleton _, ?_⟩
    intro page member new last same
    obtain ⟨t, there, rfl⟩ := List.mem_map.mp member
    have apart := List.find?_eq_none.mp none t there
    rw [same, List.mem_singleton.mp last] at apart
    exact apart (by simp [Tab.shown, Tab.showsAt])

theorem current_of_mem (steady : Steady s) (member : t ∈ s.tabs) {entry : Entry State} (current : t.current = some entry) :
    t.shown = some (showingOf entry.ref.id) := by
  obtain ⟨now, found, shown⟩ := current_some (steady.inside t member)
  obtain rfl := Option.some.inj (found.symm.trans current)
  exact shown

/-- The tab that `navigate` leaves: the new entry after those kept. -/
theorem moved_inside (tab : Tab State) (kept : List (Entry State)) (step : Entry State) :
    ({ tab with entries := kept ++ [step], at_ := kept.length } : Tab State).at_ <
        ({ tab with entries := kept ++ [step], at_ := kept.length } : Tab State).entries.length ∧
      ({ tab with entries := kept ++ [step], at_ := kept.length } : Tab State).shown = some (showingOf step.ref.id) := by
  constructor
  · rw [List.length_append]
    exact Nat.lt_succ_self _
  · simp [Tab.shown, Tab.showsAt]

theorem Steady.navigate (steady : Steady s) (slot : String) (entry : Entry State) (replace : Bool) : Steady (s.navigate slot entry replace) := by
  rw [Session.navigate]
  split
  · exact steady
  rename_i tab found
  have own : tab.slot = slot := by simpa using List.find?_some found
  split
  · exact steady
  split
  · exact steady
  simp only
  split
  · exact steady.withTab (fun _ _ => rfl) fun t member _ => replace_inside (steady.inside t member) _
  · apply Steady.closeAll
    exact steady.withTab (fun t here => own.trans here.symm) fun _ _ _ => (moved_inside tab _ _).1

/-- What goes to a page in `slot`, and closes the others that show it. -/
theorem once_arrived (once : Once s) (steady : Steady s) {moved : Tab State} {page : String}
    (shows : moved.shown = some page) :
    Once (((s.tabs.filter fun t => t.slot != slot && t.shown == some page).map Tab.slot).foldl Session.close (s.withTab slot fun _ => moved)) := by
  rw [Once, closeAll_tabs, withTab_tabs steady, List.filter_map, List.map_map]
  refine List.Nodup.map_on ?_ ((tabs_nodup steady).filter _)
  -- what is left beside the tab moved does not show the page
  have apart : ∀ t ∈ s.tabs, t.slot ≠ slot →
      (!((s.tabs.filter fun t => t.slot != slot && t.shown == some page).map Tab.slot).contains t.slot) = true → t.shown ≠ some page := by
    intro t member other left shown
    have listed : t.slot ∈ (s.tabs.filter fun t => t.slot != slot && t.shown == some page).map Tab.slot :=
      List.mem_map.mpr ⟨t, List.mem_filter.mpr ⟨member, by simp [other, shown]⟩, rfl⟩
    rw [List.contains_iff_mem.mpr listed] at left
    cases left
  intro t member t' member' same
  obtain ⟨inside, left⟩ := List.mem_filter.mp member
  obtain ⟨inside', left'⟩ := List.mem_filter.mp member'
  simp only [Function.comp_apply] at same left left'
  split at same
  · rename_i here
    split at same
    · rename_i here'
      exact steady.same_tab inside inside' (here.trans here'.symm)
    · rename_i other
      rw [if_neg other] at left'
      exact absurd (same.symm.trans shows) (apart t' inside' other left')
  · rename_i other
    rw [if_neg other] at left
    split at same
    · exact absurd (same.trans shows) (apart t inside other left)
    · exact once.same_tab inside inside' same

theorem Once.navigate (once : Once s) (steady : Steady s) (slot : String) (entry : Entry State) (replace : Bool) :
    Once (s.navigate slot entry replace) := by
  rw [Session.navigate]
  split
  · exact once
  rename_i tab found
  have own : tab.slot = slot := by simpa using List.find?_some found
  split
  · exact once
  rename_i now current
  split
  · exact once
  simp only
  split
  · rename_i samePage
    have page : showingOf now.ref.id = showingOf entry.ref.id := by simpa using (Bool.and_eq_true_iff.mp samePage).1
    apply once.withTab_same steady
    intro t member here
    obtain rfl : t = tab := steady.same_tab member (List.mem_of_find?_eq_some found) (here.trans own.symm)
    rw [replace_shown, current, current_of_mem steady member current, page]
    simp only [Option.map_some]
    split
    · rfl
    · rfl
  · apply once_arrived once steady
    rw [(moved_inside tab _ _).2]
    split
    · rfl
    · rfl

theorem Steady.dropCurrent (steady : Steady s) (slot : String) : Steady (s.dropCurrent slot) := by
  rw [Session.dropCurrent]
  split
  · exact steady
  rename_i tab found
  have own : tab.slot = slot := by simpa using List.find?_some found
  split
  · exact steady.close slot
  rename_i later
  refine steady.withTab (fun _ _ => rfl) fun t member here => ?_
  obtain rfl : t = tab := steady.same_tab member (List.mem_of_find?_eq_some found) (here.trans own.symm)
  exact dropCurrent_inside (steady.inside t member) (Nat.pos_of_ne_zero later)

theorem Once.dropCurrent (once : Once s) (steady : Steady s)
    (hidden : ∀ t ∈ s.tabs, t.slot = slot → 0 < t.at_ → Hidden s slot (t.showsAt (t.at_ - 1))) : Once (s.dropCurrent slot) := by
  rw [Session.dropCurrent]
  split
  · exact once
  rename_i tab found
  have own : tab.slot = slot := by simpa using List.find?_some found
  split
  · exact once.close slot
  rename_i later
  refine once.withTab steady fun t member here => ?_
  obtain rfl : t = tab := steady.same_tab member (List.mem_of_find?_eq_some found) (here.trans own.symm)
  rw [dropCurrent_shown (Nat.pos_of_ne_zero later)]
  exact hidden t member here (Nat.pos_of_ne_zero later)

/-! ### The order of the strip -/

variable {order : List String}

theorem reorder_perm (steady : Steady s) (distinct : order.Nodup) : (s.reorder order).tabs.Perm s.tabs := by
  have whole := tabs_nodup steady
  have named : ∀ t, t ∈ order.flatMap (fun slot => s.tabs.filter (·.slot == slot)) ↔ t ∈ s.tabs ∧ t.slot ∈ order := by
    intro t
    simp only [List.mem_flatMap, List.mem_filter, beq_iff_eq]
    constructor
    · rintro ⟨slot, listed, member, rfl⟩
      exact ⟨member, listed⟩
    · exact fun ⟨member, listed⟩ => ⟨t.slot, listed, member, rfl⟩
  have rest : ∀ t, t ∈ s.tabs.filter (fun t => !order.contains t.slot) ↔ t ∈ s.tabs ∧ t.slot ∉ order := by
    intro t
    simp [List.mem_filter]
  apply (List.perm_ext_iff_of_nodup ?_ whole).mpr
  · intro t
    rw [Session.reorder, List.mem_append, named, rest]
    constructor
    · rintro (⟨member, -⟩ | ⟨member, -⟩)
      · exact member
      · exact member
    · intro member
      by_cases listed : t.slot ∈ order
      · exact .inl ⟨member, listed⟩
      · exact .inr ⟨member, listed⟩
  · refine List.nodup_append.mpr ⟨List.nodup_flatMap.mpr ⟨fun _ _ => whole.filter _, ?_⟩, whole.filter _, ?_⟩
    · refine distinct.imp fun apart t member member' => ?_
      have first := (List.mem_filter.mp member).2
      have second := (List.mem_filter.mp member').2
      rw [beq_iff_eq] at first second
      exact apart (first.symm.trans second)
    · intro t member t' member' same
      subst same
      exact ((rest t).mp member').2 ((named t).mp member).2

theorem Steady.reorder (steady : Steady s) (distinct : order.Nodup) : Steady (s.reorder order) := by
  have perm := reorder_perm steady distinct
  have slots := perm.map Tab.slot
  refine ⟨?_, slots.nodup_iff.mpr steady.slots, ?_, ?_, ?_, steady.usedOnce⟩
  · exact fun t member => steady.inside t (perm.mem_iff.mp member)
  · exact fun t member => steady.numbered t (perm.mem_iff.mp member)
  · exact fun slot chosen => slots.mem_iff.mpr (steady.active slot chosen)
  · exact fun slot member => slots.mem_iff.mpr (steady.used slot member)

theorem Once.reorder (once : Once s) (steady : Steady s) (distinct : order.Nodup) : Once (s.reorder order) :=
  ((reorder_perm steady distinct).map Tab.shown).nodup_iff.mpr once

/-! ### A strip of pages -/

/-- What a strip's tab is: one that showed its page, or a new one with a number of its own. -/
structure Stripped (s : Session State) (next : Nat) (refs : List TabRef) (strip : List (Tab State) × Nat) : Prop where
  later : next ≤ strip.2
  shows : strip.1.map (fun t => t.current.map (·.ref.id)) = refs.map (some ·.id)
  inside : ∀ t ∈ strip.1, t.at_ < t.entries.length
  came : ∀ t ∈ strip.1, t ∈ s.tabs ∨ ∃ n, next ≤ n ∧ n < strip.2 ∧ t.slot = slotName n
  slots : (strip.1.map Tab.slot).Nodup

variable {refs : List TabRef}

theorem stripTabs_stripped (steady : Steady s) (distinct : (refs.map TabRef.id).Nodup) {next : Nat} (bound : s.next ≤ next) :
    Stripped s next refs (s.stripTabs next refs) := by
  induction refs generalizing next with
  | nil => exact ⟨Nat.le_refl _, rfl, nofun, nofun, List.nodup_nil⟩
  | cons ref refs ih =>
    obtain ⟨fresh, later⟩ := List.nodup_cons.mp distinct
    rw [Session.stripTabs]
    split
    · rename_i there found
      have rest := ih later bound
      have member := List.mem_of_find?_eq_some found
      have page : there.current.map (·.ref.id) = some ref.id := by simpa using List.find?_some found
      refine ⟨rest.later, ?_, ?_, ?_, ?_⟩
      · rw [List.map_cons, List.map_cons, page, rest.shows]
      · intro t inside
        rcases List.mem_cons.mp inside with rfl | other
        · exact steady.inside t member
        · exact rest.inside t other
      · intro t inside
        rcases List.mem_cons.mp inside with rfl | other
        · exact .inl member
        · exact rest.came t other
      · refine List.nodup_cons.mpr ⟨fun twice => ?_, rest.slots⟩
        obtain ⟨t, other, same⟩ := List.mem_map.mp twice
        rcases rest.came t other with old | ⟨n, low, -, named⟩
        · -- it would show another of the strip's pages
          have own : t = there := steady.same_tab old member same
          have listed : t.current.map (·.ref.id) ∈ refs.map (some ·.id) := rest.shows ▸ List.mem_map.mpr ⟨t, other, rfl⟩
          rw [own, page] at listed
          obtain ⟨ref', member', again⟩ := List.mem_map.mp listed
          exact fresh (List.mem_map.mpr ⟨ref', member', Option.some.inj again⟩)
        · obtain ⟨m, before, named'⟩ := steady.numbered there member
          have equal := slotName_injective (named.symm.trans (same.trans named'))
          omega
    · have rest := ih later (Nat.le_succ_of_le bound)
      have above := rest.later
      refine ⟨Nat.le_of_succ_le above, ?_, ?_, ?_, ?_⟩
      · rw [List.map_cons, List.map_cons, rest.shows]
        rfl
      · intro t inside
        rcases List.mem_cons.mp inside with rfl | other
        · exact Nat.zero_lt_one
        · exact rest.inside t other
      · intro t inside
        rcases List.mem_cons.mp inside with rfl | other
        · exact .inr ⟨next, Nat.le_refl _, above, rfl⟩
        · rcases rest.came t other with old | ⟨n, low, high, named⟩
          · exact .inl old
          · exact .inr ⟨n, Nat.le_of_succ_le low, high, named⟩
      · refine List.nodup_cons.mpr ⟨fun twice => ?_, rest.slots⟩
        obtain ⟨t, other, same⟩ := List.mem_map.mp twice
        rcases rest.came t other with old | ⟨n, low, -, named⟩
        · obtain ⟨m, before, named⟩ := steady.numbered t old
          have equal := slotName_injective (named.symm.trans same)
          omega
        · have equal := slotName_injective (named.symm.trans same)
          omega

theorem Steady.setStrip (steady : Steady s) (distinct : (refs.map TabRef.id).Nodup) : Steady (s.setStrip refs) := by
  have strip := stripTabs_stripped steady distinct (Nat.le_refl s.next)
  rw [Session.setStrip]
  split
  · exact steady
  refine ⟨strip.inside, strip.slots, ?_, ?_, ?_, steady.usedOnce.filter _⟩
  · intro t member
    rcases strip.came t member with old | ⟨n, -, high, named⟩
    · obtain ⟨n, before, named⟩ := steady.numbered t old
      exact ⟨n, Nat.lt_of_lt_of_le before strip.later, named⟩
    · exact ⟨n, high, named⟩
  · intro slot chosen
    simp only at chosen
    split at chosen
    · rename_i kept
      rw [Option.mem_def.mp chosen, Option.any_some] at kept
      exact any_slot_iff.mp kept
    · exact any_slot_iff.mp (List.mem_filter.mp (List.mem_of_mem_head? chosen)).2
  · exact fun slot member => any_slot_iff.mp (List.mem_filter.mp member).2

theorem Once.setStrip (once : Once s) (steady : Steady s) (distinct : (refs.map TabRef.id).Nodup)
    (apart : (refs.map fun ref => showingOf ref.id).Nodup) : Once (s.setStrip refs) := by
  have strip := stripTabs_stripped steady distinct (Nat.le_refl s.next)
  rw [Session.setStrip]
  split
  · exact once
  have shown : (s.stripTabs s.next refs).1.map Tab.shown = refs.map fun ref => some (showingOf ref.id) := by
    have pages := congrArg (List.map (Option.map showingOf)) strip.shows
    rw [List.map_map, List.map_map] at pages
    refine Eq.trans (List.map_congr_left fun t member => ?_) pages
    simp only [Tab.shown, Tab.showsAt, Tab.current, Function.comp_apply, Option.map_map]
    rfl
  rw [Once, shown]
  have mapped := apart.map (Option.some_injective String)
  rw [List.map_map] at mapped
  exact mapped

/-! ## Sequences -/

/-- A strip's refs are distinct, and an order's slots. -/
def Given : Op State → Prop
  | .setStrip refs => (refs.map TabRef.id).Nodup
  | .reorder order => order.Nodup
  | _ => True

/-- The page that comes back to a tab's front, and each of a new strip's, no other tab shows. -/
def Alone (s : Session State) : Op State → Prop
  | .back slot => ∀ t ∈ s.tabs, t.slot = slot → 0 < t.at_ → Hidden s slot (t.showsAt (t.at_ - 1))
  | .forward slot => ∀ t ∈ s.tabs, t.slot = slot → t.at_ + 1 < t.entries.length → Hidden s slot (t.showsAt (t.at_ + 1))
  | .stepOrigin slot index items =>
    ∀ t ∈ s.tabs, t.slot = slot → ∀ step ∈ (t.stepsTo index items).toList, Hidden s slot (some (showingOf step.1.id))
  | .dropCurrent slot => ∀ t ∈ s.tabs, t.slot = slot → 0 < t.at_ → Hidden s slot (t.showsAt (t.at_ - 1))
  | .setStrip refs => (refs.map fun ref => showingOf ref.id).Nodup
  | _ => True

theorem Steady.apply (steady : Steady s) {op : Op State} (given : Given op) : Steady (s.apply op) := by
  cases op with
  | open_ entry pinned => exact steady.open_ entry pinned
  | navigate slot entry replace => exact steady.navigate slot entry replace
  | back slot =>
    refine steady.withTab (fun t _ => ?_) fun t member _ => ?_
    · rw [Tab.back]
      split <;> rfl
    · have inside := steady.inside t member
      rw [Tab.back]
      split
      · exact Nat.lt_of_le_of_lt (Nat.sub_le _ _) inside
      · exact inside
  | forward slot =>
    refine steady.withTab (fun t _ => ?_) fun t member _ => ?_
    · rw [Tab.forward]
      split <;> rfl
    · rw [Tab.forward]
      split
      · assumption
      · exact steady.inside t member
  | stepOrigin slot index items =>
    refine steady.withTab (fun t _ => ?_) fun t member _ => ?_
    · rw [Tab.stepOrigin]
      split <;> rfl
    · rw [Tab.stepOrigin]
      split
      · exact replace_inside (steady.inside t member) _
      · exact steady.inside t member
  | close slot => exact steady.close slot
  | setStrip refs => exact steady.setStrip given
  | dropCurrent slot => exact steady.dropCurrent slot
  | reorder order => exact steady.reorder given
  | activate slot => exact steady.activate slot
  | setHistoryState slot state => exact steady.withTab (fun _ _ => rfl) fun t member _ => replace_inside (steady.inside t member) _

theorem Once.apply (once : Once s) (steady : Steady s) {op : Op State} (given : Given op) (alone : Alone s op) : Once (s.apply op) := by
  cases op with
  | open_ entry pinned => exact once.open_ steady entry pinned
  | navigate slot entry replace => exact once.navigate steady slot entry replace
  | back slot =>
    refine once.withTab steady fun t member here other there apart => ?_
    rw [back_shown]
    split
    · exact alone t member here ‹_› other there apart
    · exact fun same => apart (once.same_tab there member same ▸ here)
  | forward slot =>
    refine once.withTab steady fun t member here other there apart => ?_
    rw [forward_shown]
    split
    · exact alone t member here ‹_› other there apart
    · exact fun same => apart (once.same_tab there member same ▸ here)
  | stepOrigin slot index items =>
    refine once.withTab steady fun t member here other there apart => ?_
    rw [stepOrigin_shown (steady.inside t member)]
    cases steps : t.stepsTo index items with
    | none => exact fun same => apart (once.same_tab there member same ▸ here)
    | some step => exact alone t member here step (by simp [steps]) other there apart
  | close slot => exact once.close slot
  | setStrip refs => exact once.setStrip steady given alone
  | dropCurrent slot => exact once.dropCurrent steady alone
  | reorder order => exact once.reorder steady given
  | activate slot =>
    change Once (s.activate slot)
    rw [Once, activate_tabs]
    exact once
  | setHistoryState slot state =>
    refine once.withTab_same steady fun t member _ => ?_
    obtain ⟨entry, current, shown⟩ := current_some (steady.inside t member)
    rw [replace_shown, current, shown]
    rfl

/-- The session's functions as a machine. -/
def step (s : Session State) (op : Op State) : Option (Session State × Unit) := some (s.apply op, ())

theorem steady_run {ops : List (Op State)} (given : ∀ op ∈ ops, Given op) : Steady (Machine.run step Session.emptySession ops) := by
  have allowed : Machine.Admits step (fun _ op => Given op) Session.emptySession ops := Machine.admits_of_forall fun op member _ => given op member
  refine (Machine.run_allowed (fun _ _ => True) (fun _ => trivial) (fun _ _ => trivial) Steady ?_ steady_emptySession allowed).1
  intro s op next out steady given moves
  obtain ⟨rfl, -⟩ := Prod.mk.inj (Option.some.inj moves)
  exact ⟨steady.apply given, trivial⟩

theorem once_run {ops : List (Op State)} (given : ∀ op ∈ ops, Given op) (alone : Machine.Admits step Alone Session.emptySession ops) :
    Once (Machine.run step Session.emptySession ops) := by
  have allowed : Machine.Admits step (fun s op => Given op ∧ Alone s op) Session.emptySession ops :=
    Machine.admits_and (Machine.admits_of_forall fun op member _ => given op member) alone
  refine (Machine.run_allowed (fun _ _ => True) (fun _ => trivial) (fun _ _ => trivial) (fun s => Steady s ∧ Once s) ?_
    ⟨steady_emptySession, List.nodup_nil⟩ allowed).1.2
  intro s op next out kept allowed moves
  obtain ⟨rfl, -⟩ := Prod.mk.inj (Option.some.inj moves)
  exact ⟨⟨kept.1.apply allowed.1, kept.2.apply kept.1 allowed.1 allowed.2⟩, trivial⟩

/-- A page shows once per mode. -/
def OncePerMode (s : Session State) : Prop :=
  s.tabs.Pairwise fun t t' => ∀ entry ∈ t.current, ∀ entry' ∈ t'.current,
    ¬ (identityOf entry.ref.id = identityOf entry'.ref.id ∧ modeOf entry.ref.id = modeOf entry'.ref.id)

theorem Once.perMode (once : Once s) : OncePerMode s := by
  refine (List.pairwise_map.mp once).imp ?_
  intro t t' apart entry current entry' current' same
  apply apart
  change t.current.map (fun entry => showingOf entry.ref.id) = t'.current.map fun entry => showingOf entry.ref.id
  rw [Option.mem_def.mp current, Option.mem_def.mp current', Option.map_some, Option.map_some, showingOf, showingOf, same.1, same.2]

def page (id : String) : Entry Unit := ⟨⟨id, false⟩, none, none⟩

/-- A tab goes on to another page and back. -/
def thereAndBack : List (Op Unit) :=
  [.open_ (page "https://a.test/") false, .navigate "t1" (page "https://b.test/") false, .back "t1"]

/-- A tab goes on from a page, the page opens in a second tab, and the first goes back to it. -/
def backToOpen : List (Op Unit) :=
  [.open_ (page "https://a.test/") false, .navigate "t1" (page "https://b.test/") false, .open_ (page "https://a.test/") false, .back "t1"]

end Oxplow.Proofs.TabSessions
