import Mathlib.Data.List.Induction
import Mathlib.Data.List.Perm.Basic
import Oxplow.Proofs.UriEscapes

/-! The form of a URI. The two parsers cut a text at the same places; they differ only in how
they read a value. -/

namespace Oxplow.Proofs.UriGrammar
open Uri Library UriEscapes

/-! ## The parts of a text -/

/-- A text cut up: what is before `?` and `#`, and what is after each. -/
structure Written where
  path : List Char
  query : List Char
  view : List Char

def written (text : List Char) : Written where
  path := (cutOnce '?' (cutOnce '#' text).1).1
  query := (cutOnce '?' (cutOnce '#' text).1).2
  view := (cutOnce '#' text).2

theorem written_append {front : List Char} (query : '?' ∉ front) (view : '#' ∉ front) (rest : List Char) :
    written (front ++ rest) = ⟨front ++ (written rest).path, (written rest).query, (written rest).view⟩ := by
  simp only [written, cutOnce_append_left view, cutOnce_append_left query]

theorem path_isPrefix (text : List Char) : (written text).path <+: text :=
  (cutOnce_fst '?' _).2.trans (cutOnce_fst '#' text).2

/-! ## Names -/

variable {text : List Char}

theorem named_all {first next : Char → Bool} (fits : named first next text = true) : ∀ c ∈ text, (first c || next c) = true := by
  cases text with
  | nil => exact fun _ member => nomatch member
  | cons a rest =>
    obtain ⟨head, tail⟩ := Bool.and_eq_true_iff.mp fits
    intro c member
    rcases List.mem_cons.mp member with rfl | later
    · rw [head, Bool.true_or]
    · rw [List.all_eq_true.mp tail c later, Bool.or_true]

/-- A character that neither class has is in no such name. -/
theorem not_mem_named {first next : Char → Bool} (fits : named first next text = true) {c : Char}
    (other : (first c || next c) = false) : c ∉ text := by
  intro member
  rw [named_all fits c member] at other
  cases other

theorem named_ne_nil {first next : Char → Bool} (fits : named first next text = true) : text ≠ [] := by
  rintro rfl
  cases fits

theorem key_clean {key : List Char} (fits : isKey key = true) : '=' ∉ key ∧ '&' ∉ key ∧ '?' ∉ key ∧ '#' ∉ key :=
  ⟨not_mem_named fits (by decide), not_mem_named fits (by decide), not_mem_named fits (by decide), not_mem_named fits (by decide)⟩

theorem display_clean (resource : ResourceName) : '?' ∉ resource.display ∧ '#' ∉ resource.display := by
  have extension := resource.isExtension
  have name := resource.isName
  constructor
  · intro member
    rcases List.mem_append.mp member with inside | member
    · exact not_mem_named extension (by decide) inside
    rcases List.mem_cons.mp member with same | inside
    · exact absurd same (by decide)
    · exact not_mem_named name (by decide) inside
  · intro member
    rcases List.mem_append.mp member with inside | member
    · exact not_mem_named extension (by decide) inside
    rcases List.mem_cons.mp member with same | inside
    · exact absurd same (by decide)
    · exact not_mem_named name (by decide) inside

theorem fromStr_eq_ok {s : List Char} {resource : ResourceName} : ResourceName.fromStr s = .ok resource ↔ s = resource.display := by
  constructor
  · intro done
    rw [ResourceName.fromStr] at done
    cases cut : splitOnce '/' s with
    | none =>
      rw [cut] at done
      cases done
    | some parts =>
      rw [cut] at done
      change ResourceName.new parts.1 parts.2 = _ at done
      obtain ⟨whole, -⟩ := splitOnce_eq_some cut
      rw [ResourceName.new] at done
      split at done
      · obtain rfl := Except.ok.inj done
        rw [whole, ResourceName.display, String.toList_ofList, String.toList_ofList]
      · cases done
  · rintro rfl
    have unslashed : '/' ∉ resource.extension.toList := not_mem_named resource.isExtension (by decide)
    rw [ResourceName.fromStr, ResourceName.display, splitOnce_append unslashed]
    change ResourceName.new resource.extension.toList resource.name.toList = _
    rw [ResourceName.new, dif_pos ⟨resource.isExtension, resource.isName⟩]
    simp only [String.ofList_toList]

/-- Neither class of an extension's characters has a `/`. -/
theorem display_head (resource : ResourceName) (rest : List Char) : ¬ ['/', '/'].isPrefixOf (resource.display ++ rest) = true := by
  have extension := resource.isExtension
  cases first : resource.extension.toList with
  | nil => exact absurd first (named_ne_nil extension)
  | cons c text =>
    rw [first] at extension
    have letter := (Bool.and_eq_true_iff.mp extension).1
    intro slashed
    simp only [ResourceName.display, first, List.cons_append, List.isPrefixOf] at slashed
    have same : '/' = c := by
      have := (Bool.and_eq_true_iff.mp slashed).1
      simpa using this
    rw [← same] at letter
    exact absurd letter (by decide)

/-! ## The two parsers -/

theorem bind_iff {ε α β : Type} {x : Except ε α} {f : α → Except ε β} {b : β} : (x >>= f) = .ok b ↔ ∃ a, x = .ok a ∧ f a = .ok b := by
  refine ⟨bind_eq_ok, ?_⟩
  intro ⟨a, first, second⟩
  rw [first]
  exact second

theorem start_clean : '?' ∉ scheme.toList ++ [':'] ∧ '#' ∉ scheme.toList ++ [':'] := by decide

theorem written_start (rest : List Char) :
    written (scheme.toList ++ [':'] ++ rest) = ⟨scheme.toList ++ [':'] ++ (written rest).path, (written rest).query, (written rest).view⟩ :=
  written_append start_clean.1 start_clean.2 rest

/-- A text of which `path` starts with the scheme. -/
theorem eq_start_append {path : List Char} (whole : (written text).path = scheme.toList ++ ':' :: path) :
    ∃ more, text = scheme.toList ++ [':'] ++ (path ++ more) ∧ (written (path ++ more)).path = path := by
  obtain ⟨more, joined⟩ := path_isPrefix text
  have split : text = scheme.toList ++ [':'] ++ (path ++ more) := by
    rw [← joined, whole]
    simp only [List.append_assoc, List.cons_append, List.nil_append]
  refine ⟨more, split, ?_⟩
  rw [split, written_start] at whole
  have same : scheme.toList ++ [':'] ++ (written (path ++ more)).path = scheme.toList ++ [':'] ++ path := by
    rw [List.append_assoc _ _ path]
    exact whole
  exact List.append_cancel_left same

theorem parse_start {text : String} {u : OxplowUri} {rest : List Char} (whole : text.toList = scheme.toList ++ [':'] ++ rest)
    (bare : ¬ ['/', '/'].isPrefixOf rest = true) :
    OxplowUri.parse text = .ok u ↔
      (written rest).path = u.resource.display ∧ pairs (written rest).query = .ok u.params ∧ pairs (written rest).view = .ok u.view := by
  have nonempty : ¬ text.isEmpty = true := by
    intro empty
    rw [String.isEmpty_iff.mp empty] at whole
    cases whole
  have start : (!(scheme.toList ++ [':']).isPrefixOf text.toList) = false := by
    rw [whole, List.isPrefixOf_iff_prefix.mpr (List.prefix_append ..)]
    rfl
  simp only [OxplowUri.parse]
  rw [if_neg nonempty, start, whole, List.drop_left, if_neg (by decide), if_neg bare]
  simp only [bind_iff]
  constructor
  · intro ⟨resource, named, params, query, view, shown, done⟩
    obtain rfl := Except.ok.inj done
    exact ⟨fromStr_eq_ok.mp named, query, shown⟩
  · intro ⟨path, query, view⟩
    exact ⟨u.resource, fromStr_eq_ok.mpr path, u.params, query, u.view, view, rfl⟩

theorem parse_eq_ok {text : String} {u : OxplowUri} :
    OxplowUri.parse text = .ok u ↔
      (written text.toList).path = scheme.toList ++ ':' :: u.resource.display ∧
        pairs (written text.toList).query = .ok u.params ∧ pairs (written text.toList).view = .ok u.view := by
  constructor
  · intro done
    by_cases empty : text.isEmpty = true
    · simp only [OxplowUri.parse] at done
      rw [if_pos empty] at done
      cases done
    by_cases start : (scheme.toList ++ [':']).isPrefixOf text.toList = true
    swap
    · simp only [OxplowUri.parse] at done
      rw [if_neg empty, eq_false_of_ne_true start] at done
      cases done
    obtain ⟨rest, whole⟩ := List.isPrefixOf_iff_prefix.mp start
    by_cases slashed : ['/', '/'].isPrefixOf rest = true
    · simp only [OxplowUri.parse] at done
      rw [if_neg empty, start, ← whole, List.drop_left, if_neg (by decide), if_pos slashed] at done
      cases done
    obtain ⟨path, query, view⟩ := (parse_start whole.symm slashed).mp done
    rw [← whole, written_start]
    refine ⟨?_, query, view⟩
    simp only [path, List.append_assoc, List.singleton_append]
  · intro ⟨path, query, view⟩
    obtain ⟨more, whole, same⟩ := eq_start_append path
    refine (parse_start whole (display_head u.resource more)).mpr ⟨same, ?_, ?_⟩
    · rw [whole, written_start] at query
      exact query
    · rw [whole, written_start] at view
      exact view

theorem range_self (a c : Char) : (decide (a ≤ c) && decide (c ≤ a)) = (c == a) := by
  rw [Bool.eq_iff_iff, Bool.and_eq_true_iff, decide_eq_true_iff, decide_eq_true_iff, beq_iff_eq]
  constructor
  · intro ⟨low, high⟩
    exact Char.le_antisymm high low
  · rintro rfl
    exact ⟨Char.le_refl _, Char.le_refl _⟩

theorem pattern_eq_named {first rest : List (Char × Char)} {head tail : Char → Bool} (starts : Desktop.pattern.inRanges first = head)
    (goes : Desktop.pattern.inRanges rest = tail) : Desktop.pattern first rest = named head tail := by
  funext text
  cases text with
  | nil => rfl
  | cons c text => rw [Desktop.pattern, named, starts, goes]

theorem extensionPattern_eq : Desktop.extensionPattern = isExtension := by
  apply pattern_eq_named
  · funext c
    simp only [Desktop.pattern.inRanges, List.any_cons, List.any_nil, Bool.or_false]
    rfl
  · funext c
    simp only [Desktop.pattern.inRanges, List.any_cons, List.any_nil, Bool.or_false, range_self, ← Bool.or_assoc]
    rfl

theorem namePattern_eq : Desktop.namePattern = isName := by
  apply pattern_eq_named
  · funext c
    simp only [Desktop.pattern.inRanges, List.any_cons, List.any_nil, Bool.or_false]
    rfl
  · funext c
    simp only [Desktop.pattern.inRanges, List.any_cons, List.any_nil, Bool.or_false, range_self, ← Bool.or_assoc]
    rfl

theorem isAlpha_eq (c : Char) : c.isAlpha = (decide ('A' ≤ c) && decide (c ≤ 'Z') || decide ('a' ≤ c) && decide (c ≤ 'z')) := by
  have upper : c.isUpper = (decide ('A' ≤ c) && decide (c ≤ 'Z')) := Bool.decide_and ..
  change (c.isUpper || c.isLower) = _
  rw [upper]
  rfl

theorem keyPattern_eq : Desktop.keyPattern = isKey := by
  apply pattern_eq_named
  · funext c
    simp only [Desktop.pattern.inRanges, List.any_cons, List.any_nil, Bool.or_false, isAlpha_eq]
  · funext c
    simp only [Desktop.pattern.inRanges, List.any_cons, List.any_nil, Bool.or_false, range_self, ← Bool.or_assoc, Char.isAlphanum,
      isAlpha_eq]
    rfl

theorem cut_eq (c : Char) (text : List Char) : Desktop.cut c text = cutOnce c text := by
  rw [Desktop.cut, cutOnce, splitOnce_eq_findIdx?]
  cases text.findIdx? (· == c) <;> rfl

/-- What the desktop takes for the extension and the name. -/
def nameParts (path : List Char) : List Char × List Char := (splitOnce '/' path).getD ([], [])

theorem take_slash (path : List Char) : ((path.findIdx? (· == '/')).elim [] fun i => path.take i) = (nameParts path).1 := by
  rw [nameParts, splitOnce_eq_findIdx?]
  cases path.findIdx? (· == '/') <;> rfl

theorem drop_slash (path : List Char) : ((path.findIdx? (· == '/')).elim [] fun i => path.drop (i + 1)) = (nameParts path).2 := by
  rw [nameParts, splitOnce_eq_findIdx?]
  cases path.findIdx? (· == '/') <;> rfl

theorem nameParts_display (resource : ResourceName) : nameParts resource.display = (resource.extension.toList, resource.name.toList) := by
  have unslashed : '/' ∉ resource.extension.toList := not_mem_named resource.isExtension (by decide)
  rw [nameParts, ResourceName.display, splitOnce_append unslashed, Option.getD_some]

/-- Where both patterns fit, the path is a resource's. -/
theorem nameParts_fit {path : List Char} (extension : isExtension (nameParts path).1 = true) (name : isName (nameParts path).2 = true) :
    ∃ resource : ResourceName, path = resource.display := by
  refine ⟨⟨String.ofList (nameParts path).1, String.ofList (nameParts path).2, by simpa using extension, by simpa using name⟩, ?_⟩
  cases found : splitOnce '/' path with
  | none =>
    rw [nameParts, found] at extension
    cases extension
  | some parts =>
    simp only [ResourceName.display, nameParts, found, Option.getD_some, String.toList_ofList]
    exact (splitOnce_eq_some found).1

theorem desktop_start {text : String} {p : Desktop.ParsedUri} {rest : List Char}
    (whole : text.toList = scheme.toList ++ [':'] ++ rest) (bare : ¬ ['/', '/'].isPrefixOf rest = true) :
    Desktop.parse text = .ok p ↔
      (∃ resource : ResourceName, (written rest).path = resource.display ∧ p.extension = resource.extension ∧ p.name = resource.name) ∧
        Desktop.pairs (written rest).query = .ok p.params ∧ Desktop.pairs (written rest).view = .ok p.view := by
  have nonempty : ¬ text.toList = [] := by
    intro empty
    rw [empty] at whole
    cases whole
  have start : "oxplow:".toList.isPrefixOf text.toList = true := by
    rw [whole]
    exact List.isPrefixOf_iff_prefix.mpr (List.prefix_append ..)
  have drop : text.toList.drop "oxplow:".toList.length = rest := by
    rw [whole]
    exact List.drop_left
  have unslashed : ¬ "//".toList.isPrefixOf rest = true := bare
  simp only [Desktop.parse]
  rw [if_neg nonempty, if_neg (by rw [start]; decide), drop, if_neg unslashed]
  simp only [cut_eq, extensionPattern_eq, namePattern_eq, take_slash, drop_slash]
  change (if (!isExtension (nameParts (written rest).path).1 || !isName (nameParts (written rest).path).2) = true then _ else _) = _ ↔ _
  constructor
  · intro done
    split at done
    · cases done
    rename_i fits
    simp only [bind_iff] at done
    obtain ⟨params, query, view, shown, done⟩ := done
    obtain rfl := Except.ok.inj done
    have both : isExtension (nameParts (written rest).path).1 = true ∧ isName (nameParts (written rest).path).2 = true := by
      simpa using fits
    obtain ⟨resource, path⟩ := nameParts_fit both.1 both.2
    have parts := nameParts_display resource
    rw [← path] at parts
    refine ⟨⟨resource, path, ?_, ?_⟩, query, shown⟩
    · exact (congrArg (String.ofList ·.1) parts).trans String.ofList_toList
    · exact (congrArg (String.ofList ·.2) parts).trans String.ofList_toList
  · intro ⟨⟨resource, path, extension, name⟩, query, view⟩
    have parts := nameParts_display resource
    rw [path, parts, if_neg (by rw [resource.isExtension, resource.isName]; decide)]
    simp only [bind_iff]
    refine ⟨p.params, query, p.view, view, ?_⟩
    change Except.ok (Desktop.ParsedUri.mk (String.ofList (nameParts (written rest).path).1)
      (String.ofList (nameParts (written rest).path).2) p.params p.view) = _
    rw [path, parts, String.ofList_toList, String.ofList_toList, ← extension, ← name]

theorem desktop_eq_ok {text : String} {p : Desktop.ParsedUri} :
    Desktop.parse text = .ok p ↔
      (∃ resource : ResourceName, (written text.toList).path = scheme.toList ++ ':' :: resource.display ∧
          p.extension = resource.extension ∧ p.name = resource.name) ∧
        Desktop.pairs (written text.toList).query = .ok p.params ∧ Desktop.pairs (written text.toList).view = .ok p.view := by
  constructor
  · intro done
    by_cases empty : text.toList = []
    · simp only [Desktop.parse] at done
      rw [if_pos empty] at done
      cases done
    by_cases start : (scheme.toList ++ [':']).isPrefixOf text.toList = true
    swap
    · have other : "oxplow:".toList.isPrefixOf text.toList = false := eq_false_of_ne_true start
      simp only [Desktop.parse] at done
      rw [if_neg empty, other] at done
      cases done
    obtain ⟨rest, whole⟩ := List.isPrefixOf_iff_prefix.mp start
    by_cases slashed : ['/', '/'].isPrefixOf rest = true
    · have scheme : "oxplow:".toList.isPrefixOf text.toList = true := start
      have drop : text.toList.drop "oxplow:".toList.length = rest := by
        rw [← whole]
        exact List.drop_left
      have authority : "//".toList.isPrefixOf rest = true := slashed
      simp only [Desktop.parse] at done
      rw [if_neg empty, if_neg (by rw [scheme]; decide), drop, if_pos authority] at done
      cases done
    obtain ⟨⟨resource, path, extension, name⟩, query, view⟩ := (desktop_start whole.symm slashed).mp done
    rw [← whole, written_start]
    refine ⟨⟨resource, ?_, extension, name⟩, query, view⟩
    simp only [path, List.append_assoc, List.singleton_append]
  · intro ⟨⟨resource, path, extension, name⟩, query, view⟩
    obtain ⟨more, whole, same⟩ := eq_start_append path
    refine (desktop_start whole (display_head resource more)).mpr ⟨⟨resource, same, extension, name⟩, ?_, ?_⟩
    · rw [whole, written_start] at query
      exact query
    · rw [whole, written_start] at view
      exact view

/-! ## The params of a text -/

/-- One param's text: its key, and a value read as `reads` has it. -/
def Spelled (reads : List Char → String → Prop) (text : List Char) (entry : String × String) : Prop :=
  isKey entry.1.toList = true ∧ ∃ value, text = entry.1.toList ++ '=' :: value ∧ reads value entry.2

/-- What a text of params lists, in order; none in the empty text. -/
def Lists (reads : List Char → String → Prop) (text : List Char) (entries : List (String × String)) : Prop :=
  (text = [] ∧ entries = []) ∨ (text ≠ [] ∧ List.Forall₂ (Spelled reads) (text.splitOn '&') entries)

/-- What a text of params lists, each key once. -/
def ListsOnce (reads : List Char → String → Prop) (text : List Char) (entries : List (String × String)) : Prop :=
  Lists reads text entries ∧ (entries.map (·.1)).Nodup

/-- How the daemon reads a value. -/
def Daemon (value : List Char) (read : String) : Prop := decode value = .ok read

/-- How the window reads a value. -/
def Window (value : List Char) (read : String) : Prop := Desktop.decode value = .ok read

section Folds
variable {S ε : Type} {step : S → List Char → Except ε S} {held : S → List (String × String) → Prop} {reads : List Char → String → Prop}

/-- What each param's text adds to what is held. -/
structure Collects (step : S → List Char → Except ε S) (held : S → List (String × String) → Prop)
    (reads : List Char → String → Prop) : Prop where
  same : ∀ {s s' entries}, held s entries → held s' entries → s = s'
  adds : ∀ {s s' entries text}, held s entries →
    (step s text = .ok s' ↔ ∃ entry, Spelled reads text entry ∧ entry.1 ∉ entries.map (·.1) ∧ held s' (entries ++ [entry]))
  room : ∀ {s entries text entry}, held s entries → Spelled reads text entry → entry.1 ∉ entries.map (·.1) →
    ∃ s', held s' (entries ++ [entry])

theorem Collects.foldlM_eq_ok (collects : Collects step held reads) {s s' : S} {before : List (String × String)} {texts : List (List Char)} (holds : held s before)
    (distinct : (before.map (·.1)).Nodup) :
    texts.foldlM step s = .ok s' ↔
      ∃ entries, List.Forall₂ (Spelled reads) texts entries ∧ ((before ++ entries).map (·.1)).Nodup ∧ held s' (before ++ entries) := by
  induction texts generalizing s before with
  | nil =>
    constructor
    · intro done
      obtain rfl : s = s' := Except.ok.inj done
      refine ⟨[], .nil, ?_, ?_⟩
      · rw [List.append_nil]
        exact distinct
      · rw [List.append_nil]
        exact holds
    · intro ⟨entries, spelled, _, kept⟩
      cases spelled
      rw [List.append_nil] at kept
      exact congrArg Except.ok (collects.same holds kept)
  | cons text texts ih =>
    have extend : ∀ entry : String × String, entry.1 ∉ before.map (·.1) → ((before ++ [entry]).map (·.1)).Nodup := by
      intro entry fresh
      rw [List.map_append]
      refine List.nodup_append.mpr ⟨distinct, List.nodup_singleton _, ?_⟩
      intro a member b last equal
      rw [equal, List.mem_singleton.mp last] at member
      exact fresh member
    rw [List.foldlM_cons, bind_iff]
    constructor
    · intro ⟨mid, first, rest⟩
      obtain ⟨entry, spelled, fresh, heldMid⟩ := (collects.adds holds).mp first
      obtain ⟨entries, later, nodup, kept⟩ := (ih heldMid (extend entry fresh)).mp rest
      rw [List.append_assoc, List.singleton_append] at nodup kept
      exact ⟨entry :: entries, .cons spelled later, nodup, kept⟩
    · intro ⟨entries, spelled, nodup, kept⟩
      cases spelled with
      | @cons _ entry _ later first rest =>
        have fresh : entry.1 ∉ before.map (·.1) := by
          intro member
          rw [List.map_append, List.map_cons] at nodup
          exact (List.nodup_append.mp nodup).2.2 entry.1 member entry.1 (List.mem_cons_self ..) rfl
        obtain ⟨mid, heldMid⟩ := collects.room holds first fresh
        refine ⟨mid, (collects.adds holds).mpr ⟨entry, first, fresh, heldMid⟩, (ih heldMid (extend entry fresh)).mpr ⟨later, rest, ?_, ?_⟩⟩
        · rw [List.append_assoc, List.singleton_append]
          exact nodup
        · rw [List.append_assoc, List.singleton_append]
          exact kept

theorem Collects.listed_eq_ok (collects : Collects step held reads) {empty s' : S} (none : held empty []) :
    (if text = [] then Except.ok empty else (text.splitOn '&').foldlM step empty) = .ok s' ↔
      ∃ entries, ListsOnce reads text entries ∧ held s' entries := by
  by_cases blank : text = []
  · rw [if_pos blank]
    constructor
    · intro done
      obtain rfl : empty = s' := Except.ok.inj done
      exact ⟨[], ⟨.inl ⟨blank, rfl⟩, .nil⟩, none⟩
    · intro ⟨entries, ⟨listed, _⟩, kept⟩
      rcases listed with ⟨-, rfl⟩ | ⟨written, -⟩
      · exact congrArg Except.ok (collects.same none kept)
      · exact absurd blank written
  · rw [if_neg blank, collects.foldlM_eq_ok none .nil]
    simp only [List.nil_append]
    constructor
    · intro ⟨entries, spelled, distinct, kept⟩
      exact ⟨entries, ⟨.inr ⟨blank, spelled⟩, distinct⟩, kept⟩
    · intro ⟨entries, ⟨listed, distinct⟩, kept⟩
      rcases listed with ⟨written, -⟩ | ⟨-, spelled⟩
      · exact absurd written blank
      · exact ⟨entries, spelled, distinct, kept⟩

/-- What a text lists once can be held. -/
theorem Collects.exists_held (collects : Collects step held reads) {empty : S} (none : held empty [])
    {entries : List (String × String)} (once : ListsOnce reads text entries) : ∃ s, held s entries := by
  obtain ⟨listed, distinct⟩ := once
  have each : ∀ entry ∈ entries, ∃ text, Spelled reads text entry := by
    rcases listed with ⟨-, rfl⟩ | ⟨-, spelled⟩
    · exact fun _ member => nomatch member
    · intro entry member
      obtain ⟨i, bound, rfl⟩ := List.mem_iff_getElem.mp member
      exact ⟨_, (List.forall₂_iff_get.mp spelled).2 i ((List.forall₂_iff_get.mp spelled).1 ▸ bound) bound⟩
  clear listed
  induction entries using List.reverseRecOn with
  | nil => exact ⟨empty, none⟩
  | append_singleton entries entry ih =>
    rw [List.map_append] at distinct
    obtain ⟨before, -, apart⟩ := List.nodup_append.mp distinct
    obtain ⟨s, holds⟩ := ih before fun other member => each other (List.mem_append_left _ member)
    obtain ⟨text, spelled⟩ := each entry (List.mem_append_right _ (List.mem_singleton_self entry))
    refine collects.room holds spelled ?_
    intro inside
    exact apart entry.1 inside entry.1 (List.mem_singleton_self _) rfl

end Folds

/-! ### The daemon's params -/

theorem toList_nodup (m : Std.ExtTreeMap String String) : (m.toList.map (·.1)).Nodup := by
  have distinct := Std.ExtTreeMap.distinct_keys_toList (t := m)
  refine List.pairwise_map.mpr (distinct.imp ?_)
  intro a b differ same
  rw [same] at differ
  exact differ Std.ReflCmp.compare_self

variable {key : String} {m : Std.ExtTreeMap String String}

theorem mem_toList {value : String} : (key, value) ∈ m.toList ↔ m[key]? = some value :=
  Std.ExtTreeMap.mem_toList_iff_getElem?_eq_some

theorem mem_keys : key ∈ m.toList.map (·.1) ↔ key ∈ m := by
  rw [Std.ExtTreeMap.map_fst_toList_eq_keys, Std.ExtTreeMap.mem_keys]

theorem toList_insert (fresh : key ∉ m) (value : String) : (m.insert key value).toList.Perm (m.toList ++ [(key, value)]) := by
  have before : (m.toList ++ [(key, value)]).Nodup := by
    refine List.nodup_append.mpr ⟨(toList_nodup m).of_map, List.nodup_singleton _, ?_⟩
    intro a member b last same
    rw [same, List.mem_singleton.mp last] at member
    exact fresh (mem_keys.mp (List.mem_map_of_mem (f := (·.1)) member))
  apply (List.perm_ext_iff_of_nodup (toList_nodup _).of_map before).mpr
  intro ⟨k, v⟩
  rw [mem_toList, Std.ExtTreeMap.getElem?_insert, List.mem_append, mem_toList, List.mem_singleton, Prod.mk.injEq]
  by_cases same : key = k
  · subst same
    have absent : m[key]? = none := Std.ExtTreeMap.getElem?_eq_none fresh
    rw [if_pos Std.ReflCmp.compare_self, absent]
    simp [eq_comm]
  · have differ : ¬ compare key k = .eq := fun equal => same (Std.LawfulEqCmp.eq_of_compare equal)
    rw [if_neg differ]
    simp [Ne.symm same]

variable {m : Params}

theorem params_ext {m' : Params} (same : m.entries.toList.Perm m'.entries.toList) : m = m' := by
  cases m
  cases m'
  simp only [Params.mk.injEq]
  exact Std.ExtTreeMap.ext_toList same

/-- The params hold the entries, in some order. -/
def Held (m : Params) (entries : List (String × String)) : Prop := m.entries.toList.Perm entries

variable {entries : List (String × String)}

theorem Held.unique {m' : Params} (holds : Held m entries) (holds' : Held m' entries) : m = m' :=
  params_ext (holds.trans holds'.symm)

theorem Held.mem_iff (holds : Held m entries) : key ∈ entries.map (·.1) ↔ key ∈ m.entries := by
  rw [← mem_keys]
  exact (holds.map _).mem_iff.symm

theorem Held.insert (holds : Held m entries) (value : String) (valid : isKey key.toList = true) (fresh : key ∉ entries.map (·.1)) :
    Held (m.insert key value valid) (entries ++ [(key, value)]) :=
  (toList_insert (fun inside => fresh (holds.mem_iff.mpr inside)) value).trans (holds.append_right _)

/-- A text with `=` after a key is one param's. -/
theorem splitOnce_key {key : List Char} (valid : isKey key = true) (value : List Char) :
    splitOnce '=' (key ++ '=' :: value) = some (key, value) := splitOnce_append (key_clean valid).1 value

theorem pair_eq_ok {out : Params} (holds : Held out entries) :
    pair out text = .ok m ↔ ∃ entry, Spelled Daemon text entry ∧ entry.1 ∉ entries.map (·.1) ∧ Held m (entries ++ [entry]) := by
  constructor
  · intro done
    rw [pair] at done
    cases cut : splitOnce '=' text with
    | none =>
      rw [cut] at done
      cases done
    | some parts =>
      obtain ⟨whole, -⟩ := splitOnce_eq_some cut
      rw [cut] at done
      simp only at done
      split at done
      swap
      · cases done
      rename_i valid
      obtain ⟨value, read, done⟩ := bind_eq_ok done
      split at done
      · cases done
      rename_i fresh
      obtain rfl := Except.ok.inj done
      have absent : String.ofList parts.1 ∉ entries.map (·.1) := by
        rw [holds.mem_iff, ← Std.ExtTreeMap.contains_iff_mem]
        exact fresh
      refine ⟨(String.ofList parts.1, value), ⟨by simpa using valid, parts.2, by simpa using whole, read⟩, absent, ?_⟩
      exact holds.insert value _ absent
  · intro ⟨entry, ⟨valid, value, whole, read⟩, fresh, kept⟩
    have read : decode value = .ok entry.2 := read
    have absent : ¬ out.entries.contains entry.1 = true := by
      rw [Std.ExtTreeMap.contains_iff_mem, ← holds.mem_iff]
      exact fresh
    rw [pair, whole, splitOnce_key valid]
    simp only [String.ofList_toList]
    rw [dif_pos valid, read]
    simp only [Except.bind]
    rw [if_neg absent]
    exact congrArg Except.ok ((holds.insert entry.2 _ fresh).unique kept)

theorem pair_collects : Collects pair Held Daemon where
  same := Held.unique
  adds := pair_eq_ok
  room holds spelled fresh := ⟨_, holds.insert _ spelled.1 fresh⟩

theorem held_empty : Held .empty [] := List.Perm.refl _

theorem pairs_eq_ok : pairs text = .ok m ↔ ∃ entries, ListsOnce Daemon text entries ∧ Held m entries := by
  rw [pairs]
  simp only [List.isEmpty_iff]
  exact pair_collects.listed_eq_ok held_empty

/-- A text of a resource and listed params is the daemon's. -/
theorem parse_listed {text : String} {resource : ResourceName} {params view : List (String × String)}
    (path : (written text.toList).path = scheme.toList ++ ':' :: resource.display)
    (query : ListsOnce Daemon (written text.toList).query params) (shown : ListsOnce Daemon (written text.toList).view view) :
    ∃ u, OxplowUri.parse text = .ok u ∧ u.resource = resource ∧ Held u.params params ∧ Held u.view view := by
  obtain ⟨m, holds⟩ := pair_collects.exists_held held_empty query
  obtain ⟨v, holdsView⟩ := pair_collects.exists_held held_empty shown
  have params := pairs_eq_ok.mpr ⟨_, query, holds⟩
  have view := pairs_eq_ok.mpr ⟨_, shown, holdsView⟩
  exact ⟨⟨resource, m, v⟩, parse_eq_ok.mpr ⟨path, params, view⟩, rfl, holds, holdsView⟩

/-! ### The window's params -/

/-- The record has the entries, in their order. -/
def Has (record : Desktop.Record) (entries : List (String × String)) : Prop := record.entries = entries

theorem Has.unique {record record' : Desktop.Record} (has : Has record entries) (has' : Has record' entries) :
    record = record' := by
  cases record
  cases record'
  simp only [Desktop.Record.mk.injEq]
  exact has.trans has'.symm

theorem hasOwnProperty_iff {record : Desktop.Record} (has : Has record entries) :
    record.hasOwnProperty key = true ↔ key ∈ entries.map (·.1) := by
  rw [Desktop.Record.hasOwnProperty, has, List.contains_iff_mem]

theorem Has.set {record : Desktop.Record} (has : Has record entries) (value : String)
    (fits : Desktop.keyPattern key.toList = true) (fresh : ¬ record.hasOwnProperty key = true) :
    Has (record.set key value fits fresh) (entries ++ [(key, value)]) :=
  congrArg (· ++ [(key, value)]) has

theorem desktopPair_eq_ok {out m : Desktop.Record} (has : Has out entries) :
    Desktop.pair out text = .ok m ↔
      ∃ entry, Spelled Window text entry ∧ entry.1 ∉ entries.map (·.1) ∧ Has m (entries ++ [entry]) := by
  constructor
  · intro done
    simp only [Desktop.pair, keyPattern_eq] at done
    split at done
    swap
    · cases done
    rename_i fits
    have cut := splitOnce_eq_findIdx? '=' text
    cases found : text.findIdx? (· == '=') with
    | none =>
      rw [found] at fits
      cases fits
    | some i =>
      rw [found] at cut
      simp only [found, Option.elim_some] at fits done
      obtain ⟨whole, -⟩ := splitOnce_eq_some cut
      obtain ⟨value, read, done⟩ := bind_eq_ok done
      split at done
      swap
      · cases done
      rename_i fresh
      obtain rfl := Except.ok.inj done
      have absent : String.ofList (text.take i) ∉ entries.map (·.1) := fun inside => fresh ((hasOwnProperty_iff has).mpr inside)
      refine ⟨(String.ofList (text.take i), value), ⟨by simpa using fits, text.drop (i + 1), by simpa using whole, read⟩, absent, ?_⟩
      exact has.set value _ fresh
  · intro ⟨entry, ⟨valid, value, whole, read⟩, fresh, kept⟩
    have read : Desktop.decode value = .ok entry.2 := read
    have absent : ¬ out.hasOwnProperty entry.1 = true := mt (hasOwnProperty_iff has).mp fresh
    have found := findIdx?_append (key_clean valid).1 value
    have after : (entry.1.toList ++ '=' :: value).drop (entry.1.toList.length + 1) = value := by
      rw [← List.drop_drop, List.drop_left, List.drop_one, List.tail_cons]
    simp only [Desktop.pair, keyPattern_eq, whole, found, Option.elim_some, List.take_left, after, String.ofList_toList]
    rw [dif_pos valid, read]
    simp only [Except.bind]
    rw [dif_pos absent]
    exact congrArg Except.ok ((has.set entry.2 _ absent).unique kept)

theorem desktopPair_collects : Collects Desktop.pair Has Window where
  same := Has.unique
  adds := desktopPair_eq_ok
  room has spelled fresh := ⟨_, has.set _ (keyPattern_eq ▸ spelled.1) (mt (hasOwnProperty_iff has).mp fresh)⟩

theorem has_empty : Has .empty [] := rfl

theorem desktopPairs_eq_ok {m : Desktop.Record} :
    Desktop.pairs text = .ok m ↔ ∃ entries, ListsOnce Window text entries ∧ Has m entries := by
  have none : Has .empty [] := rfl
  exact Collects.listed_eq_ok desktopPair_collects none

end Oxplow.Proofs.UriGrammar

/-! A URI's text is read back as the URI, in whatever order its keys are written. -/

namespace Oxplow.Proofs.UriRoundTrip
open Uri Library UriEscapes UriGrammar

/-! ## What is written -/

/-- The params' texts, after the lead. -/
def listText (entries : List (String × String)) : List Char := ['&'].intercalate (entries.map writePair)

theorem flatMap_zipIdx (lead : Char) (entries : List (String × String)) (n : Nat) :
    ((entries.zipIdx (n + 1)).flatMap fun (entry, i) => (if i = 0 then lead else '&') :: writePair entry) =
      entries.flatMap fun entry => '&' :: writePair entry := by
  induction entries generalizing n with
  | nil => rfl
  | cons entry entries ih =>
    rw [List.zipIdx_cons, List.flatMap_cons, List.flatMap_cons, ih]
    simp

theorem listText_cons (entry : String × String) (entries : List (String × String)) :
    listText (entry :: entries) = writePair entry ++ entries.flatMap fun entry => '&' :: writePair entry := by
  induction entries generalizing entry with
  | nil => simp [listText]
  | cons next entries ih =>
    rw [List.flatMap_cons, List.cons_append, ← ih next]
    simp [listText, List.intercalate_cons_cons]

theorem writePairs_eq (lead : Char) (m : Params) :
    writePairs lead m = if m.entries.toList = [] then [] else lead :: listText m.entries.toList := by
  rw [writePairs]
  cases m.entries.toList with
  | nil => rfl
  | cons entry entries =>
    rw [List.zipIdx_cons, List.flatMap_cons, flatMap_zipIdx, if_neg (List.cons_ne_nil entry entries), listText_cons]
    rfl

theorem writePair_clean {entry : String × String} (valid : isKey entry.1.toList = true) : '#' ∉ writePair entry ∧ '&' ∉ writePair entry := by
  have key := key_clean valid
  have value := encode_clean entry.2
  constructor
  · simp [writePair, key.2.2.2, value.1]
  · simp [writePair, key.2.1, value.2]

theorem listText_clean {entries : List (String × String)} (valid : ∀ entry ∈ entries, isKey entry.1.toList = true) :
    '#' ∉ listText entries := by
  cases entries with
  | nil => exact List.not_mem_nil
  | cons entry entries =>
    rw [listText_cons]
    intro member
    rcases List.mem_append.mp member with inside | inside
    · exact (writePair_clean (valid entry (List.mem_cons_self ..))).1 inside
    · obtain ⟨other, later, inside⟩ := List.mem_flatMap.mp inside
      rcases List.mem_cons.mp inside with same | inside
      · exact absurd same (by decide)
      · exact (writePair_clean (valid other (List.mem_cons_of_mem _ later))).1 inside

theorem keyed {m : Params} : ∀ entry ∈ m.entries.toList, isKey entry.1.toList = true := by
  intro entry member
  exact m.keyed entry.1 (mem_keys.mp (List.mem_map_of_mem member))

/-- What is written of params lists them. -/
theorem lists_listText {entries : List (String × String)} (valid : ∀ entry ∈ entries, isKey entry.1.toList = true) :
    Lists Daemon (listText entries) entries := by
  cases entries with
  | nil => exact .inl ⟨rfl, rfl⟩
  | cons entry rest =>
    refine .inr ⟨?_, ?_⟩
    · rw [listText_cons, writePair]
      simp
    · have clean : ∀ text ∈ (entry :: rest).map writePair, '&' ∉ text := by
        intro text member
        obtain ⟨other, inside, rfl⟩ := List.mem_map.mp member
        exact (writePair_clean (valid other inside)).2
      rw [listText, List.splitOn_intercalate '&' clean (by simp)]
      apply List.forall₂_map_left_iff.mpr
      apply List.forall₂_same.mpr
      intro other inside
      exact ⟨valid other inside, encode other.2, rfl, decode_encode other.2⟩

theorem pairs_listText (m : Params) : pairs (listText m.entries.toList) = .ok m :=
  pairs_eq_ok.mpr ⟨m.entries.toList, ⟨lists_listText keyed, toList_nodup m.entries⟩, List.Perm.refl _⟩

theorem cutOnce_writePairs {lead : Char} {front : List Char} (absent : lead ∉ front) (m : Params) :
    cutOnce lead (front ++ writePairs lead m) = (front, listText m.entries.toList) := by
  rw [writePairs_eq]
  split
  · rename_i none
    rw [none, List.append_nil, cutOnce_of_not_mem absent]
    rfl
  · exact cutOnce_append absent _

theorem toString_toList (u : OxplowUri) :
    u.toString.toList = scheme.toList ++ [':'] ++ (u.resource.display ++ writePairs '?' u.params ++ writePairs '#' u.view) := by
  simp [OxplowUri.toString, OxplowUri.identity]

theorem written_toString (u : OxplowUri) :
    written u.toString.toList = ⟨scheme.toList ++ ':' :: u.resource.display, listText u.params.entries.toList, listText u.view.entries.toList⟩ := by
  obtain ⟨query, view⟩ := display_clean u.resource
  have before : '#' ∉ u.resource.display ++ writePairs '?' u.params := by
    intro member
    rcases List.mem_append.mp member with inside | inside
    · exact view inside
    · rw [writePairs_eq] at inside
      split at inside
      · exact List.not_mem_nil inside
      · rcases List.mem_cons.mp inside with same | inside
        · exact absurd same (by decide)
        · exact listText_clean keyed inside
  rw [toString_toList, written_start]
  simp only [written, cutOnce_writePairs before, cutOnce_writePairs query]
  rw [List.append_assoc, List.singleton_append]

theorem parse_toString (u : OxplowUri) : OxplowUri.parse u.toString = .ok u := by
  apply parse_eq_ok.mpr
  rw [written_toString]
  exact ⟨rfl, pairs_listText u.params, pairs_listText u.view⟩

/-! ## The order of the keys -/

/-- The same text but for the order of its params, and of its view's. -/
def Reordered (s s' : List Char) : Prop :=
  (written s').path = (written s).path ∧
    ((written s).query.splitOn '&').Perm ((written s').query.splitOn '&') ∧
    ((written s).view.splitOn '&').Perm ((written s').view.splitOn '&')

theorem eq_nil_of_perm {text text' : List Char} (pieces : (text.splitOn '&').Perm (text'.splitOn '&')) (blank : text = []) : text' = [] := by
  rw [blank, List.splitOn_nil, List.singleton_perm] at pieces
  have joined : ['&'].intercalate (text'.splitOn '&') = text' := List.intercalate_splitOn '&'
  rw [← joined, ← pieces]
  rfl

theorem pairs_perm {text text' : List Char} {m : Params} (pieces : (text.splitOn '&').Perm (text'.splitOn '&'))
    (read : pairs text = .ok m) : pairs text' = .ok m := by
  obtain ⟨entries, ⟨listed, distinct⟩, held⟩ := pairs_eq_ok.mp read
  rcases listed with ⟨blank, rfl⟩ | ⟨some, spelled⟩
  · exact pairs_eq_ok.mpr ⟨[], ⟨.inl ⟨eq_nil_of_perm pieces blank, rfl⟩, distinct⟩, held⟩
  · obtain ⟨entries', spelled', same⟩ := List.perm_comp_forall₂ pieces.symm spelled
    have some' : text' ≠ [] := fun blank => some (eq_nil_of_perm pieces.symm blank)
    exact pairs_eq_ok.mpr ⟨entries', ⟨.inr ⟨some', spelled'⟩, (same.map _).nodup_iff.mpr distinct⟩, held.trans same.symm⟩

theorem parse_reordered {s s' : String} {u : OxplowUri} (order : Reordered s.toList s'.toList) (read : OxplowUri.parse s = .ok u) :
    OxplowUri.parse s' = .ok u := by
  obtain ⟨path, query, view⟩ := parse_eq_ok.mp read
  exact parse_eq_ok.mpr ⟨order.1.trans path, pairs_perm order.2.1 query, pairs_perm order.2.2 view⟩

/-! ## Identity -/

theorem identity_toString (u : OxplowUri) : (u.withView .empty).toString = u.identity := by
  have none : writePairs '#' .empty = [] := rfl
  rw [OxplowUri.toString, OxplowUri.withView, none]
  exact String.append_empty

theorem identity_eq_iff {u v : OxplowUri} : u.identity = v.identity ↔ u.resource = v.resource ∧ u.params = v.params := by
  constructor
  · intro same
    rw [← identity_toString, ← identity_toString] at same
    have read := parse_toString (u.withView .empty)
    rw [same, parse_toString] at read
    have whole := Except.ok.inj read
    exact ⟨(congrArg OxplowUri.resource whole).symm, (congrArg OxplowUri.params whole).symm⟩
  · intro ⟨resource, params⟩
    rw [OxplowUri.identity, OxplowUri.identity, resource, params]

/-- A URI is read back from its text; a text that is read has one canonical text, whatever the
order of its keys; and an identity is the resource and its params. -/
theorem uri_round_trips :
    (∀ u : OxplowUri, OxplowUri.parse u.toString = .ok u) ∧
      (∀ (s : String) (u : OxplowUri), OxplowUri.parse s = .ok u →
        (∃ v, OxplowUri.parse u.toString = .ok v ∧ v = u ∧ v.toString = u.toString) ∧
          ∀ s' : String, Reordered s.toList s'.toList → ∃ v, OxplowUri.parse s' = .ok v ∧ v.toString = u.toString) ∧
      ∀ u v : OxplowUri, u.identity = v.identity ↔ u.resource = v.resource ∧ u.params = v.params := by
  refine ⟨parse_toString, ?_, fun u v => identity_eq_iff⟩
  intro s u read
  refine ⟨⟨u, parse_toString u, rfl, rfl⟩, ?_⟩
  intro s' order
  exact ⟨u, parse_reordered order read, rfl⟩

theorem uri_round_trips_reordered :
    Reordered "oxplow:a/b?x=1&y=%26".toList "oxplow:a/b?y=%26&x=1".toList ∧
      ∃ u v, OxplowUri.parse "oxplow:a/b?x=1&y=%26" = .ok u ∧ OxplowUri.parse "oxplow:a/b?y=%26&x=1" = .ok v ∧ v.toString = u.toString := by
  have order : Reordered "oxplow:a/b?x=1&y=%26".toList "oxplow:a/b?y=%26&x=1".toList := ⟨by decide, by decide, by decide⟩
  have path : (written "oxplow:a/b?x=1&y=%26".toList).path = scheme.toList ++ ':' :: ResourceName.display ⟨"a", "b", by decide, by decide⟩ := by
    decide
  have pieces : (written "oxplow:a/b?x=1&y=%26".toList).query.splitOn '&' = ["x=1".toList, "y=%26".toList] := by decide
  have one : decode "1".toList = .ok "1" := by rfl
  have ampersand : decode "%26".toList = .ok "&" := by rfl
  have listed : ListsOnce Daemon (written "oxplow:a/b?x=1&y=%26".toList).query [("x", "1"), ("y", "&")] := by
    refine ⟨.inr ⟨by decide, ?_⟩, by decide⟩
    rw [pieces]
    exact .cons ⟨by decide, _, by decide, one⟩ (.cons ⟨by decide, _, by decide, ampersand⟩ .nil)
  have none : ListsOnce Daemon (written "oxplow:a/b?x=1&y=%26".toList).view [] := ⟨.inl ⟨by decide, rfl⟩, .nil⟩
  obtain ⟨u, read, -⟩ := parse_listed path listed none
  obtain ⟨v, again, same⟩ := (uri_round_trips.2.1 _ u read).2 _ order
  exact ⟨order, u, v, read, again, same⟩

end Oxplow.Proofs.UriRoundTrip
