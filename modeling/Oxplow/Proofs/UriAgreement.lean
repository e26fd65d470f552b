import Oxplow.Proofs.UriGrammar

/-! Where the daemon's parser and the window's agree. They read a value the same way, unless it
has an escape with a `+` or starts with the escapes of a byte order mark. -/

namespace Oxplow.Proofs.UriAgreement
open Uri Library UriEscapes UriGrammar UriRoundTrip

/-! ## Values -/

variable {bytes : List UInt8}

theorem utf8_fromUtf8 {text : String} (decoded : fromUtf8 bytes = some text) : utf8 text.toList = bytes := by
  obtain ⟨chars, read, rfl⟩ := Option.map_eq_some_iff.mp decoded
  obtain ⟨letters, whole⟩ := ByteArray.isSome_utf8Decode?_iff.mp (Option.isSome_of_eq_some read)
  rw [whole, List.utf8Decode?_utf8Encode] at read
  rw [← Option.some.inj read, List.toList_toArray, String.toList_ofList]
  exact List.toByteArray_inj.mp whole.symm

/-- A value that starts with the escapes of a byte order mark. -/
def BomEscape (value : List Char) : Prop :=
  ∃ h₁ l₁ h₂ l₂ h₃ l₃ rest, value = '%' :: h₁ :: l₁ :: '%' :: h₂ :: l₂ :: '%' :: h₃ :: l₃ :: rest ∧
    DesktopDigits h₁ l₁ 0xEF ∧ DesktopDigits h₂ l₂ 0xBB ∧ DesktopDigits h₃ l₃ 0xBF

variable {value : List Char} {read : String}

theorem daemon_iff :
    Daemon value read ↔
      ∃ bytes, Spells 0x25 Plain (fun h l b => fromStrRadix h l = some b) (utf8 value) bytes ∧ fromUtf8 bytes = some read := by
  constructor
  · intro done
    obtain ⟨bytes, spelled, done⟩ := bind_eq_ok done
    refine ⟨bytes, unescape_iff.mp spelled, ?_⟩
    split at done
    · rename_i text found
      rw [found, Except.ok.inj done]
    · cases done
  · rintro ⟨bytes, spells, decoded⟩
    have spelled : unescape (String.ofList value) (utf8 value) = .ok bytes := unescape_iff.mpr spells
    simp only [Daemon, decode, spelled, Except.bind, decoded]

theorem window_iff :
    Window value read ↔ ∃ bytes, Spells '%' DesktopPlain DesktopDigits value bytes ∧ Desktop.textDecode bytes = some read := by
  constructor
  · intro done
    obtain ⟨bytes, spelled, done⟩ := bind_eq_ok done
    refine ⟨bytes, bytesOf_iff.mp spelled, ?_⟩
    cases decoded : Desktop.textDecode bytes with
    | none =>
      rw [decoded] at done
      cases done
    | some text =>
      rw [decoded] at done
      exact congrArg some (Except.ok.inj done)
  · rintro ⟨bytes, spells, decoded⟩
    have spelled := bytesOf_iff.mpr spells
    simp only [Window, Desktop.decode, spelled, Except.bind, decoded, Option.elim_some]

/-- The daemon's bytes of a value, where no escape has a `+`. -/
theorem spells_iff (clean : ¬ PlusEscape value) :
    Spells 0x25 Plain (fun h l b => fromStrRadix h l = some b) (utf8 value) bytes ↔ Spells '%' DesktopPlain DesktopDigits value bytes :=
  ⟨fun spells => (spells_chars rfl spells).resolve_left clean, spells_bytes⟩

theorem plain_small {c : Char} {b : UInt8} (plain : DesktopPlain c b) : b < 0x80 := by
  have ascii : c.val.toNat < 0x80 := plain_ascii plain.1
  rw [plain.2, UInt8.lt_iff_toNat_lt]
  change c.val.toUInt8.toNat < 0x80
  rw [UInt32.toNat_toUInt8]
  omega

theorem mark_not_plain (b : UInt8) : ¬ DesktopPlain '%' b := fun plain => absurd plain.1 (by decide)

theorem digits_unique {h l : Char} {b b' : UInt8} (digits : DesktopDigits h l b) (digits' : DesktopDigits h l b') : b = b' := by
  obtain ⟨high, low, first, second, rfl⟩ := digits
  obtain ⟨high', low', first', second', rfl⟩ := digits'
  rw [Option.some.inj (first.symm.trans first'), Option.some.inj (second.symm.trans second')]

variable {text : List Char}

/-- An escape is read as its byte. -/
theorem spells_escape {h l : Char} {b : UInt8} (digits : DesktopDigits h l b)
    (spells : Spells '%' DesktopPlain DesktopDigits ('%' :: h :: l :: text) bytes) :
    ∃ out, bytes = b :: out ∧ Spells '%' DesktopPlain DesktopDigits text out := by
  cases spells with
  | letter itself _ => exact absurd itself (mark_not_plain _)
  | escape value rest =>
    rw [digits_unique digits value]
    exact ⟨_, rfl, rest⟩

/-- A byte past ASCII is read from an escape. -/
theorem spells_high {b : UInt8} {out : List UInt8} (high : ¬ b < 0x80)
    (spells : Spells '%' DesktopPlain DesktopDigits text (b :: out)) :
    ∃ h l rest, text = '%' :: h :: l :: rest ∧ DesktopDigits h l b ∧ Spells '%' DesktopPlain DesktopDigits rest out := by
  cases spells with
  | letter itself _ => exact absurd (plain_small itself) high
  | escape value rest => exact ⟨_, _, _, rfl, value, rest⟩

theorem bomEscape_iff (spells : Spells '%' DesktopPlain DesktopDigits value bytes) :
    BomEscape value ↔ [0xEF, 0xBB, 0xBF].isPrefixOf bytes = true := by
  rw [List.isPrefixOf_iff_prefix]
  constructor
  · intro ⟨h₁, l₁, h₂, l₂, h₃, l₃, rest, whole, first, second, third⟩
    rw [whole] at spells
    obtain ⟨out₁, rfl, later⟩ := spells_escape first spells
    obtain ⟨out₂, rfl, last⟩ := spells_escape second later
    obtain ⟨out₃, rfl, -⟩ := spells_escape third last
    exact ⟨out₃, rfl⟩
  · intro ⟨out, whole⟩
    rw [← whole] at spells
    obtain ⟨h₁, l₁, text₁, rfl, first, later⟩ := spells_high (by decide) spells
    obtain ⟨h₂, l₂, text₂, rfl, second, last⟩ := spells_high (by decide) later
    obtain ⟨h₃, l₃, text₃, rfl, third, -⟩ := spells_high (by decide) last
    exact ⟨h₁, l₁, h₂, l₂, h₃, l₃, text₃, rfl, first, second, third⟩

/-- What the window takes for text, the daemon does. -/
theorem daemon_of_window (reads : Window value read) : ∃ read', Daemon value read' := by
  obtain ⟨bytes, spells, decoded⟩ := window_iff.mp reads
  have bytesRead := spells_bytes spells
  rw [Desktop.textDecode] at decoded
  split at decoded
  · rename_i marked
    obtain ⟨rest, whole⟩ := List.isPrefixOf_iff_prefix.mp marked
    rw [← whole] at decoded bytesRead
    have inner : utf8 read.toList = rest := utf8_fromUtf8 decoded
    refine ⟨String.ofList (Char.ofNat 0xFEFF :: read.toList), daemon_iff.mpr ⟨_, bytesRead, ?_⟩⟩
    rw [← fromUtf8_utf8, utf8_cons, inner]
    rfl
  · exact ⟨read, daemon_iff.mpr ⟨bytes, bytesRead, decoded⟩⟩

/-- A value with neither is read the same. -/
theorem window_iff_daemon (unplus : ¬ PlusEscape value) (unmarked : ¬ BomEscape value) :
    Window value read ↔ Daemon value read := by
  rw [window_iff, daemon_iff]
  constructor
  · intro ⟨bytes, spells, decoded⟩
    rw [Desktop.textDecode, if_neg (mt (bomEscape_iff spells).mpr unmarked)] at decoded
    exact ⟨bytes, (spells_iff unplus).mpr spells, decoded⟩
  · intro ⟨bytes, spells, decoded⟩
    have spells := (spells_iff unplus).mp spells
    refine ⟨bytes, spells, ?_⟩
    rw [Desktop.textDecode, if_neg (mt (bomEscape_iff spells).mpr unmarked)]
    exact decoded

/-- The window refuses an escape with a `+`. -/
theorem not_window_of_plus (plus : PlusEscape value) : ¬ Window value read := by
  intro reads
  obtain ⟨before, digit, after, whole⟩ := plus
  obtain ⟨bytes, spells, -⟩ := window_iff.mp reads
  have unmarked : ∀ c b, Desktop.hexValue c = some b → c ≠ '%' := by
    rintro c b found rfl
    cases found
  obtain ⟨b, high, low, first, -⟩ := spells.after_mark mark_not_plain (fun h l b ⟨high, low, first, _⟩ => unmarked h high first)
    (fun h l b ⟨high, low, _, second, _⟩ => unmarked l low second) whole
  cases first

/-- The window leaves the mark out, so it reads another text. -/
theorem window_ne_of_bom {read' : String} (marked : BomEscape value) (window : Window value read) (daemon : Daemon value read') :
    read ≠ read' := by
  rintro rfl
  obtain ⟨bytes, spells, decoded⟩ := window_iff.mp window
  obtain ⟨bytes', spells', decoded'⟩ := daemon_iff.mp daemon
  have unescaped : unescape "" (utf8 value) = .ok bytes' := unescape_iff.mpr spells'
  have same : bytes' = bytes := Except.ok.inj (unescaped.symm.trans (unescape_iff.mpr (spells_bytes spells)))
  have first := (bomEscape_iff spells).mp marked
  rw [Desktop.textDecode, if_pos first] at decoded
  obtain ⟨rest, whole⟩ := List.isPrefixOf_iff_prefix.mp first
  rw [same, ← whole] at decoded'
  rw [← whole] at decoded
  have short : utf8 read.toList = rest := utf8_fromUtf8 decoded
  have long : utf8 read.toList = [0xEF, 0xBB, 0xBF] ++ rest := utf8_fromUtf8 decoded'
  have lengths := congrArg List.length (short.symm.trans long)
  rw [List.length_append] at lengths
  simp at lengths

/-! ## The two readings of a text -/

/-- The value of a param's text. -/
def valueOf (piece : List Char) : List Char := (cutOnce '=' piece).2

/-- The values a text writes. -/
def values (text : List Char) : List (List Char) :=
  ((written text).query.splitOn '&' ++ (written text).view.splitOn '&').map valueOf

/-- A text of the form of a URI, whose values are all read. -/
structure WellFormed (text : List Char) : Prop where
  resource : ∃ resource : ResourceName, (written text).path = scheme.toList ++ ':' :: resource.display
  query : ∃ entries, ListsOnce Daemon (written text).query entries
  view : ∃ entries, ListsOnce Daemon (written text).view entries

/-- The two parsers' results are the same URI, with the same canonical text. -/
structure Same (u : OxplowUri) (p : Desktop.ParsedUri) : Prop where
  extension : p.extension = u.resource.extension
  name : p.name = u.resource.name
  params : p.params.entries.Perm u.params.entries.toList
  view : p.view.entries.Perm u.view.entries.toList
  text : Desktop.formatUri p = u.toString

/-- Both parsers accept a text, as the same URI, or both refuse it. -/
def Agree (text : String) : Prop :=
  (∃ u p, OxplowUri.parse text = .ok u ∧ Desktop.parse text = .ok p ∧ Same u p) ∨
    ((∀ u, OxplowUri.parse text ≠ .ok u) ∧ ∀ p, Desktop.parse text ≠ .ok p)

variable {reads : List Char → String → Prop} {piece : List Char}

/-- A param's text is cut at its key. -/
theorem cut_spelled {entry : String × String} (spelled : Spelled reads piece entry) :
    (cutOnce '=' piece).1 = entry.1.toList ∧ reads (valueOf piece) entry.2 := by
  obtain ⟨valid, value, rfl, read⟩ := spelled
  have cut := cutOnce_append (key_clean valid).1 value
  rw [valueOf, cut]
  exact ⟨rfl, read⟩

variable {reads' : List Char → String → Prop} {entries : List (String × String)}

/-- The same pieces, with each value read in another way. -/
theorem forall₂_spelled_map {Related : String → String → Prop} {pieces : List (List Char)}
    (spelled : List.Forall₂ (Spelled reads) pieces entries)
    (other : ∀ piece ∈ pieces, ∀ read, reads (valueOf piece) read → ∃ read', reads' (valueOf piece) read' ∧ Related read read') :
    ∃ entries', List.Forall₂ (Spelled reads') pieces entries' ∧
      List.Forall₂ (fun entry entry' => entry.1 = entry'.1 ∧ Related entry.2 entry'.2) entries entries' := by
  induction spelled with
  | nil => exact ⟨[], .nil, .nil⟩
  | @cons piece entry pieces entries first _ ih =>
    obtain ⟨entries', spelled', related⟩ := ih fun piece later => other piece (List.mem_cons_of_mem _ later)
    obtain ⟨read', reads', link⟩ := other piece (List.mem_cons_self ..) entry.2 (cut_spelled first).2
    obtain ⟨valid, value, whole, -⟩ := first
    have cut : valueOf piece = value := by
      rw [valueOf, whole, cutOnce_append (key_clean valid).1]
    rw [cut] at reads'
    exact ⟨(entry.1, read') :: entries', .cons ⟨valid, value, whole, reads'⟩ spelled', .cons ⟨rfl, link⟩ related⟩

theorem listsOnce_map {Related : String → String → Prop} (once : ListsOnce reads text entries)
    (other : ∀ piece ∈ text.splitOn '&', ∀ read, reads (valueOf piece) read → ∃ read', reads' (valueOf piece) read' ∧ Related read read') :
    ∃ entries', ListsOnce reads' text entries' ∧
      List.Forall₂ (fun entry entry' => entry.1 = entry'.1 ∧ Related entry.2 entry'.2) entries entries' := by
  obtain ⟨listed, distinct⟩ := once
  rcases listed with ⟨blank, rfl⟩ | ⟨some, spelled⟩
  · exact ⟨[], ⟨.inl ⟨blank, rfl⟩, .nil⟩, .nil⟩
  · obtain ⟨entries', spelled', related⟩ := forall₂_spelled_map spelled other
    have keys : List.Forall₂ (fun entry entry' => entry.1 = entry'.1) entries entries' := related.imp fun _ _ link => link.1
    have sameKeys : List.Forall₂ Eq (entries.map (·.1)) (entries'.map (·.1)) :=
      List.forall₂_map_left_iff.mpr (List.forall₂_map_right_iff.mpr keys)
    rw [List.forall₂_eq_eq_eq] at sameKeys
    rw [sameKeys] at distinct
    exact ⟨entries', ⟨.inr ⟨some, spelled'⟩, distinct⟩, related⟩

/-- Pieces whose values two readings read alike list the same. -/
theorem listsOnce_congr (same : ∀ piece ∈ text.splitOn '&', ∀ read, reads (valueOf piece) read → reads' (valueOf piece) read)
    (once : ListsOnce reads text entries) : ListsOnce reads' text entries := by
  have kept : ∀ piece ∈ text.splitOn '&', ∀ read, reads (valueOf piece) read → ∃ read', reads' (valueOf piece) read' ∧ read = read' :=
    fun piece member read reads => ⟨read, same piece member read reads, rfl⟩
  obtain ⟨entries', once', related⟩ := listsOnce_map once kept
  have equal : List.Forall₂ Eq entries entries' := related.imp fun _ _ link => Prod.ext link.1 link.2
  rw [List.forall₂_eq_eq_eq] at equal
  rw [equal]
  exact once'

theorem forall₂_mem_left {α β : Type} {R : α → β → Prop} {xs : List α} {ys : List β} (all : List.Forall₂ R xs ys) {x : α} (member : x ∈ xs) :
    ∃ y ∈ ys, R x y := by
  induction all with
  | nil => cases member
  | cons first _ ih =>
    rcases List.mem_cons.mp member with rfl | later
    · exact ⟨_, List.mem_cons_self .., first⟩
    · obtain ⟨y, inside, related⟩ := ih later
      exact ⟨y, List.mem_cons_of_mem _ inside, related⟩

/-- Two readings that list the same entries read each value the same. -/
theorem listsOnce_values {entries' : List (String × String)} (once : ListsOnce reads text entries)
    (once' : ListsOnce reads' text entries') (same : entries'.Perm entries) (member : piece ∈ text.splitOn '&') :
    valueOf piece = [] ∨ ∃ read, reads (valueOf piece) read ∧ reads' (valueOf piece) read := by
  obtain ⟨listed, distinct⟩ := once
  rcases listed with ⟨rfl, -⟩ | ⟨some, spelled⟩
  · rw [List.splitOn_nil, List.mem_singleton] at member
    rw [member]
    exact .inl rfl
  rcases once'.1 with ⟨blank, -⟩ | ⟨-, spelled'⟩
  · exact absurd blank some
  obtain ⟨entry, inside, spells⟩ := forall₂_mem_left spelled member
  obtain ⟨entry', inside', spells'⟩ := forall₂_mem_left spelled' member
  obtain ⟨key, read⟩ := cut_spelled spells
  obtain ⟨key', read'⟩ := cut_spelled spells'
  have keys : entry'.1 = entry.1 := String.toList_inj.mp (key'.symm.trans key)
  have equal : entry' = entry := List.inj_on_of_nodup_map distinct (same.mem_iff.mp inside') inside keys
  rw [equal] at read'
  exact .inr ⟨entry.2, read, read'⟩

theorem wellFormed_of_parse {text : String} {u : OxplowUri} (read : OxplowUri.parse text = .ok u) : WellFormed text.toList := by
  obtain ⟨path, query, view⟩ := parse_eq_ok.mp read
  obtain ⟨entries, once, -⟩ := pairs_eq_ok.mp query
  obtain ⟨shown, onceShown, -⟩ := pairs_eq_ok.mp view
  exact ⟨⟨u.resource, path⟩, ⟨entries, once⟩, ⟨shown, onceShown⟩⟩

theorem wellFormed_of_desktop {text : String} {p : Desktop.ParsedUri} (read : Desktop.parse text = .ok p) : WellFormed text.toList := by
  obtain ⟨⟨resource, path, -⟩, query, view⟩ := desktop_eq_ok.mp read
  obtain ⟨entries, once, -⟩ := desktopPairs_eq_ok.mp query
  obtain ⟨shown, onceShown, -⟩ := desktopPairs_eq_ok.mp view
  have daemon : ∀ (text : List Char), ∀ piece ∈ text.splitOn '&', ∀ read, Window (valueOf piece) read →
      ∃ read', Daemon (valueOf piece) read' ∧ (fun _ _ => True) read read' := by
    intro text piece _ read window
    obtain ⟨read', reads⟩ := daemon_of_window window
    exact ⟨read', reads, trivial⟩
  obtain ⟨entries', once', -⟩ := listsOnce_map once (daemon _)
  obtain ⟨shown', onceShown', -⟩ := listsOnce_map onceShown (daemon _)
  exact ⟨⟨resource, path⟩, ⟨entries', once'⟩, ⟨shown', onceShown'⟩⟩

/-! ## The two canonical texts -/

set_option maxRecDepth 8000 in
theorem encodeByte_eq : ∀ b : UInt8, Desktop.encodeByte b = encodeByte b := forall_byte (by decide)

theorem writePair_eq (entry : String × String) : Desktop.writePair entry = writePair entry := by
  have bytes : Desktop.encodeByte = encodeByte := funext encodeByte_eq
  rw [Desktop.writePair, Desktop.encode, bytes]
  rfl

/-- The window's keys, sorted, are the daemon's. -/
theorem sorted_eq {record : Desktop.Record} {m : Params} (same : record.entries.Perm m.entries.toList) :
    record.entries.insertionSort (fun a b => a.1 ≤ b.1) = m.entries.toList := by
  have order : m.entries.toList.Pairwise fun a b => a.1 ≤ b.1 := by
    refine Std.ExtTreeMap.ordered_keys_toList.imp ?_
    intro a b before
    exact le_of_lt (compare_lt_iff_lt.mp before)
  have sorted : (record.entries.insertionSort fun a b => a.1 ≤ b.1).Pairwise fun a b => a.1 ≤ b.1 := by
    have total : Std.Total fun a b : String × String => a.1 ≤ b.1 := ⟨fun a b => le_total a.1 b.1⟩
    have trans : IsTrans (String × String) fun a b => a.1 ≤ b.1 := ⟨fun _ _ _ first second => le_trans first second⟩
    exact List.pairwise_insertionSort _ _
  have perm := (List.perm_insertionSort (fun a b : String × String => a.1 ≤ b.1) record.entries).trans same
  refine perm.eq_of_pairwise ?_ sorted order
  intro a b inside inside' below above
  exact List.inj_on_of_nodup_map (toList_nodup m.entries) (perm.mem_iff.mp inside) inside' (le_antisymm below above)

theorem desktop_writePairs {record : Desktop.Record} {m : Params} (same : record.entries.Perm m.entries.toList) (lead : Char) :
    Desktop.writePairs lead record = writePairs lead m := by
  have texts : Desktop.writePair = writePair := funext writePair_eq
  rw [Desktop.writePairs, writePairs_eq, sorted_eq same, texts]
  cases m.entries.toList <;> rfl

theorem formatUri_toList (p : Desktop.ParsedUri) :
    (Desktop.formatUri p).toList =
      "oxplow:".toList ++ p.extension.toList ++ '/' :: p.name.toList ++ Desktop.writePairs '?' p.params ++ Desktop.writePairs '#' p.view :=
  String.toList_ofList

theorem formatUri_eq {u : OxplowUri} {p : Desktop.ParsedUri} (extension : p.extension = u.resource.extension)
    (name : p.name = u.resource.name) (params : p.params.entries.Perm u.params.entries.toList)
    (view : p.view.entries.Perm u.view.entries.toList) : Desktop.formatUri p = u.toString := by
  have start : "oxplow:".toList = scheme.toList ++ [':'] := by decide
  apply String.toList_inj.mp
  calc
    (Desktop.formatUri p).toList = scheme.toList ++ [':'] ++ u.resource.extension.toList ++ '/' :: u.resource.name.toList ++
        writePairs '?' u.params ++ writePairs '#' u.view := by
      rw [formatUri_toList, start, desktop_writePairs params, desktop_writePairs view, extension, name]
    _ = scheme.toList ++ [':'] ++ (u.resource.display ++ writePairs '?' u.params ++ writePairs '#' u.view) := by
      simp only [ResourceName.display, List.append_assoc]
    _ = u.toString.toList := (toString_toList u).symm

/-! ## Agreement -/

/-- A value both parsers read, and read the same. -/
def Shared (value : List Char) : Prop := ¬ PlusEscape value ∧ ¬ BomEscape value

theorem shared_nil : Shared [] := by
  constructor
  · intro ⟨before, digit, after, whole⟩
    exact absurd whole (by simp)
  · intro ⟨_, _, _, _, _, _, _, whole, _⟩
    cases whole

/-- Where the two readings of a value agree, it is shared. -/
theorem shared_of_read (daemon : Daemon value read) (window : Window value read) : Shared value :=
  ⟨fun plus => not_window_of_plus plus window, fun marked => window_ne_of_bom marked window daemon rfl⟩

theorem mem_values_query (member : piece ∈ (written text).query.splitOn '&') : valueOf piece ∈ values text :=
  List.mem_map_of_mem (List.mem_append_left _ member)

theorem mem_values_view (member : piece ∈ (written text).view.splitOn '&') : valueOf piece ∈ values text :=
  List.mem_map_of_mem (List.mem_append_right _ member)

/-- Params both parsers list the same have shared values. -/
theorem shared_of_same {m : Params} {record : Desktop.Record} (daemon : pairs text = .ok m)
    (window : Desktop.pairs text = .ok record) (same : record.entries.Perm m.entries.toList) (member : piece ∈ text.splitOn '&') :
    Shared (valueOf piece) := by
  obtain ⟨entries, once, held⟩ := pairs_eq_ok.mp daemon
  obtain ⟨entries', once', has⟩ := desktopPairs_eq_ok.mp window
  have has : record.entries = entries' := has
  rw [has] at same
  rcases listsOnce_values once once' (same.trans held) member with blank | ⟨read, reads, reads'⟩
  · rw [blank]
    exact shared_nil
  · exact shared_of_read reads reads'

/-- Params whose values are shared are the window's too. -/
theorem desktop_of_shared {m : Params} (daemon : pairs text = .ok m) (shared : ∀ piece ∈ text.splitOn '&', Shared (valueOf piece)) :
    ∃ record, Desktop.pairs text = .ok record ∧ record.entries.Perm m.entries.toList := by
  obtain ⟨entries, once, held⟩ := pairs_eq_ok.mp daemon
  have window : ListsOnce Window text entries := by
    refine listsOnce_congr ?_ once
    intro piece member read reads
    obtain ⟨unplus, unmarked⟩ := shared piece member
    exact (window_iff_daemon unplus unmarked).mpr reads
  obtain ⟨record, has⟩ := desktopPair_collects.exists_held has_empty window
  refine ⟨record, desktopPairs_eq_ok.mpr ⟨entries, window, has⟩, ?_⟩
  have has : record.entries = entries := has
  rw [has]
  exact held.symm

/-- The parsers agree on a text exactly when it isn't a URI, or none of its values has an escape
with a `+` or starts with the escapes of a byte order mark. -/
theorem parsers_agree (text : String) : Agree text ↔ (WellFormed text.toList → ∀ value ∈ values text.toList, Shared value) := by
  constructor
  · intro agree formed value member
    obtain ⟨⟨resource, path⟩, ⟨params, query⟩, ⟨view, shown⟩⟩ := formed
    obtain ⟨u, read, -⟩ := parse_listed path query shown
    rcases agree with ⟨u', p, read', window, same⟩ | ⟨refused, -⟩
    swap
    · exact absurd read (refused u)
    obtain ⟨-, query, view⟩ := parse_eq_ok.mp read'
    obtain ⟨-, query', view'⟩ := desktop_eq_ok.mp window
    obtain ⟨piece, inside, rfl⟩ := List.mem_map.mp member
    rcases List.mem_append.mp inside with inQuery | inView
    · exact shared_of_same query query' same.params inQuery
    · exact shared_of_same view view' same.view inView
  · intro shared
    by_cases formed : WellFormed text.toList
    swap
    · exact .inr ⟨fun u read => formed (wellFormed_of_parse read), fun p read => formed (wellFormed_of_desktop read)⟩
    have shared := shared formed
    obtain ⟨⟨resource, path⟩, ⟨params, query⟩, ⟨view, shown⟩⟩ := formed
    obtain ⟨u, read, -⟩ := parse_listed path query shown
    obtain ⟨path, query, view⟩ := parse_eq_ok.mp read
    obtain ⟨record, window, perm⟩ := desktop_of_shared query fun piece member => shared _ (mem_values_query member)
    obtain ⟨recordView, windowView, permView⟩ := desktop_of_shared view fun piece member => shared _ (mem_values_view member)
    let p : Desktop.ParsedUri := ⟨u.resource.extension, u.resource.name, record, recordView⟩
    have accepted : Desktop.parse text = .ok p := desktop_eq_ok.mpr ⟨⟨u.resource, path, rfl, rfl⟩, window, windowView⟩
    exact .inl ⟨u, p, read, accepted, rfl, rfl, perm, permView, formatUri_eq rfl rfl perm permView⟩

/-- The daemon reads `%+1` as the byte 1; the window refuses it. -/
theorem parsers_disagree_plus : ¬ ∀ text, Agree text := by
  intro agree
  have path : (written "oxplow:a/b?k=%+1".toList).path = scheme.toList ++ ':' :: ResourceName.display ⟨"a", "b", by decide, by decide⟩ := by
    decide
  have query : (written "oxplow:a/b?k=%+1".toList).query = "k=%+1".toList := by decide
  have view : (written "oxplow:a/b?k=%+1".toList).view = [] := by decide
  have byte : decode "%+1".toList = .ok "\x01" := by rfl
  have spelled : Spelled Daemon "k=%+1".toList ("k", "\x01") := ⟨by decide, "%+1".toList, by decide, byte⟩
  have pieces : "k=%+1".toList.splitOn '&' = ["k=%+1".toList] := by decide
  have listed : ListsOnce Daemon (written "oxplow:a/b?k=%+1".toList).query [("k", "\x01")] := by
    rw [query]
    refine ⟨.inr ⟨by decide, ?_⟩, List.nodup_singleton _⟩
    rw [pieces]
    exact .cons spelled .nil
  have none : ListsOnce Daemon (written "oxplow:a/b?k=%+1".toList).view [] := by
    rw [view]
    exact ⟨.inl ⟨rfl, rfl⟩, .nil⟩
  obtain ⟨u, read, -⟩ := parse_listed path listed none
  rcases agree "oxplow:a/b?k=%+1" with ⟨u', p, -, window, -⟩ | ⟨refused, -⟩
  · obtain ⟨-, params, -⟩ := desktop_eq_ok.mp window
    have refused : Desktop.pairs "k=%+1".toList = .error .badEscape := by rfl
    rw [query, refused] at params
    cases params
  · exact refused u read

end Oxplow.Proofs.UriAgreement
