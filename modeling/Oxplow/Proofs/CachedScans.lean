import Oxplow.Proofs.ScopedScans

/-! A cached scan pairs the subtrees that the scan of the same files without a cache pairs. -/

namespace Oxplow.Proofs.CachedScans
open Oxplow.Duplicates Oxplow.Library
open Oxplow.Proofs.ScopedScans

/-! ## Records -/

section Trees

variable {g : Grammars} {path : String} {lang : Language} {src : String} {opts : DupOptions} {wanted : Option (List UInt64)}

variable {fn : Nat × Nat} {s : SubtreeRef}

theorem range_ownSubtree {node : Node} (member : s ∈ ownSubtree g path lang src opts wanted fn node) :
    (s.fnByteStart, s.fnByteEnd) = fn := by
  unfold ownSubtree at member
  dsimp only at member
  split at member
  · rw [List.mem_singleton.mp member]
  · cases member

mutual

theorem range_collectSubtrees {isRoot : Bool} :
    (node : Node) → s ∈ collectSubtrees g path lang src opts wanted fn isRoot node → (s.fnByteStart, s.fnByteEnd) = fn
  | .mk _ _ _ _ _ children, member => by
    rw [collectSubtrees] at member
    split at member
    · cases member
    rcases List.mem_append.mp member with own | inner
    · exact range_ownSubtree own
    · exact range_collectChildren children inner 

theorem range_collectChildren :
    (nodes : List Node) → s ∈ collectChildren g path lang src opts wanted fn nodes → (s.fnByteStart, s.fnByteEnd) = fn
  | [], member => by
    rw [collectChildren] at member
    cases member
  | child :: rest, member => by
    rw [collectChildren] at member
    rcases List.mem_append.mp member with first | later
    · split at first
      · exact range_collectSubtrees child first
      · cases first
    · exact range_collectChildren rest later 

end

mutual

/-- A function's range is in the text. -/
theorem range_walkForFunctions {limit : Nat} :
    (node : Node) → node.Within limit → s ∈ walkForFunctions g path lang src opts wanted node →
      s.fnByteStart ≤ limit ∧ s.fnByteEnd ≤ limit
  | .mk _ _ _ _ _ children, within, member => by
    rw [Node.Within] at within
    rw [walkForFunctions] at member
    rcases List.mem_append.mp member with own | inner
    · split at own
      · have range := range_collectSubtrees _ own
        obtain ⟨first, last⟩ := Prod.mk.inj range
        exact ⟨first ▸ within.1, last ▸ within.2.1⟩
      · cases own
    · exact range_walkAll children within.2.2 inner

theorem range_walkAll {limit : Nat} :
    (nodes : List Node) → Node.AllWithin limit nodes → s ∈ walkAll g path lang src opts wanted nodes →
      s.fnByteStart ≤ limit ∧ s.fnByteEnd ≤ limit
  | [], _, member => by
    rw [walkAll] at member
    cases member
  | child :: rest, within, member => by
    rw [Node.AllWithin] at within
    rw [walkAll] at member
    rcases List.mem_append.mp member with first | later
    · exact range_walkForFunctions child within.1 first
    · exact range_walkAll rest within.2 later 

end

end Trees

/-- The parsers report no place past the text they were given. -/
def InText (g : Grammars) : Prop := ∀ lang text root, g.parse lang text = some root → root.Within text.utf8ByteSize

/-- The records of a text in a language. -/
def fileRecords (g : Grammars) (lang : Language) (text : String) (opts : DupOptions) : List Record :=
  match g.parse lang text with
  | none => []
  | some root => (walkForFunctions g "" lang text opts none root).map toRecord

variable {text : String} {lang : Language} {opts : DupOptions}

theorem records_scanFile {g : Grammars} {path : String} (known : g.languageForPath path = some lang) :
    (scanFile g path text opts none).map toRecord = fileRecords g lang text opts := by
  unfold scanFile fileRecords
  rw [known]
  dsimp only
  cases g.parse lang text with
  | none => rfl
  | some root =>
    dsimp only
    rw [walkForFunctions_selected path none, selected, List.map_map]
    simp [Function.comp_def, toRecord, atPath]

theorem subtreeOf_toRecord {s : SubtreeRef} (first : s.fnByteStart ≤ 4294967295) (last : s.fnByteEnd ≤ 4294967295) :
    subtreeOf s.path (toRecord s) = s := by
  obtain ⟨path, fnByteStart, fnByteEnd, startLine, endLine, nodeCount, hash⟩ := s
  simp only [subtreeOf, toRecord, saturate, Nat.min_eq_left first, Nat.min_eq_left last]

/-- What is kept of a file's records are the subtrees that are kept of the file. -/
theorem subtrees_of_records {g : Grammars} (inText : InText g) {path : String} (small : text.utf8ByteSize < 4294967296)
    (known : g.languageForPath path = some lang) (keep : Record → Bool) :
    ((fileRecords g lang text opts).filter keep).map (subtreeOf path) =
      (scanFile g path text opts none).filter fun s => keep (toRecord s) := by
  rw [← records_scanFile known, List.filter_map, List.map_map]
  refine (List.map_congr_left ?_).trans (List.map_id _)
  intro s member
  have read := (List.mem_filter.mp member).1
  have own := path_of_scanFile read
  have range : s.fnByteStart ≤ text.utf8ByteSize ∧ s.fnByteEnd ≤ text.utf8ByteSize := by
    unfold scanFile at read
    rw [known] at read
    dsimp only at read
    split at read
    · cases read
    · rename_i root parsed
      exact range_walkForFunctions root (inText lang text root parsed) read
  change subtreeOf path (toRecord s) = s
  rw [← own]
  exact subtreeOf_toRecord (by omega) (by omega)

/-! ## The cache -/

/-- Each entry holds the records of the content its key names. -/
def Sound (g : Grammars) (content : FileKey → Option String) (cache : DupCache) : Prop :=
  ∀ key entry, cache.entries.get key = some entry → ∃ lang text, lang.tag = key.lang ∧ content key.file = some text ∧
    entry.records = fileRecords g lang text ⟨key.minLines, key.minNodes⟩

theorem tag_injective {lang' : Language} (same : lang.tag = lang'.tag) : lang = lang' := by
  cases lang <;> cases lang' <;> first | rfl | cases same

variable {g : Grammars} {content : FileKey → Option String} {cache : DupCache}

theorem sound_empty (bytes : Nat) : Sound g content (.withBudget bytes) := by
  intro key entry found
  cases found

theorem get_spec (sound : Sound g content cache) (key : CacheKey) :
    Sound g content (cache.get key).2 ∧
      ∀ records, (cache.get key).1 = some records → ∃ lang text, lang.tag = key.lang ∧ content key.file = some text ∧
        records = fileRecords g lang text ⟨key.minLines, key.minNodes⟩ := by
  unfold DupCache.get
  dsimp only
  split
  · exact ⟨sound, fun records none_ => by cases none_⟩
  · rename_i entry found
    constructor
    · intro other entry' there
      change (cache.entries.set key { entry with tick := cache.tick + 1 }).get other = some entry' at there
      rw [InsertionMap.get_set] at there
      split at there
      · rename_i same
        cases there
        rw [same]
        exact sound key entry found
      · exact sound other entry' there
    · intro records same
      cases same
      exact sound key entry found

/-- Eviction only takes entries away. -/
theorem get_evict {cost budget : Nat} {order : List (Nat × CacheKey)} {entries : InsertionMap CacheKey Entry} {bytes : Nat}
    {key : CacheKey} {entry : Entry} (left : (DupCache.evict cost budget order entries bytes).2.1.get key = some entry) :
    entries.get key = some entry := by
  induction order generalizing entries bytes with
  | nil => exact left
  | cons first order ih =>
    rw [DupCache.evict] at left
    split at left
    · split at left
      · exact ih left
      · have found := ih left
        rw [InsertionMap.get_delete] at found
        split at found
        · cases found
        · exact found
    · exact left

theorem sound_put (sound : Sound g content cache) {key : CacheKey} {records : List Record} (tagged : lang.tag = key.lang)
    (same : content key.file = some text) (own : records = fileRecords g lang text ⟨key.minLines, key.minNodes⟩) :
    Sound g content (cache.put key records) := by
  unfold DupCache.put
  dsimp only
  split
  · exact sound
  · intro other entry there
    rw [InsertionMap.get_set] at there
    split at there
    · rename_i equal
      cases there
      rw [equal]
      exact ⟨lang, text, tagged, same, own⟩
    · have found := get_evict there
      rw [InsertionMap.get_delete] at found
      split at found
      · cases found
      · exact sound other entry found

/-! ## Scans -/

/-- Files whose content ids name their texts, none of them of 4 GiB or more. -/
structure Readings (content : FileKey → Option String) (files : List CachedFile) : Prop where
  agree : ∀ file ∈ files, ∀ id ∈ file.key, file.text = content id
  small : ∀ file ∈ files, ∀ text ∈ file.text, text.utf8ByteSize < 4294967296

variable {files : List CachedFile}

theorem Readings.sublist {others : List CachedFile} (readings : Readings content files) (part : others.Sublist files) :
    Readings content others :=
  ⟨fun file member => readings.agree file (part.subset member), fun file member => readings.small file (part.subset member)⟩

/-- The files that can be read. -/
def corpus (files : List CachedFile) : List (String × String) :=
  files.filterMap fun file => file.text.map fun text => (file.path, text)

theorem readFresh_spec {file : CachedFile} {scan : Scanning} (sound : Sound g content scan.cache)
    (known : g.languageForPath file.path = some lang) {key : Option CacheKey}
    (keyed : ∀ k ∈ key, k.lang = lang.tag ∧ k.minLines = opts.minLines ∧ k.minNodes = opts.minNodes ∧
      file.text = content k.file) :
    (readFresh g file opts key scan).1 = file.text.map (fun text => fileRecords g lang text opts) ∧
      Sound g content (readFresh g file opts key scan).2.cache := by
  unfold readFresh
  dsimp only
  split
  · rename_i unread
    rw [unread]
    exact ⟨rfl, sound⟩
  · rename_i text read
    rw [read, Option.map_some, records_scanFile known]
    split
    · exact ⟨rfl, sound⟩
    · rename_i key
      obtain ⟨tagged, lines, nodes, same⟩ := keyed key rfl
      refine ⟨rfl, sound_put sound tagged.symm (same.symm.trans read) ?_⟩
      rw [lines, nodes]

theorem recordsOf_spec {file : CachedFile} (opts : DupOptions) {scan : Scanning} (sound : Sound g content scan.cache)
    (agree : ∀ id ∈ file.key, file.text = content id) :
    (recordsOf g file opts scan).1 =
        (g.languageForPath file.path).bind (fun lang => file.text.map fun text => fileRecords g lang text opts) ∧
      Sound g content (recordsOf g file opts scan).2.cache := by
  unfold recordsOf
  split
  · rename_i unknown
    rw [unknown]
    exact ⟨rfl, sound⟩
  rename_i lang known
  rw [known, Option.bind_some]
  split
  · exact readFresh_spec sound known (by simp)
  rename_i id own
  have same := agree id own
  obtain ⟨kept, hit⟩ := get_spec sound ⟨id, lang.tag, opts.minNodes, opts.minLines, detectorVersion⟩
  dsimp only
  split
  · rename_i records cache' found
    rw [found] at kept hit
    obtain ⟨lang', text, tagged, here, rfl⟩ := hit records rfl
    have equal := tag_injective tagged
    refine ⟨?_, kept⟩
    rw [same, here, equal]
    rfl
  · rename_i cache' found
    rw [found] at kept
    refine readFresh_spec kept known ?_
    intro key equal
    cases equal
    exact ⟨rfl, rfl, rfl, same⟩

theorem gather_spec (inText : InText g) (opts : DupOptions) (keep : Record → Bool) (readings : Readings content files)
    (scan : Scanning) (sound : Sound g content scan.cache) :
    (gather g opts keep files scan).1 =
        (corpus files).flatMap (fun file => (scanFile g file.1 file.2 opts none).filter fun s => keep (toRecord s)) ∧
      Sound g content (gather g opts keep files scan).2.cache := by
  induction files generalizing scan with
  | nil => exact ⟨rfl, sound⟩
  | cons file files ih =>
    obtain ⟨read, kept⟩ := recordsOf_spec opts sound (readings.agree file (List.mem_cons_self ..))
    have later : Readings content files := readings.sublist (List.sublist_cons_self file files)
    obtain ⟨rest, kept'⟩ := ih later _ kept
    refine ⟨?_, kept'⟩
    rw [gather]
    dsimp only
    rw [rest, read]
    cases text : file.text with
    | none =>
      have unread : corpus (file :: files) = corpus files := by
        simp [corpus, text]
      rw [unread]
      cases g.languageForPath file.path <;> rfl
    | some text' =>
      have small := readings.small file (List.mem_cons_self ..) text' text
      have first : corpus (file :: files) = (file.path, text') :: corpus files := by
        simp [corpus, text]
      rw [first, List.flatMap_cons]
      congr 1
      cases known : g.languageForPath file.path with
      | none =>
        have nothing : scanFile g file.path text' opts none = [] := by
          unfold scanFile
          rw [known]
        rw [nothing]
        rfl
      | some lang => exact subtrees_of_records inText small known keep

theorem corpus_filter (files : List CachedFile) (keep : String → Bool) :
    corpus (files.filter fun file => keep file.path) = (corpus files).filter fun file => keep file.1 := by
  induction files with
  | nil => rfl
  | cons file files ih =>
    cases text : file.text <;> cases kept : keep file.path <;> simp_all [corpus]

/-- A cached scan pairs the same subtrees, in the same order. -/
theorem cachedSubtrees_eq (inText : InText g) (readings : Readings content files) (sound : Sound g content cache)
    (scope : List String) (opts : DupOptions) :
    (cachedSubtrees g files scope opts cache).1 = scopedSubtrees g (corpus files) scope opts ∧
      Sound g content (cachedSubtrees g files scope opts cache).2.cache := by
  have inside : Readings content (files.filter fun file => file.path ∈ scope) := readings.sublist List.filter_sublist
  have outside : Readings content (files.filter fun file => !(file.path ∈ scope)) := readings.sublist List.filter_sublist
  obtain ⟨first, kept⟩ := gather_spec inText opts (fun _ => true) inside ⟨cache, ⟨0, 0⟩⟩ sound
  obtain ⟨second, kept'⟩ := gather_spec inText opts
    (fun r => r.hash ∈ (gather g opts (fun _ => true) (files.filter fun file => file.path ∈ scope)
      ⟨cache, ⟨0, 0⟩⟩).1.map SubtreeRef.hash) outside _ kept
  refine ⟨?_, kept'⟩
  have all : (gather g opts (fun _ => true) (files.filter fun file => file.path ∈ scope) ⟨cache, ⟨0, 0⟩⟩).1 =
      ((corpus files).filter fun file => file.1 ∈ scope).flatMap fun file => scanFile g file.1 file.2 opts none := by
    rw [first, corpus_filter files fun path => path ∈ scope]
    simp only [List.filter_true]
  unfold cachedSubtrees scopedSubtrees
  dsimp only
  rw [second, all, corpus_filter files fun path => !(path ∈ scope)]
  simp only [scanFile_wanted]
  rfl

/-- A cache that scans have filled, each of files whose ids name these texts. -/
inductive Built (g : Grammars) (content : FileKey → Option String) : DupCache → Prop where
  | withBudget (bytes : Nat) : Built g content (.withBudget bytes)
  | scan {cache : DupCache} {files : List CachedFile} (built : Built g content cache) (readings : Readings content files)
      (scope : List String) (opts : DupOptions) : Built g content (cachedSubtrees g files scope opts cache).2.cache

theorem sound_built (inText : InText g) (built : Built g content cache) : Sound g content cache := by
  induction built with
  | withBudget bytes => exact sound_empty bytes
  | scan _ readings scope opts ih => exact (cachedSubtrees_eq inText readings ih scope opts).2

/-- Scoped scans, with a cache and without, keep the best match size of each pair of functions that
pairing the whole corpus and applying the scope keeps. -/
theorem scans_agree (inText : InText g) (built : Built g content cache) {files : List CachedFile}
    (readings : Readings content files) (scope : List String) (opts : DupOptions) {whole part cached : Best}
    (pairs : Pairs (wholeSubtrees g (corpus files) opts) whole) (pairs' : Pairs (scopedSubtrees g (corpus files) scope opts) part)
    (pairs'' : Pairs (cachedSubtrees g files scope opts cache).1 cached) (pair : FnId × FnId) (size : Nat) :
    (Keeps scope whole pair size ↔ Keeps scope part pair size) ∧ (Keeps scope whole pair size ↔ Keeps scope cached pair size) := by
  have alike := alike_scoped g (corpus files) scope opts
  rw [(cachedSubtrees_eq inText readings (sound_built inText built) scope opts).1] at pairs''
  exact ⟨keeps_alike alike pairs pairs' pair size, keeps_alike alike pairs pairs'' pair size⟩

/-- One Rust text, as its parser reads it. -/
def likeGrammars : Grammars where
  languageForPath path := if path.endsWith ".rs" then some .rust else none
  parse lang text :=
    if lang = .rust ∧ text = "fn f() \x7b\x7d" then
      some (.mk "source_file" 0 9 0 0 [.mk "function_item" 0 9 0 0 [.mk "fn" 0 2 0 0 [], .mk "identifier" 3 4 0 0 [],
        .mk "parameters" 4 6 0 0 [.mk "(" 4 5 0 0 [], .mk ")" 5 6 0 0 []],
        .mk "block" 7 9 0 0 [.mk "\x7b" 7 8 0 0 [], .mk "\x7d" 8 9 0 0 []]]])
    else none
  isFunctionNode _ node _ := node.kind == "function_item"
  isSkipNode _ node _ := node.kind == "use_declaration" || node.kind == "extern_crate_declaration"

def likeContent (key : FileKey) : Option String := if key.id = "1f3a" then some "fn f() \x7b\x7d" else none

def likeFiles : List CachedFile :=
  [⟨"a.rs", some ⟨"git", "1f3a"⟩, some "fn f() \x7b\x7d"⟩, ⟨"b.rs", some ⟨"git", "1f3a"⟩, some "fn f() \x7b\x7d"⟩]

theorem likeGrammars_inText : InText likeGrammars := by
  intro lang text root parsed
  simp only [likeGrammars] at parsed
  split at parsed
  · rename_i own
    cases parsed
    rw [own.2]
    have size : "fn f() \x7b\x7d".utf8ByteSize = 9 := by decide
    simp [Node.Within, Node.AllWithin, size]
  · cases parsed

theorem likeFiles_readings : Readings likeContent likeFiles := by
  constructor
  · intro file member id own
    simp only [likeFiles, List.mem_cons, List.not_mem_nil, or_false] at member
    rcases member with rfl | rfl <;> cases own <;> rfl
  · intro file member text own
    simp only [likeFiles, List.mem_cons, List.not_mem_nil, or_false] at member
    rcases member with rfl | rfl <;> cases own <;> decide

/-- The families walked in the order of their hashes. -/
def walked (subtrees : List SubtreeRef) : Best := bestOf ((hashes subtrees).map (family subtrees))

theorem walked_pairs (subtrees : List SubtreeRef) : Pairs subtrees (walked subtrees) := ⟨_, List.Perm.refl _, rfl⟩

/-- The cache as a scan of the other file's scope leaves it. -/
def likeCache : DupCache := (cachedSubtrees likeGrammars likeFiles ["b.rs"] ⟨1, 1⟩ (.withBudget 4096)).2.cache

theorem scans_agree_likeFiles :
    (Keeps ["a.rs"] (walked (wholeSubtrees likeGrammars (corpus likeFiles) ⟨1, 1⟩))
          (toLex ("a.rs", toLex (0, 9)), toLex ("b.rs", toLex (0, 9))) 9 ↔
        Keeps ["a.rs"] (walked (scopedSubtrees likeGrammars (corpus likeFiles) ["a.rs"] ⟨1, 1⟩))
          (toLex ("a.rs", toLex (0, 9)), toLex ("b.rs", toLex (0, 9))) 9) ∧
      (Keeps ["a.rs"] (walked (wholeSubtrees likeGrammars (corpus likeFiles) ⟨1, 1⟩))
          (toLex ("a.rs", toLex (0, 9)), toLex ("b.rs", toLex (0, 9))) 9 ↔
        Keeps ["a.rs"] (walked (cachedSubtrees likeGrammars likeFiles ["a.rs"] ⟨1, 1⟩ likeCache).1)
          (toLex ("a.rs", toLex (0, 9)), toLex ("b.rs", toLex (0, 9))) 9) :=
  scans_agree likeGrammars_inText (.scan (.withBudget 4096) likeFiles_readings ["b.rs"] ⟨1, 1⟩) likeFiles_readings ["a.rs"] ⟨1, 1⟩
    (walked_pairs _) (walked_pairs _) (walked_pairs _) _ 9

end Oxplow.Proofs.CachedScans
