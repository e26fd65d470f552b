import Oxplow.Extensions.Permissions
import Oxplow.Library.Splitting
import Oxplow.Library.Wildcards

/-! What a covering set of permissions allows. A pattern carries what it covers, but for a `*`
that covers a `**`. -/

namespace Oxplow.Proofs.PermissionCovers
open Extensions Library

/-! ## Patterns -/

theorem walk_eq (want given : List String) : walk want given = segmentsCover "*" "**" want given := by
  induction want generalizing given with
  | nil => cases given <;> rfl
  | cons w want ih =>
    cases given with
    | nil => rfl
    | cons h given => rw [walk, segmentsCover, ih]

theorem patternCovers_refl (pattern : String) : patternCovers pattern pattern = true := by
  rw [patternCovers, walk_eq]
  exact segmentsCover_refl _

theorem segments_ne_nil (pattern : String) : segments pattern ≠ [] := by
  rw [segments, ne_eq, List.map_eq_nil_iff]
  exact List.splitOn_ne_nil '.' pattern.toList

/-- A list of segments, written. -/
def joinDots (parts : List String) : String := String.ofList (['.'].intercalate (parts.map String.toList))

theorem segments_joinDots {parts : List String} (some : parts ≠ []) (clean : ∀ part ∈ parts, '.' ∉ part.toList) :
    segments (joinDots parts) = parts := by
  have undotted : ∀ part ∈ parts.map String.toList, '.' ∉ part := by
    intro part member
    obtain ⟨text, inside, rfl⟩ := List.mem_map.mp member
    exact clean text inside
  rw [segments, joinDots, String.toList_ofList, List.splitOn_intercalate '.' undotted (by simpa using some), List.map_map]
  simp

theorem segments_clean {pattern part : String} (member : part ∈ segments pattern) : '.' ∉ part.toList := by
  obtain ⟨text, inside, rfl⟩ := List.mem_map.mp member
  rw [String.toList_ofList]
  exact not_mem_of_mem_splitOn inside

theorem hostCovers_refl (pattern : String) : hostCovers pattern pattern = true := by
  rw [hostCovers]
  split
  · rename_i wild
    obtain ⟨domain, whole⟩ := List.isPrefixOf_iff_prefix.mp wild
    rw [← whole]
    exact List.isSuffixOf_iff_suffix.mpr ⟨['*'], rfl⟩
  · exact beq_self_eq_true _

theorem hostCovers_trans {p q r : String} (first : hostCovers p q = true) (second : hostCovers q r = true) : hostCovers p r = true := by
  by_cases wild : "*.".toList.isPrefixOf q.toList = true
  swap
  · rw [hostCovers, if_neg wild] at second
    rw [← beq_iff_eq.mp second]
    exact first
  rw [hostCovers, if_pos wild] at second
  by_cases wilder : "*.".toList.isPrefixOf p.toList = true
  swap
  · rw [hostCovers, if_neg wilder] at first
    rw [beq_iff_eq.mp first] at wilder
    exact absurd wild wilder
  rw [hostCovers, if_pos wilder] at first
  rw [hostCovers, if_pos wilder]
  obtain ⟨domain, whole⟩ := List.isPrefixOf_iff_prefix.mp wild
  have cut : q.toList.drop 2 = domain := by
    rw [← whole]
    rfl
  rw [cut] at second
  have inside : ('.' :: p.toList.drop 2) <:+ '*' :: '.' :: domain := by
    have suffix := List.isSuffixOf_iff_suffix.mp first
    rw [← whole] at suffix
    exact suffix
  -- the covered pattern's own `*` is before its first `.`
  rcases List.suffix_cons_iff.mp inside with same | shorter
  · cases same
  · exact List.isSuffixOf_iff_suffix.mpr (shorter.trans (List.isSuffixOf_iff_suffix.mp second))

/-! ## Sets of permissions -/

/-- Everything `needed` lists, the other holds. -/
structure Covering (wide narrow : Permissions) : Prop where
  sql : narrow.sql.isSome = true → wide.sql.isSome = true
  commands : ∀ c ∈ narrow.commands, ∃ p ∈ wide.commands, patternCovers p c = true
  files : Permissions.filesMissing narrow.files wide.files = false
  ai : narrow.ai = true → wide.ai = true
  network : ∀ h ∈ narrow.network, ∃ p ∈ wide.network, hostCovers p h = true
  process : narrow.process = true → wide.process = true
  secrets : ∀ s ∈ narrow.secrets, s ∈ wide.secrets
  agent : narrow.agent = true → wide.agent = true

theorem told_iff (missing : Bool) (line : String) : (if missing = true then [line] else []) = [] ↔ missing = false := by
  cases missing <;> simp

theorem listed_iff (items : List String) (line : String) : (if items.isEmpty = true then [] else [line]) = [] ↔ items = [] := by
  cases items <;> simp

theorem held_iff (a b : Bool) : (a && !b) = false ↔ (a = true → b = true) := by
  cases a <;> cases b <;> simp

theorem sql_iff (a b : Option SqlAccess) : (a.isSome && b.isNone) = false ↔ (a.isSome = true → b.isSome = true) := by
  cases a <;> cases b <;> simp

theorem filter_not_iff (holds : String → Bool) (items : List String) :
    (items.filter fun item => !holds item) = [] ↔ ∀ item ∈ items, holds item = true := by
  simp [List.filter_eq_nil_iff]

theorem covers_iff {self needed : Permissions} : self.covers needed = true ↔ Covering self needed := by
  rw [Permissions.covers, List.isEmpty_iff]
  simp only [Permissions.missing, List.append_eq_nil_iff, told_iff, listed_iff, held_iff, sql_iff, filter_not_iff, List.any_eq_true,
    List.contains_iff_mem]
  constructor
  · intro ⟨⟨⟨⟨⟨⟨⟨sql, commands⟩, files⟩, ai⟩, network⟩, process⟩, secrets⟩, agent⟩
    exact ⟨sql, commands, files, ai, network, process, secrets, agent⟩
  · intro ⟨sql, commands, files, ai, network, process, secrets, agent⟩
    exact ⟨⟨⟨⟨⟨⟨⟨sql, commands⟩, files⟩, ai⟩, network⟩, process⟩, secrets⟩, agent⟩

theorem filesAdded_iff (want given : Option FilesAccess) :
    Permissions.filesAdded want given = [] ↔ Permissions.filesMissing want given = false := by
  rcases want with _ | _ | _ <;> rcases given with _ | _ | _ <;> decide

theorem addedOver_iff {self baseline : Permissions} : self.addedOver baseline = [] ↔ Covering baseline self := by
  simp only [Permissions.addedOver, List.append_eq_nil_iff, told_iff, listed_iff, held_iff, sql_iff, filter_not_iff, List.any_eq_true,
    List.contains_iff_mem, filesAdded_iff]
  constructor
  · intro ⟨⟨⟨⟨⟨⟨⟨process, network⟩, secrets⟩, ai⟩, sql⟩, files⟩, commands⟩, agent⟩
    exact ⟨sql, commands, files, ai, network, process, secrets, agent⟩
  · intro ⟨sql, commands, files, ai, network, process, secrets, agent⟩
    exact ⟨⟨⟨⟨⟨⟨⟨process, network⟩, secrets⟩, ai⟩, sql⟩, files⟩, commands⟩, agent⟩

theorem filesMissing_self (files : Option FilesAccess) : Permissions.filesMissing files files = false := by
  rcases files with _ | _ | _ <;> decide

theorem filesMissing_trans {p q r : Option FilesAccess} (first : Permissions.filesMissing q p = false)
    (second : Permissions.filesMissing r q = false) : Permissions.filesMissing r p = false := by
  revert first second
  rcases p with _ | _ | _ <;> rcases q with _ | _ | _ <;> rcases r with _ | _ | _ <;> decide

theorem covering_refl (self : Permissions) : Covering self self where
  sql := id
  commands c member := ⟨c, member, patternCovers_refl c⟩
  files := filesMissing_self self.files
  ai := id
  network h member := ⟨h, member, hostCovers_refl h⟩
  process := id
  secrets _ := id
  agent := id

/-! ## Union -/

theorem mem_joined {mine theirs : List String} {item : String} : item ∈ Permissions.joined mine theirs ↔ item ∈ mine ∨ item ∈ theirs := by
  rw [Permissions.joined]
  induction theirs generalizing mine with
  | nil => simp
  | cons first rest ih =>
    rw [List.foldl_cons, ih, List.mem_cons]
    by_cases held : mine.contains first = true
    · rw [if_pos held]
      have inside := List.contains_iff_mem.mp held
      constructor
      · intro either
        exact either.imp_right .inr
      · rintro (mine | rfl | theirs)
        · exact .inl mine
        · exact .inl inside
        · exact .inr theirs
    · rw [if_neg held, List.mem_append, List.mem_singleton, or_assoc]

theorem filesMax_left (a b : Option FilesAccess) : Permissions.filesMissing a (Permissions.filesMax a b) = false := by
  rcases a with _ | _ | _ <;> rcases b with _ | _ | _ <;> decide

theorem filesMax_right (a b : Option FilesAccess) : Permissions.filesMissing b (Permissions.filesMax a b) = false := by
  rcases a with _ | _ | _ <;> rcases b with _ | _ | _ <;> decide

theorem union_covering_left (self other : Permissions) : Covering (self.union other) self where
  sql granted := by
    rw [Permissions.union, Option.isSome_or, granted, Bool.true_or]
  commands c member := ⟨c, mem_joined.mpr (.inl member), patternCovers_refl c⟩
  files := filesMax_left self.files other.files
  ai granted := by
    rw [Permissions.union, granted, Bool.true_or]
  network h member := ⟨h, mem_joined.mpr (.inl member), hostCovers_refl h⟩
  process granted := by
    rw [Permissions.union, granted, Bool.true_or]
  secrets _ member := mem_joined.mpr (.inl member)
  agent granted := by
    rw [Permissions.union, granted, Bool.true_or]

theorem union_covering_right (self other : Permissions) : Covering (self.union other) other where
  sql granted := by
    rw [Permissions.union, Option.isSome_or, granted, Bool.or_true]
  commands c member := ⟨c, mem_joined.mpr (.inr member), patternCovers_refl c⟩
  files := filesMax_right self.files other.files
  ai granted := by
    rw [Permissions.union, granted, Bool.or_true]
  network h member := ⟨h, mem_joined.mpr (.inr member), hostCovers_refl h⟩
  process granted := by
    rw [Permissions.union, granted, Bool.or_true]
  secrets _ member := mem_joined.mpr (.inr member)
  agent granted := by
    rw [Permissions.union, granted, Bool.or_true]

/-! ## Through a covered set -/

/-- The first set covers what each of the second's `**` patterns stands for, however many
segments that is. -/
def RestCovered (self needed : Permissions) : Prop :=
  ∀ q ∈ needed.commands, "**" ∈ segments q → ∀ n, spelledOut "*" "**" (segments q) n ≠ [] →
    ∃ p ∈ self.commands, walk (segments p) (spelledOut "*" "**" (segments q) n) = true

theorem patternCovers_trans {p q r : String} (plain : "**" ∉ segments q) (first : patternCovers p q = true)
    (second : patternCovers q r = true) : patternCovers p r = true := by
  rw [patternCovers, walk_eq] at first second ⊢
  exact segmentsCover_trans plain first second

/-- Where one set covers another, `**` patterns included, it covers what the other's patterns do. -/
theorem commands_through {self needed : Permissions} (covering : Covering self needed) (restCovered : RestCovered self needed) {q r : String}
    (member : q ∈ needed.commands) (fits : patternCovers q r = true) : ∃ p ∈ self.commands, patternCovers p r = true := by
  by_cases wild : "**" ∈ segments q
  swap
  · obtain ⟨p, inside, first⟩ := covering.commands q member
    exact ⟨p, inside, patternCovers_trans wild first fits⟩
  rw [patternCovers, walk_eq] at fits
  obtain ⟨n, form⟩ := exists_spelledOut wild fits
  have some : spelledOut "*" "**" (segments q) n ≠ [] := by
    intro none
    rw [none] at form
    exact segments_ne_nil r (segmentsCover_nil.mp form)
  obtain ⟨p, inside, first⟩ := restCovered q member wild n some
  rw [walk_eq] at first
  refine ⟨p, inside, ?_⟩
  rw [patternCovers, walk_eq]
  exact segmentsCover_trans (spelledOut_plain (by decide) (segments q) n) first form

/-- Everything the second set allows, the first allows. -/
structure Allows (wide narrow : Permissions) : Prop where
  commands : ∀ ownNamespace id, narrow.commandAllowed ownNamespace id = true → wide.commandAllowed ownNamespace id = true
  hosts : ∀ host, narrow.hostAllowed host = true → wide.hostAllowed host = true
  secrets : ∀ s ∈ narrow.secrets, s ∈ wide.secrets
  files : Permissions.filesMissing narrow.files wide.files = false
  sql : narrow.sql.isSome = true → wide.sql.isSome = true
  ai : narrow.ai = true → wide.ai = true
  process : narrow.process = true → wide.process = true
  agent : narrow.agent = true → wide.agent = true

theorem allows_of_covering {self needed : Permissions} (covering : Covering self needed) (restCovered : RestCovered self needed) :
    Allows self needed where
  commands ownNamespace id allowed := by
    rcases Bool.or_eq_true_iff.mp allowed with own | matched
    · exact Bool.or_eq_true_iff.mpr (.inl own)
    · obtain ⟨q, member, fits⟩ := List.any_eq_true.mp matched
      exact Bool.or_eq_true_iff.mpr (.inr (List.any_eq_true.mpr (commands_through covering restCovered member fits)))
  hosts host allowed := by
    obtain ⟨q, member, fits⟩ := List.any_eq_true.mp allowed
    obtain ⟨p, inside, first⟩ := covering.network q member
    exact List.any_eq_true.mpr ⟨p, inside, hostCovers_trans first fits⟩
  secrets := covering.secrets
  files := covering.files
  sql := covering.sql
  ai := covering.ai
  process := covering.process
  agent := covering.agent

theorem covering_trans {p q r : Permissions} (restCovered : RestCovered p q) (first : Covering p q) (second : Covering q r) : Covering p r where
  sql := first.sql ∘ second.sql
  commands c member := by
    obtain ⟨through, inside, fits⟩ := second.commands c member
    exact commands_through first restCovered inside fits
  files := filesMissing_trans first.files second.files
  ai := first.ai ∘ second.ai
  network h member := by
    obtain ⟨through, inside, fits⟩ := second.network h member
    obtain ⟨wider, held, covers⟩ := first.network through inside
    exact ⟨wider, held, hostCovers_trans covers fits⟩
  process := first.process ∘ second.process
  secrets s member := first.secrets s (second.secrets s member)
  agent := first.agent ∘ second.agent

/-- Another's command is allowed only by a pattern. -/
theorem commandAllowed_iff {self : Permissions} {ownNamespace id : String} (other : ¬ ownNamespace.toList.isPrefixOf id.toList = true) :
    self.commandAllowed ownNamespace id = true ↔ ∃ p ∈ self.commands, patternCovers p id = true := by
  rw [Permissions.commandAllowed, eq_false_of_ne_true other, Bool.false_and, Bool.false_or, List.any_eq_true]

/-- Each form of a pattern is a name it allows. -/
theorem restCovered_of_allows {self needed : Permissions} (allows : Allows self needed) : RestCovered self needed := by
  intro q member wild n some
  have clean : ∀ part ∈ spelledOut "*" "**" (segments q) n, '.' ∉ part.toList := by
    intro part inside
    rcases List.mem_append.mp inside with stem | any
    · exact segments_clean ((List.takeWhile_prefix _).subset stem)
    · rw [List.eq_of_mem_replicate any]
      decide
  have written := segments_joinDots some clean
  have longer : ¬ (joinDots (spelledOut "*" "**" (segments q) n) ++ ".").toList.isPrefixOf
      (joinDots (spelledOut "*" "**" (segments q) n)).toList = true := by
    intro start
    have lengths := (List.isPrefixOf_iff_prefix.mp start).length_le
    rw [String.toList_append, List.length_append] at lengths
    simp at lengths
  have fits : patternCovers q (joinDots (spelledOut "*" "**" (segments q) n)) = true := by
    rw [patternCovers, walk_eq, written]
    exact segmentsCover_spelledOut wild n
  obtain ⟨p, inside, first⟩ := (commandAllowed_iff longer).mp (allows.commands _ _ ((commandAllowed_iff longer).mpr ⟨q, member, fits⟩))
  rw [patternCovers, written] at first
  exact ⟨p, inside, first⟩

/-! ## What a covering set promises -/

/-- What `covers` promises of two sets. -/
structure Promised (wide narrow : Permissions) : Prop where
  allows : wide.covers narrow = true → Allows wide narrow
  reflexive : wide.covers wide = true
  transitive : ∀ other, wide.covers narrow = true → narrow.covers other = true → wide.covers other = true
  added : narrow.addedOver wide = [] ↔ wide.covers narrow = true
  union : (wide.union narrow).covers wide = true ∧ (wide.union narrow).covers narrow = true

/-- A set keeps every promise to another exactly when it doesn't cover it, or covers all that
the other's `**` patterns stand for. -/
theorem promised_iff (self needed : Permissions) : Promised self needed ↔ (self.covers needed = true → RestCovered self needed) := by
  constructor
  · intro promised covered
    exact restCovered_of_allows (promised.allows covered)
  · intro restCovered
    refine ⟨?_, covers_iff.mpr (covering_refl self), ?_, ?_, ?_, ?_⟩
    · intro covered
      exact allows_of_covering (covers_iff.mp covered) (restCovered covered)
    · intro other covered second
      exact covers_iff.mpr (covering_trans (restCovered covered) (covers_iff.mp covered) (covers_iff.mp second))
    · rw [addedOver_iff, covers_iff]
    · exact covers_iff.mpr (union_covering_left self needed)
    · exact covers_iff.mpr (union_covering_right self needed)

/-- `oxplow.*` covers `oxplow.**`, which allows a command that it doesn't. -/
theorem unpromised_rest : ¬ ∀ self needed : Permissions, Promised self needed := by
  intro promised
  have covered : { Permissions.default with commands := ["oxplow.*"] }.covers { Permissions.default with commands := ["oxplow.**"] } = true := by
    decide
  have allowed : { Permissions.default with commands := ["oxplow.**"] }.commandAllowed "mine" "oxplow.work_item.transition" = true := by
    decide
  have refused : { Permissions.default with commands := ["oxplow.*"] }.commandAllowed "mine" "oxplow.work_item.transition" = false := by
    decide
  have both := ((promised _ _).allows covered).commands "mine" "oxplow.work_item.transition" allowed
  rw [refused] at both
  cases both

end Oxplow.Proofs.PermissionCovers
