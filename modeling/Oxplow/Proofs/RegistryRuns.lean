import Oxplow.Commands.Registry
import Oxplow.Library.Machine
import Oxplow.Library.Transaction
import Oxplow.Library.Maps

/-! What holds of the command registry after every sequence of operations, accepted or
refused. Revisions only grow, and a change always takes a new one: a publication is
accepted exactly on the registry it was prepared from. -/

namespace Oxplow.Proofs.RegistryRuns
open Commands Library

variable (setting : Setting)

/-! ## What a registry keeps -/

structure Consistent (registry : Registry) : Prop where
  named : ∀ (id : String) command, registry.commands[id]? = some command → command.spec.id = id
  /-- Every command has one source, and only commands do. -/
  sourced : ∀ id : String, (registry.sources[id]?).isSome = (registry.commands[id]?).isSome
  /-- A command's namespace is held by its source, the reserved one by oxplow. -/
  held : ∀ (id : String) source, registry.sources[id]? = some source →
    registry.owner (namespaceOf id) = some (Registry.holder (namespaceOf id) source)
  /-- A namespace that is held has a command. -/
  used : ∀ space source, registry.owner space = some source → ∃ id : String, (registry.commands[id]?).isSome = true ∧ namespaceOf id = space
  apart : ∀ (id id' : String) command command' key, registry.commands[id]? = some command → registry.commands[id']? = some command' →
    setting.shortcutOf command.spec = some key → setting.shortcutOf command'.spec = some key → id = id'

/-- A namespace that is not reserved has the commands of one source. -/
def Sole (registry : Registry) : Prop :=
  ∀ (id id' : String) source source', registry.sources[id]? = some source → registry.sources[id']? = some source' →
    namespaceOf id = namespaceOf id' → namespaceOf id ≠ oxplowNamespace → source = source'

/-- A namespace without a command is anyone's. -/
def Free (registry : Registry) : Prop :=
  ∀ space source, space ≠ oxplowNamespace → (∀ id : String, namespaceOf id = space → registry.commands[id]? = none) →
    registry.refusal setting space source = none

variable {setting} {registry : Registry}

theorem Consistent.sole (kept : Consistent setting registry) : Sole registry := by
  intro id id' source source' first second same plain
  have holds := kept.held id source first
  have holds' := kept.held id' source' second
  rw [← same, holds] at holds'
  simpa [Registry.holder, plain] using holds'

theorem Consistent.free (kept : Consistent setting registry) : Free setting registry := by
  intro space source plain bare
  have unheld : registry.owner space = none := by
    cases held : registry.owner space with
    | none => rfl
    | some other =>
      obtain ⟨id, here, under⟩ := kept.used space other held
      rw [bare id under] at here
      cases here
  rw [Registry.refusal, if_neg plain, unheld]

theorem consistent_empty (revision : Nat) : Consistent setting (.empty revision) := by
  constructor <;> simp [Registry.empty, Registry.owner]

/-! ## A batch that fits -/

structure Fits (setting : Setting) (registry : Registry) (space : String) (batch : List Command) : Prop where
  distinct : (batch.map (·.spec.id)).Nodup
  under : ∀ command ∈ batch, namespaceOf command.spec.id = space
  fresh : ∀ command ∈ batch, registry.commands[command.spec.id]? = none
  apart : ∀ command ∈ batch, ∀ key, setting.shortcutOf command.spec = some key →
    registry.held setting batch command.spec.id key = none

section Batch
variable {space source : String} {batch rest : List Command} {seen : List String} {command : Command} {key : String × Option String}

theorem misfit_none (fits : registry.misfit setting space batch seen command = none) :
    command.spec.id ∉ seen ∧ namespaceOf command.spec.id = space ∧ registry.commands[command.spec.id]? = none ∧
      ∀ key, setting.shortcutOf command.spec = some key → registry.held setting batch command.spec.id key = none := by
  simp only [Registry.misfit] at fits
  split at fits
  · cases fits
  · rename_i unseen
    split at fits
    · cases fits
    · split at fits
      · cases fits
      · rename_i under
        split at fits
        · cases fits
        · rename_i absent
          have missing : registry.commands[command.spec.id]? = none := by simpa using absent
          have clear : ∀ key, setting.shortcutOf command.spec = some key → registry.held setting batch command.spec.id key = none := by
            intro key bound
            simpa [bound] using fits
          exact ⟨unseen, not_not.mp under, missing, clear⟩

/-- Over the commands still to be looked at: each fits, and none repeats an id. -/
theorem misfits_none (fits : registry.misfits setting space batch seen rest = none) :
    (rest.map (·.spec.id)).Nodup ∧ ∀ command ∈ rest, command.spec.id ∉ seen ∧ namespaceOf command.spec.id = space ∧
      registry.commands[command.spec.id]? = none ∧
      ∀ key, setting.shortcutOf command.spec = some key → registry.held setting batch command.spec.id key = none := by
  induction rest generalizing seen with
  | nil => simp
  | cons first rest ih =>
    rw [Registry.misfits] at fits
    cases here : registry.misfit setting space batch seen first with
    | some error => simp [here] at fits
    | none =>
      rw [here] at fits
      obtain ⟨distinct, all⟩ := ih fits
      constructor
      · rw [List.map_cons, List.nodup_cons]
        refine ⟨fun again => ?_, distinct⟩
        obtain ⟨other, member, same⟩ := List.mem_map.mp again
        exact (all other member).1 (same ▸ List.mem_cons_self)
      · intro command member
        rcases List.mem_cons.mp member with rfl | member
        · exact misfit_none here
        · obtain ⟨unseen, others⟩ := all command member
          exact ⟨fun before => unseen (List.mem_cons_of_mem _ before), others⟩

theorem fits_of_misfits (fits : registry.misfits setting space batch [] batch = none) : Fits setting registry space batch := by
  obtain ⟨distinct, all⟩ := misfits_none fits
  exact ⟨distinct, fun command member => (all command member).2.1, fun command member => (all command member).2.2.1,
    fun command member => (all command member).2.2.2⟩

/-- No command has a shortcut that nothing holds. -/
theorem held_none {id : String} (clear : registry.held setting batch id key = none) :
    (∀ (other : String) command, registry.commands[other]? = some command → setting.shortcutOf command.spec ≠ some key) ∧
      ∀ command ∈ batch, command.spec.id ≠ id → setting.shortcutOf command.spec ≠ some key := by
  rw [Registry.held, List.find?_eq_none] at clear
  constructor
  · intro other command here
    have listed : (other, command) ∈ registry.commands.toList := Std.ExtTreeMap.mem_toList_iff_getElem?_eq_some.mpr here
    have differs := clear command.spec (List.mem_append_left _ (List.mem_map.mpr ⟨_, listed, rfl⟩))
    simpa using differs
  · intro command member other
    have kept : command.spec ∈ (batch.map (·.spec)).filter fun spec => spec.id ≠ id :=
      List.mem_filter.mpr ⟨List.mem_map.mpr ⟨command, member, rfl⟩, by simpa using other⟩
    simpa using clear command.spec (List.mem_append_right _ kept)

/-! ## Putting the batch in -/

theorem inserted_commands (distinct : (batch.map (·.spec.id)).Nodup) (id : String) (command : Command) :
    (batch.foldl (fun registry command => registry.insert source command) registry).commands[id]? = some command ↔
      command ∈ batch ∧ command.spec.id = id ∨ registry.commands[id]? = some command ∧ ∀ other ∈ batch, other.spec.id ≠ id := by
  induction batch generalizing registry with
  | nil => simp
  | cons first batch ih =>
    rw [List.map_cons, List.nodup_cons] at distinct
    obtain ⟨fresh, distinct⟩ := distinct
    have unlike : ∀ other ∈ batch, other.spec.id ≠ first.spec.id := fun other member same =>
      fresh (same ▸ List.mem_map_of_mem member)
    rw [List.foldl_cons, ih distinct]
    simp only [Registry.insert, TreeMaps.get_insert]
    by_cases here : first.spec.id = id
    · rw [if_pos here]
      constructor
      · rintro (⟨member, same⟩ | ⟨found, -⟩)
        · exact .inl ⟨List.mem_cons_of_mem _ member, same⟩
        · obtain rfl := Option.some.inj found
          exact .inl ⟨List.mem_cons_self, here⟩
      · rintro (⟨member, same⟩ | ⟨-, others⟩)
        · rcases List.mem_cons.mp member with rfl | member
          · exact .inr ⟨rfl, fun other member alike => unlike other member (alike.trans here.symm)⟩
          · exact .inl ⟨member, same⟩
        · exact absurd here (others first List.mem_cons_self)
    · rw [if_neg here]
      constructor
      · rintro (⟨member, same⟩ | ⟨old, others⟩)
        · exact .inl ⟨List.mem_cons_of_mem _ member, same⟩
        · exact .inr ⟨old, List.forall_mem_cons.mpr ⟨here, others⟩⟩
      · rintro (⟨member, same⟩ | ⟨old, others⟩)
        · rcases List.mem_cons.mp member with rfl | member
          · exact absurd same here
          · exact .inl ⟨member, same⟩
        · exact .inr ⟨old, (List.forall_mem_cons.mp others).2⟩

theorem inserted_sources (id : String) :
    (batch.foldl (fun registry command => registry.insert source command) registry).sources[id]? =
      if ∃ command ∈ batch, command.spec.id = id then some source else registry.sources[id]? := by
  induction batch generalizing registry with
  | nil => simp
  | cons first batch ih =>
    rw [List.foldl_cons, ih]
    simp only [Registry.insert, TreeMaps.get_insert, List.exists_mem_cons_iff]
    by_cases later : ∃ command ∈ batch, command.spec.id = id
    · simp [later]
    · simp [later]

theorem inserted_holders : (batch.foldl (fun registry command => registry.insert source command) registry).holders = registry.holders := by
  induction batch generalizing registry with
  | nil => rfl
  | cons first batch ih => rw [List.foldl_cons, ih, Registry.insert]

variable {fresh : Nat}

theorem put_commands (fits : Fits setting registry space batch) (id : String) (command : Command) :
    (registry.put fresh space source batch).commands[id]? = some command ↔
      command ∈ batch ∧ command.spec.id = id ∨ registry.commands[id]? = some command ∧ ∀ other ∈ batch, other.spec.id ≠ id :=
  inserted_commands fits.distinct id command

theorem put_sources (id : String) :
    (registry.put fresh space source batch).sources[id]? =
      if ∃ command ∈ batch, command.spec.id = id then some source else registry.sources[id]? :=
  inserted_sources id

theorem put_owner (other : String) :
    (registry.put fresh space source batch).owner other = if space = other then some (Registry.holder space source) else registry.owner other := by
  simp only [Registry.owner, Registry.put, inserted_holders, TreeMaps.get_insert]

theorem put_registered (fits : Fits setting registry space batch) (id : String) :
    ((registry.put fresh space source batch).commands[id]?).isSome = true ↔
      (∃ command ∈ batch, command.spec.id = id) ∨ (registry.commands[id]?).isSome = true := by
  simp only [Option.isSome_iff_exists, put_commands fits]
  constructor
  · rintro ⟨command, new | old⟩
    · exact .inl ⟨command, new⟩
    · exact .inr ⟨command, old.1⟩
  · rintro (⟨command, new⟩ | ⟨command, old⟩)
    · exact ⟨command, .inl new⟩
    · by_cases again : ∃ other ∈ batch, other.spec.id = id
      · obtain ⟨other, new⟩ := again
        exact ⟨other, .inl new⟩
      · exact ⟨command, .inr ⟨old, fun other member same => again ⟨other, member, same⟩⟩⟩

/-- A namespace that is not reserved and is held is its source's already. -/
theorem refusal_none {other : String} (allowed : registry.refusal setting space source = none) (owned : registry.owner space = some other)
    (plain : space ≠ oxplowNamespace) : other = source := by
  rw [Registry.refusal, if_neg plain, owned] at allowed
  by_contra differs
  simp [differs] at allowed

theorem Consistent.put (kept : Consistent setting registry) (allowed : registry.refusal setting space source = none)
    (fits : Fits setting registry space batch) (some_ : batch ≠ []) : Consistent setting (registry.put fresh space source batch) where
  named id command here := by
    rcases (put_commands fits id command).mp here with new | old
    · exact new.2
    · exact kept.named id command old.1
  sourced id := by
    rw [Bool.eq_iff_iff, put_registered fits, put_sources, ← kept.sourced id]
    split
    · rename_i new
      simp [new]
    · rename_i old
      simp [old]
  held id owner here := by
    rw [put_sources] at here
    rw [put_owner]
    split at here
    · rename_i new
      obtain ⟨command, member, rfl⟩ := new
      obtain rfl := Option.some.inj here
      rw [fits.under command member, if_pos rfl]
    · have owned := kept.held id owner here
      split
      · rename_i same
        subst same
        by_cases plain : namespaceOf id = oxplowNamespace
        · simp [Registry.holder, plain]
        · rw [← refusal_none allowed owned plain]
          simp [Registry.holder, plain]
      · exact owned
  used other held here := by
    rw [put_owner] at here
    split at here
    · rename_i same
      obtain ⟨command, member⟩ := List.exists_mem_of_ne_nil batch some_
      exact ⟨command.spec.id, (put_registered fits _).mpr (.inl ⟨command, member, rfl⟩), same ▸ fits.under command member⟩
    · obtain ⟨id, there, under⟩ := kept.used other held here
      exact ⟨id, (put_registered fits id).mpr (.inr there), under⟩
  apart id id' command command' key here here' bound bound' := by
    rcases (put_commands fits id command).mp here with ⟨member, rfl⟩ | ⟨old, -⟩
    · obtain ⟨others, siblings⟩ := held_none (fits.apart command member key bound)
      rcases (put_commands fits id' command').mp here' with ⟨member', rfl⟩ | ⟨old', -⟩
      · by_contra differ
        exact siblings command' member' (Ne.symm differ) bound'
      · exact absurd bound' (others id' command' old')
    · rcases (put_commands fits id' command').mp here' with ⟨member', rfl⟩ | ⟨old', -⟩
      · exact absurd bound ((held_none (fits.apart command' member' key bound')).1 id command old)
      · exact kept.apart id id' command command' key old old' bound bound'

/-- A batch is refused and changes nothing, or it fits and goes in. -/
theorem add_cases (setting : Setting) (registry : Registry) (fresh : Nat) (space source : String) (batch : List Command) :
    (∃ error, registry.add setting fresh space source batch = (.error error, registry)) ∨
      registry.refusal setting space source = none ∧ Fits setting registry space batch ∧
        registry.add setting fresh space source batch = (.ok (), registry.put fresh space source batch) := by
  rw [Registry.add]
  cases allowed : registry.refusal setting space source with
  | some error => exact .inl ⟨error, rfl⟩
  | none =>
    cases fits : registry.misfits setting space batch [] batch with
    | some error => exact .inl ⟨error, rfl⟩
    | none => exact .inr ⟨rfl, fits_of_misfits fits, rfl⟩

end Batch

/-! ## Taking a source out -/

section Removal
variable {fresh : Nat} {source : String}

theorem mem_idsOf (id : String) : id ∈ registry.idsOf source ↔ registry.sources[id]? = some source := by
  simp only [Registry.idsOf, List.mem_map, List.mem_filter, Prod.exists, exists_and_right, exists_eq_right, beq_iff_eq,
    Std.ExtTreeMap.mem_toList_iff_getElem?_eq_some]

theorem removed_commands (ids : List String) : (ids.foldl Registry.remove registry).commands = ids.foldl (fun map id => map.erase id) registry.commands := by
  induction ids generalizing registry with
  | nil => rfl
  | cons id ids ih => rw [List.foldl_cons, ih, List.foldl_cons, Registry.remove]

theorem removed_sources (ids : List String) : (ids.foldl Registry.remove registry).sources = ids.foldl (fun map id => map.erase id) registry.sources := by
  induction ids generalizing registry with
  | nil => rfl
  | cons id ids ih => rw [List.foldl_cons, ih, List.foldl_cons, Registry.remove]

theorem removed_holders (ids : List String) : (ids.foldl Registry.remove registry).holders = registry.holders := by
  induction ids generalizing registry with
  | nil => rfl
  | cons id ids ih => rw [List.foldl_cons, ih, Registry.remove]

theorem removeSource_commands (id : String) :
    (registry.removeSource fresh source).2.commands[id]? = if registry.sources[id]? = some source then none else registry.commands[id]? := by
  change ((registry.idsOf source).foldl Registry.remove registry).commands[id]? = _
  rw [removed_commands, TreeMaps.get_eraseAll]
  simp only [mem_idsOf]

theorem removeSource_sources (id : String) :
    (registry.removeSource fresh source).2.sources[id]? = if registry.sources[id]? = some source then none else registry.sources[id]? := by
  change ((registry.idsOf source).foldl Registry.remove registry).sources[id]? = _
  rw [removed_sources, TreeMaps.get_eraseAll]
  simp only [mem_idsOf]

/-- What is held afterwards was held, and has a command. -/
theorem removeSource_owner (space held : String) :
    (registry.removeSource fresh source).2.owner space = some held ↔
      registry.owner space = some held ∧
        ∃ id : String, ((registry.removeSource fresh source).2.commands[id]?).isSome = true ∧ namespaceOf id = space := by
  change (((registry.idsOf source).foldl Registry.remove registry).release).holders[space]? = _ ↔ _
  rw [Registry.release, Std.ExtTreeMap.getElem?_filter', removed_holders, Option.filter_eq_some_iff]
  refine and_congr Iff.rfl ?_
  rw [List.contains_iff_mem, List.mem_map]
  refine exists_congr fun id => and_congr ?_ Iff.rfl
  rw [Std.ExtTreeMap.mem_keys, Std.ExtTreeMap.mem_iff_isSome_getElem?]
  rfl

theorem Consistent.removeSource (kept : Consistent setting registry) : Consistent setting (registry.removeSource fresh source).2 where
  named id command here := by
    rw [removeSource_commands] at here
    split at here
    · cases here
    · exact kept.named id command here
  sourced id := by
    rw [removeSource_sources, removeSource_commands]
    split
    · rfl
    · exact kept.sourced id
  held id owner here := by
    have registered := here
    rw [removeSource_sources] at here
    split at here
    · cases here
    · rename_i other
      refine (removeSource_owner _ _).mpr ⟨kept.held id owner here, id, ?_, rfl⟩
      rw [removeSource_commands, if_neg other, ← kept.sourced, here]
      rfl
  used space held here := ((removeSource_owner space held).mp here).2
  apart id id' command command' key here here' bound bound' := by
    rw [removeSource_commands] at here here'
    split at here
    · cases here
    · split at here'
      · cases here'
      · exact kept.apart id id' command command' key here here' bound bound'

/-! ## Replacing sources together -/

theorem Consistent.revised (kept : Consistent setting registry) (fresh : Nat) : Consistent setting { registry with revision := fresh } :=
  ⟨kept.named, kept.sourced, kept.held, kept.used, kept.apart⟩

theorem Consistent.cleared (kept : Consistent setting registry) (replacements : List NamespaceCommands) :
    Consistent setting (replacements.foldl (fun candidate replacement => (candidate.removeSource fresh replacement.source).2) registry) := by
  induction replacements generalizing registry with
  | nil => exact kept
  | cons replacement rest ih => exact ih kept.removeSource

theorem Consistent.addAll {replacements : List NamespaceCommands} {candidate : Registry} (kept : Consistent setting registry)
    (added : Registry.addAll setting fresh replacements registry = .ok candidate) : Consistent setting candidate := by
  induction replacements generalizing registry with
  | nil =>
    obtain rfl := Except.ok.inj added
    exact kept
  | cons replacement rest ih =>
    rw [Registry.addAll] at added
    by_cases bare : replacement.commands = []
    · rw [if_pos bare] at added
      exact ih kept added
    · rw [if_neg bare] at added
      rcases add_cases setting registry fresh replacement.space replacement.source replacement.commands with
        ⟨error, refused⟩ | ⟨allowed, fits, goes⟩
      · rw [refused] at added
        cases added
      · rw [goes] at added
        exact ih (kept.put allowed fits bare) added

theorem Consistent.replacing {replacements : List NamespaceCommands} {candidate : Registry} (kept : Consistent setting registry)
    (replaced : registry.replacing setting fresh replacements = .ok candidate) :
    Consistent setting candidate := by
  rw [Registry.replacing] at replaced
  split at replaced
  · cases replaced
  · obtain ⟨whole, added, rfl⟩ := Outcome.map_ok.mp replaced
    exact ((kept.cleared replacements).addAll added).revised fresh

end Removal

/-! ## The bus -/

/-- Every registry that is active or ready is consistent. -/
structure Kept (setting : Setting) (bus : Bus) : Prop where
  active : Consistent setting bus.registry
  ready : ∀ prepared ∈ bus.prepared, Consistent setting prepared.candidate

/-- Revisions are below the next one, and what is ready is newer than its base. -/
structure Numbered (bus : Bus) : Prop where
  active : bus.registry.revision < bus.revisions
  ready : ∀ prepared ∈ bus.prepared, prepared.base < prepared.candidate.revision ∧ prepared.candidate.revision < bus.revisions

/-- The registry that a later bus has is a newer one, or the same. -/
structure Later (bus next : Bus) : Prop where
  newer : bus.registry.revision ≤ next.registry.revision
  same : bus.registry.revision = next.registry.revision → bus.registry = next.registry
  prepared : bus.prepared <+: next.prepared

theorem Later.refl (bus : Bus) : Later bus bus := ⟨Nat.le_refl _, fun _ => rfl, List.prefix_refl _⟩

theorem Later.trans {a b c : Bus} (first : Later a b) (second : Later b c) : Later a c where
  newer := first.newer.trans second.newer
  same alike := by
    have middle : a.registry.revision = b.registry.revision := Nat.le_antisymm first.newer (alike ▸ second.newer)
    rw [first.same middle, second.same (middle ▸ alike)]
  prepared := first.prepared.trans second.prepared

variable {bus next : Bus}

/-- A change takes a new revision. -/
theorem later_of_lt (newer : bus.registry.revision < next.registry.revision) (prepared : bus.prepared <+: next.prepared) : Later bus next :=
  ⟨newer.le, fun same => absurd same newer.ne, prepared⟩

/-- What an operation can do to a bus. -/
inductive Moves (setting : Setting) (bus : Bus) : Operation → Bool × Bus → Prop
  | refused (operation : Operation) (revisions : Nat) (later : bus.revisions ≤ revisions) : Moves setting bus operation (false, { bus with revisions })
  | put (operation : Operation) (space source : String) (commands : List Command) (named : operation.named = true → commands ≠ [])
      (allowed : bus.registry.refusal setting space source = none) (fits : Fits setting bus.registry space commands) :
      Moves setting bus operation
        (true, { bus with registry := bus.registry.put bus.revisions space source commands, revisions := bus.revisions + 1 })
  | replaced (operation : Operation) (registry : Registry) (replacements) (goes : bus.registry.replacing setting bus.revisions replacements = .ok registry) :
      Moves setting bus operation (true, { bus with registry, revisions := bus.revisions + 1 })
  | removed (source) :
      Moves setting bus (.unregisterSource source)
        (true, { bus with registry := (bus.registry.removeSource bus.revisions source).2, revisions := bus.revisions + 1 })
  | prepared (replacements candidate) (goes : bus.registry.replacing setting bus.revisions replacements = .ok candidate) :
      Moves setting bus (.prepareNamespaces replacements)
        (true, { bus with revisions := bus.revisions + 1, prepared := bus.prepared ++ [⟨bus.registry.revision, candidate⟩] })
  | published (index : Nat) (ready : PreparedNamespaces) (there : bus.prepared[index]? = some ready)
      (base : bus.registry.revision = ready.base) :
      Moves setting bus (.publishNamespaces index) (true, { bus with registry := ready.candidate })

theorem apply_moves (setting : Setting) (bus : Bus) (operation : Operation) : Moves setting bus operation (bus.apply setting operation) := by
  cases operation with
  | register command =>
    simp only [Bus.apply, Bus.register]
    rcases add_cases setting bus.registry bus.revisions (namespaceOf command.spec.id) coreSource [command] with
      ⟨error, refused⟩ | ⟨allowed, fits, goes⟩
    · rw [refused]
      exact .refused _ _ (Nat.le_succ _)
    · rw [goes]
      exact .put _ _ _ _ (fun _ => List.cons_ne_nil _ _) allowed fits
  | registerNamespace space source commands =>
    simp only [Bus.apply, Bus.registerNamespace]
    rcases add_cases setting bus.registry bus.revisions space source commands with ⟨error, refused⟩ | ⟨allowed, fits, goes⟩
    · rw [refused]
      exact .refused _ _ (Nat.le_succ _)
    · rw [goes]
      refine .put _ _ _ _ (fun named => ?_) allowed fits
      simpa [Operation.named] using named
  | replaceNamespaces replacements =>
    simp only [Bus.apply, Bus.replaceNamespaces]
    cases goes : bus.registry.replacing setting bus.revisions replacements with
    | error refusal => exact .refused _ _ (Nat.le_succ _)
    | ok registry => exact .replaced _ registry replacements goes
  | unregisterSource source => exact .removed source
  | prepareNamespaces replacements =>
    simp only [Bus.apply, Bus.prepareNamespaces]
    cases goes : bus.registry.replacing setting bus.revisions replacements with
    | error refusal => exact .refused _ _ (Nat.le_succ _)
    | ok candidate => exact .prepared replacements candidate goes
  | publishNamespaces index =>
    simp only [Bus.apply]
    cases there : bus.prepared[index]? with
    | none => exact .refused _ bus.revisions (Nat.le_refl _)
    | some ready =>
      simp only [Bus.publishNamespaces]
      by_cases base : bus.registry.revision = ready.base
      · rw [if_pos base]
        exact .published index ready there base
      · rw [if_neg base]
        exact .refused _ bus.revisions (Nat.le_refl _)

variable {operation : Operation}

theorem Kept.apply {answer : Bool × Bus} (kept : Kept setting bus) (named : operation.named = true) (moves : Moves setting bus operation answer) :
    Kept setting answer.2 := by
  cases moves with
  | refused => exact ⟨kept.active, kept.ready⟩
  | put _ space source commands some_ allowed fits => exact ⟨kept.active.put allowed fits (some_ named), kept.ready⟩
  | replaced _ registry replacements goes => exact ⟨kept.active.replacing goes, kept.ready⟩
  | removed source => exact ⟨kept.active.removeSource, kept.ready⟩
  | prepared replacements candidate goes =>
    refine ⟨kept.active, fun prepared member => ?_⟩
    rcases List.mem_append.mp member with old | new
    · exact kept.ready prepared old
    · obtain rfl := List.mem_singleton.mp new
      exact kept.active.replacing goes
  | published index ready there base => exact ⟨kept.ready ready (List.mem_of_getElem? there), kept.ready⟩

theorem replacing_revision {fresh : Nat} {replacements : List NamespaceCommands} {candidate : Registry}
    (replaced : registry.replacing setting fresh replacements = .ok candidate) : candidate.revision = fresh := by
  rw [Registry.replacing] at replaced
  split at replaced
  · cases replaced
  · obtain ⟨whole, added, rfl⟩ := Outcome.map_ok.mp replaced
    rfl

theorem Numbered.apply {answer : Bool × Bus} (numbered : Numbered bus) (moves : Moves setting bus operation answer) :
    Numbered answer.2 ∧ Later bus answer.2 := by
  have above : ∀ prepared ∈ bus.prepared, prepared.base < prepared.candidate.revision ∧ prepared.candidate.revision < bus.revisions + 1 :=
    fun prepared member => ⟨(numbered.ready prepared member).1, Nat.lt_succ_of_lt (numbered.ready prepared member).2⟩
  cases moves with
  | refused _ revisions later =>
    exact ⟨⟨numbered.active.trans_le later, fun prepared member =>
      ⟨(numbered.ready prepared member).1, (numbered.ready prepared member).2.trans_le later⟩⟩,
      ⟨Nat.le_refl _, fun _ => rfl, List.prefix_refl _⟩⟩
  | put _ space source commands => exact ⟨⟨Nat.lt_succ_self _, above⟩, later_of_lt numbered.active (List.prefix_refl _)⟩
  | replaced _ registry replacements goes =>
    have revised := replacing_revision goes
    exact ⟨⟨revised ▸ Nat.lt_succ_self _, above⟩, later_of_lt (revised ▸ numbered.active) (List.prefix_refl _)⟩
  | removed source => exact ⟨⟨Nat.lt_succ_self _, above⟩, later_of_lt numbered.active (List.prefix_refl _)⟩
  | prepared replacements candidate goes =>
    refine ⟨⟨Nat.lt_succ_of_lt numbered.active, fun prepared member => ?_⟩, ⟨Nat.le_refl _, fun _ => rfl, List.prefix_append _ _⟩⟩
    rcases List.mem_append.mp member with old | new
    · exact above prepared old
    · obtain rfl := List.mem_singleton.mp new
      have revised := replacing_revision goes
      exact ⟨revised ▸ numbered.active, revised ▸ Nat.lt_succ_self _⟩
  | published index ready there base =>
    have newer := numbered.ready ready (List.mem_of_getElem? there)
    exact ⟨⟨newer.2, numbered.ready⟩, later_of_lt (base ▸ newer.1) (List.prefix_refl _)⟩

/-! ## Runs -/

def run (setting : Setting) (bus : Bus) (operations : List Operation) : Bus := Machine.run (Bus.step setting) bus operations

theorem run_cons (bus : Bus) (operation : Operation) (operations : List Operation) :
    run setting bus (operation :: operations) = run setting (bus.apply setting operation).2 operations := rfl

theorem run_append (bus : Bus) (before after : List Operation) :
    run setting bus (before ++ after) = run setting (run setting bus before) after := Machine.run_append _ _ _

theorem run_kept (kept : Kept setting bus) {operations : List Operation} (named : ∀ operation ∈ operations, operation.named = true) :
    Kept setting (run setting bus operations) := by
  induction operations generalizing bus with
  | nil => exact kept
  | cons operation operations ih =>
    rw [run_cons]
    apply ih
    · exact kept.apply (named operation List.mem_cons_self) (apply_moves setting bus operation)
    · exact fun later member => named later (List.mem_cons_of_mem _ member)

theorem run_later (setting : Setting) (numbered : Numbered bus) (operations : List Operation) :
    Numbered (run setting bus operations) ∧ Later bus (run setting bus operations) := by
  refine Machine.run_related Later Later.refl Later.trans Numbered ?_ numbered operations
  intro here operation next answer numbered moves
  obtain ⟨rfl, -⟩ := Prod.mk.inj (Option.some.inj moves)
  exact numbered.apply (apply_moves setting here operation)

theorem start_kept : Kept setting .start := ⟨consistent_empty 0, fun _ member => absurd member List.not_mem_nil⟩

theorem start_numbered : Numbered .start := ⟨Nat.zero_lt_one, fun _ member => absurd member List.not_mem_nil⟩

/-- What is refused changes nothing. -/
theorem refused_registry (refused : (bus.apply setting operation).1 = false) : (bus.apply setting operation).2.registry = bus.registry := by
  have moves := apply_moves setting bus operation
  revert refused moves
  generalize bus.apply setting operation = answer
  intro refused moves
  cases moves with
  | refused => rfl
  | put => cases refused
  | replaced => cases refused
  | removed => cases refused
  | prepared => cases refused
  | published => cases refused

/-- A publication that was prepared is accepted exactly if the registry stayed as it was. -/
theorem published_iff (numbered : Numbered bus) (replacements : List NamespaceCommands) (between : List Operation)
    (prepares : (bus.apply setting (.prepareNamespaces replacements)).1 = true) :
    ((run setting bus (.prepareNamespaces replacements :: between)).apply setting (.publishNamespaces bus.prepared.length)).1 = true ↔
      ∀ before after, between = before ++ after →
        (run setting bus (.prepareNamespaces replacements :: before)).registry = bus.registry := by
  obtain ⟨candidate, goes⟩ : ∃ candidate, bus.apply setting (.prepareNamespaces replacements) =
      (true, { bus with revisions := bus.revisions + 1, prepared := bus.prepared ++ [⟨bus.registry.revision, candidate⟩] }) := by
    simp only [Bus.apply, Bus.prepareNamespaces] at prepares ⊢
    cases replaced : bus.registry.replacing setting bus.revisions replacements with
    | error refusal => simp [replaced, Except.isOk, Except.toBool] at prepares
    | ok candidate => exact ⟨candidate, rfl⟩
  have numberedNext := (numbered.apply (apply_moves setting bus (.prepareNamespaces replacements))).1
  simp only [run_cons, goes] at numberedNext ⊢
  -- What was prepared stays ready, with the revision it was prepared from.
  have ready : (run setting { bus with revisions := bus.revisions + 1, prepared := bus.prepared ++ [⟨bus.registry.revision, candidate⟩] }
      between).prepared[bus.prepared.length]? = some ⟨bus.registry.revision, candidate⟩ := by
    obtain ⟨more, whole⟩ := (run_later setting numberedNext between).2.prepared
    rw [← whole, List.append_assoc, List.getElem?_append_right (Nat.le_refl _), Nat.sub_self]
    rfl
  have accepted : ∀ last : Bus, last.prepared[bus.prepared.length]? = some ⟨bus.registry.revision, candidate⟩ →
      ((last.apply setting (.publishNamespaces bus.prepared.length)).1 = true ↔ last.registry.revision = bus.registry.revision) := by
    intro last there
    simp only [Bus.apply, there, Bus.publishNamespaces]
    split
    · rename_i same
      simp [same, Except.isOk, Except.toBool]
    · rename_i other
      simp [other, Except.isOk, Except.toBool]
  rw [accepted _ ready]
  constructor
  · intro same before after whole
    obtain ⟨numberedMiddle, early⟩ := run_later setting numberedNext before
    subst whole
    rw [run_append] at same
    have late := (run_later setting numberedMiddle after).2
    exact (early.same (Nat.le_antisymm early.newer (late.newer.trans same.le))).symm
  · intro unchanged
    rw [unchanged between [] (List.append_nil _).symm]

/-- After any operations: commands belong to the sources that hold their namespaces, no two
have a shortcut and its condition in common, a refused operation changes nothing, and a
publication is accepted exactly on the registry it was prepared from. -/
theorem registry_consistent (setting : Setting) (operations : List Operation)
    (named : ∀ operation ∈ operations, operation.named = true) :
    Consistent setting (run setting .start operations).registry ∧ Sole (run setting .start operations).registry ∧
      Free setting (run setting .start operations).registry ∧
      (∀ operation, ((run setting .start operations).apply setting operation).1 = false →
        ((run setting .start operations).apply setting operation).2.registry = (run setting .start operations).registry) ∧
      ∀ replacements between,
        ((run setting .start operations).apply setting (.prepareNamespaces replacements)).1 = true →
        (((run setting .start (operations ++ .prepareNamespaces replacements :: between)).apply setting
            (.publishNamespaces (run setting .start operations).prepared.length)).1 = true ↔
          ∀ before after, between = before ++ after →
            (run setting .start (operations ++ .prepareNamespaces replacements :: before)).registry =
              (run setting .start operations).registry) := by
  have kept : Kept setting (run setting .start operations) := run_kept start_kept named
  have numbered : Numbered (run setting .start operations) := (run_later setting start_numbered operations).1
  refine ⟨kept.active, kept.active.sole, kept.active.free, fun operation => refused_registry, ?_⟩
  intro replacements between prepares
  simp only [run_append]
  exact published_iff numbered replacements between prepares

def plain : Setting := ⟨String.toLower, fun _ => false⟩

/-- One key, told apart by its condition. -/
def twoSaves : List Operation :=
  [.register ⟨⟨"oxplow.file.save", some ⟨some "Ctrl/Cmd+S", none⟩⟩⟩,
    .registerNamespace "acme" "provider:acme" [⟨⟨"acme.note.save", some ⟨some "ctrl/cmd+s", some "noteShown"⟩⟩⟩]]

theorem registry_consistent_twoSaves :
    Consistent plain (run plain .start twoSaves).registry ∧ Sole (run plain .start twoSaves).registry := by
  have all := registry_consistent plain twoSaves (by decide)
  exact ⟨all.1, all.2.1⟩

end Oxplow.Proofs.RegistryRuns
