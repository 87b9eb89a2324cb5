/-
This file proves which refused movements leave an engine as it was.
-/

import Liasse.Codes.Table
import Liasse.Host.Registry

namespace Liasse.Host

open Liasse.History Liasse.Keys

section Provisioning

variable {P : Type} {host : HostBinding P}

/-- The registered names that declarations draw a provider from, in order. -/
def drawn (host : HostBinding P) (decls : List CompiledKeyring) : List String :=
  decls.filterMap fun decl => decl.provider.filter host.registeredProviders.contains

theorem HostBinding.ext {first second : HostBinding P} (registry : first.registry = second.registry)
    (requires : first.requires = second.requires)
    (registered : first.registeredProviders = second.registeredProviders) : first = second := by
  cases first
  cases second
  cases registry
  cases requires
  cases registered
  rfl

/-- The removal of a provider that is not there leaves the host. -/
theorem HostBinding.without_of_missing {name : String} (missing : name ∉ host.registry.providers) :
    host.without name = host := by
  refine HostBinding.ext ?_ rfl rfl
  have same : host.registry.providers.erase name = host.registry.providers := by
    apply Std.ExtTreeMap.ext_getElem?
    intro other
    rw [Std.ExtTreeMap.getElem?_erase]
    split
    next equal =>
      rw [← Std.LawfulEqCmp.eq_of_compare equal]
      exact (Std.ExtTreeMap.getElem?_eq_none missing).symm
    next => rfl
  simp only [HostBinding.without, same]

theorem HostBinding.without_missing (host : HostBinding P) (name : String) :
    name ∉ (host.without name).registry.providers := by
  simp [HostBinding.without, Std.ExtTreeMap.mem_erase]

theorem HostBinding.without_ne {name : String} (present : name ∈ host.registry.providers) :
    ∀ other : HostBinding P, name ∉ other.registry.providers → other ≠ host := by
  rintro other missing rfl
  exact missing present

/-- A declaration of a registered name takes its provider. -/
theorem resolveProvider_registered {decl : CompiledKeyring} {name : String}
    (registered : name ∈ decl.provider.filter host.registeredProviders.contains) :
    resolveProvider decl host = (host.registry.providers[name]?, true, host.without name) := by
  obtain ⟨declared, known⟩ := Option.mem_filter_iff.mp registered
  rw [resolveProvider, Option.mem_def.mp declared]
  simp only [HostBinding.resolveProvider, known]

theorem resolveProvider_missing {decl : CompiledKeyring} {name : String}
    (missing : name ∉ host.registry.providers) :
    name ∉ (resolveProvider decl host).2.2.registry.providers := by
  cases declared : decl.provider with
  | none => simpa [resolveProvider, declared] using missing
  | some other =>
    intro present
    simp only [resolveProvider, declared, HostBinding.resolveProvider] at present
    exact missing (Std.ExtTreeMap.mem_of_mem_erase present)

/-- The other providers stay available. -/
theorem HostBinding.getElem?_without {name other : String} {provider : P} :
    (host.without name).registry.providers[other]? = some provider ↔
      other ≠ name ∧ host.registry.providers[other]? = some provider := by
  by_cases same : other = name
  · subst same
    simp [Std.ExtTreeMap.getElem?_eq_none (host.without_missing other)]
  · simp only [HostBinding.without, Codes.getElem?_erase_of_ne same, ne_eq, same, not_false_eq_true,
      true_and]

variable [EngineProvider P] {clock : Timestamp}

/-- Each declaration of a registered name draws an available provider of its own, and its ring loads. -/
structure Provisions (host : HostBinding P) (clock : Timestamp) (decls : List CompiledKeyring) : Prop where
  distinct : (drawn host decls).Nodup
  loads : ∀ decl ∈ decls, ∀ name ∈ decl.provider.filter host.registeredProviders.contains,
    ∃ provider ring, host.registry.providers[name]? = some provider ∧
      loadInjectedRing decl provider clock = .ok ring

/-- A declaration without a registered name leaves the host, and its ring is the built-in one. -/
theorem provisionRing_builtIn (clock : Timestamp) {decl : CompiledKeyring}
    (unregistered : decl.provider.filter host.registeredProviders.contains = none) :
    (resolveProvider decl host).2.2 = host ∧
      provisionRing decl clock (resolveProvider decl host).1 (resolveProvider decl host).2.1 =
        .ok (simRing decl clock) := by
  unfold resolveProvider provisionRing
  cases declared : decl.provider with
  | none => exact ⟨rfl, rfl⟩
  | some name =>
    rw [declared] at unregistered
    have foreign : host.registeredProviders.contains name = false := by
      rw [← Bool.not_eq_true, Std.TreeSet.contains_iff_mem]
      simpa [Option.filter] using unregistered
    have missing : name ∉ host.registry.providers := by
      intro present
      have registered := host.available name present
      rw [← Std.TreeSet.contains_iff_mem, foreign] at registered
      cases registered
    have absent : host.registry.providers[name]? = none := Std.ExtTreeMap.getElem?_eq_none missing
    simp only [HostBinding.resolveProvider, absent, foreign]
    exact ⟨host.without_of_missing missing, rfl⟩

/-- Provisioning ends at a declaration or goes on after it. -/
theorem provisionRings_cons (host : HostBinding P) (clock : Timestamp) (decl : CompiledKeyring) (rest : List CompiledKeyring) :
    (provisionRings clock host (decl :: rest)).2 = (resolveProvider decl host).2.2 ∨
      (provisionRings clock host (decl :: rest)).2 =
        (provisionRings clock (resolveProvider decl host).2.2 rest).2 := by
  simp only [provisionRings]
  split
  · exact .inl rfl
  · refine .inr ?_
    split <;> next rings => rw [rings]

/-- Provisioning only removes providers. -/
theorem provisionRings_missing {decls : List CompiledKeyring} {name : String}
    (missing : name ∉ host.registry.providers) :
    name ∉ (provisionRings clock host decls).2.registry.providers := by
  induction decls generalizing host with
  | nil => exact missing
  | cons decl rest earlier =>
    rcases provisionRings_cons host clock decl rest with ended | went
    · rw [ended]
      exact resolveProvider_missing missing
    · rw [went]
      exact earlier (resolveProvider_missing missing)

/-- A registered name that has no available provider refuses. -/
theorem provisionRing_unavailable {decl : CompiledKeyring} {name : String}
    (registered : name ∈ decl.provider.filter host.registeredProviders.contains) :
    provisionRing (P := P) decl clock none true = .error (.providerUnavailable decl.name name) := by
  rw [provisionRing, Option.mem_def.mp (Option.mem_filter_iff.mp registered).1]
  rfl

/-- Provisioning leaves the host when the first registered name has no available provider. -/
theorem provisionRings_host {decls : List CompiledKeyring} :
    (provisionRings clock host decls).2 = host ↔
      ∀ name ∈ (drawn host decls).head?, name ∉ host.registry.providers := by
  induction decls with
  | nil => simp [provisionRings, drawn]
  | cons decl rest earlier =>
    cases known : decl.provider.filter host.registeredProviders.contains with
    | none =>
      obtain ⟨same, ring⟩ := provisionRing_builtIn clock known
      have names : drawn host (decl :: rest) = drawn host rest := List.filterMap_cons_none known
      rw [names, ← earlier]
      simp only [provisionRings, ring, same]
      split <;> next rings => rw [rings]
    | some name =>
      have names : drawn host (decl :: rest) = name :: drawn host rest := List.filterMap_cons_some known
      have taken := resolveProvider_registered known
      simp only [names, List.head?_cons, Option.mem_some_iff, forall_eq']
      constructor
      · intro kept present
        refine HostBinding.without_ne present _ ?_ kept
        have gone : name ∉ (resolveProvider decl host).2.2.registry.providers := by
          rw [taken]
          exact host.without_missing name
        rcases provisionRings_cons host clock decl rest with ended | went
        · rw [ended]
          exact gone
        · rw [went]
          exact provisionRings_missing gone
      · intro missing
        simp only [provisionRings, taken, Std.ExtTreeMap.getElem?_eq_none missing,
          provisionRing_unavailable known]
        exact host.without_of_missing missing

/-- Provisioning succeeds when each registered name gives its declaration an available provider. -/
theorem provisionRings_ok {decls : List CompiledKeyring} :
    (∃ rings, (provisionRings clock host decls).1 = .ok rings) ↔ Provisions host clock decls := by
  induction decls generalizing host with
  | nil =>
    exact ⟨fun _ => ⟨List.nodup_nil, fun _ inside => (List.not_mem_nil inside).elim⟩,
      fun _ => ⟨[], rfl⟩⟩
  | cons decl rest earlier =>
    have passes : ∀ ring, provisionRing decl clock (resolveProvider decl host).1
          (resolveProvider decl host).2.1 = .ok ring →
        ((∃ rings, (provisionRings clock host (decl :: rest)).1 = .ok rings) ↔
          Provisions (resolveProvider decl host).2.2 clock rest) := by
      intro ring made
      rw [← earlier]
      simp only [provisionRings, made]
      split <;> next rings => simp [rings]
    cases known : decl.provider.filter host.registeredProviders.contains with
    | none =>
      obtain ⟨same, ring⟩ := provisionRing_builtIn clock known
      have names : drawn host (decl :: rest) = drawn host rest := List.filterMap_cons_none known
      rw [passes _ ring, same]
      constructor
      · intro provisions
        refine ⟨names ▸ provisions.distinct, fun other inside name draws => ?_⟩
        rcases List.mem_cons.mp inside with rfl | inside
        · rw [known] at draws
          cases draws
        · exact provisions.loads other inside name draws
      · intro provisions
        exact ⟨names ▸ provisions.distinct,
          fun other inside => provisions.loads other (List.mem_cons_of_mem _ inside)⟩
    | some name =>
      have names : drawn host (decl :: rest) = name :: drawn host rest := List.filterMap_cons_some known
      have taken := resolveProvider_registered known
      cases available : host.registry.providers[name]? with
      | none =>
        have refused : (provisionRings clock host (decl :: rest)).1 =
            .error (.providerUnavailable decl.name name) := by
          simp only [provisionRings, taken, available, provisionRing_unavailable known]
        constructor
        · rintro ⟨rings, made⟩
          rw [refused] at made
          cases made
        · intro provisions
          obtain ⟨provider, ring, found, -⟩ := provisions.loads decl List.mem_cons_self name known
          rw [available] at found
          cases found
      | some provider =>
        cases loaded : loadInjectedRing decl provider clock with
        | error error =>
          have refused : (provisionRings clock host (decl :: rest)).1 = .error error := by
            simp only [provisionRings, taken, available, provisionRing, loaded]
          constructor
          · rintro ⟨rings, made⟩
            rw [refused] at made
            cases made
          · intro provisions
            obtain ⟨other, ring, found, loads⟩ :=
              provisions.loads decl List.mem_cons_self name known
            obtain rfl := Option.some.inj (available.symm.trans found)
            rw [loaded] at loads
            cases loads
        | ok ring =>
          have made : provisionRing decl clock (resolveProvider decl host).1
              (resolveProvider decl host).2.1 = .ok (some ring) := by
            simp only [taken, available, provisionRing, loaded]
          rw [passes _ made, taken]
          constructor
          · intro provisions
            have fresh : name ∉ drawn host rest := by
              intro again
              obtain ⟨other, inside, draws⟩ := List.mem_filterMap.mp again
              obtain ⟨_, _, found, -⟩ := provisions.loads other inside name draws
              exact (HostBinding.getElem?_without.mp found).1 rfl
            refine ⟨names ▸ List.nodup_cons.mpr ⟨fresh, provisions.distinct⟩,
              fun other inside next draws => ?_⟩
            rcases List.mem_cons.mp inside with rfl | inside
            · obtain rfl := Option.some.inj (known.symm.trans draws)
              exact ⟨provider, ring, available, loaded⟩
            · obtain ⟨provider, ring, found, loads⟩ := provisions.loads other inside next draws
              exact ⟨provider, ring, (HostBinding.getElem?_without.mp found).2, loads⟩
          · intro provisions
            obtain ⟨fresh, distinct⟩ := List.nodup_cons.mp (names ▸ provisions.distinct)
            refine ⟨distinct, fun other inside next draws => ?_⟩
            obtain ⟨provider, ring, found, loads⟩ :=
              provisions.loads other (List.mem_cons_of_mem _ inside) next draws
            refine ⟨provider, ring, HostBinding.getElem?_without.mpr ⟨?_, found⟩, loads⟩
            rintro rfl
            exact fresh (List.mem_filterMap.mpr ⟨other, inside, draws⟩)

/-- The bound requirements play no part in provisioning. -/
theorem provisions_requires {decls : List CompiledKeyring} (resolved : Requirements) :
    Provisions { host with requires := resolved } clock decls ↔ Provisions host clock decls :=
  ⟨fun provisions => ⟨provisions.distinct, provisions.loads⟩,
    fun provisions => ⟨provisions.distinct, provisions.loads⟩⟩

/-- Provisioning leaves the bound requirements. -/
theorem provisionRings_requires {decls : List CompiledKeyring} :
    (provisionRings clock host decls).2.requires = host.requires := by
  induction decls generalizing host with
  | nil => rfl
  | cons decl rest earlier =>
    have same : (resolveProvider decl host).2.2.requires = host.requires := by
      cases declared : decl.provider <;> simp [resolveProvider, declared, HostBinding.resolveProvider,
        HostBinding.without]
    rcases provisionRings_cons host clock decl rest with ended | went
    · rw [ended, same]
    · rw [went, earlier, same]

end Provisioning

section Refusals

variable {S M P : Type} [InstanceStore S M] [EngineProvider P]

/-- What a movement activates once its earlier checks have passed. -/
structure Attempt (S M : Type) [InstanceStore S M] where
  definition : String
  target : Target M
  state : M → Except EngineError (InstanceStore.Rows S M)

/-- A movement of an engine to another definition. -/
inductive Movement (S M P : Type) [InstanceStore S M]
  | update (definition : String)
      (checks : Engine S M P → Except EngineError (Target M × InstanceStore.Rows S M))
  | importArtifact (opened : Except EngineError (Engine.Artifact S M)) (policy : List ImportRelation)
  | reinstall (definition : String) (compiled : Except EngineError (Target M))
      (state : M → Except EngineError (InstanceStore.Rows S M))

namespace Movement

/-- The refusal of a movement or its success, with the engine after it. -/
def perform (engine : Engine S M P) : Movement S M P → Except EngineError Unit × Engine S M P
  | .update definition checks =>
    let (result, after) := engine.update definition checks
    (result.map fun _ => (), after)
  | .importArtifact opened policy =>
    let (result, after) := engine.importArtifact opened policy
    (result.map fun _ => (), after)
  | .reinstall definition compiled state =>
    let (result, after) := engine.reinstallPoint definition compiled state
    (result.map fun _ => (), after)

/-- The activation that a movement reaches. A movement that its checks refuse, or an import that the
policy does not apply, reaches none. -/
def attempt (engine : Engine S M P) : Movement S M P → Option (Attempt S M)
  | .update definition checks =>
    match checks engine with
    | .error _ => none
    | .ok (target, migrated) => some ⟨definition, target, fun _ => .ok migrated⟩
  | .importArtifact opened policy =>
    match opened with
    | .error _ => none
    | .ok artifact =>
      if Engine.applies (engine.classify artifact) policy then
        match artifact.sections, artifact.compiled with
        | .ok (definition, state), .ok target => some ⟨definition, target, state⟩
        | _, _ => none
      else none
  | .reinstall definition compiled state =>
    match compiled with
    | .error _ => none
    | .ok target => some ⟨definition, target, state⟩

end Movement

namespace Engine

/-- The steps that a migration and a reinstalled point share, with the host after them. -/
def activation (engine : Engine S M P) (attempt : Attempt S M) :
    Except EngineError (CommitOutcome S × Nat × List (Keyring P)) × HostBinding P :=
  match engine.host.rebind attempt.target.requires with
  | (.error error, host) => (.error error, host)
  | (.ok (), host) =>
    match provisionNewKeyrings engine.keyrings attempt.target.keyrings engine.clock host with
    | (.error error, host) => (.error error, host)
    | (.ok provisioned, host) =>
      match attempt.state attempt.target.model with
      | .error error => (.error error, host)
      | .ok rows =>
        match engine.replaceRows attempt.definition rows with
        | .error error => (.error error, host)
        | .ok (outcome, seq) => (.ok (outcome, seq, provisioned), host)

/-- A refused activation leaves all but the host, and the movement is refused. -/
def Follows (engine : Engine S M P) (attempt : Attempt S M) {A : Type}
    (moved : Except EngineError A × Engine S M P) : Prop :=
  match engine.activation attempt with
  | (.error error, host) => moved = (.error error, { engine with host := host })
  | (.ok _, _) => ∃ result, moved.1 = .ok result

theorem reinstallPoint_follows (engine : Engine S M P) (definition : String) (target : Target M)
    (state : M → Except EngineError (InstanceStore.Rows S M)) :
    engine.Follows ⟨definition, target, state⟩ (engine.reinstallPoint definition (.ok target) state) := by
  simp only [Follows, activation, reinstallPoint]
  rcases engine.host.rebind target.requires with ⟨_ | _, host⟩
  · rfl
  · simp only
    rcases provisionNewKeyrings engine.keyrings target.keyrings engine.clock host with ⟨_ | provisioned, host⟩
    · rfl
    · simp only
      rcases state target.model with _ | rows
      · rfl
      · simp only
        rcases engine.replaceRows definition rows with _ | ⟨outcome, seq⟩
        · rfl
        · exact ⟨_, rfl⟩

theorem applyMigration_follows (engine : Engine S M P) (definition : String) (target : Target M)
    (migrated : InstanceStore.Rows S M) :
    engine.Follows ⟨definition, target, fun _ => .ok migrated⟩
      (engine.applyMigration definition target migrated) := by
  simp only [Follows, activation, applyMigration]
  rcases engine.host.rebind target.requires with ⟨_ | _, host⟩
  · rfl
  · simp only
    rcases provisionNewKeyrings engine.keyrings target.keyrings engine.clock host with ⟨_ | provisioned, host⟩
    · rfl
    · simp only
      rcases engine.replaceRows definition migrated with _ | ⟨_ | _, seq⟩
      · rfl
      · exact ⟨_, rfl⟩
      · exact ⟨_, rfl⟩

/-- A success with another report follows too. -/
theorem Follows.map {engine : Engine S M P} {attempt : Attempt S M} {A B : Type} (report : A → B)
    {moved : Except EngineError A × Engine S M P} {other : Except EngineError B × Engine S M P}
    (follows : engine.Follows attempt moved)
    (refused : ∀ error after, moved = (.error error, after) → other = (.error error, after))
    (reported : ∀ result, moved.1 = .ok result → other.1 = .ok (report result)) :
    engine.Follows attempt other := by
  unfold Follows at follows ⊢
  split at follows
  · exact refused _ _ follows
  · obtain ⟨result, made⟩ := follows
    exact ⟨report result, reported result made⟩

/-- No movement of the first registered name is possible, or a live ring changes its policy. -/
def Undrawn (engine : Engine S M P) (target : Target M) : Prop :=
  (changedPolicy engine.keyrings target.keyrings).isSome ∨
    ∀ name ∈ (drawn engine.host (newlyDeclared engine.keyrings target.keyrings)).head?,
      name ∉ engine.host.registry.providers

/-- The live rings keep their policies, the new rings are provisioned, and the rows of the attempt can be
read and committed. -/
structure Completes (engine : Engine S M P) (attempt : Attempt S M) : Prop where
  policies : changedPolicy engine.keyrings attempt.target.keyrings = none
  provisions : Provisions engine.host engine.clock
    (newlyDeclared engine.keyrings attempt.target.keyrings)
  rows : ∃ rows outcome, attempt.state attempt.target.model = .ok rows ∧
    engine.replaceRows attempt.definition rows = .ok outcome

/-- The requirements of a target do not resolve, or they resolve to the bound ones and no provider is
drawn, or nothing after them refuses. -/
def Intact (engine : Engine S M P) (attempt : Attempt S M) : Prop :=
  ∀ resolved, bind engine.host.registry attempt.target.requires = .ok resolved →
    engine.Completes attempt ∨ (resolved = engine.host.requires ∧ engine.Undrawn attempt.target)

omit [InstanceStore S M] in
/-- Provisioning under resolved requirements leaves the host when they are the bound ones and no provider
is drawn. -/
theorem provisioned_host {engine : Engine S M P} {target : Target M} (resolved : Requirements)
    (kept : changedPolicy engine.keyrings target.keyrings = none) :
    (provisionRings engine.clock { engine.host with requires := resolved }
        (newlyDeclared engine.keyrings target.keyrings)).2 = engine.host ↔
      resolved = engine.host.requires ∧ engine.Undrawn target := by
  have undrawn : engine.Undrawn target ↔
      ∀ name ∈ (drawn engine.host (newlyDeclared engine.keyrings target.keyrings)).head?,
        name ∉ engine.host.registry.providers := by
    simp [Undrawn, kept]
  rw [undrawn]
  constructor
  · intro same
    obtain rfl : resolved = engine.host.requires := by
      have requires := congrArg HostBinding.requires same
      rwa [provisionRings_requires] at requires
    exact ⟨rfl, provisionRings_host.mp same⟩
  · rintro ⟨rfl, missing⟩
    exact provisionRings_host.mpr missing

/-- A refused activation leaves the host exactly when the attempt is intact. -/
theorem activation_intact (engine : Engine S M P) (attempt : Attempt S M) :
    (∀ error host, engine.activation attempt = (.error error, host) → host = engine.host) ↔
      engine.Intact attempt := by
  cases bound : bind engine.host.registry attempt.target.requires with
  | error error =>
    constructor
    · intro _ resolved found
      rw [bound] at found
      cases found
    · intro _ error host refused
      simp only [activation, HostBinding.rebind, bound] at refused
      exact (Prod.mk.inj refused).2.symm
  | ok resolved =>
    have intact : engine.Intact attempt ↔ (engine.Completes attempt ∨
        (resolved = engine.host.requires ∧ engine.Undrawn attempt.target)) := by
      constructor
      · intro intact
        exact intact resolved bound
      · intro either other found
        rw [bound] at found
        cases found
        exact either
    have refuses : ∀ (error : EngineError) (host : HostBinding P),
        engine.activation attempt = (.error error, host) →
        ((∀ error host, engine.activation attempt = (.error error, host) → host = engine.host) ↔
          host = engine.host) := by
      intro error host refused
      constructor
      · exact fun kept => kept error host refused
      · intro kept other after again
        rw [refused] at again
        rw [← (Prod.mk.inj again).2, kept]
    rw [intact]
    cases changed : changedPolicy engine.keyrings attempt.target.keyrings with
    | some ring =>
      rw [refuses (.policyChange ring.name) { engine.host with requires := resolved } (by
        simp only [activation, HostBinding.rebind, bound, provisionNewKeyrings, changed])]
      constructor
      · intro same
        exact .inr ⟨congrArg HostBinding.requires same, .inl (by rw [changed]; rfl)⟩
      · rintro (completes | ⟨rfl, -⟩)
        · have kept := completes.policies
          rw [changed] at kept
          cases kept
        · rfl
    | none =>
      have hosts := provisioned_host resolved changed
      have completes : (∃ rings, (provisionRings engine.clock { engine.host with requires := resolved }
          (newlyDeclared engine.keyrings attempt.target.keyrings)).1 = .ok rings) ↔
          Provisions engine.host engine.clock
            (newlyDeclared engine.keyrings attempt.target.keyrings) :=
        provisionRings_ok.trans (provisions_requires resolved)
      cases rings : provisionRings engine.clock { engine.host with requires := resolved }
        (newlyDeclared engine.keyrings attempt.target.keyrings) with
      | mk result host =>
      rw [rings] at hosts completes
      have stops : ∀ error, engine.activation attempt = (.error error, host) →
          ¬ engine.Completes attempt →
          ((∀ error host, engine.activation attempt = (.error error, host) → host = engine.host) ↔
            (engine.Completes attempt ∨
              (resolved = engine.host.requires ∧ engine.Undrawn attempt.target))) := by
        intro error refused incomplete
        rw [refuses error host refused, hosts]
        exact ⟨.inr, fun either => either.resolve_left incomplete⟩
      cases result with
      | error error =>
        refine stops error ?_ fun all => ?_
        · simp only [activation, HostBinding.rebind, bound, provisionNewKeyrings, changed, rings]
        · obtain ⟨_, made⟩ := completes.mpr all.provisions
          cases made
      | ok provisioned =>
        cases read : attempt.state attempt.target.model with
        | error error =>
          refine stops error ?_ fun all => ?_
          · simp only [activation, HostBinding.rebind, bound, provisionNewKeyrings, changed, rings,
              read]
          · obtain ⟨_, _, found, -⟩ := all.rows
            rw [read] at found
            cases found
        | ok rows =>
          cases replaced : engine.replaceRows attempt.definition rows with
          | error error =>
            refine stops error ?_ fun all => ?_
            · simp only [activation, HostBinding.rebind, bound, provisionNewKeyrings, changed,
                rings, read, replaced]
            · obtain ⟨_, _, found, also⟩ := all.rows
              obtain rfl := Except.ok.inj (read.symm.trans found)
              rw [replaced] at also
              cases also
          | ok outcome =>
            refine ⟨fun _ => .inl ⟨changed, completes.mp ⟨_, rfl⟩, rows, outcome, read, replaced⟩,
              fun _ error after refused => ?_⟩
            simp only [activation, HostBinding.rebind, bound, provisionNewKeyrings, changed, rings,
              read, replaced] at refused
            cases (Prod.mk.inj refused).1

end Engine

namespace Movement

/-- A movement that reaches no activation leaves the engine when it is refused. -/
theorem perform_unreached {engine : Engine S M P} {movement : Movement S M P}
    (unreached : movement.attempt engine = none) {error : EngineError} {after : Engine S M P}
    (refused : movement.perform engine = (.error error, after)) : after = engine := by
  cases movement with
  | update definition checks =>
    simp only [attempt] at unreached
    cases checked : checks engine with
    | ok result => simp [checked] at unreached
    | error reason =>
      simp only [perform, Engine.update, checked] at refused
      exact (Prod.mk.inj refused).2.symm
  | reinstall definition compiled state =>
    cases compiled with
    | ok target => simp [attempt] at unreached
    | error reason => exact (Prod.mk.inj refused).2.symm
  | importArtifact opened policy =>
    cases opened with
    | error reason => exact (Prod.mk.inj refused).2.symm
    | ok artifact =>
      simp only [attempt] at unreached
      simp only [perform, Engine.importArtifact] at refused
      split at unreached
      next applied =>
        rw [if_pos applied] at refused
        cases sections : artifact.sections with
        | error reason =>
          simp only [sections] at refused
          exact (Prod.mk.inj refused).2.symm
        | ok carried =>
          cases compiled : artifact.compiled with
          | error reason =>
            simp only [sections, compiled, Engine.reinstallPoint] at refused
            exact (Prod.mk.inj refused).2.symm
          | ok target => simp [sections, compiled] at unreached
      next idle =>
        rw [if_neg idle] at refused
        cases (Prod.mk.inj refused).1

/-- A movement that reaches an activation follows it. -/
theorem perform_follows {engine : Engine S M P} {movement : Movement S M P} {reached : Attempt S M}
    (found : movement.attempt engine = some reached) :
    engine.Follows reached (movement.perform engine) := by
  cases movement with
  | update definition checks =>
    simp only [attempt] at found
    cases checked : checks engine with
    | error reason => simp [checked] at found
    | ok result =>
      obtain ⟨target, migrated⟩ := result
      simp only [checked, Option.some.injEq] at found
      subst found
      refine (engine.applyMigration_follows definition target migrated).map (fun _ => ())
        (fun error after refused => ?_) fun result made => ?_
      · simp only [perform, Engine.update, checked, refused]
        rfl
      · simp only [perform, Engine.update, checked, made]
        rfl
  | reinstall definition compiled state =>
    cases compiled with
    | error reason => simp [attempt] at found
    | ok target =>
      obtain rfl := Option.some.inj found
      refine (engine.reinstallPoint_follows definition target state).map (fun _ => ())
        (fun error after refused => ?_) fun result made => ?_
      · simp only [perform, refused]
        rfl
      · simp only [perform, made]
        rfl
  | importArtifact opened policy =>
    cases opened with
    | error reason => simp [attempt] at found
    | ok artifact =>
      simp only [attempt] at found
      split at found
      next applied =>
        cases sections : artifact.sections with
        | error reason => simp [sections] at found
        | ok carried =>
          obtain ⟨definition, state⟩ := carried
          cases compiled : artifact.compiled with
          | error reason => simp [sections, compiled] at found
          | ok target =>
            simp only [sections, compiled, Option.some.injEq] at found
            subst found
            refine (engine.reinstallPoint_follows definition target state).map
              (fun _ => ()) (fun error after refused => ?_) fun result made => ?_
            · simp only [perform, Engine.importArtifact, if_pos applied, sections, compiled, refused]
              rfl
            · have pair : engine.reinstallPoint definition (.ok target) state =
                  (.ok result, (engine.reinstallPoint definition (.ok target) state).2) :=
                Prod.ext made rfl
              simp only [perform, Engine.importArtifact, if_pos applied, sections, compiled]
              rw [pair]
              rfl
      next => cases found

/-- A refused movement leaves the engine when the activation that it reaches is intact. -/
theorem perform_intact {engine : Engine S M P} {movement : Movement S M P}
    (intact : ∀ reached, movement.attempt engine = some reached → engine.Intact reached)
    {error : EngineError} {after : Engine S M P}
    (refused : movement.perform engine = (.error error, after)) : after = engine := by
  cases reached : movement.attempt engine with
  | none => exact perform_unreached reached refused
  | some attempt =>
    have follows := perform_follows reached
    unfold Engine.Follows at follows
    split at follows
    next other host activated =>
      rw [follows] at refused
      obtain ⟨-, rfl⟩ := Prod.mk.inj refused
      rw [(engine.activation_intact attempt).mpr (intact attempt reached) other host activated]
    next =>
      obtain ⟨result, made⟩ := follows
      rw [refused] at made
      cases made

/-- A refused movement leaves the engine exactly when the activation that it reaches is intact. -/
theorem refused_iff (engine : Engine S M P) (movement : Movement S M P) :
    (∀ error after, movement.perform engine = (.error error, after) → after = engine) ↔
      ∀ reached, movement.attempt engine = some reached → engine.Intact reached := by
  constructor
  · intro kept attempt reached
    have follows := perform_follows reached
    rw [← Engine.activation_intact]
    unfold Engine.Follows at follows
    intro error host refused
    rw [refused] at follows
    exact congrArg Engine.host (kept error _ follows)
  · exact fun intact error after refused => perform_intact intact refused

end Movement

end Refusals

section Sample

/-- A provider that counts the keys it generated. -/
structure SampleHsm where
  generated : Nat

/-- The capabilities of the sample provider. -/
def sampleCapabilities : KeyCapabilities where
  algorithms := ["ed25519"]
  operations := [.sign, .verify]
  canGenerate := true
  canBind := true
  protection := .hardware
  canDisable := true
  canDestroy := true
  canAttest := true

instance : EngineProvider SampleHsm where
  Failure := Empty
  generate := fun provider _ => (.ok provider.generated, ⟨provider.generated + 1⟩)
  publicKey := fun _ _ => .ok ⟨"ed25519", .bytes [1]⟩
  attest := fun _ _ => .ok none
  capabilities := fun _ => sampleCapabilities
  builtIn := fun _ => ⟨0⟩

instance : InstanceStore Unit Unit where
  Rows := Unit
  gather := fun _ _ => .ok ()
  commit := fun _ _ _ _ _ => .ok .unchanged
  head := fun _ => .ok 0

/-- A host with one registered provider. -/
def sampleHost : HostBinding SampleHsm where
  registry := ⟨[], (∅ : Std.ExtTreeMap String SampleHsm compare).insert "hsm" ⟨0⟩⟩
  requires := ∅
  registeredProviders := (∅ : Std.TreeSet String compare).insert "hsm"
  available := by simp

def sampleEngine : Engine Unit Unit SampleHsm where
  inst := "instance"
  store := ()
  model := ()
  clock := ⟨Runtime.saturate 128 0, .seconds⟩
  cursor := .genesis "instance"
  keyrings := []
  host := sampleHost

/-- The declaration of a manual ring. -/
def sampleRing (name : String) : CompiledKeyring where
  name := name
  provider := some "hsm"
  policy := ⟨"ed25519", [.sign], none, none, none⟩

/-- An update to a target that declares two rings of one provider. -/
def sampleUpdate : Movement Unit Unit SampleHsm :=
  .update "two rings" fun _ => .ok (⟨[], [sampleRing "first", sampleRing "second"], ()⟩, ())

/-- The second ring refuses the update, and the provider of the first is gone. -/
theorem update_loses_provider :
    ¬ ∀ error after, sampleUpdate.perform sampleEngine = (.error error, after) → after = sampleEngine := by
  intro kept
  have same := kept (.providerUnavailable "second" "hsm") (sampleUpdate.perform sampleEngine).2 (by rfl)
  have provider := congrArg (fun engine => engine.host.registry.providers["hsm"]?.isSome) same
  exact absurd provider (by decide)

end Sample

end Liasse.Host
