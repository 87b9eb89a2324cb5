/-
This file models the components that a host registers, the requirements that a package binds to them, the provisioning
of keyrings from registered providers and the movements of an engine to another definition.
-/

import Liasse.History.Lineage
import Liasse.Keys.Ring

namespace Liasse.Host

open Liasse.Keys Liasse.History

section Contracts

/-- The version of a descriptor. -/
structure Version where
  major : Nat
  minor : Nat
  patch : Nat
deriving DecidableEq

/-- A requirement names a contract and a compatible major. -/
structure ContractRef where
  name : List Char
  major : Nat
deriving DecidableEq

/-- The reason why a requirement is no reference. -/
inductive ContractError
  | emptyName
  | emptyComponent (name : List Char)
  | badFirstChar (component : List Char)
  | badChar (component : List Char) (found : Char)
  | missingMajor (text : List Char)
  | malformedMajor (major : List Char)

/-- A character is a lowercase letter. -/
def isAsciiLowercase (char : Char) : Bool :=
  'a'.toNat ≤ char.toNat && char.toNat ≤ 'z'.toNat

/-- A component starts with a lowercase letter and goes on with letters, digits and underscores. -/
def checkComponent (name component : List Char) : Except ContractError Unit :=
  match component with
  | [] => .error (.emptyComponent name)
  | first :: rest =>
    if !isAsciiLowercase first then .error (.badFirstChar component)
    else
      match rest.find? fun char => !(isAsciiLowercase char || char.isDigit || char = '_') with
      | some found => .error (.badChar component found)
      | none => .ok ()

/-- A contract name has components between its dots. -/
def checkName (name : List Char) : Except ContractError Unit :=
  if name = [] then .error .emptyName
  else (name.splitOn '.').forM (checkComponent name)

/-- The reference that a requirement spells. -/
def ContractRef.parse (text : List Char) : Except ContractError ContractRef :=
  match text.dropWhile (· ≠ '@') with
  | [] => .error (.missingMajor text)
  | _ :: major => do
      let name := text.takeWhile (· ≠ '@')
      checkName name
      match History.position (String.ofList major) with
      | some number => .ok ⟨name, number⟩
      | none => .error (.malformedMajor major)

/-- The registered descriptor of a namespace. -/
structure Descriptor where
  id : List Char
  version : Version
  interfaceHash : String
deriving DecidableEq

/-- A descriptor of the contract within the major satisfies a requirement. -/
def ContractRef.accepts (required : ContractRef) (descriptor : Descriptor) : Bool :=
  required.name = descriptor.id && descriptor.version.major = required.major

/-- The reason why a requirement resolves to no single descriptor. -/
inductive ResolutionError
  | missing (required : ContractRef)
  | incompatible (required : ContractRef) (found : List Version)
  | ambiguous (required : ContractRef) (candidates : List (Version × String))

end Contracts

section Providers

/-- What a key provider advertises. -/
structure KeyCapabilities where
  algorithms : List String
  operations : List KeyOperation
  canGenerate : Bool
  canBind : Bool
  protection : ProtectionClass
  canDisable : Bool
  canDestroy : Bool
  canAttest : Bool

/-- The demand of a policy on its provider. -/
structure ProviderRequirement where
  algorithm : String
  operations : List KeyOperation
  automatic : Bool
  externalBinding : Bool
  protection : Option ProtectionClass
  needsDisable : Bool
  needsDestroy : Bool
  needsAttestation : Bool

/-- The way in which a provider fails a demand. -/
inductive CapabilityShortfall
  | algorithm (name : String)
  | operation (operation : KeyOperation)
  | generation
  | binding
  | protection (required advertised : ProtectionClass)
  | disable
  | destroy
  | attestation

/-- Hardware protection satisfies a software requirement. -/
def protects : ProtectionClass → ProtectionClass → Bool
  | .hardware, _ | .software, .software => true
  | .software, .hardware => false

/-- The first demand that the capabilities do not meet. -/
def KeyCapabilities.shortfall (capabilities : KeyCapabilities) (requirement : ProviderRequirement) :
    Option CapabilityShortfall :=
  if requirement.algorithm ∉ capabilities.algorithms then some (.algorithm requirement.algorithm)
  else
    match requirement.operations.find? fun operation => operation ∉ capabilities.operations with
    | some operation => some (.operation operation)
    | none =>
      if requirement.automatic && !capabilities.canGenerate then some .generation
      else if requirement.externalBinding && !capabilities.canBind then some .binding
      else
        match requirement.protection.filter fun required => !protects capabilities.protection required with
        | some required => some (.protection required capabilities.protection)
        | none =>
          if requirement.needsDisable && !capabilities.canDisable then some .disable
          else if requirement.needsDestroy && !capabilities.canDestroy then some .destroy
          else if requirement.needsAttestation && !capabilities.canAttest then some .attestation
          else none

/-- An automatic ring generates and disables keys. A manual ring binds external keys. -/
def requirementOf (policy : KeyringPolicy) : ProviderRequirement where
  algorithm := policy.algorithm
  operations := policy.usage
  automatic := !policy.isManual
  externalBinding := policy.isManual
  protection := policy.protection
  needsDisable := !policy.isManual
  needsDestroy := false
  needsAttestation := false

/-- The provider of an engine keyring is registered by the host, or it is the built-in one of a
policy. -/
class EngineProvider (P : Type) extends KeyProvider P where
  capabilities : P → KeyCapabilities
  builtIn : KeyringPolicy → P

end Providers

section Binding

/-- The components that a host has registered. -/
structure Registry (P : Type) where
  namespaces : List Descriptor
  providers : Std.ExtTreeMap String P compare

/-- The requirements of a package by local name. -/
abbrev Requirements := Std.ExtTreeMap String ContractRef compare

/-- The binding of a package keeps the names of the providers that were registered at load. -/
structure HostBinding (P : Type) where
  registry : Registry P
  requires : Requirements
  registeredProviders : Std.TreeSet String compare
  available : ∀ (name : String), name ∈ registry.providers → name ∈ registeredProviders

/-- The reason why an engine refuses a movement. -/
inductive EngineError
  | reference (local_ spec : String) (error : ContractError)
  | requirement (local_ : String) (error : ResolutionError)
  | policyChange (ring : String)
  | providerUnavailable (ring provider : String)
  | shortfall (ring provider : String) (shortfall : CapabilityShortfall)
  | bootstrap (ring provider : String)
  | state (detail : String)
  | store (detail : String)

variable {P : Type}

/-- The namespace that a requirement resolves to is the only distinct descriptor that satisfies it. -/
def Registry.resolveNamespace (registry : Registry P) (required : ContractRef) :
    Except ResolutionError Descriptor :=
  let sameContract := registry.namespaces.filter fun descriptor => descriptor.id = required.name
  let satisfying := sameContract.filter required.accepts
  match satisfying with
  | [] =>
    if sameContract = [] then .error (.missing required)
    else .error (.incompatible required (sameContract.map Descriptor.version))
  | descriptor :: _ =>
    let distinct := (satisfying.map fun other => (other.version, other.interfaceHash)).eraseDups
    if distinct.length > 1 then .error (.ambiguous required distinct)
    else .ok descriptor

/-- Each requirement binds to its contract. -/
def bind (registry : Registry P) : List (String × String) → Except EngineError Requirements
  | [] => .ok ∅
  | (local_, spec) :: rest =>
    match ContractRef.parse spec.toList with
    | .error error => .error (.reference local_ spec error)
    | .ok contract =>
      match registry.resolveNamespace contract with
      | .error error => .error (.requirement local_ error)
      | .ok _ =>
        match bind registry rest with
        | .error error => .error error
        | .ok resolved => .ok (if local_ ∈ resolved then resolved else resolved.insert local_ contract)

namespace HostBinding

/-- The requirements of a target replace the bound ones. -/
def rebind (host : HostBinding P) (requires : List (String × String)) :
    Except EngineError Unit × HostBinding P :=
  match bind host.registry requires with
  | .error error => (.error error, host)
  | .ok resolved => (.ok (), { host with requires := resolved })

/-- The registry without a provider. -/
def without (host : HostBinding P) (name : String) : HostBinding P where
  registry := { host.registry with providers := host.registry.providers.erase name }
  requires := host.requires
  registeredProviders := host.registeredProviders
  available other inside := host.available other (Std.ExtTreeMap.mem_of_mem_erase inside)

/-- The provider of a name moves out of the registry. -/
def resolveProvider (host : HostBinding P) (name : String) : Option P × Bool × HostBinding P :=
  (host.registry.providers[name]?, host.registeredProviders.contains name, host.without name)

end HostBinding

end Binding

section Provisioning

/-- The declaration of a keyring. -/
structure CompiledKeyring where
  name : String
  provider : Option String
  policy : KeyringPolicy

deriving instance DecidableEq for RotationSchedule
deriving instance DecidableEq for KeyringPolicy

variable {P : Type} [EngineProvider P]

/-- The provider of a declaration and whether the host registered one under its name. -/
def resolveProvider (decl : CompiledKeyring) (host : HostBinding P) : Option P × Bool × HostBinding P :=
  match decl.provider with
  | some name => host.resolveProvider name
  | none => (none, false, host)

/-- A ring over a registered provider checks its capabilities and bootstraps. -/
def loadInjectedRing (decl : CompiledKeyring) (provider : P) (clock : Timestamp) :
    Except EngineError (Keyring P) :=
  let name := decl.provider.getD ""
  match (EngineProvider.capabilities provider).shortfall (requirementOf decl.policy) with
  | some shortfall => .error (.shortfall decl.name name shortfall)
  | none =>
    match (Keyring.load decl.name provider decl.policy).bootstrap clock with
    | (.error _, _) => .error (.bootstrap decl.name name)
    | (.ok (), ring) => .ok ring

/-- A ring over the built-in provider. A failed bootstrap leaves it without a version. -/
def simRing (decl : CompiledKeyring) (clock : Timestamp) : Option (Keyring P) :=
  let provider : P := EngineProvider.builtIn decl.policy
  match (EngineProvider.capabilities provider).shortfall (requirementOf decl.policy) with
  | some _ => none
  | none => some ((Keyring.load decl.name provider decl.policy).bootstrap clock).2

/-- A declared ring takes its registered provider. A name that was registered but is no longer
available refuses, and a name that was never registered keeps the built-in provider. -/
def provisionRing (decl : CompiledKeyring) (clock : Timestamp) (taken : Option P) (registered : Bool) :
    Except EngineError (Option (Keyring P)) :=
  match taken with
  | some injected =>
    match loadInjectedRing decl injected clock with
    | .error error => .error error
    | .ok ring => .ok (some ring)
  | none =>
    match decl.provider with
    | none => .ok (simRing decl clock)
    | some name =>
      if registered then .error (.providerUnavailable decl.name name)
      else .ok (simRing decl clock)

/-- The rings that a target newly declares are provisioned in order. -/
def provisionRings (clock : Timestamp) (host : HostBinding P) :
    List CompiledKeyring → Except EngineError (List (Keyring P)) × HostBinding P
  | [] => (.ok [], host)
  | decl :: rest =>
    let (taken, registered, host) := resolveProvider decl host
    match provisionRing decl clock taken registered with
    | .error error => (.error error, host)
    | .ok ring =>
      match provisionRings clock host rest with
      | (.error error, host) => (.error error, host)
      | (.ok rings, host) => (.ok (ring.toList ++ rings), host)

/-- The first live ring whose policy a target changes. -/
def changedPolicy (keyrings : List (Keyring P)) (target : List CompiledKeyring) : Option (Keyring P) :=
  keyrings.find? fun ring =>
    match target.find? fun decl => decl.name = ring.name with
    | some decl => ring.policy ≠ decl.policy
    | none => false

/-- The declarations of rings that are not live. -/
def newlyDeclared (keyrings : List (Keyring P)) (target : List CompiledKeyring) : List CompiledKeyring :=
  target.filter fun decl => !(keyrings.map Keyring.name).contains decl.name

/-- The live rings keep their policies, and the new ones are provisioned. -/
def provisionNewKeyrings (keyrings : List (Keyring P)) (target : List CompiledKeyring)
    (clock : Timestamp) (host : HostBinding P) :
    Except EngineError (List (Keyring P)) × HostBinding P :=
  match changedPolicy keyrings target with
  | some ring => (.error (.policyChange ring.name), host)
  | none => provisionRings clock host (newlyDeclared keyrings target)

/-- The rings of a target are its live ones and the provisioned ones. -/
def assembleKeyrings (target : List CompiledKeyring) (current provisioned : List (Keyring P)) :
    List (Keyring P) :=
  target.filterMap fun decl =>
    (current.find? fun ring => ring.name = decl.name).or
      (provisioned.find? fun ring => ring.name = decl.name)

end Provisioning

section Movements

/-- A commit takes a position in the store, or it has nothing to change. -/
inductive CommitOutcome (S : Type)
  | committed (store : S) (seq : Nat)
  | unchanged

/-- A store reads its rows under a model and commits a difference of rows with a definition as one
transition. A transition that fails is not committed. -/
class InstanceStore (S M : Type) where
  Rows : Type
  gather : S → M → Except String Rows
  commit : S → Timestamp → Rows → Rows → String → Except String (CommitOutcome S)
  head : S → Except String Nat

/-- What the compilation of a definition gives. The model stands for the model, its compiled form and its
sources. -/
structure Target (M : Type) where
  requires : List (String × String)
  keyrings : List CompiledKeyring
  model : M

/-- The parts of an engine that a movement reads or writes. -/
structure Engine (S M P : Type) where
  inst : String
  store : S
  model : M
  clock : Timestamp
  cursor : HistoryCursor
  keyrings : List (Keyring P)
  host : HostBinding P

variable {S M P : Type} [InstanceStore S M] [EngineProvider P]

namespace Engine

/-- The rows of a store become other rows under a definition. -/
def replaceRows (engine : Engine S M P) (definition : String) (rows : InstanceStore.Rows S M) :
    Except EngineError (CommitOutcome S × Nat) :=
  match InstanceStore.gather engine.store engine.model with
  | .error detail => .error (.store detail)
  | .ok current =>
    match InstanceStore.commit (M := M) engine.store engine.clock current rows definition with
    | .error detail => .error (.store detail)
    | .ok (.committed store seq) => .ok (.committed store seq, seq)
    | .ok .unchanged =>
      match InstanceStore.head M engine.store with
      | .error detail => .error (.store detail)
      | .ok seq => .ok (.unchanged, seq)

/-- The engine after a commit. -/
def stored (engine : Engine S M P) : CommitOutcome S → Engine S M P
  | .committed store _ => { engine with store := store }
  | .unchanged => engine

/-- The model and the keyrings of a target become the active ones. -/
def adopt (engine : Engine S M P) (target : Target M) (provisioned : List (Keyring P)) :
    Engine S M P :=
  { engine with
    model := target.model
    keyrings := assembleKeyrings target.keyrings engine.keyrings provisioned }

/-- The definition and the captured rows of a point are restored. The rows are read under the model of
the point. -/
def reinstallPoint (engine : Engine S M P) (definition : String)
    (compiled : Except EngineError (Target M))
    (state : M → Except EngineError (InstanceStore.Rows S M)) : Except EngineError Nat × Engine S M P :=
  match compiled with
  | .error error => (.error error, engine)
  | .ok target =>
    match engine.host.rebind target.requires with
    | (.error error, host) => (.error error, { engine with host := host })
    | (.ok (), host) =>
      match provisionNewKeyrings engine.keyrings target.keyrings engine.clock host with
      | (.error error, host) => (.error error, { engine with host := host })
      | (.ok provisioned, host) =>
        match state target.model with
        | .error error => (.error error, { engine with host := host })
        | .ok rows =>
          match engine.replaceRows definition rows with
          | .error error => (.error error, { engine with host := host })
          | .ok (outcome, seq) =>
            (.ok seq, (stored { engine with host := host } outcome).adopt target provisioned)

/-- The migrated rows are committed under a target. A commit takes a fresh point on the lineage. -/
def applyMigration (engine : Engine S M P) (definition : String) (target : Target M)
    (migrated : InstanceStore.Rows S M) : Except EngineError Nat × Engine S M P :=
  match engine.host.rebind target.requires with
  | (.error error, host) => (.error error, { engine with host := host })
  | (.ok (), host) =>
    match provisionNewKeyrings engine.keyrings target.keyrings engine.clock host with
    | (.error error, host) => (.error error, { engine with host := host })
    | (.ok provisioned, host) =>
      match engine.replaceRows definition migrated with
      | .error error => (.error error, { engine with host := host })
      | .ok (.committed store seq, _) =>
        (.ok seq, adopt { engine with host := host, store := store, cursor := engine.cursor.advance }
          target provisioned)
      | .ok (.unchanged, seq) => (.ok seq, adopt { engine with host := host } target provisioned)

/-- An update compiles its target, checks it against the engine and builds the migrated rows. These
checks only read the engine. -/
def update (engine : Engine S M P) (definition : String)
    (checks : Engine S M P → Except EngineError (Target M × InstanceStore.Rows S M)) :
    Except EngineError Nat × Engine S M P :=
  match checks engine with
  | .error error => (.error error, engine)
  | .ok (target, migrated) => engine.applyMigration definition target migrated

/-- A verified artifact has its instance, its selected point and its sections. -/
structure Artifact (S M : Type) [InstanceStore S M] where
  inst : String
  selected : HistoryPoint
  sections : Except EngineError (String × (M → Except EngineError (InstanceStore.Rows S M)))
  compiled : Except EngineError (Target M)

/-- The relation of an artifact to the engine. -/
def classify (engine : Engine S M P) (artifact : Artifact S M) : ImportRelation :=
  if artifact.inst ≠ engine.inst then .unrelated else engine.cursor.classify artifact.selected

/-- The cursor after an applied movement. -/
def moved (engine : Engine S M P) (relation : ImportRelation) (selected : HistoryPoint) : Engine S M P :=
  match relation with
  | .fastForward => { engine with cursor := engine.cursor.applyFastForward selected }
  | .rollback => { engine with cursor := engine.cursor.applyRollback selected }
  | _ => engine

/-- A relation moves the engine when it is a permitted fast-forward or rollback. -/
def applies (relation : ImportRelation) (policy : List ImportRelation) : Bool :=
  (relation = .fastForward || relation = .rollback) && policy.contains relation

/-- An import of a verified artifact moves the engine to its selected point when the policy permits. -/
def importArtifact (engine : Engine S M P) (opened : Except EngineError (Artifact S M))
    (policy : List ImportRelation) : Except EngineError (ImportRelation × Bool) × Engine S M P :=
  match opened with
  | .error error => (.error error, engine)
  | .ok artifact =>
    let relation := engine.classify artifact
    if applies relation policy then
      match artifact.sections with
      | .error error => (.error error, engine)
      | .ok (definition, state) =>
        match engine.reinstallPoint definition artifact.compiled state with
        | (.error error, engine) => (.error error, engine)
        | (.ok _, engine) => (.ok (relation, true), engine.moved relation artifact.selected)
    else (.ok (relation, false), engine)

omit [EngineProvider P] in
/-- Rows are replaced by a commit. -/
theorem replaceRows_ok {engine : Engine S M P} {definition : String} {rows : InstanceStore.Rows S M}
    {outcome : CommitOutcome S} {seq : Nat} (replaced : engine.replaceRows definition rows = .ok (outcome, seq)) :
    ∃ current, InstanceStore.commit (M := M) engine.store engine.clock current rows definition =
      .ok outcome := by
  rw [replaceRows] at replaced
  split at replaced
  next => cases replaced
  next current _ =>
    split at replaced
    next => cases replaced
    next committed =>
      cases replaced
      exact ⟨current, committed⟩
    next committed =>
      split at replaced
      next => cases replaced
      next =>
        cases replaced
        exact ⟨current, committed⟩

/-- An accepted migration has the store of its commit. -/
theorem applyMigration_ok {engine after : Engine S M P} {definition : String} {target : Target M}
    {migrated : InstanceStore.Rows S M} {seq : Nat}
    (moved : engine.applyMigration definition target migrated = (.ok seq, after)) :
    ∃ current outcome,
      InstanceStore.commit (M := M) engine.store engine.clock current migrated definition = .ok outcome ∧
        after.store = (engine.stored outcome).store := by
  rw [applyMigration] at moved
  split at moved
  next => cases moved
  next =>
    split at moved
    next => cases moved
    next =>
      split at moved
      next => cases moved
      next replaced =>
        cases moved
        obtain ⟨current, committed⟩ := replaceRows_ok replaced
        exact ⟨current, _, committed, rfl⟩
      next replaced =>
        cases moved
        obtain ⟨current, committed⟩ := replaceRows_ok replaced
        exact ⟨current, _, committed, rfl⟩

/-- A refused migration leaves the model and the store. -/
theorem applyMigration_error {engine after : Engine S M P} {definition : String} {target : Target M}
    {migrated : InstanceStore.Rows S M} {error : EngineError}
    (moved : engine.applyMigration definition target migrated = (.error error, after)) :
    after.model = engine.model ∧ after.store = engine.store := by
  rw [applyMigration] at moved
  split at moved
  next =>
    cases moved
    exact ⟨rfl, rfl⟩
  next =>
    split at moved
    next =>
      cases moved
      exact ⟨rfl, rfl⟩
    next =>
      split at moved
      next =>
        cases moved
        exact ⟨rfl, rfl⟩
      next => cases moved
      next => cases moved

/-- An accepted update has the store of its commit. -/
theorem update_ok {engine after : Engine S M P} {definition : String}
    {checks : Engine S M P → Except EngineError (Target M × InstanceStore.Rows S M)} {seq : Nat}
    (moved : engine.update definition checks = (.ok seq, after)) :
    ∃ current migrated outcome,
      InstanceStore.commit (M := M) engine.store engine.clock current migrated definition = .ok outcome ∧
        after.store = (engine.stored outcome).store := by
  rw [update] at moved
  split at moved
  next => cases moved
  next target migrated _ =>
    obtain ⟨current, outcome, committed, store⟩ := applyMigration_ok moved
    exact ⟨current, migrated, outcome, committed, store⟩

/-- A refused update leaves the model and the store. -/
theorem update_error {engine after : Engine S M P} {definition : String}
    {checks : Engine S M P → Except EngineError (Target M × InstanceStore.Rows S M)} {error : EngineError}
    (moved : engine.update definition checks = (.error error, after)) :
    after.model = engine.model ∧ after.store = engine.store := by
  rw [update] at moved
  split at moved
  next =>
    cases moved
    exact ⟨rfl, rfl⟩
  next => exact applyMigration_error moved

end Engine

end Movements

end Liasse.Host
