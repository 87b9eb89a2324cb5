/-
This file says once what a lifecycle operation does to the instances of a host, and it proves that a disabled instance
does not show in what the host reads.
-/

import Liasse.Modules.Lifecycle

namespace Liasse.Modules

open Codes Liasse.Host

section Steps

variable {S M P : Type} [InstanceStore S M] [EngineProvider P] [Package M] {services : Services S M P}

/-- What an accepted request mounts. -/
def Prepared.child (prepared : ModuleHost.Prepared) (space : ModuleSpace) (incarnation : String)
    (engine : Engine S M P) : Child S M P :=
  ⟨space, prepared.admitted.name, incarnation, engine, prepared.admitted.bindings, prepared.peers, true⟩

/-- The result of an operation and the instances after it. -/
inductive Steps (host : ModuleHost services) :
    Event services → Except ModuleError Unit → List (Child S M P) → Prop
  | refused (event : Event services) (error : ModuleError) : Steps host event (.error error) host.children
  | installed {space : ModuleSpace} {request : InstallRequest} {generator : services.Generator}
      {prepared : ModuleHost.Prepared} {factory : services.Factory} {store : S} {engine : Engine S M P}
      (ready : host.prepareInstall space request = .ok prepared)
      (created : services.create host.factory (host.mintIncarnation space prepared.admitted.name).1 =
        (.ok store, factory))
      (loaded : host.loadInstance space prepared generator store = .ok engine) :
      Steps host (.install space request generator) (.ok ⟨⟩) (host.children ++
        [Prepared.child prepared space (host.mintIncarnation space prepared.admitted.name).1 engine])
  | disabled {space : ModuleSpace} {name : String} {child : Child S M P}
      (found : host.find space name = some child) :
      Steps host (.disable space name) (.ok ⟨⟩) (changeNamed Child.place (space, name)
        (fun child => { child with enabled := false }) host.children)
  | enabled {space : ModuleSpace} {name : String} {child : Child S M P}
      (found : host.find space name = some child) :
      Steps host (.enable space name) (.ok ⟨⟩) (changeNamed Child.place (space, name)
        (fun child => { child with enabled := true }) host.children)
  | uninstalled {space : ModuleSpace} {name : String} {child : Child S M P}
      (found : host.find space name = some child) :
      Steps host (.uninstall space name) (.ok ⟨⟩) (removeNamed Child.place host.children (space, name))
  | renamed {space : ModuleSpace} {name other : String} {child : Child S M P}
      (found : host.find space name = some child) (fresh : host.find space other = none) :
      Steps host (.rename space name other) (.ok ⟨⟩) (changeNamed Child.place (space, name)
        (fun child => { child with name := other }) host.children)
  | updated {space : ModuleSpace} {name target active : String} {generator : services.Generator}
      {child : Child S M P} (found : host.find space name = some child)
      (widened : ModuleHost.widenedText services child target = .ok active)
      {result : Except EngineError Nat} {engine : Engine S M P}
      (moved : child.engine.update target (services.updateChecks target generator) = (result, engine)) :
      Steps host (.update space name target generator) ((result.mapError .engine).map fun _ => ⟨⟩)
        (changeNamed Child.place (space, name) (fun child => { child with engine := engine })
          host.children)

variable (host : ModuleHost services)

omit [EngineProvider P] [Package M] in
theorem changeInstalled_cases (space : ModuleSpace) (name : String)
    (change : Child S M P → Child S M P) :
    (∃ error, host.changeInstalled space name change = (.error error, host)) ∨
      ∃ child, host.find space name = some child ∧
        host.changeInstalled space name change = (.ok ⟨⟩, host.changeChild space name change) := by
  rw [ModuleHost.changeInstalled]
  cases found : host.find space name with
  | none => exact .inl ⟨_, rfl⟩
  | some child => exact .inr ⟨child, rfl, rfl⟩

omit [EngineProvider P] in
/-- A prepared installation is refused, or its instance is mounted last. -/
theorem installPrepared_cases (space : ModuleSpace) (prepared : ModuleHost.Prepared)
    (generator : services.Generator) :
    (∃ error, (host.installPrepared space prepared generator).1 = .error error ∧
      (host.installPrepared space prepared generator).2.children = host.children) ∨
    ∃ factory store engine,
      services.create host.factory (host.mintIncarnation space prepared.admitted.name).1 =
        (.ok store, factory) ∧
      host.loadInstance space prepared generator store = .ok engine ∧
      (host.installPrepared space prepared generator).1 =
        .ok (host.mintIncarnation space prepared.admitted.name).1 ∧
      (host.installPrepared space prepared generator).2.children = host.children ++
        [Prepared.child prepared space (host.mintIncarnation space prepared.admitted.name).1 engine] := by
  rw [ModuleHost.installPrepared]
  cases minted : host.mintIncarnation space prepared.admitted.name with
  | mk incarnation after =>
  simp only [ModuleHost.mintIncarnation] at minted
  obtain ⟨rfl, rfl⟩ := Prod.mk.inj minted
  dsimp only
  cases created : services.create host.factory (incarnationToken (services.rootInstance host.root)
      host.nextIncarnation (incarnationSuffix space prepared.admitted.name)) with
  | mk result factory =>
  cases result with
  | error error => exact .inl ⟨_, rfl, rfl⟩
  | ok store =>
    dsimp only
    cases loaded : ModuleHost.loadInstance
        { host with factory := factory, nextIncarnation := History.bump host.nextIncarnation }
        space prepared generator store with
    | error error => exact .inl ⟨_, rfl, rfl⟩
    | ok engine => exact .inr ⟨factory, store, engine, rfl, loaded, rfl, rfl⟩

/-- Every operation is one of the steps. -/
theorem perform_steps (event : Event services) :
    Steps host event (host.perform event).1 (host.perform event).2.children := by
  cases event with
  | install space request generator =>
    rw [ModuleHost.perform, ModuleHost.install]
    cases ready : host.prepareInstall space request with
    | error error => exact .refused _ _
    | ok prepared =>
      dsimp only
      rcases installPrepared_cases host space prepared generator with
        ⟨error, refused, same⟩ | ⟨factory, store, engine, created, loaded, made, mounted⟩
      · rw [refused, same]
        exact .refused _ _
      · rw [made, mounted]
        exact .installed ready created loaded
  | disable space name =>
    rcases changeInstalled_cases host space name (fun child => { child with enabled := false }) with
      ⟨error, refused⟩ | ⟨child, found, changed⟩
    · rw [ModuleHost.perform, ModuleHost.disable, refused]
      exact .refused _ _
    · rw [ModuleHost.perform, ModuleHost.disable, changed]
      exact .disabled found
  | enable space name =>
    rcases changeInstalled_cases host space name (fun child => { child with enabled := true }) with
      ⟨error, refused⟩ | ⟨child, found, changed⟩
    · rw [ModuleHost.perform, ModuleHost.enable, refused]
      exact .refused _ _
    · rw [ModuleHost.perform, ModuleHost.enable, changed]
      exact .enabled found
  | uninstall space name =>
    rw [ModuleHost.perform, ModuleHost.uninstall]
    cases found : host.find space name with
    | none => exact .refused _ _
    | some child => exact .uninstalled found
  | rename space name other =>
    rw [ModuleHost.perform, ModuleHost.rename]
    cases fresh : host.find space other with
    | some child => exact .refused _ _
    | none =>
      rcases changeInstalled_cases host space name (fun child => { child with name := other }) with
        ⟨error, refused⟩ | ⟨child, found, changed⟩
      · rw [refused]
        exact .refused _ _
      · rw [changed]
        exact .renamed found fresh
  | update space name target generator =>
    rw [ModuleHost.perform, ModuleHost.update]
    cases found : host.find space name with
    | none => exact .refused _ _
    | some child =>
      cases widened : ModuleHost.widenedText services child target with
      | error error =>
        simp only [widened]
        exact .refused _ _
      | ok active =>
        simp only [widened]
        cases moved : child.engine.update target (services.updateChecks target generator) with
        | mk result engine =>
          cases result with
          | error error => exact .updated found widened moved
          | ok commit => exact .updated found widened moved

/-- An operation takes a number from the counter when it is an installation that passes its checks. -/
def ModuleHost.mints (host : ModuleHost services) : Event services → Option ModuleHost.Prepared
  | .install space request _ => (host.prepareInstall space request).toOption
  | _ => none

/-- The root stays, and the counter moves with the numbers that are taken. -/
theorem perform_frame (event : Event services) :
    (host.perform event).2.root = host.root ∧ (host.perform event).2.nextIncarnation =
      if (host.mints event).isSome then History.bump host.nextIncarnation else host.nextIncarnation := by
  cases event with
  | install space request generator =>
    rw [ModuleHost.perform, ModuleHost.install, ModuleHost.mints]
    cases ready : host.prepareInstall space request with
    | error error => exact ⟨rfl, rfl⟩
    | ok prepared =>
      dsimp only
      rw [ModuleHost.installPrepared]
      dsimp only [ModuleHost.mintIncarnation]
      split
      next => exact ⟨rfl, rfl⟩
      next => split <;> exact ⟨rfl, rfl⟩
  | disable space name =>
    rw [ModuleHost.perform, ModuleHost.disable, ModuleHost.changeInstalled]
    split <;> exact ⟨rfl, rfl⟩
  | enable space name =>
    rw [ModuleHost.perform, ModuleHost.enable, ModuleHost.changeInstalled]
    split <;> exact ⟨rfl, rfl⟩
  | uninstall space name =>
    rw [ModuleHost.perform, ModuleHost.uninstall]
    split <;> exact ⟨rfl, rfl⟩
  | rename space name other =>
    rw [ModuleHost.perform, ModuleHost.rename]
    split
    next => exact ⟨rfl, rfl⟩
    next =>
      rw [ModuleHost.changeInstalled]
      split <;> exact ⟨rfl, rfl⟩
  | update space name target generator =>
    show (host.update space name target generator).2.root = host.root ∧
      (host.update space name target generator).2.nextIncarnation = host.nextIncarnation
    rw [ModuleHost.update]
    split
    next => exact ⟨rfl, rfl⟩
    next => split <;> exact ⟨rfl, rfl⟩

end Steps

section Silence

variable {S M P : Type} [InstanceStore S M] {services : Services S M P} {host : ModuleHost services}

/-- The host without its disabled instances. -/
def ModuleHost.active (host : ModuleHost services) : ModuleHost services :=
  { host with children := host.children.filter Child.enabled }

/-- A host keeps each place for one instance. -/
abbrev ModuleHost.Placed (host : ModuleHost services) : Prop :=
  UniqueNames Child.place host.children

theorem find_active (unique : host.Placed) (space : ModuleSpace) (name : String) :
    host.active.find space name = (host.find space name).filter Child.enabled :=
  unique.named_filter Child.enabled (space, name)

theorem livePeer_active (unique : host.Placed) (space : ModuleSpace) (peer : ResolvedPeer) :
    host.active.livePeer space peer = host.livePeer space peer := by
  rw [ModuleHost.livePeer, ModuleHost.livePeer]
  cases peer.inst with
  | none => rfl
  | some name =>
    rw [Option.bind_some, Option.bind_some, find_active unique, Option.filter_filter]
    simp only [Bool.and_self]

theorem parentImports_active (space : ModuleSpace) (bindings : AdmittedBindings) :
    host.active.parentImports space bindings = host.parentImports space bindings := rfl

theorem active_filter (space : ModuleSpace) :
    host.active.children.filter (fun child => child.space = space && child.enabled) =
      host.children.filter fun child => child.space = space && child.enabled := by
  rw [ModuleHost.active, List.filter_filter]
  congr 1
  funext child
  cases child.enabled <;> simp

variable [Package M]

theorem bindPeer_active (unique : host.Placed) (space : ModuleSpace) :
    host.active.bindPeer space = host.bindPeer space := by
  funext bound peer
  rw [ModuleHost.bindPeer, ModuleHost.bindPeer, livePeer_active unique]
  simp only [parentImports_active]

theorem childImports_active (unique : host.Placed) (space : ModuleSpace) (bindings : AdmittedBindings)
    (peers : List ResolvedPeer) :
    host.active.childImports space bindings peers = host.childImports space bindings peers := by
  rw [ModuleHost.childImports, ModuleHost.childImports, parentImports_active, bindPeer_active unique]

theorem interfaceGuardActive_active (unique : host.Placed) (child : Child S M P) (interface : String) :
    host.active.interfaceGuardActive child interface = host.interfaceGuardActive child interface := by
  rw [ModuleHost.interfaceGuardActive, ModuleHost.interfaceGuardActive]
  simp only [livePeer_active unique]

theorem siblings_active (space : ModuleSpace) : host.active.siblings space = host.siblings space := by
  rw [ModuleHost.siblings, ModuleHost.siblings, active_filter]

theorem readChild_active (unique : host.Placed) (child : Child S M P) (interface : String) :
    host.active.readChild child interface = host.readChild child interface := by
  rw [ModuleHost.readChild, ModuleHost.readChild, interfaceGuardActive_active unique,
    childImports_active unique]

theorem aggregateChildren_active (unique : host.Placed) (interface : String) (children : List (Child S M P)) :
    host.active.aggregateChildren interface children = host.aggregateChildren interface children := by
  induction children with
  | nil => rfl
  | cons child rest ih =>
    rw [ModuleHost.aggregateChildren, ModuleHost.aggregateChildren, readChild_active unique, ih]

theorem interfaceSnapshot_active (unique : host.Placed) (child : Child S M P) (bound : ParentImports)
    (interfaces : List String) :
    host.active.interfaceSnapshot child bound interfaces = host.interfaceSnapshot child bound interfaces := by
  induction interfaces with
  | nil => rfl
  | cons interface rest ih =>
    rw [ModuleHost.interfaceSnapshot, ModuleHost.interfaceSnapshot, interfaceGuardActive_active unique, ih]

theorem joinSnapshot_active (unique : host.Placed) : host.active.joinSnapshot = host.joinSnapshot := by
  funext spaces child
  rw [ModuleHost.joinSnapshot, ModuleHost.joinSnapshot, childImports_active unique]
  simp only [interfaceSnapshot_active unique]

/-- Every read of a host is the same without the disabled instances. An instance that is not enabled is
refused. -/
structure Silent (host : ModuleHost services) : Prop where
  aggregate : ∀ space interface, host.aggregate space interface = host.active.aggregate space interface
  snapshot : host.aggregateSnapshot = host.active.aggregateSnapshot
  read : ∀ space name interface child, host.find space name = some child → child.enabled = true →
    host.interfaceRead space name interface = host.active.interfaceRead space name interface
  refused : ∀ space name interface, (∀ child, host.find space name = some child → child.enabled = false) →
    ∃ error, host.interfaceRead space name interface = .error error
  guards : ∀ child interface,
    host.interfaceGuardActive child interface = host.active.interfaceGuardActive child interface
  peers : ∀ space peer, host.livePeer space peer = host.active.livePeer space peer
  siblings : ∀ space, host.siblings space = host.active.siblings space

/-- A host with unique places is silent about its disabled instances. -/
theorem silent_of_placed (unique : host.Placed) : Silent host where
  aggregate space interface := by
    rw [ModuleHost.aggregate, ModuleHost.aggregate, aggregateChildren_active unique, active_filter]
  snapshot := by
    rw [ModuleHost.aggregateSnapshot, ModuleHost.aggregateSnapshot, joinSnapshot_active unique,
      ModuleHost.active, List.filter_filter]
    simp only [Bool.and_self]
  read space name interface child found enabled := by
    have kept : host.active.find space name = some child := by
      rw [find_active unique, found, Option.filter_some, if_pos enabled]
    rw [ModuleHost.interfaceRead, ModuleHost.interfaceRead, ModuleHost.enabledChild, ModuleHost.enabledChild,
      found, kept]
    simp only [enabled, if_true]
    exact (readChild_active unique child interface).symm
  refused space name interface off := by
    rw [ModuleHost.interfaceRead, ModuleHost.enabledChild]
    cases found : host.find space name with
    | none => exact ⟨_, rfl⟩
    | some child =>
      simp only [off child found]
      exact ⟨_, rfl⟩
  guards child interface := (interfaceGuardActive_active unique child interface).symm
  peers space peer := (livePeer_active unique space peer).symm
  siblings space := (siblings_active space).symm

end Silence

end Liasse.Modules
