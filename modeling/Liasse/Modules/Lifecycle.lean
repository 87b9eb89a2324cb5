/-
This file models the composition host and the lifecycle of its instances. A root engine carries the instances that are
mounted in its module spaces.
-/

import Liasse.Codes.Named
import Liasse.Host.Refusal
import Liasse.Modules.Package
import Liasse.Modules.Peer

namespace Liasse.Modules

open Codes Liasse.Host Liasse.Runtime
open Liasse.Expr (Row)

section Hosts

/-- The handles that a child imports with their types and their values. -/
abbrev ParentImports := Std.ExtTreeMap String (ExprType × Expr.Cell) compare

/-- What the host uses of its root, of its stores and of the engines of its children. An engine that
fails to load is dropped. -/
structure Services (S M P : Type) [InstanceStore S M] where
  Root : Type
  Factory : Type
  Generator : Type
  ViewResult : Type
  ViewRow : Type
  rootInstance : Root → String
  moduleSpaceInterfaces : Root → List String → Option (List InterfaceContract)
  containsRow : Root → List (String × String) → Except EngineError Bool
  parentSurface : Root → List String → List (String × String) → String →
    Except EngineError (Option (ExprType × Expr.Cell))
  create : Factory → String → Except EngineError S × Factory
  installLoad : S → String → Std.ExtTreeMap String Value compare → ParentImports → Generator →
    Except ModuleError (Engine S M P)
  overlayInstallData : Engine S M P → String → ParentImports → Generator →
    Except EngineError (Engine S M P)
  definitionSource : S → Except EngineError (Option String)
  updateChecks : String → Generator → Engine S M P →
    Except EngineError (Target M × InstanceStore.Rows S M)
  interfaceRead : Engine S M P → String → ParentImports → Except EngineError (Option ViewResult)
  rows : ViewResult → List ViewRow
  interfaceRows : Engine S M P → String → ParentImports → Except EngineError (Option (List Row))

/-- An instance that is mounted in a space. -/
structure Child (S M P : Type) where
  space : ModuleSpace
  name : String
  incarnation : String
  engine : Engine S M P
  bindings : AdmittedBindings
  resolvedPeers : List ResolvedPeer
  enabled : Bool

/-- The space and the name of an instance. -/
def Child.place {S M P : Type} (child : Child S M P) : ModuleSpace × String :=
  (child.space, child.name)

theorem Child.place_eq {S M P : Type} {child : Child S M P} {space : ModuleSpace} {name : String} :
    child.place = (space, name) ↔ child.space = space ∧ child.name = name := by
  rw [Child.place, Prod.mk.injEq]

variable {S M P : Type} [InstanceStore S M]

/-- A root engine with its instances and the counter of their incarnations. -/
structure ModuleHost (services : Services S M P) where
  factory : services.Factory
  root : services.Root
  children : List (Child S M P)
  nextIncarnation : Nat

/-- A row of an aggregation comes from an instance. -/
structure InterfaceRow (ViewRow : Type) where
  inst : String
  row : ViewRow

/-- The interface rows of an instance. -/
structure AggregatedInstance where
  name : String
  interfaces : List (String × List Row)

/-- The report of an update. -/
structure ModuleUpdateReport where
  before : String
  after : String
  commit : Nat
  exposed : ExposedGrouping

variable {services : Services S M P}

namespace ModuleHost

/-- A host without instances. -/
def new (factory : services.Factory) (root : services.Root) : ModuleHost services :=
  ⟨factory, root, [], 0⟩

/-- The instance of a name in a space. -/
def find (host : ModuleHost services) (space : ModuleSpace) (name : String) : Option (Child S M P) :=
  named Child.place host.children (space, name)

/-- The instance of a name changes. -/
def changeChild (host : ModuleHost services) (space : ModuleSpace) (name : String)
    (change : Child S M P → Child S M P) : ModuleHost services :=
  { host with children := changeNamed Child.place (space, name) change host.children }

section Reads

variable (host : ModuleHost services)

/-- The parent surface that a handle imports. -/
def surfaceOf (handle : String) : UseSpec → Option String
  | .parent => some handle
  | .parentSurface surface => some surface
  | .path _ => none
  | .peer _ _ _ => none

/-- The parent surface of one handle is bound where the space declares it. -/
def bindParent (space : ModuleSpace) (bound : ParentImports) (use : String × UseSpec × Bool) :
    Except ModuleError ParentImports :=
  match surfaceOf use.1 use.2.1 with
  | none => .ok bound
  | some surface =>
    match services.parentSurface host.root space.declarationPath
      (space.containingRowSteps.getD []) surface with
    | .error error => .error (.engine error)
    | .ok none => .ok bound
    | .ok (some resolved) => .ok (bound.insert use.1 resolved)

/-- The parent surfaces that an instance imports. -/
def parentImports (space : ModuleSpace) (bindings : AdmittedBindings) : Except ModuleError ParentImports :=
  bindings.uses.foldlM (host.bindParent space) ∅

/-- The enabled instance that a resolved handle denotes. -/
def livePeer (space : ModuleSpace) (peer : ResolvedPeer) : Option (Child S M P) :=
  (peer.inst.bind (host.find space)).filter Child.enabled

variable [Package M]

/-- A required peer binds the interface of its sibling. An optional peer binds its presence. -/
def bindPeer (space : ModuleSpace) (bound : ParentImports) (peer : ResolvedPeer) :
    Except ModuleError ParentImports :=
  let live := host.livePeer space peer
  if peer.free then
    .ok (bound.insert peer.handle
      (.scalar .bool, .scalar (if live.isSome then .bool true else .none)))
  else
    match live with
    | none => .ok bound
    | some sibling =>
      match host.parentImports sibling.space sibling.bindings with
      | .error error => .error error
      | .ok parents =>
        match services.interfaceRows sibling.engine peer.interface parents with
        | .error error => .error (.engine error)
        | .ok rows =>
          match Package.exposedView sibling.engine.model peer.interface, rows with
          | some view, some rows => .ok (bound.insert peer.handle (view.type, .collection rows))
          | _, _ => .ok bound

/-- The parent surfaces and the peers that an instance imports. -/
def childImports (space : ModuleSpace) (bindings : AdmittedBindings) (peers : List ResolvedPeer) :
    Except ModuleError ParentImports :=
  match host.parentImports space bindings with
  | .error error => .error error
  | .ok parents => peers.foldlM (host.bindPeer space) parents

/-- A guarded interface is active while its handle denotes an enabled instance. -/
def interfaceGuardActive (child : Child S M P) (interface : String) : Bool :=
  match Package.guard child.engine.model interface with
  | none => true
  | some handle => child.resolvedPeers.any fun peer =>
    peer.handle = handle && (host.livePeer child.space peer).isSome

/-- The enabled siblings in a space. -/
def siblings (space : ModuleSpace) : List SiblingInterface :=
  (host.children.filter fun child => child.space = space && child.enabled).map fun child =>
    { name := child.name
      line := Package.line child.engine.model
      major := (Package.version child.engine.model).major
      interfaces := Package.interfaceNames child.engine.model }

/-- The enabled instance of a name. -/
def enabledChild (space : ModuleSpace) (name : String) : Except ModuleError (Child S M P) :=
  match host.find space name with
  | none => .error (.unknown name)
  | some child => if child.enabled then .ok child else .error (.disabled name)

/-- What an instance shows of an interface. A guarded interface may show nothing. -/
def readChild (child : Child S M P) (interface : String) :
    Except ModuleError (Option services.ViewResult) :=
  if host.interfaceGuardActive child interface then
    match host.childImports child.space child.bindings child.resolvedPeers with
    | .error error => .error error
    | .ok bound => (services.interfaceRead child.engine interface bound).mapError .engine
  else .ok none

/-- The interface of an enabled instance is read. -/
def interfaceRead (space : ModuleSpace) (name interface : String) :
    Except ModuleError (Option services.ViewResult) :=
  match host.enabledChild space name with
  | .error error => .error error
  | .ok child => host.readChild child interface

/-- The interface rows of some instances in order. -/
def aggregateChildren (interface : String) :
    List (Child S M P) → Except ModuleError (List (InterfaceRow services.ViewRow))
  | [] => .ok []
  | child :: rest => do
      let shown ← host.readChild child interface
      let others ← aggregateChildren interface rest
      let own := (shown.map services.rows).getD []
      return own.map (fun row => ⟨child.name, row⟩) ++ others

/-- One interface is aggregated across the enabled instances of a space. -/
def aggregate (space : ModuleSpace) (interface : String) :
    Except ModuleError (List (InterfaceRow services.ViewRow)) :=
  host.aggregateChildren interface
    (host.children.filter fun child => child.space = space && child.enabled)

/-- The rows of the active interfaces of an instance. -/
def interfaceSnapshot (child : Child S M P) (bound : ParentImports) :
    List String → Except ModuleError (List (String × List Row))
  | [] => .ok []
  | interface :: rest => do
      let others := interfaceSnapshot child bound rest
      if host.interfaceGuardActive child interface then
        match services.interfaceRows child.engine interface bound with
        | .error error => .error (.engine error)
        | .ok none => others
        | .ok (some rows) => return (interface, rows) :: (← others)
      else others

/-- An instance joins the snapshot of its space. -/
def joinSnapshot (spaces : Std.ExtTreeMap String (List AggregatedInstance) compare)
    (child : Child S M P) :
    Except ModuleError (Std.ExtTreeMap String (List AggregatedInstance) compare) := do
  let bound ← host.childImports child.space child.bindings child.resolvedPeers
  let interfaces ← host.interfaceSnapshot child bound (Package.interfaceNames child.engine.model)
  return spaces.insert child.space.path
    ((spaces[child.space.path]?).getD [] ++ [⟨child.name, interfaces⟩])

/-- The interface rows of every enabled instance by space. -/
def aggregateSnapshot : Except ModuleError (Std.ExtTreeMap String (List AggregatedInstance) compare) :=
  (host.children.filter Child.enabled).foldlM host.joinSnapshot ∅

end Reads

end ModuleHost

end Hosts

end Liasse.Modules

namespace Liasse.Modules

open Codes Liasse.Host

section Operations

variable {S M P : Type} [InstanceStore S M] {services : Services S M P}

/-- The text of a space in an incarnation. -/
def ModuleSpace.dotted (space : ModuleSpace) : String :=
  String.ofList ((space.path.toList.dropWhile (· = '/')).map fun char => if char = '/' then '.' else char)

/-- The text of an incarnation after its number. -/
def incarnationSuffix (space : ModuleSpace) (name : String) : String :=
  space.dotted ++ "-" ++ name

/-- The incarnation with a number. -/
def incarnationToken (root : String) (number : Nat) (suffix : String) : String :=
  root ++ "#m" ++ number.repr ++ "-" ++ suffix

namespace ModuleHost

/-- An incarnation takes the number of the counter. The counter wraps after its last number. -/
def mintIncarnation (host : ModuleHost services) (space : ModuleSpace) (name : String) :
    String × ModuleHost services :=
  (incarnationToken (services.rootInstance host.root) host.nextIncarnation (incarnationSuffix space name),
    { host with nextIncarnation := History.bump host.nextIncarnation })

/-- The containing row of a declared space must be live. -/
def checkContainingRow (host : ModuleHost services) (space : ModuleSpace) : Except ModuleError Unit :=
  match services.moduleSpaceInterfaces host.root space.declarationPath with
  | none => .ok ⟨⟩
  | some _ =>
    match space.containingRowSteps with
    | none => .error (.missingContainingRow space.path)
    | some steps =>
      match services.containsRow host.root steps with
      | .error error => .error (.engine error)
      | .ok true => .ok ⟨⟩
      | .ok false => .error (.missingContainingRow space.path)

section Installation

variable [Package M]

/-- A package satisfies the contracts that the root declares for a space. -/
def checkInterfaceContracts (host : ModuleHost services) (space : ModuleSpace) (package : M) :
    Except ModuleError Unit :=
  match services.moduleSpaceInterfaces host.root space.declarationPath with
  | none => .ok ⟨⟩
  | some contracts => checkContracts contracts package

/-- An admitted request with its peers and its imports. -/
structure Prepared where
  admitted : AdmittedInstall
  peers : List ResolvedPeer
  bound : ParentImports

/-- The checks of an installation before it takes an incarnation. -/
def prepareInstall (host : ModuleHost services) (space : ModuleSpace) (request : InstallRequest) :
    Except ModuleError Prepared := do
  let admitted ← request.admitInstall
  host.checkContainingRow space
  if (host.find space admitted.name).isSome then throw (.duplicateName admitted.name)
  let peers ← resolve space admitted.bindings (host.siblings space)
  let bound ← host.childImports space admitted.bindings peers
  return ⟨admitted, peers, bound⟩

/-- The engine of a new instance is loaded into its store, checked and overlaid with its data. -/
def loadInstance (host : ModuleHost services) (space : ModuleSpace) (prepared : Prepared)
    (generator : services.Generator) (store : S) : Except ModuleError (Engine S M P) := do
  let engine ← services.installLoad store prepared.admitted.definition prepared.admitted.bindings.config
    prepared.bound generator
  host.checkInterfaceContracts space engine.model
  match prepared.admitted.data with
  | none => return engine
  | some data => (services.overlayInstallData engine data prepared.bound generator).mapError .engine

/-- A prepared instance takes an incarnation, a store and an engine. -/
def installPrepared (host : ModuleHost services) (space : ModuleSpace) (prepared : Prepared)
    (generator : services.Generator) : Except ModuleError String × ModuleHost services :=
  let (incarnation, host) := host.mintIncarnation space prepared.admitted.name
  match services.create host.factory incarnation with
  | (.error error, factory) => (.error (.engine error), { host with factory := factory })
  | (.ok store, factory) =>
    let host := { host with factory := factory }
    match host.loadInstance space prepared generator store with
    | .error error => (.error error, host)
    | .ok engine =>
      (.ok incarnation,
        { host with
          children := host.children ++
            [⟨space, prepared.admitted.name, incarnation, engine, prepared.admitted.bindings,
              prepared.peers, true⟩] })

/-- A new instance is installed into a space. -/
def install (host : ModuleHost services) (space : ModuleSpace) (request : InstallRequest)
    (generator : services.Generator) : Except ModuleError String × ModuleHost services :=
  match host.prepareInstall space request with
  | .error error => (.error error, host)
  | .ok prepared => host.installPrepared space prepared generator

end Installation

/-- An instance that is there changes. -/
def changeInstalled (host : ModuleHost services) (space : ModuleSpace) (name : String)
    (change : Child S M P → Child S M P) : Except ModuleError Unit × ModuleHost services :=
  match host.find space name with
  | none => (.error (.unknown name), host)
  | some _ => (.ok ⟨⟩, host.changeChild space name change)

/-- An instance is disabled. -/
def disable (host : ModuleHost services) (space : ModuleSpace) (name : String) :
    Except ModuleError Unit × ModuleHost services :=
  host.changeInstalled space name fun child => { child with enabled := false }

/-- An instance is enabled. -/
def enable (host : ModuleHost services) (space : ModuleSpace) (name : String) :
    Except ModuleError Unit × ModuleHost services :=
  host.changeInstalled space name fun child => { child with enabled := true }

/-- An instance is removed. -/
def uninstall (host : ModuleHost services) (space : ModuleSpace) (name : String) :
    Except ModuleError Unit × ModuleHost services :=
  match host.find space name with
  | none => (.error (.unknown name), host)
  | some _ => (.ok ⟨⟩, { host with children := removeNamed Child.place host.children (space, name) })

/-- An instance takes a name that is free in its space. -/
def rename (host : ModuleHost services) (space : ModuleSpace) (name other : String) :
    Except ModuleError Unit × ModuleHost services :=
  match host.find space other with
  | some _ => (.error (.duplicateName other), host)
  | none => host.changeInstalled space name fun child => { child with name := other }

section Updates

variable [EngineProvider P] [Package M]

/-- The refusal of a narrowing. -/
def narrowed (narrowing : Narrowing) : ModuleError :=
  match narrowing.kind with
  | .definitional => .exposedNarrowed narrowing.reason
  | .bindingWithdrawn => .interfaceBindingWithdrawn narrowing.reason

variable (services) in
/-- The active text of an instance, when the target does not narrow it. -/
def widenedText (child : Child S M P) (target : String) : Except ModuleError String :=
  match services.definitionSource child.engine.store with
  | .error error => .error (.engine error)
  | .ok none => .error (.internal "active child definition unavailable for update")
  | .ok (some active) =>
    match exposedNarrowing (Package.alphanumeric M) (Package.parse M active) (Package.parse M target) with
    | some narrowing => .error (narrowed narrowing)
    | none => .ok active

/-- The instance of a name moves to a target text that does not narrow its exposed surface. -/
def update (host : ModuleHost services) (space : ModuleSpace) (name target : String)
    (generator : services.Generator) : Except ModuleError ModuleUpdateReport × ModuleHost services :=
  match host.find space name with
  | none => (.error (.unknown name), host)
  | some child =>
    match widenedText services child target with
    | .error error => (.error error, host)
    | .ok active =>
      let moved := child.engine.update target (services.updateChecks target generator)
      (moved.1.mapError .engine |>.map fun commit =>
          { before := versionString (Package.version child.engine.model)
            after := versionString (Package.version moved.2.model)
            commit := commit
            exposed := exposedGrouping (Package.parse M active) (Package.parse M target) },
        host.changeChild space name fun child => { child with engine := moved.2 })

end Updates

end ModuleHost

section Events

variable [EngineProvider P] [Package M]

/-- A lifecycle operation with its arguments. -/
inductive Event (services : Services S M P)
  | install (space : ModuleSpace) (request : InstallRequest) (generator : services.Generator)
  | disable (space : ModuleSpace) (name : String)
  | enable (space : ModuleSpace) (name : String)
  | uninstall (space : ModuleSpace) (name : String)
  | rename (space : ModuleSpace) (name other : String)
  | update (space : ModuleSpace) (name target : String) (generator : services.Generator)

/-- The refusal of an operation or its success, with the host after it. -/
def ModuleHost.perform (host : ModuleHost services) :
    Event services → Except ModuleError Unit × ModuleHost services
  | .install space request generator =>
    let (result, after) := host.install space request generator
    (result.map fun _ => ⟨⟩, after)
  | .disable space name => host.disable space name
  | .enable space name => host.enable space name
  | .uninstall space name => host.uninstall space name
  | .rename space name other => host.rename space name other
  | .update space name target generator =>
    let (result, after) := host.update space name target generator
    (result.map fun _ => ⟨⟩, after)

end Events

end Operations

end Liasse.Modules
