/-
This file proves which operations keep the boundary of the instances: the contracts of their spaces, the
requirements of their peer handles and the releases of their packages.
-/

import Mathlib.Logic.Function.Basic
import Liasse.Modules.Composition
import Liasse.Modules.Contracts

namespace Liasse.Modules

open Codes Liasse.Host Liasse.Runtime

section Boundaries

variable {S M P : Type} [InstanceStore S M] [EngineProvider P] [Package M] {services : Services S M P}

/-- A store keeps the text of its last definition, and installation data changes neither the text nor the
package. -/
structure Recorded (services : Services S M P) : Prop where
  committed : ∀ store clock current rows text after seq,
    InstanceStore.commit (M := M) store clock current rows text = .ok (.committed after seq) →
      services.definitionSource after = .ok (some text)
  unchanged : ∀ store clock current rows text,
    InstanceStore.commit (M := M) store clock current rows text = .ok .unchanged →
      services.definitionSource store = .ok (some text)
  loaded : ∀ store text config bound generator engine,
    services.installLoad store text config bound generator = .ok engine →
      services.definitionSource engine.store = .ok (some text)
  overlaid : ∀ engine data bound generator after,
    services.overlayInstallData engine data bound generator = .ok after →
      services.definitionSource after.store = services.definitionSource engine.store ∧
        after.model = engine.model

/-- The releases of the instance at each place, from its installation on. -/
abbrev History (M : Type) := ModuleSpace × String → List (Release M)

/-- The release that the instance of a place runs. -/
def ModuleHost.running (host : ModuleHost services) (space : ModuleSpace) (name text : String) :
    List (Release M) :=
  ((host.find space name).map fun child => ⟨text, child.engine.model⟩).toList

/-- The history after an accepted operation that gives a host. -/
def History.accepted (history : History M) (after : ModuleHost services) : Event services → History M
  | .install space request _ =>
    Function.update history (space, request.name) (after.running space request.name request.definition)
  | .uninstall space name => Function.update history (space, name) []
  | .rename space name other =>
    Function.update (Function.update history (space, name) []) (space, other) (history (space, name))
  | .update space name target _ =>
    Function.update history (space, name) (history (space, name) ++ after.running space name target)
  | _ => history

/-- The history after an operation. -/
def History.after (history : History M) (host : ModuleHost services) (event : Event services) : History M :=
  match (host.perform event).1 with
  | .error _ => history
  | .ok _ => history.accepted (host.after event) event

/-- A package satisfies the contracts that the root declares for a space. -/
def Satisfies (host : ModuleHost services) (space : ModuleSpace) (package : M) : Prop :=
  ∀ contracts, services.moduleSpaceInterfaces host.root space.declarationPath = some contracts →
    ∀ contract ∈ contracts, ContractMet contract package

/-- A package satisfies a peer requirement. -/
def Serves (package : M) (required : PeerUse) : Prop :=
  required.Met (Package.line package) (Package.version package).major (Package.interfaceNames package)

/-- A package serves every handle of a space that holds a name. -/
def Fits (host : ModuleHost services) (space : ModuleSpace) (name : String) (package : M) : Prop :=
  ∀ holder ∈ host.children, holder.space = space →
    ∀ pair ∈ holder.bindings.peerUses.zip holder.resolvedPeers, pair.2.inst = some name →
      Serves package pair.1

/-- A loaded package serves the handles that hold its name, and its declared interfaces show rows. -/
def InstallsFitting (host : ModuleHost services) (space : ModuleSpace) (request : InstallRequest)
    (generator : services.Generator) : Prop :=
  ∀ prepared factory store engine, host.prepareInstall space request = .ok prepared →
    services.create host.factory (host.mintIncarnation space prepared.admitted.name).1 = (.ok store, factory) →
    host.loadInstance space prepared generator store = .ok engine →
      Fits host space prepared.admitted.name engine.model ∧
        ∀ contracts, services.moduleSpaceInterfaces host.root space.declarationPath = some contracts →
          ∀ contract ∈ contracts, ShowsRows contract engine.model

/-- An enabled instance serves its handles and satisfies its contracts. -/
def EnablesFitting (host : ModuleHost services) (space : ModuleSpace) (name : String) : Prop :=
  ∀ child, host.find space name = some child →
    Fits host space name child.engine.model ∧ Satisfies host space child.engine.model

/-- An enabled instance serves the handles that hold its new name. -/
def RenamesFitting (host : ModuleHost services) (space : ModuleSpace) (name other : String) : Prop :=
  host.find space other = none → ∀ child, host.find space name = some child → child.enabled = true →
    Fits host space other child.engine.model

/-- An accepted target serves the handles of an enabled instance and satisfies its contracts. Under the
same major its pass-through views lose no field. -/
def UpdatesFitting (host : ModuleHost services) (space : ModuleSpace) (name target : String)
    (generator : services.Generator) : Prop :=
  ∀ child active seq engine, host.find space name = some child →
    ModuleHost.widenedText services child target = .ok active →
    child.engine.update target (services.updateChecks target generator) = (.ok seq, engine) →
      (child.enabled = true → Fits host space name engine.model ∧ Satisfies host space engine.model) ∧
        (Release.major ⟨active, child.engine.model⟩ = Release.major ⟨target, engine.model⟩ →
          Release.PassesThrough ⟨active, child.engine.model⟩ ⟨target, engine.model⟩)

/-- The operations that keep the boundary. -/
def Fitting (host : ModuleHost services) (_ : History M) : Event services → Prop
  | .install space request generator => InstallsFitting host space request generator
  | .enable space name => EnablesFitting host space name
  | .rename space name other => RenamesFitting host space name other
  | .update space name target generator => UpdatesFitting host space name target generator
  | _ => True

/-- A resolved handle answers a requirement. -/
def Answers (required : PeerUse) (peer : ResolvedPeer) : Prop :=
  peer.handle = required.handle ∧ peer.interface = required.interface

/-- What the boundary of a host promises at one moment of a run. -/
structure Bounded (host : ModuleHost services) (history : History M) : Prop where
  contracts : ∀ child ∈ host.children, child.enabled = true →
    Satisfies host child.space child.engine.model
  handles : ∀ holder ∈ host.children,
    List.Forall₂ Answers holder.bindings.peerUses holder.resolvedPeers
  peers : ∀ holder ∈ host.children, ∀ pair ∈ holder.bindings.peerUses.zip holder.resolvedPeers,
    ∀ target, host.livePeer holder.space pair.2 = some target → Serves target.engine.model pair.1
  active : ∀ child ∈ host.children, ∃ release ∈ (history child.place).getLast?,
    services.definitionSource child.engine.store = .ok (some release.text) ∧
      release.package = child.engine.model
  releases : ∀ child ∈ host.children, ∀ segment, segment <:+: history child.place →
    ∀ major, (∀ release ∈ segment, release.major = major) → segment.Pairwise Release.Keeps

/-- The releases of an instance follow one another, and the last one is active. -/
structure Lineage (services : Services S M P) (releases : List (Release M)) (child : Child S M P) : Prop where
  chain : releases.IsChain Follows
  active : ∃ release ∈ releases.getLast?,
    services.definitionSource child.engine.store = .ok (some release.text) ∧
      release.package = child.engine.model

/-- The facts that a run of fitting operations preserves. -/
structure Boundary (host : ModuleHost services) (history : History M) : Prop where
  placed : host.Placed
  handles : ∀ holder ∈ host.children,
    List.Forall₂ Answers holder.bindings.peerUses holder.resolvedPeers
  fits : ∀ child ∈ host.children, child.enabled = true →
    Fits host child.space child.name child.engine.model
  contracts : ∀ child ∈ host.children, child.enabled = true →
    Satisfies host child.space child.engine.model
  lineages : ∀ child ∈ host.children, Lineage services (history child.place) child

section Changes

variable {host : ModuleHost services} {history : History M} {space : ModuleSpace} {name : String}
  {change : Child S M P → Child S M P}

omit [EngineProvider P] in
/-- What served the handles serves them after the change. -/
theorem Preserves.fits (preserves : Preserves change) (placed : host.Placed)
    {after : ModuleHost services}
    (changed : after.children = changeNamed Child.place (space, name) change host.children)
    {place : ModuleSpace} {held : String} {package : M} (fits : Fits host place held package) :
    Fits after place held package := by
  intro holder holds same pair inside bound
  rw [changed] at holds
  obtain ⟨child, listed, -, spaces, bindings, peers, -⟩ := preserves.before placed holds
  rw [bindings, peers] at inside
  exact fits child listed (spaces.symm.trans same) pair inside bound

omit [EngineProvider P] in
/-- A change that fits keeps the boundary. -/
theorem Boundary.afterChange (boundary : Boundary host history) (preserves : Preserves change)
    {other : String} (named : ∀ child, child.place = (space, name) → (change child).name = other)
    (kept : other = name ∨ host.find space other = none) {after : ModuleHost services}
    (root : after.root = host.root)
    (changed : after.children = changeNamed Child.place (space, name) change host.children)
    (fitting : ∀ child, host.find space name = some child → (change child).enabled = true →
      Fits host space other (change child).engine.model ∧ Satisfies host space (change child).engine.model)
    {later : History M} (moved : ∀ child, host.find space name = some child →
      Lineage services (later (space, other)) (change child))
    (others : ∀ child ∈ host.children, child.place ≠ (space, name) →
      later child.place = history child.place) : Boundary after later := by
  have satisfies (place : ModuleSpace) (package : M) (met : Satisfies host place package) :
      Satisfies after place package := by
    rw [Satisfies, root]
    exact met
  have addressed (child : Child S M P) (found : host.find space name = some child) :
      (change child).space = space ∧ (change child).name = other := by
    obtain ⟨spaces, _⟩ := Child.place_eq.mp (mem_of_named found).2
    exact ⟨(preserves.space child).trans spaces, named child (mem_of_named found).2⟩
  refine
    { placed := ?_, handles := fun holder holds => ?_, fits := fun child inside enabled => ?_,
      contracts := fun child inside enabled => ?_, lineages := fun child inside => ?_ }
  · show UniqueNames Child.place after.children
    rw [changed]
    exact placed_afterChange boundary.placed preserves.space named kept
  · rw [changed] at holds
    obtain ⟨child, listed, -, -, bindings, peers, -⟩ := preserves.before boundary.placed holds
    rw [bindings, peers]
    exact boundary.handles child listed
  · rw [changed] at inside
    rcases boundary.placed.mem_changeNamed.mp inside with ⟨before, found, rfl⟩ | ⟨inside, -⟩
    · obtain ⟨spaces, names⟩ := addressed before found
      rw [spaces, names]
      exact preserves.fits boundary.placed changed (fitting before found enabled).1
    · exact preserves.fits boundary.placed changed (boundary.fits child inside enabled)
  · rw [changed] at inside
    rcases boundary.placed.mem_changeNamed.mp inside with ⟨before, found, rfl⟩ | ⟨inside, -⟩
    · rw [(addressed before found).1]
      exact satisfies _ _ (fitting before found enabled).2
    · exact satisfies _ _ (boundary.contracts child inside enabled)
  · rw [changed] at inside
    rcases boundary.placed.mem_changeNamed.mp inside with ⟨before, found, rfl⟩ | ⟨inside, away⟩
    · rw [show (change before).place = (space, other) from Child.place_eq.mpr (addressed before found)]
      exact moved before found
    · rw [others child inside away]
      exact boundary.lineages child inside

end Changes

section Steps

variable {host : ModuleHost services} {history : History M}

omit [EngineProvider P] in
/-- The removal of instances keeps the boundary. -/
theorem Boundary.afterRemoval (boundary : Boundary host history) {after : ModuleHost services}
    (root : after.root = host.root) (part : after.children.Sublist host.children) {later : History M}
    (same : ∀ child ∈ after.children, later child.place = history child.place) : Boundary after later where
  placed := boundary.placed.sublist (part.map Child.place)
  handles holder holds := boundary.handles holder (part.subset holds)
  fits child inside enabled holder holds :=
    boundary.fits child (part.subset inside) enabled holder (part.subset holds)
  contracts child inside enabled := by
    rw [Satisfies, root]
    exact boundary.contracts child (part.subset inside) enabled
  lineages child inside := by
    rw [same child inside]
    exact boundary.lineages child (part.subset inside)

theorem admitInstall_ok {request : InstallRequest} {admitted : AdmittedInstall}
    (passed : request.admitInstall = .ok admitted) :
    admitted.name = request.name ∧ admitted.definition = request.definition := by
  rw [InstallRequest.admitInstall] at passed
  split at passed
  next => cases passed
  next =>
    split at passed
    next => cases passed
    next =>
      cases passed
      exact ⟨rfl, rfl⟩

omit [EngineProvider P] in
/-- A prepared installation carries the name and the definition of its request. -/
theorem prepareInstall_admitted {space : ModuleSpace} {request : InstallRequest}
    {prepared : ModuleHost.Prepared} (ready : host.prepareInstall space request = .ok prepared) :
    prepared.admitted.name = request.name ∧ prepared.admitted.definition = request.definition := by
  rw [ModuleHost.prepareInstall, bind_ok] at ready
  obtain ⟨admitted, passed, ready⟩ := ready
  obtain ⟨_, _, ready⟩ := bind_ok.mp ready
  split at ready
  next => cases ready
  next =>
    obtain ⟨peers, _, ready⟩ := bind_ok.mp ready
    obtain ⟨bound, _, ready⟩ := bind_ok.mp ready
    cases ready
    exact admitInstall_ok passed

omit [EngineProvider P] in
/-- A loaded engine passes the contracts of its space and has the definition of its request. -/
theorem loadInstance_ok (recorded : Recorded services) {space : ModuleSpace}
    {prepared : ModuleHost.Prepared} {generator : services.Generator} {store : S} {engine : Engine S M P}
    (loaded : host.loadInstance space prepared generator store = .ok engine) :
    host.checkInterfaceContracts space engine.model = .ok ⟨⟩ ∧
      services.definitionSource engine.store = .ok (some prepared.admitted.definition) := by
  rw [ModuleHost.loadInstance, bind_ok] at loaded
  obtain ⟨first, made, loaded⟩ := loaded
  obtain ⟨_, checked, loaded⟩ := bind_ok.mp loaded
  have text := recorded.loaded _ _ _ _ _ _ made
  split at loaded
  next =>
    cases loaded
    exact ⟨checked, text⟩
  next data _ =>
    cases overlaid : services.overlayInstallData first data prepared.bound generator with
    | error error =>
      rw [overlaid] at loaded
      cases loaded
    | ok later =>
      rw [overlaid] at loaded
      cases loaded
      obtain ⟨same, package⟩ := recorded.overlaid _ _ _ _ _ overlaid
      rw [package, same]
      exact ⟨checked, text⟩

omit [EngineProvider P] in
/-- A package that passes the check of a space satisfies its contracts. -/
theorem satisfies_of_checked {space : ModuleSpace} {package : M}
    (checked : host.checkInterfaceContracts space package = .ok ⟨⟩)
    (shows : ∀ contracts, services.moduleSpaceInterfaces host.root space.declarationPath = some contracts →
      ∀ contract ∈ contracts, ShowsRows contract package) : Satisfies host space package := by
  intro contracts declared
  rw [ModuleHost.checkInterfaceContracts, declared] at checked
  exact checkContracts_met checked (shows contracts declared)

omit [EngineProvider P] in
/-- A sibling that resolution found is an enabled instance of the space. -/
theorem mem_siblings {space : ModuleSpace} {sibling : SiblingInterface}
    (inside : sibling ∈ host.siblings space) : ∃ child ∈ host.children, child.space = space ∧
      child.name = sibling.name ∧ (∀ required, sibling.satisfies required = true →
        Serves child.engine.model required) := by
  obtain ⟨child, listed, rfl⟩ := List.mem_map.mp inside
  obtain ⟨listed, kept⟩ := List.mem_filter.mp listed
  simp only [Bool.and_eq_true, decide_eq_true_eq] at kept
  refine ⟨child, listed, kept.1, rfl, fun required met => ?_⟩
  show required.Met _ _ _
  exact of_decide_eq_true met

omit [EngineProvider P] in
/-- The mounting of a fitting instance keeps the boundary. -/
theorem Boundary.afterMount (boundary : Boundary host history) (recorded : Recorded services)
    {space : ModuleSpace} {request : InstallRequest} {generator : services.Generator}
    (fitting : InstallsFitting host space request generator) {prepared : ModuleHost.Prepared}
    {factory : services.Factory} {store : S} {engine : Engine S M P}
    (ready : host.prepareInstall space request = .ok prepared)
    (created : services.create host.factory (host.mintIncarnation space prepared.admitted.name).1 =
      (.ok store, factory))
    (loaded : host.loadInstance space prepared generator store = .ok engine)
    {after : ModuleHost services} (root : after.root = host.root)
    (mounted : after.children = host.children ++
      [Prepared.child prepared space (host.mintIncarnation space prepared.admitted.name).1 engine]) :
    Boundary after (history.accepted after (.install space request generator)) := by
  obtain ⟨free, resolved⟩ := prepareInstall_ok ready
  obtain ⟨names, definitions⟩ := prepareInstall_admitted ready
  obtain ⟨served, shows⟩ := fitting prepared factory store engine ready created loaded
  obtain ⟨checked, text⟩ := loadInstance_ok recorded loaded
  have answered := resolve_ok resolved
  generalize (host.mintIncarnation space prepared.admitted.name).1 = incarnation at mounted
  have satisfies (place : ModuleSpace) (package : M) (met : Satisfies host place package) :
      Satisfies after place package := by
    rw [Satisfies, root]
    exact met
  have placed : after.Placed := by
    show UniqueNames Child.place after.children
    rw [mounted]
    exact boundary.placed.append free
  -- The new instance is not among its own siblings, and its handles were resolved among them.
  have resolves : ∀ pair ∈ prepared.admitted.bindings.peerUses.zip prepared.peers, ∀ held, pair.2.inst = some held →
      ∃ child ∈ host.children, child.place = (space, held) ∧ Serves child.engine.model pair.1 := by
    intro pair inside held bound
    obtain ⟨sibling, listed, rfl, met⟩ := (List.forall₂_zip answered inside).sibling held bound
    obtain ⟨child, listed, spaces, same, serves⟩ := mem_siblings listed
    exact ⟨child, listed, Child.place_eq.mpr ⟨spaces, same⟩, serves _ met⟩
  have fits (child : Child S M P) (listed : child ∈ after.children)
      (old : Fits host child.space child.name child.engine.model) :
      Fits after child.space child.name child.engine.model := by
    intro holder holds same pair inside bound
    rw [mounted] at holds
    rcases List.mem_append.mp holds with holds | holds
    · exact old holder holds same pair inside bound
    · obtain rfl := List.mem_singleton.mp holds
      obtain ⟨target, targets, place, serves⟩ := resolves pair inside child.name bound
      have equal : target = child := placed.eq (by rw [mounted]; exact List.mem_append_left _ targets) listed
        (place.trans (Child.place_eq.mpr ⟨same.symm, rfl⟩).symm)
      rw [← equal]
      exact serves
  refine
    { placed := placed, handles := fun holder holds => ?_, fits := fun child inside enabled => ?_,
      contracts := fun child inside enabled => ?_, lineages := fun child inside => ?_ }
  · rw [mounted] at holds
    rcases List.mem_append.mp holds with holds | holds
    · exact boundary.handles holder holds
    · rw [List.mem_singleton.mp holds]
      exact answered.imp fun _ _ resolves => ⟨resolves.handle, resolves.interface⟩
  · refine fits child inside ?_
    rw [mounted] at inside
    rcases List.mem_append.mp inside with inside | inside
    · exact boundary.fits child inside enabled
    · rw [List.mem_singleton.mp inside]
      exact served
  · rw [mounted] at inside
    rcases List.mem_append.mp inside with inside | inside
    · exact satisfies _ _ (boundary.contracts child inside enabled)
    · rw [List.mem_singleton.mp inside]
      exact satisfies _ _ (satisfies_of_checked checked shows)
  · have listed := inside
    rw [mounted] at inside
    rcases List.mem_append.mp inside with inside | inside
    · have away : child.place ≠ (space, request.name) := by
        rw [← names]
        exact named_eq_none.mp free child inside
      rw [History.accepted, Function.update_of_ne away]
      exact boundary.lineages child inside
    · obtain rfl := List.mem_singleton.mp inside
      have place : (Prepared.child prepared space incarnation engine).place = (space, request.name) :=
        Child.place_eq.mpr ⟨rfl, names⟩
      have found : after.find space request.name = some (Prepared.child prepared space incarnation engine) :=
        placed.named_iff.mpr ⟨listed, place⟩
      rw [place, History.accepted, Function.update_self, ModuleHost.running, found]
      exact ⟨.singleton _, ⟨request.definition, engine.model⟩, rfl, definitions ▸ text, rfl⟩

omit [EngineProvider P] in
/-- The releases at the place of an instance are its own. -/
theorem Boundary.lineage (boundary : Boundary host history) {space : ModuleSpace} {name : String}
    {child : Child S M P} (found : host.find space name = some child) :
    (history (space, name)).IsChain Follows ∧ ∃ release ∈ (history (space, name)).getLast?,
      services.definitionSource child.engine.store = .ok (some release.text) ∧
        release.package = child.engine.model := by
  obtain ⟨inside, place⟩ := mem_of_named found
  rw [← place]
  exact ⟨(boundary.lineages child inside).chain, (boundary.lineages child inside).active⟩

omit [EngineProvider P] in
/-- A target that is not refused keeps the exposed surface of the active text. -/
theorem widenedText_ok {child : Child S M P} {target active : String}
    (widened : ModuleHost.widenedText services child target = .ok active) :
    services.definitionSource child.engine.store = .ok (some active) ∧
      exposedNarrowing (Package.alphanumeric M) (Package.parse M active) (Package.parse M target) = none := by
  rw [ModuleHost.widenedText] at widened
  split at widened
  next => cases widened
  next => cases widened
  next text source =>
    split at widened
    next => cases widened
    next kept =>
      cases widened
      exact ⟨source, kept⟩

/-- The releases of an instance with its accepted target are its releases after the update. -/
theorem Boundary.updated (boundary : Boundary host history) (recorded : Recorded services)
    {space : ModuleSpace} {name target active : String} {generator : services.Generator} {child : Child S M P}
    (found : host.find space name = some child)
    (widened : ModuleHost.widenedText services child target = .ok active) {seq : Nat}
    {engine : Engine S M P}
    (moved : child.engine.update target (services.updateChecks target generator) = (.ok seq, engine))
    (passes : Release.major ⟨active, child.engine.model⟩ = Release.major ⟨target, engine.model⟩ →
      Release.PassesThrough ⟨active, child.engine.model⟩ ⟨target, engine.model⟩) :
    Lineage services (history (space, name) ++ [⟨target, engine.model⟩]) { child with engine := engine } := by
  obtain ⟨chain, last, ends, source, package⟩ := boundary.lineage found
  obtain ⟨text, kept⟩ := widenedText_ok widened
  have latest : last = ⟨active, child.engine.model⟩ := by
    rw [source] at text
    cases last
    cases package
    cases text
    rfl
  obtain ⟨current, migrated, outcome, committed, store⟩ := Engine.update_ok moved
  refine ⟨List.isChain_append.mpr ⟨chain, .singleton _, ?_⟩, ⟨target, engine.model⟩, ?_, ?_, rfl⟩
  · intro earlier atEnd later atStart
    obtain rfl := Option.some.inj (ends.symm.trans atEnd)
    obtain rfl := Option.some.inj atStart
    rw [latest]
    exact fun same => Release.keeps_of_widened kept (passes same)
  · exact List.getLast?_concat
  · dsimp only
    rw [store]
    cases outcome with
    | committed after seat => exact recorded.committed _ _ _ _ _ _ _ committed
    | unchanged => exact recorded.unchanged _ _ _ _ _ committed

/-- A fitting operation keeps the boundary. -/
theorem Boundary.step (boundary : Boundary host history) (recorded : Recorded services)
    {event : Event services} (fitting : Fitting host history event) :
    Boundary (host.after event) (history.after host event) := by
  have root : (host.after event).root = host.root := (perform_frame host event).1
  have moved : Steps host event (host.perform event).1 (host.after event).children := perform_steps host event
  generalize instances : (host.after event).children = children at moved
  rw [History.after]
  generalize (host.perform event).1 = result at moved ⊢
  cases moved with
  | refused => exact boundary.afterRemoval root (by rw [instances]) fun _ _ => rfl
  | installed ready created loaded =>
    exact boundary.afterMount recorded fitting ready created loaded root instances
  | disabled found =>
    refine boundary.afterChange (preserves_enabled false) (fun child place => (Child.place_eq.mp place).2)
      (.inl rfl) root instances ?_ ?_ ?_
    · intro child _ enabled
      cases enabled
    · exact fun child found => ⟨(boundary.lineage found).1, (boundary.lineage found).2⟩
    · exact fun _ _ _ => rfl
  | enabled found =>
    refine boundary.afterChange (preserves_enabled true) (fun child place => (Child.place_eq.mp place).2)
      (.inl rfl) root instances ?_ ?_ ?_
    · exact fun child found _ => fitting child found
    · exact fun child found => ⟨(boundary.lineage found).1, (boundary.lineage found).2⟩
    · exact fun _ _ _ => rfl
  | @uninstalled space name child found =>
    refine boundary.afterRemoval root (by rw [instances]; exact List.eraseP_sublist) fun other inside => ?_
    rw [instances] at inside
    exact Function.update_of_ne (boundary.placed.mem_removeNamed.mp inside).2 _ _
  | @renamed space name other child found fresh =>
    have away : ∀ child ∈ host.children, child.place ≠ (space, other) := named_eq_none.mp fresh
    refine boundary.afterChange (preserves_name other) (fun _ _ => rfl) (.inr fresh) root instances ?_ ?_ ?_
    · intro child found enabled
      refine ⟨fitting fresh child found enabled, ?_⟩
      obtain ⟨inside, place⟩ := mem_of_named found
      rw [← (Child.place_eq.mp place).1]
      exact boundary.contracts child inside enabled
    · intro child found
      obtain ⟨chain, active⟩ := boundary.lineage found
      simp only [History.accepted, Function.update_self]
      exact ⟨chain, active⟩
    · intro child inside elsewhere
      simp only [History.accepted]
      rw [Function.update_of_ne (away child inside), Function.update_of_ne elsewhere]
  | @updated space name target active generator child found widened result engine step =>
    cases result with
    | error error =>
      obtain ⟨model, store⟩ := Engine.update_error step
      obtain ⟨inside, place⟩ := mem_of_named found
      refine boundary.afterChange (preserves_engine engine) (fun child place => (Child.place_eq.mp place).2)
        (.inl rfl) root instances ?_ ?_ fun _ _ _ => rfl
      · intro other also enabled
        obtain rfl := Option.some.inj (found.symm.trans also)
        obtain ⟨spaces, names⟩ := Child.place_eq.mp place
        dsimp only
        rw [model, ← spaces, ← names]
        exact ⟨boundary.fits child inside enabled, boundary.contracts child inside enabled⟩
      · intro other also
        obtain rfl := Option.some.inj (found.symm.trans also)
        obtain ⟨chain, active⟩ := boundary.lineage found
        refine ⟨chain, ?_⟩
        dsimp only
        rw [model, store]
        exact active
    | ok seq =>
      obtain ⟨fits, passes⟩ := fitting child active seq engine found widened step
      refine boundary.afterChange (preserves_engine engine) (fun child place => (Child.place_eq.mp place).2)
        (.inl rfl) root instances ?_ ?_ ?_
      · intro other also enabled
        obtain rfl := Option.some.inj (found.symm.trans also)
        exact fits enabled
      · intro other also
        obtain rfl := Option.some.inj (found.symm.trans also)
        have after : (host.after (.update space name target generator)).find space name =
            some { child with engine := engine } := by
          have placed : (host.after (.update space name target generator)).Placed := by
            show UniqueNames Child.place (host.after (.update space name target generator)).children
            rw [instances]
            exact placed_afterChange boundary.placed (preserves_engine engine).space
              (fun child place => (Child.place_eq.mp place).2) (.inl rfl)
          refine placed.named_iff.mpr ⟨?_, (mem_of_named found).2⟩
          rw [instances]
          exact boundary.placed.mem_changeNamed.mpr (.inl ⟨child, found, rfl⟩)
        have grown : history.accepted (host.after (.update space name target generator))
            (.update space name target generator) (space, name) =
              history (space, name) ++ [⟨target, engine.model⟩] := by
          rw [History.accepted, Function.update_self, ModuleHost.running, after]
          rfl
        show Lineage services (history.accepted (host.after (.update space name target generator))
          (.update space name target generator) (space, name)) _
        rw [grown]
        exact boundary.updated recorded found widened step passes
      · exact fun _ _ elsewhere => Function.update_of_ne elsewhere _ _

omit [EngineProvider P] in
/-- A host within its boundary keeps its promises. -/
theorem Boundary.bounded (boundary : Boundary host history) : Bounded host history where
  contracts := boundary.contracts
  handles := boundary.handles
  peers holder holds pair inside target live := by
    obtain ⟨found, enabled⟩ := Option.filter_eq_some_iff.mp live
    obtain ⟨listed, bound, spaces⟩ := found_mem found
    exact boundary.fits target listed enabled holder holds spaces.symm pair inside bound
  active child inside := (boundary.lineages child inside).active
  releases child inside segment part major one :=
    pairwise_keeps (boundary.lineages child inside).chain part one

end Steps

end Boundaries

section Sample

end Sample

end Liasse.Modules
