/-
This file proves what every run of lifecycle operations keeps, and it tells which operations break a peer
handle, an engine or an incarnation.
-/

import Liasse.Codes.Runs
import Liasse.Modules.Steps

namespace Liasse.Modules

open Codes Liasse.Host Liasse.Runtime

section Incarnations

/-- The number and the suffix of an incarnation can be read back. -/
theorem incarnationToken_inj {root first second : String} {number other : Nat} (bounded : number < 2 ^ 64)
    (alsoBounded : other < 2 ^ 64)
    (same : incarnationToken root number first = incarnationToken root other second) :
    number = other ∧ first = second := by
  have clean : ∀ seat : Nat, '-' ∉ seat.repr.toList.reverse := by
    intro seat inside
    rw [List.mem_reverse, Nat.toList_repr] at inside
    have digit := Nat.isDigit_of_mem_toDigits (by decide) (by decide) inside
    exact absurd digit (by decide)
  have texts : number.repr.toList ++ '-' :: first.toList = other.repr.toList ++ '-' :: second.toList := by
    have spelled := congrArg String.toList same
    simpa [incarnationToken] using spelled
  have reversed := congrArg List.reverse texts
  simp only [List.reverse_append, List.reverse_cons, List.append_assoc, List.singleton_append] at reversed
  obtain ⟨suffixes, digits⟩ := History.marked_inj (clean number) (clean other) reversed
  have numbers : number.repr = other.repr := String.toList_inj.mp (List.reverse_injective digits)
  have read := History.position_repr bounded
  rw [numbers, History.position_repr alsoBounded] at read
  exact ⟨(Option.some.inj read).symm, String.toList_inj.mp (List.reverse_injective suffixes)⟩

end Incarnations

section Runs

variable {S M P : Type} [InstanceStore S M] [EngineProvider P] [Package M] {services : Services S M P}

/-- An incarnation that was given to an instance, with the count of the earlier ones and its suffix. -/
structure Issue where
  count : Nat
  suffix : String
  incarnation : String

/-- A peer handle of an instance with the sibling that it was resolved to. -/
structure Handle where
  holder : String
  peer : ResolvedPeer
  target : String
deriving DecidableEq

/-- What a run has done with incarnations and with peer handles. -/
structure Record where
  minted : Nat
  issued : List Issue
  handles : List Handle

/-- The handles of a new instance. -/
def handlesOf (host : ModuleHost services) (space : ModuleSpace) (incarnation : String)
    (peers : List ResolvedPeer) : List Handle :=
  peers.filterMap fun peer =>
    (peer.inst.bind (host.find space)).map fun sibling => ⟨incarnation, peer, sibling.incarnation⟩

/-- The record after an operation of a host. -/
def Record.after (record : Record) (host : ModuleHost services) : Event services → Record
  | .install space request generator =>
    match host.prepareInstall space request with
    | .error _ => record
    | .ok prepared =>
      match (host.installPrepared space prepared generator).1 with
      | .error _ => { record with minted := record.minted + 1 }
      | .ok incarnation =>
        { minted := record.minted + 1
          issued := record.issued ++
            [⟨record.minted, incarnationSuffix space prepared.admitted.name, incarnation⟩]
          handles := record.handles ++ handlesOf host space incarnation prepared.peers }
  | _ => record

/-- The record of a run that starts. -/
def Record.empty : Record := ⟨0, [], []⟩

/-- The host after an operation. -/
def ModuleHost.after (host : ModuleHost services) (event : Event services) : ModuleHost services :=
  (host.perform event).2

/-- A name is not taken from an instance that a handle of another instance was resolved to. -/
def KeepsHandles (host : ModuleHost services) (record : Record) (space : ModuleSpace) (name other : String) :
    Prop :=
  host.find space other = none → ∀ child, host.find space name = some child →
    ∀ handle ∈ record.handles, handle.target = child.incarnation →
      ∀ holder ∈ host.children, holder.incarnation ≠ handle.holder

/-- The number of the counter was not taken before for the same space and name. -/
def TakesFreshNumber (host : ModuleHost services) (record : Record) (space : ModuleSpace)
    (request : InstallRequest) : Prop :=
  ∀ prepared, host.prepareInstall space request = .ok prepared → ∀ issue ∈ record.issued,
    issue.count % 2 ^ 64 = record.minted % 2 ^ 64 →
      issue.suffix ≠ incarnationSuffix space prepared.admitted.name

/-- The activation that an update reaches leaves the engine when it is refused. -/
def UpdatesIntact (host : ModuleHost services) (space : ModuleSpace) (name target : String)
    (generator : services.Generator) : Prop :=
  ∀ child active, host.find space name = some child →
    ModuleHost.widenedText services child target = .ok active →
    ∀ reached, (Movement.update target (services.updateChecks target generator)).attempt child.engine =
      some reached → child.engine.Intact reached

/-- The operations that keep the composition. -/
def Permitted (host : ModuleHost services) (record : Record) : Event services → Prop
  | .install space request _ => TakesFreshNumber host record space request
  | .rename space name other => KeepsHandles host record space name other
  | .update space name target generator => UpdatesIntact host space name target generator
  | _ => True

/-- The place of an instance after an accepted operation. -/
def Event.placeAfter (child : Child S M P) : Event services → ModuleSpace × String
  | .rename space name other => if child.place = (space, name) then (space, other) else child.place
  | _ => child.place

/-- An operation removes the instance of a place. -/
def Event.Removes (place : ModuleSpace × String) : Event services → Prop
  | .uninstall space name => place = (space, name)
  | _ => False

/-- What a host shows at one moment of a run. -/
structure Composed (host : ModuleHost services) (record : Record) : Prop where
  unique : (host.children.map Child.place).Nodup
  neverReused : (record.issued.map Issue.incarnation).Nodup
  silent : Silent host
  denotes : ∀ handle ∈ record.handles, ∀ holder ∈ host.children, holder.incarnation = handle.holder →
    ∀ target ∈ host.children, target.incarnation = handle.target →
      handle.peer ∈ holder.resolvedPeers ∧ handle.peer.inst.bind (host.find holder.space) = some target

/-- What one operation does to the instances of a host. A refused operation leaves them, an accepted one
keeps the incarnations of all but the removed one, and a removed one is gone. -/
structure Steady (host : ModuleHost services) (event : Event services) : Prop where
  refused : ∀ error, (host.perform event).1 = .error error →
    (host.perform event).2.children = host.children
  survives : (host.perform event).1 = .ok ⟨⟩ → ∀ child ∈ host.children, ¬ event.Removes child.place →
    ∃ later ∈ (host.perform event).2.children,
      later.incarnation = child.incarnation ∧ later.place = event.placeAfter child
  removed : (host.perform event).1 = .ok ⟨⟩ → ∀ child ∈ host.children, event.Removes child.place →
    ∀ later ∈ (host.perform event).2.children, later.incarnation ≠ child.incarnation

/-- The facts that a run of permitted operations keeps. -/
structure Invariant (host : ModuleHost services) (record : Record) : Prop where
  placed : host.Placed
  distinct : UniqueNames Child.incarnation host.children
  issuedOnce : UniqueNames Issue.incarnation record.issued
  counter : host.nextIncarnation = record.minted % 2 ^ 64
  spelled : ∀ issue ∈ record.issued, issue.count < record.minted ∧ issue.incarnation =
    incarnationToken (services.rootInstance host.root) (issue.count % 2 ^ 64) issue.suffix
  issued : ∀ child ∈ host.children, child.incarnation ∈ record.issued.map Issue.incarnation
  holders : ∀ handle ∈ record.handles, handle.holder ∈ record.issued.map Issue.incarnation ∧
    handle.target ∈ record.issued.map Issue.incarnation
  denotes : ∀ handle ∈ record.handles, ∀ holder ∈ host.children, holder.incarnation = handle.holder →
    ∀ target ∈ host.children, target.incarnation = handle.target →
      handle.peer ∈ holder.resolvedPeers ∧ handle.peer.inst = some target.name ∧
        target.space = holder.space

omit [EngineProvider P] in
/-- A prepared installation has a free name and resolved peers. -/
theorem prepareInstall_ok {host : ModuleHost services} {space : ModuleSpace} {request : InstallRequest}
    {prepared : ModuleHost.Prepared} (ready : host.prepareInstall space request = .ok prepared) :
    host.find space prepared.admitted.name = none ∧
      resolve space prepared.admitted.bindings (host.siblings space) = .ok prepared.peers := by
  rw [ModuleHost.prepareInstall, bind_ok] at ready
  obtain ⟨admitted, _, ready⟩ := ready
  obtain ⟨_, _, ready⟩ := bind_ok.mp ready
  split at ready
  next => cases ready
  next free =>
    obtain ⟨peers, resolved, ready⟩ := bind_ok.mp ready
    obtain ⟨bound, _, ready⟩ := bind_ok.mp ready
    cases ready
    exact ⟨by simpa using free, resolved⟩

omit [EngineProvider P] [Package M] in
theorem mem_handlesOf {host : ModuleHost services} {space : ModuleSpace} {incarnation : String}
    {peers : List ResolvedPeer} {handle : Handle} (inside : handle ∈ handlesOf host space incarnation peers) :
    ∃ peer ∈ peers, ∃ sibling, peer.inst.bind (host.find space) = some sibling ∧
      handle = ⟨incarnation, peer, sibling.incarnation⟩ := by
  obtain ⟨peer, listed, made⟩ := List.mem_filterMap.mp inside
  obtain ⟨sibling, found, rfl⟩ := Option.map_eq_some_iff.mp made
  exact ⟨peer, listed, sibling, found, rfl⟩

omit [EngineProvider P] [Package M] in
/-- What a handle denotes is an instance of the space under the recorded name. -/
theorem found_mem {host : ModuleHost services} {space : ModuleSpace} {peer : ResolvedPeer}
    {sibling : Child S M P} (found : peer.inst.bind (host.find space) = some sibling) :
    sibling ∈ host.children ∧ peer.inst = some sibling.name ∧ sibling.space = space := by
  obtain ⟨name, bound, found⟩ := Option.bind_eq_some_iff.mp found
  obtain ⟨inside, place⟩ := mem_of_named found
  obtain ⟨spaces, names⟩ := Child.place_eq.mp place
  exact ⟨inside, by rw [bound, names], spaces⟩

section Changes

variable {host : ModuleHost services} {record : Record} {space : ModuleSpace} {name : String}
  {change : Child S M P → Child S M P}

/-- A change of an instance keeps what identifies it. -/
structure Preserves (change : Child S M P → Child S M P) : Prop where
  incarnation : ∀ child, (change child).incarnation = child.incarnation
  space : ∀ child, (change child).space = child.space
  bindings : ∀ child, (change child).bindings = child.bindings
  peers : ∀ child, (change child).resolvedPeers = child.resolvedPeers

omit [InstanceStore S M] [EngineProvider P] [Package M] in
/-- An instance after a change comes from one before it. -/
theorem Preserves.before {children : List (Child S M P)} (preserves : Preserves change)
    (placed : UniqueNames Child.place children) {later : Child S M P}
    (inside : later ∈ changeNamed Child.place (space, name) change children) :
    ∃ child ∈ children, later.incarnation = child.incarnation ∧ later.space = child.space ∧
      later.bindings = child.bindings ∧ later.resolvedPeers = child.resolvedPeers ∧
      (later = child ∨ (child.place = (space, name) ∧ later = change child)) := by
  rcases placed.mem_changeNamed.mp inside with ⟨child, found, rfl⟩ | ⟨inside, _⟩
  · obtain ⟨listed, same⟩ := mem_of_named found
    exact ⟨child, listed, preserves.incarnation child, preserves.space child, preserves.bindings child,
      preserves.peers child, .inr ⟨same, rfl⟩⟩
  · exact ⟨later, inside, rfl, rfl, rfl, rfl, .inl rfl⟩

omit [EngineProvider P] [Package M] in
/-- A change under a name that is free keeps the places unique. -/
theorem placed_afterChange (placed : host.Placed) (spaces : ∀ child, (change child).space = child.space)
    {other : String} (named : ∀ child, child.place = (space, name) → (change child).name = other)
    (kept : other = name ∨ host.find space other = none) :
    UniqueNames Child.place (changeNamed Child.place (space, name) change host.children) := by
  have moves : ∀ child, child.place = (space, name) → Child.place (change child) = (space, other) := by
    intro child same
    exact Child.place_eq.mpr ⟨(spaces child).trans (Child.place_eq.mp same).1, named child same⟩
  refine placed.changeNamed (fun child inside away => ?_) moves
  rcases kept with rfl | free
  · exact away
  · exact named_eq_none.mp free child inside

omit [EngineProvider P] [Package M] in
/-- A change under a name that is free keeps the invariant when no handle loses its target. -/
theorem Invariant.afterChange (invariant : Invariant host record) (preserves : Preserves change) {other : String}
    (named : ∀ child, child.place = (space, name) → (change child).name = other)
    (kept : other = name ∨ (host.find space other = none ∧ KeepsHandles host record space name other))
    {after : ModuleHost services} (root : after.root = host.root)
    (counter : after.nextIncarnation = host.nextIncarnation)
    (changed : after.children = changeNamed Child.place (space, name) change host.children) :
    Invariant after record where
  placed := by
    show UniqueNames Child.place after.children
    rw [changed]
    exact placed_afterChange invariant.placed preserves.space named (kept.imp_right And.left)
  distinct := by
    rw [UniqueNames, changed, map_changeNamed preserves.incarnation]
    exact invariant.distinct
  issuedOnce := invariant.issuedOnce
  counter := counter.trans invariant.counter
  spelled := by
    rw [root]
    exact invariant.spelled
  issued later inside := by
    rw [changed] at inside
    obtain ⟨child, listed, same, -⟩ := preserves.before invariant.placed inside
    rw [same]
    exact invariant.issued child listed
  holders := invariant.holders
  denotes handle recorded holder holds holder_same target targets target_same := by
    rw [changed] at holds targets
    obtain ⟨first, first_inside, first_same, first_space, -, first_peers, -⟩ :=
      preserves.before invariant.placed holds
    obtain ⟨second, second_inside, second_same, second_space, -, -, moved⟩ :=
      preserves.before invariant.placed targets
    rw [first_same] at holder_same
    rw [second_same] at target_same
    obtain ⟨peer, bound, spaces⟩ :=
      invariant.denotes handle recorded first first_inside holder_same second second_inside target_same
    rw [first_peers, first_space, second_space]
    refine ⟨peer, ?_, spaces⟩
    rcases moved with rfl | ⟨place, rfl⟩
    · exact bound
    · rcases kept with rfl | ⟨free, keeps⟩
      · rw [named second place, bound, (Child.place_eq.mp place).2]
      · have found : host.find space name = some second :=
          invariant.placed.named_iff.mpr ⟨second_inside, place⟩
        exact absurd holder_same (keeps free second found handle recorded target_same.symm first first_inside)

end Changes

section Steps

variable {host : ModuleHost services} {record : Record}

omit [EngineProvider P] [Package M] in
/-- An operation that only takes a number keeps the invariant. -/
theorem Invariant.afterMint (invariant : Invariant host record) {after : ModuleHost services}
    (root : after.root = host.root) (counter : after.nextIncarnation = History.bump host.nextIncarnation)
    (same : after.children = host.children) :
    Invariant after { record with minted := record.minted + 1 } where
  placed := by
    show UniqueNames Child.place after.children
    rw [same]
    exact invariant.placed
  distinct := by
    rw [same]
    exact invariant.distinct
  issuedOnce := invariant.issuedOnce
  counter := by
    rw [counter, invariant.counter, History.bump]
    exact Nat.mod_add_mod _ _ _
  spelled issue inside := by
    obtain ⟨below, spelled⟩ := invariant.spelled issue inside
    rw [root]
    exact ⟨Nat.lt_succ_of_lt below, spelled⟩
  issued := by
    rw [same]
    exact invariant.issued
  holders := invariant.holders
  denotes := by
    rw [same]
    exact invariant.denotes

omit [EngineProvider P] in
/-- A fresh number gives an incarnation that was not issued. -/
theorem Invariant.fresh (invariant : Invariant host record) {space : ModuleSpace}
    {request : InstallRequest} {prepared : ModuleHost.Prepared}
    (ready : host.prepareInstall space request = .ok prepared)
    (fresh : TakesFreshNumber host record space request) :
    (host.mintIncarnation space prepared.admitted.name).1 ∉ record.issued.map Issue.incarnation := by
  intro repeated
  obtain ⟨issue, inside, same⟩ := List.mem_map.mp repeated
  have wrapped : ∀ number : Nat, number % 2 ^ 64 < 2 ^ 64 := fun number => Nat.mod_lt _ (by norm_num)
  rw [(invariant.spelled issue inside).2, ModuleHost.mintIncarnation, invariant.counter] at same
  obtain ⟨numbers, suffixes⟩ := incarnationToken_inj (wrapped _) (wrapped _) same
  exact fresh prepared ready issue inside numbers suffixes

omit [EngineProvider P] in
/-- The mounting of a new instance keeps the invariant. -/
theorem Invariant.afterMount (invariant : Invariant host record) {space : ModuleSpace}
    {request : InstallRequest} {prepared : ModuleHost.Prepared}
    (ready : host.prepareInstall space request = .ok prepared)
    (fresh : TakesFreshNumber host record space request) {engine : Engine S M P}
    {after : ModuleHost services} (root : after.root = host.root)
    (counter : after.nextIncarnation = History.bump host.nextIncarnation)
    (mounted : after.children = host.children ++
      [Prepared.child prepared space (host.mintIncarnation space prepared.admitted.name).1 engine]) :
    Invariant after
      { minted := record.minted + 1
        issued := record.issued ++ [⟨record.minted, incarnationSuffix space prepared.admitted.name,
          (host.mintIncarnation space prepared.admitted.name).1⟩]
        handles := record.handles ++
          handlesOf host space (host.mintIncarnation space prepared.admitted.name).1 prepared.peers } := by
  obtain ⟨free, resolved⟩ := prepareInstall_ok ready
  have unseen := invariant.fresh ready fresh
  have token : (host.mintIncarnation space prepared.admitted.name).1 =
      incarnationToken (services.rootInstance host.root) (record.minted % 2 ^ 64)
        (incarnationSuffix space prepared.admitted.name) := by
    rw [ModuleHost.mintIncarnation, invariant.counter]
  generalize (host.mintIncarnation space prepared.admitted.name).1 = incarnation at *
  -- An instance of the host is not the new one, and the new one has the new incarnation.
  have old : ∀ child ∈ after.children, child.incarnation ∈ record.issued.map Issue.incarnation →
      child ∈ host.children := by
    intro child inside known
    rw [mounted] at inside
    rcases List.mem_append.mp inside with inside | inside
    · exact inside
    · rw [List.mem_singleton.mp inside] at known
      exact absurd known unseen
  have new : ∀ child ∈ after.children, child.incarnation = incarnation →
      child = Prepared.child prepared space incarnation engine := by
    intro child inside same
    rw [mounted] at inside
    rcases List.mem_append.mp inside with inside | inside
    · exact absurd (same ▸ invariant.issued child inside) unseen
    · exact List.mem_singleton.mp inside
  refine
    { placed := ?_, distinct := ?_, issuedOnce := ?_, counter := ?_, spelled := ?_, issued := ?_,
      holders := ?_, denotes := ?_ }
  · show UniqueNames Child.place after.children
    rw [mounted]
    exact invariant.placed.append free
  · rw [mounted]
    refine invariant.distinct.append (named_eq_none.mpr fun child inside same => unseen ?_)
    rw [← show child.incarnation = incarnation from same]
    exact invariant.issued child inside
  · refine invariant.issuedOnce.append (named_eq_none.mpr fun issue inside same => unseen ?_)
    exact List.mem_map.mpr ⟨issue, inside, same⟩
  · rw [counter, invariant.counter, History.bump]
    exact Nat.mod_add_mod _ _ _
  · intro issue inside
    rw [root]
    rcases List.mem_append.mp inside with inside | inside
    · obtain ⟨below, spelled⟩ := invariant.spelled issue inside
      exact ⟨Nat.lt_succ_of_lt below, spelled⟩
    · rw [List.mem_singleton.mp inside]
      exact ⟨Nat.lt_succ_self _, token⟩
  · intro child inside
    rw [mounted] at inside
    rw [List.map_append, List.mem_append]
    rcases List.mem_append.mp inside with inside | inside
    · exact .inl (invariant.issued child inside)
    · rw [List.mem_singleton.mp inside]
      exact .inr (List.mem_singleton_self _)
  · intro handle inside
    rw [List.map_append, List.mem_append, List.mem_append]
    rcases List.mem_append.mp inside with inside | inside
    · obtain ⟨holder, target⟩ := invariant.holders handle inside
      exact ⟨.inl holder, .inl target⟩
    · obtain ⟨peer, _, sibling, found, rfl⟩ := mem_handlesOf inside
      exact ⟨.inr (List.mem_singleton_self _), .inl (invariant.issued sibling (found_mem found).1)⟩
  · intro handle recorded holder holds holder_same target targets target_same
    rcases List.mem_append.mp recorded with recorded | recorded
    · obtain ⟨known, also⟩ := invariant.holders handle recorded
      exact invariant.denotes handle recorded holder (old holder holds (holder_same ▸ known)) holder_same
        target (old target targets (target_same ▸ also)) target_same
    · obtain ⟨peer, listed, sibling, found, rfl⟩ := mem_handlesOf recorded
      obtain ⟨inside, bound, spaces⟩ := found_mem found
      have known := old target targets (target_same ▸ invariant.issued sibling inside)
      obtain rfl := invariant.distinct.eq known inside target_same
      rw [new holder holds holder_same]
      exact ⟨listed, bound, spaces⟩

omit [EngineProvider P] [Package M] in
/-- The removal of instances keeps the invariant. -/
theorem Invariant.afterRemoval (invariant : Invariant host record) {after : ModuleHost services}
    (root : after.root = host.root) (counter : after.nextIncarnation = host.nextIncarnation)
    (part : after.children.Sublist host.children) : Invariant after record where
  placed := invariant.placed.sublist (part.map Child.place)
  distinct := invariant.distinct.sublist (part.map Child.incarnation)
  issuedOnce := invariant.issuedOnce
  counter := counter.trans invariant.counter
  spelled := by
    rw [root]
    exact invariant.spelled
  issued child inside := invariant.issued child (part.subset inside)
  holders := invariant.holders
  denotes handle recorded holder holds holder_same target targets :=
    invariant.denotes handle recorded holder (part.subset holds) holder_same target (part.subset targets)

theorem Invariant.afterInstall (invariant : Invariant host record) {space : ModuleSpace}
    {request : InstallRequest} (generator : services.Generator)
    (fresh : TakesFreshNumber host record space request) :
    Invariant (host.perform (.install space request generator)).2
      (record.after host (.install space request generator)) := by
  obtain ⟨root, counter⟩ := perform_frame host (.install space request generator)
  rw [ModuleHost.mints] at counter
  rw [Record.after]
  cases ready : host.prepareInstall space request with
  | error error =>
    have same : (host.perform (.install space request generator)).2 = host := by
      rw [ModuleHost.perform, ModuleHost.install, ready]
    rw [same]
    exact invariant
  | ok prepared =>
    have same : (host.perform (.install space request generator)).2 =
        (host.installPrepared space prepared generator).2 := by
      rw [ModuleHost.perform, ModuleHost.install, ready]
    rw [same] at root counter ⊢
    rw [ready] at counter
    dsimp only
    rcases installPrepared_cases host space prepared generator with
      ⟨error, refused, kept⟩ | ⟨factory, store, engine, created, loaded, made, mounted⟩
    · rw [refused]
      exact invariant.afterMint root counter kept
    · rw [made]
      exact invariant.afterMount ready fresh root counter mounted

omit [InstanceStore S M] [EngineProvider P] [Package M] in
theorem preserves_enabled (flag : Bool) :
    Preserves fun child : Child S M P => { child with enabled := flag } :=
  ⟨fun _ => rfl, fun _ => rfl, fun _ => rfl, fun _ => rfl⟩

omit [InstanceStore S M] [EngineProvider P] [Package M] in
theorem preserves_name (name : String) :
    Preserves fun child : Child S M P => { child with name := name } :=
  ⟨fun _ => rfl, fun _ => rfl, fun _ => rfl, fun _ => rfl⟩

omit [InstanceStore S M] [EngineProvider P] [Package M] in
theorem preserves_engine (engine : Engine S M P) :
    Preserves fun child : Child S M P => { child with engine := engine } :=
  ⟨fun _ => rfl, fun _ => rfl, fun _ => rfl, fun _ => rfl⟩

/-- A permitted operation keeps the invariant. -/
theorem Invariant.step (invariant : Invariant host record) {event : Event services}
    (permitted : Permitted host record event) :
    Invariant (host.perform event).2 (record.after host event) := by
  have moved := perform_steps host event
  obtain ⟨root, counter⟩ := perform_frame host event
  generalize instances : (host.perform event).2.children = children at moved
  generalize (host.perform event).1 = result at moved
  cases event with
  | install space request generator => exact invariant.afterInstall generator permitted
  | disable space name =>
    cases moved with
    | refused => exact invariant.afterRemoval root counter (by rw [instances])
    | disabled found =>
      exact invariant.afterChange (preserves_enabled false) (fun child place => (Child.place_eq.mp place).2)
        (.inl rfl) root counter instances
  | enable space name =>
    cases moved with
    | refused => exact invariant.afterRemoval root counter (by rw [instances])
    | enabled found =>
      exact invariant.afterChange (preserves_enabled true) (fun child place => (Child.place_eq.mp place).2)
        (.inl rfl) root counter instances
  | uninstall space name =>
    cases moved with
    | refused => exact invariant.afterRemoval root counter (by rw [instances])
    | uninstalled found =>
      exact invariant.afterRemoval root counter (by rw [instances]; exact List.eraseP_sublist)
  | rename space name other =>
    cases moved with
    | refused => exact invariant.afterRemoval root counter (by rw [instances])
    | renamed found fresh =>
      exact invariant.afterChange (preserves_name other) (fun _ _ => rfl) (.inr ⟨fresh, permitted⟩) root
        counter instances
  | update space name target generator =>
    cases moved with
    | refused => exact invariant.afterRemoval root counter (by rw [instances])
    | updated found widened engine =>
      exact invariant.afterChange (preserves_engine _) (fun child place => (Child.place_eq.mp place).2)
        (.inl rfl) root counter instances

omit [EngineProvider P] [Package M] in
theorem Invariant.start (factory : services.Factory) (root : services.Root) :
    Invariant (.new factory root : ModuleHost services) .empty where
  placed := List.nodup_nil
  distinct := List.nodup_nil
  issuedOnce := List.nodup_nil
  counter := rfl
  spelled _ inside := absurd inside List.not_mem_nil
  issued _ inside := absurd inside List.not_mem_nil
  holders _ inside := absurd inside List.not_mem_nil
  denotes _ inside := absurd inside List.not_mem_nil

omit [EngineProvider P] in
/-- A host with the invariant shows what it should. -/
theorem Invariant.composed (invariant : Invariant host record) : Composed host record where
  unique := invariant.placed
  neverReused := invariant.issuedOnce
  silent := silent_of_placed invariant.placed
  denotes handle recorded holder holds holder_same target targets target_same := by
    obtain ⟨peer, bound, spaces⟩ :=
      invariant.denotes handle recorded holder holds holder_same target targets target_same
    refine ⟨peer, ?_⟩
    rw [bound, Option.bind_some]
    exact invariant.placed.named_iff.mpr ⟨targets, Child.place_eq.mpr ⟨spaces, rfl⟩⟩

omit [InstanceStore S M] [EngineProvider P] [Package M] in
/-- An instance before a change is there after it. -/
theorem Preserves.later {space : ModuleSpace} {name : String} {change : Child S M P → Child S M P}
    {children : List (Child S M P)} (placed : UniqueNames Child.place children) {child : Child S M P}
    (inside : child ∈ children) :
    (if child.place = (space, name) then change child else child) ∈
      changeNamed Child.place (space, name) change children := by
  rw [placed.mem_changeNamed]
  split
  next place => exact .inl ⟨child, placed.named_iff.mpr ⟨inside, place⟩, rfl⟩
  next away => exact .inr ⟨inside, away⟩

omit [EngineProvider P] [Package M] in
/-- An instance that a change addresses or not keeps its incarnation. -/
theorem Preserves.survives {space : ModuleSpace} {name other : String}
    {change : Child S M P → Child S M P} (preserves : Preserves change) (placed : host.Placed)
    (named : ∀ child, child.place = (space, name) → (change child).name = other) {child : Child S M P}
    (inside : child ∈ host.children) :
    ∃ later ∈ changeNamed Child.place (space, name) change host.children,
      later.incarnation = child.incarnation ∧
        later.place = if child.place = (space, name) then (space, other) else child.place := by
  refine ⟨_, Preserves.later placed inside, ?_⟩
  split
  next place =>
    refine ⟨preserves.incarnation child, Child.place_eq.mpr ⟨?_, named child place⟩⟩
    rw [preserves.space, (Child.place_eq.mp place).1]
  next => exact ⟨rfl, rfl⟩

/-- A refused update that may not lose its engine leaves it. -/
theorem refused_update {space : ModuleSpace} {name target active : String} {generator : services.Generator}
    (intact : UpdatesIntact host space name target generator) {child : Child S M P}
    (found : host.find space name = some child)
    (widened : ModuleHost.widenedText services child target = .ok active)
    {error : EngineError} {engine : Engine S M P}
    (refused : child.engine.update target (services.updateChecks target generator) = (.error error, engine)) :
    engine = child.engine := by
  have performed : (Movement.update target (services.updateChecks target generator)).perform child.engine =
      (.error error, engine) := by
    rw [Movement.perform, refused]
    rfl
  exact Movement.perform_intact (intact child active found widened) performed

/-- A permitted operation that is refused leaves the instances. -/
theorem Invariant.refused {event : Event services} (permitted : Permitted host record event)
    {error : ModuleError} (refused : (host.perform event).1 = .error error) :
    (host.perform event).2.children = host.children := by
  have moved := perform_steps host event
  rw [refused] at moved
  generalize (host.perform event).2.children = children at moved ⊢
  generalize failed : (.error error : Except ModuleError Unit) = result at moved
  cases moved with
  | refused => rfl
  | updated found widened step =>
    rename_i result engine
    cases result with
    | ok commit => cases failed
    | error cause =>
      obtain rfl := refused_update permitted found widened step
      exact changeNamed_of_fixed found rfl
  | installed => cases failed
  | disabled => cases failed
  | enabled => cases failed
  | uninstalled => cases failed
  | renamed => cases failed

/-- A permitted operation is steady. -/
theorem Invariant.steady (invariant : Invariant host record) {event : Event services}
    (permitted : Permitted host record event) : Steady host event := by
  have moved := perform_steps host event
  refine ⟨fun error => Invariant.refused permitted, fun accepted child inside stays => ?_,
    fun accepted child inside removes later listed same => ?_⟩
  · rw [accepted] at moved
    generalize (host.perform event).2.children = children at moved ⊢
    have keeps (place : ModuleSpace × String) :
        (if child.place = place then place else child.place) = child.place := by
      split
      next same => exact same.symm
      next => rfl
    generalize succeeded : (.ok ⟨⟩ : Except ModuleError Unit) = result at moved
    cases moved with
    | refused => cases succeeded
    | installed => exact ⟨child, List.mem_append_left _ inside, rfl, rfl⟩
    | disabled found =>
      obtain ⟨later, listed, same, place⟩ := (preserves_enabled false).survives invariant.placed
        (fun _ place => (Child.place_eq.mp place).2) inside
      exact ⟨later, listed, same, place.trans (keeps _)⟩
    | enabled found =>
      obtain ⟨later, listed, same, place⟩ := (preserves_enabled true).survives invariant.placed
        (fun _ place => (Child.place_eq.mp place).2) inside
      exact ⟨later, listed, same, place.trans (keeps _)⟩
    | uninstalled found => exact ⟨child, invariant.placed.mem_removeNamed.mpr ⟨inside, stays⟩, rfl, rfl⟩
    | renamed found fresh =>
      exact (preserves_name _).survives invariant.placed (fun _ _ => rfl) inside
    | updated found widened step =>
      obtain ⟨later, listed, same, place⟩ := (preserves_engine _).survives invariant.placed
        (fun _ place => (Child.place_eq.mp place).2) inside
      exact ⟨later, listed, same, place.trans (keeps _)⟩
  · cases event with
    | uninstall space name =>
      rw [accepted] at moved
      generalize (host.perform (.uninstall space name)).2.children = children at moved listed
      cases moved with
      | uninstalled found =>
        obtain ⟨listed, away⟩ := invariant.placed.mem_removeNamed.mp listed
        obtain rfl := invariant.distinct.eq listed inside same
        exact away removes
    | install => exact removes
    | disable => exact removes
    | enable => exact removes
    | rename => exact removes
    | update => exact removes

/-- Along a run of permitted operations every host shows what it should, and every permitted operation is
steady. -/
theorem composition_kept {factory : services.Factory} {root : services.Root}
    (reached : Reached ModuleHost.after Record.after Permitted (.new factory root) .empty host record) :
    Composed host record ∧ ∀ event, Permitted host record event → Steady host event := by
  have invariant : Invariant host record :=
    reached.invariant (.start factory root) fun _ _ _ kept permitted => kept.step permitted
  exact ⟨invariant.composed, fun event => invariant.steady⟩

end Steps

end Runs


section Sample

/-- A package that exposes nothing, one that exposes people by a text, and one that exposes them by a
number. -/
inductive SamplePackage
  | reader
  | people
  | retyped
deriving DecidableEq

/-- The package of a text. -/
def SamplePackage.ofText : String → SamplePackage
  | "people" => .people
  | "retyped" => .retyped
  | _ => .reader

/-- The exposed rows have an identifier. -/
def sampleView (type : FieldType) : List ExposedView :=
  [⟨"people", none, .view [("id", .scalar type)] none⟩]

instance : Package SamplePackage where
  line _ := "acme"
  version _ := ⟨1, 0, 0⟩
  exposedViews
    | .reader => []
    | .people => sampleView .text
    | .retyped => sampleView .int
  interfaceMuts _ := []
  mutation _ _ := none
  alphanumeric := Char.isAlphanum
  parse text :=
    match SamplePackage.ofText text with
    | .reader => some ⟨[], []⟩
    | _ => some ⟨[("people", ⟨some (some (.block [.named "id"])), []⟩)], []⟩

/-- The store of a sample keeps the text of its last definition. -/
instance : InstanceStore String SamplePackage where
  Rows := Unit
  gather _ _ := .ok ⟨⟩
  commit _ _ _ _ definition := .ok (.committed definition 1)
  head _ := .ok 0

/-- The engine of a text. -/
def sampleChild (text : String) : Engine String SamplePackage SampleHsm :=
  { sampleEngine with store := text, model := SamplePackage.ofText text }

/-- A root whose space declares the people by a text. -/
def sampleServices : Services String SamplePackage SampleHsm where
  Root := Unit
  Factory := Unit
  Generator := Unit
  ViewResult := Unit
  ViewRow := Unit
  rootInstance _ := "root"
  moduleSpaceInterfaces _ _ := some [⟨"people", [("id", .text)], []⟩]
  containsRow _ _ := .ok true
  parentSurface _ _ _ _ := .ok none
  create factory _ := (.ok "", factory)
  installLoad _ text _ _ _ := .ok (sampleChild text)
  overlayInstallData engine _ _ _ := .ok engine
  definitionSource store := .ok (some store)
  updateChecks text _ _ := .ok (⟨[], [], SamplePackage.ofText text⟩, ⟨⟩)
  interfaceRead _ _ _ := .ok none
  rows _ := []
  interfaceRows _ _ _ := .ok (some [])

theorem sampleMounted : mountComponents "/modules" = some ["modules"] := by
  decide

/-- The space at the root. -/
def sampleSpace : ModuleSpace :=
  ⟨"/modules", ["modules"], sampleMounted⟩

/-- An instance of people, and a reader that binds it as a peer. -/
def samplePeople : Event sampleServices :=
  .install sampleSpace (.new "people" "people") ⟨⟩

def sampleReader : Event sampleServices :=
  .install sampleSpace ((InstallRequest.new "reader" "reader").useHandle "people" "acme/people@1") ⟨⟩

/-- The host without instances. -/
def sampleStart : ModuleHost sampleServices :=
  .new ⟨⟩ ⟨⟩

/-- The host and the record after some operations. The last operation comes first. -/
def sampleRun (events : List (Event sampleServices)) : ModuleHost sampleServices × Record :=
  runOf ModuleHost.after Record.after sampleStart .empty events

/-- A bound instance takes another name, and the handle of its reader denotes nothing. -/
theorem rename_loses_peer :
    ¬ ∀ (host : ModuleHost sampleServices) (record : Record),
      Reached ModuleHost.after Record.after (fun _ _ _ => True) sampleStart .empty host record →
        Composed host record := by
  intro kept
  have composed := kept _ _ (reached_runOf [.rename sampleSpace "people" "staff", sampleReader, samplePeople]
    fun _ _ _ => trivial)
  generalize ran : runOf ModuleHost.after Record.after sampleStart .empty
    [.rename sampleSpace "people" "staff", sampleReader, samplePeople] = state at composed
  have handles : state.2.handles = [⟨"root#m1-modules-reader", ⟨"people", "people", some "people", false⟩,
      "root#m0-modules-people"⟩] := by
    rw [← ran]
    decide +kernel
  have children : state.1.children.map (fun child => (child.incarnation, child.place)) =
      [("root#m0-modules-people", (sampleSpace, "staff")),
        ("root#m1-modules-reader", (sampleSpace, "reader"))] := by
    rw [← ran]
    decide +kernel
  obtain ⟨target, targets, renamed⟩ := List.mem_map.mp (children ▸ List.mem_cons_self)
  obtain ⟨holder, holds, reads⟩ := List.mem_map.mp
    (children ▸ List.mem_cons_of_mem _ (List.mem_singleton_self _))
  obtain ⟨target_incarnation, place⟩ := Prod.mk.inj renamed
  obtain ⟨-, denoted⟩ := composed.denotes _ (handles ▸ List.mem_singleton_self _) holder holds
    (Prod.mk.inj reads).1 target targets target_incarnation
  obtain ⟨-, bound, -⟩ := found_mem denoted
  rw [(Child.place_eq.mp place).2] at bound
  exact absurd bound (by decide)

/-- Two installations and a disabled instance. -/
theorem composition_kept_disabled :
    Composed (sampleRun [.disable sampleSpace "people", sampleReader, samplePeople]).1
        (sampleRun [.disable sampleSpace "people", sampleReader, samplePeople]).2 ∧
      ∀ event, Permitted (sampleRun [.disable sampleSpace "people", sampleReader, samplePeople]).1
          (sampleRun [.disable sampleSpace "people", sampleReader, samplePeople]).2 event →
        Steady (sampleRun [.disable sampleSpace "people", sampleReader, samplePeople]).1 event := by
  have first : Permitted (sampleRun []).1 (sampleRun []).2 samplePeople :=
    fun _ _ _ inside => absurd inside List.not_mem_nil
  have numbers : ∀ issue ∈ (sampleRun [samplePeople]).2.issued,
      issue.count % 2 ^ 64 ≠ (sampleRun [samplePeople]).2.minted % 2 ^ 64 := by
    decide +kernel
  have second : Permitted (sampleRun [samplePeople]).1 (sampleRun [samplePeople]).2 sampleReader :=
    fun _ _ issue inside same => absurd same (numbers issue inside)
  exact composition_kept (.next (.next (.next .start first) second) trivial)

end Sample

end Liasse.Modules
