/-
This file models the family of engines that start from one instance, and it proves when a history
point names one state in it.
-/

import Liasse.History.Lineage

namespace Liasse.History

section Allocations

/-- A fresh point extends the active lineage, or it is the first point of a derived lineage. -/
inductive Continuation
  | extend
  | derive (derivation : Derivation)
deriving DecidableEq

/-- The active lineage that a fresh point was taken from, with its position. -/
structure Allocation where
  continuation : Continuation
  lineage : String
  seat : Nat
deriving DecidableEq

/-- The history point that an allocation names. -/
def Allocation.historyPoint (allocation : Allocation) : HistoryPoint where
  lineage :=
    match allocation.continuation with
    | .extend => allocation.lineage
    | .derive derivation => derivation.lineage allocation.lineage allocation.seat
  point := allocation.seat.repr

namespace HistoryCursor

/-- The allocation of the next state-changing commit. -/
def advanceAllocation (cursor : HistoryCursor) : Allocation where
  continuation := if cursor.branchPending then .derive .branch else .extend
  lineage := cursor.active.lineage
  seat := cursor.next

/-- The allocation of a reconciliation. -/
def reconcileAllocation (cursor : HistoryCursor) : Allocation where
  continuation := .derive .reconcile
  lineage := cursor.active.lineage
  seat := cursor.next

theorem advance_historyPoint (cursor : HistoryCursor) :
    cursor.advance.historyPoint = cursor.advanceAllocation.historyPoint := by
  unfold advance advanceAllocation
  split <;> rfl

theorem beginReconciled_historyPoint (cursor : HistoryCursor) :
    cursor.beginReconciled.historyPoint = cursor.reconcileAllocation.historyPoint :=
  rfl

end HistoryCursor

/-- The lineage of an allocation has an ancestry, and its seat is before the position. -/
structure Allocation.Lawful (inst : String) (allocation : Allocation) : Prop where
  ancestry : ∃ ancestors link seat, Ancestry inst ancestors link seat ∧
    link.lineage = allocation.lineage ∧ seat < allocation.seat
  started : genesisPoint < allocation.seat

variable {inst : String}

/-- The seat of a derived lineage is in its name. -/
theorem Ancestry.seat_eq {ancestors : List Link} {link : Link} {seat late : Nat} {prior : String}
    {derivation : Derivation} (ancestry : Ancestry inst ancestors link seat)
    (same : link.lineage = derivation.lineage prior late) : seat = late := by
  cases ancestry with
  | root => exact absurd same.symm (derivation.lineage_ne_genesis _ _ _)
  | descend _ _ _ _ => exact (Derivation.lineage_inj same).2.2

/-- Different lawful allocations name different points. -/
theorem Allocation.Lawful.historyPoint_inj {first second : Allocation} (lawful : first.Lawful inst)
    (other : second.Lawful inst) (same : first.historyPoint = second.historyPoint) :
    first = second := by
  obtain ⟨continuation, lineage, seat⟩ := first
  obtain ⟨others, name, late⟩ := second
  obtain ⟨lineages, points⟩ := HistoryPoint.mk.inj same
  obtain rfl : seat = late := Nat.repr_injective points
  obtain ⟨_, link, early, ancestry, linked, before⟩ := lawful.ancestry
  obtain ⟨_, target, first, descent, targeted, prior⟩ := other.ancestry
  simp only at lineages linked before targeted prior
  cases continuation with
  | extend =>
    cases others with
    | extend =>
      simp only at lineages
      rw [lineages]
    | derive derivation =>
      have seated := ancestry.seat_eq (linked.trans lineages)
      omega
  | derive derivation =>
    cases others with
    | extend =>
      have seated := descent.seat_eq (targeted.trans lineages.symm)
      omega
    | derive second =>
      obtain ⟨rfl, rfl, -⟩ := Derivation.lineage_inj lineages
      rfl

end Allocations

namespace HistoryCursor

variable {inst : String} {cursor : HistoryCursor}

theorem genesis_lawful (inst : String) : (genesis inst).Lawful inst where
  ancestry := ⟨0, .root, Nat.zero_le _⟩
  started := le_rfl
  below := by simp [genesis, bump, genesisPoint]
  bounded := by simp [genesis, bump, genesisPoint]

theorem Lawful.seat_lt (lawful : cursor.Lawful inst) :
    ∃ seat, Ancestry inst cursor.ancestors cursor.active seat ∧ seat < cursor.next := by
  obtain ⟨seat, ancestry, within⟩ := lawful.ancestry
  exact ⟨seat, ancestry, within.trans_lt lawful.below⟩

theorem Lawful.started_lt (lawful : cursor.Lawful inst) : genesisPoint < cursor.next :=
  lawful.started.trans_lt lawful.below

theorem Lawful.advanceAllocation (lawful : cursor.Lawful inst) :
    cursor.advanceAllocation.Lawful inst where
  ancestry := by
    obtain ⟨seat, ancestry, before⟩ := lawful.seat_lt
    exact ⟨_, _, seat, ancestry, rfl, before⟩
  started := lawful.started_lt

theorem Lawful.reconcileAllocation (lawful : cursor.Lawful inst) :
    cursor.reconcileAllocation.Lawful inst where
  ancestry := by
    obtain ⟨seat, ancestry, before⟩ := lawful.seat_lt
    exact ⟨_, _, seat, ancestry, rfl, before⟩
  started := lawful.started_lt

/-- A fresh point on the active lineage keeps a cursor lawful. -/
theorem Lawful.allocate (lawful : cursor.Lawful inst) (room : cursor.next + 1 < 2 ^ 64) :
    cursor.allocate.Lawful inst where
  ancestry := by
    obtain ⟨seat, ancestry, before⟩ := lawful.seat_lt
    exact ⟨seat, ancestry, before.le⟩
  started := lawful.started_lt.le
  below := by
    rw [HistoryCursor.allocate, bump_eq room]
    exact Nat.lt_succ_self _
  bounded := by
    rw [HistoryCursor.allocate, bump_eq room]
    exact room

/-- A fresh point on a derived lineage keeps a cursor lawful. -/
theorem Lawful.derive (lawful : cursor.Lawful inst) (room : cursor.next + 1 < 2 ^ 64)
    (derivation : Derivation) :
    ((cursor.branch (derivation.lineage cursor.active.lineage cursor.next)).allocate).Lawful inst where
  ancestry := by
    obtain ⟨seat, ancestry, within⟩ := lawful.ancestry
    exact ⟨cursor.next, ancestry.descend derivation within lawful.below, le_rfl⟩
  started := lawful.started_lt.le
  below := by
    simp only [HistoryCursor.allocate, HistoryCursor.branch, bump_eq room]
    exact Nat.lt_succ_self _
  bounded := by
    simp only [HistoryCursor.allocate, HistoryCursor.branch, bump_eq room]
    exact room

theorem Lawful.advance (lawful : cursor.Lawful inst) (room : cursor.next + 1 < 2 ^ 64) :
    cursor.advance.Lawful inst := by
  unfold HistoryCursor.advance
  split
  · exact lawful.derive room .branch
  · exact lawful.allocate room

theorem Lawful.beginReconciled (lawful : cursor.Lawful inst) (room : cursor.next + 1 < 2 ^ 64) :
    cursor.beginReconciled.Lawful inst :=
  lawful.derive room .reconcile

variable {incoming : HistoryCursor}

/-- The relation of a lawful incoming point. -/
theorem Lawful.classify (other : incoming.Lawful inst) :
    cursor.classify incoming.historyPoint =
      if incoming.active.lineage = cursor.active.lineage then
        match compare incoming.point cursor.point with
        | .eq => .samePoint
        | .lt => .rollback
        | .gt => .fastForward
      else
        match cursor.ancestors.findIdx? fun link => link.lineage = incoming.active.lineage with
        | some index => if incoming.point ≤ cursor.branchAt index then .rollback else .merge
        | none => .unrelated := by
  rw [HistoryCursor.classify, other.position]
  rfl

theorem Lawful.applyFastForward (lawful : cursor.Lawful inst) (other : incoming.Lawful inst)
    (ahead : cursor.classify incoming.historyPoint = .fastForward) :
    (cursor.applyFastForward incoming.historyPoint).Lawful inst ∧
      (cursor.applyFastForward incoming.historyPoint).historyPoint = incoming.historyPoint := by
  have below := other.below
  have bounded := other.bounded
  have room := lawful.bounded
  rw [other.classify] at ahead
  rw [HistoryCursor.applyFastForward, other.position]
  simp only
  split at ahead
  next same =>
    have later : cursor.point < incoming.point := by
      cases order : compare incoming.point cursor.point with
      | gt => exact Nat.compare_eq_gt.mp order
      | lt | eq => simp [order] at ahead
    have next : bump incoming.point = incoming.point + 1 := bump_eq (by omega)
    obtain ⟨seat, ancestry, within⟩ := lawful.ancestry
    refine ⟨⟨⟨seat, ancestry, by simp only; omega⟩, ?_, ?_, ?_⟩, ?_⟩
    · exact lawful.started.trans later.le
    · simp only [next]
      omega
    · simp only [next]
      omega
    · simp only [historyPoint] at same ⊢
      rw [same]
  next =>
    split at ahead
    · split at ahead <;> simp at ahead
    · simp at ahead

/-- An incoming point that precedes the history is on the active lineage or on an ancestor of it. -/
theorem Lawful.descend (lawful : cursor.Lawful inst) (other : incoming.Lawful inst)
    (behind : cursor.classify incoming.historyPoint = .rollback) :
    (cursor.descend incoming.active.lineage).active.lineage = incoming.active.lineage ∧
      (cursor.descend incoming.active.lineage).next = cursor.next ∧
      incoming.point < cursor.next ∧
      ∃ seat, Ancestry inst (cursor.descend incoming.active.lineage).ancestors
        (cursor.descend incoming.active.lineage).active seat := by
  have below := lawful.below
  obtain ⟨seat, ancestry, within⟩ := lawful.ancestry
  rw [other.classify] at behind
  unfold HistoryCursor.descend
  by_cases same : incoming.active.lineage = cursor.active.lineage
  · rw [if_pos same] at behind ⊢
    have earlier : incoming.point < cursor.point := by
      cases order : compare incoming.point cursor.point with
      | lt => exact Nat.compare_eq_lt.mp order
      | gt | eq => simp [order] at behind
    exact ⟨same.symm, rfl, by omega, seat, ancestry⟩
  · rw [if_neg same] at behind ⊢
    cases found : cursor.ancestors.findIdx? fun link => link.lineage = incoming.active.lineage with
    | none => simp [found] at behind
    | some index =>
      obtain ⟨inside, named, -⟩ := List.findIdx?_eq_some_iff_getElem.mp found
      obtain ⟨early, shown, -⟩ := ancestry.ancestor (List.getElem?_eq_getElem inside)
      obtain ⟨origin, known, bound⟩ := ancestry.branch_lt inside
      have branch : cursor.branchAt index = origin := by
        rw [HistoryCursor.branchAt, known]
        rfl
      have earlier : incoming.point ≤ origin := by
        by_contra later
        simp [found, branch, later] at behind
      simp only [List.getElem?_eq_getElem inside]
      exact ⟨by simpa using named, trivial, by omega, early, shown⟩

theorem Lawful.applyRollback (lawful : cursor.Lawful inst) (other : incoming.Lawful inst)
    (behind : cursor.classify incoming.historyPoint = .rollback) :
    (cursor.applyRollback incoming.historyPoint).Lawful inst ∧
      (cursor.applyRollback incoming.historyPoint).historyPoint = incoming.historyPoint := by
  obtain ⟨named, next, earlier, seat, ancestry⟩ := lawful.descend other behind
  obtain ⟨late, descent, within⟩ := other.ancestry
  have seated := ancestry.seat_unique descent named
  rw [HistoryCursor.applyRollback, other.position]
  refine ⟨⟨⟨seat, ancestry, by simp only; omega⟩, other.started, ?_, ?_⟩, ?_⟩
  · change incoming.point < (cursor.descend incoming.active.lineage).next
    omega
  · change (cursor.descend incoming.active.lineage).next < 2 ^ 64
    rw [next]
    exact lawful.bounded
  · change HistoryPoint.mk (cursor.descend incoming.active.lineage).active.lineage _ = _
    rw [named]
    rfl

end HistoryCursor

section Family

variable {State : Type}

/-- An engine has its cursor and its committed state. -/
structure Engine (State : Type) where
  cursor : HistoryCursor
  state : State

/-- An artifact carries the selected point, the index and the state. The cursor that exported it is a
fact of the run and is not in the artifact. -/
structure Artifact (State : Type) where
  selected : HistoryPoint
  index : HistoryIndex
  state : State
  exporter : HistoryCursor

namespace Engine

/-- The export of the committed state at the selected point. -/
def exported (engine : Engine State) : Artifact State where
  selected := engine.cursor.historyPoint
  index := engine.cursor.index
  state := engine.state
  exporter := engine.cursor

/-- A state-changing commit of a mutation, an overlay or a migration. -/
def commit (engine : Engine State) (state : State) : Engine State :=
  ⟨engine.cursor.advance, state⟩

/-- The activation of a reconciled state. -/
def activateMerge (engine : Engine State) (state : State) : Engine State :=
  ⟨engine.cursor.beginReconciled, state⟩

/-- An import moves to the state of an artifact when the policy permits its relation. -/
def importArtifact (engine : Engine State) (artifact : Artifact State)
    (policy : List ImportRelation) : Engine State :=
  let relation := engine.cursor.classify artifact.selected
  if relation ∈ policy then
    match relation with
    | .fastForward => ⟨engine.cursor.applyFastForward artifact.selected, artifact.state⟩
    | .rollback => ⟨engine.cursor.applyRollback artifact.selected, artifact.state⟩
    | _ => engine
  else engine

end Engine

/-- The restore of an artifact into a further engine. -/
def Artifact.restore (artifact : Artifact State) : Engine State :=
  ⟨.restored artifact.selected artifact.index, artifact.state⟩

/-- The engines and the artifacts of a family, with the facts of its run: the state of each point that
an engine had, the fresh points that were taken, and the cursors of the restores. -/
structure Family (State : Type) where
  engines : List (Engine State)
  artifacts : List (Artifact State)
  seen : List (HistoryPoint × State)
  allocated : List (Allocation × State)
  restores : List (HistoryCursor × HistoryCursor)

/-- A step of the family names an engine or an artifact by its position. -/
inductive Step (State : Type)
  | commit (engine : Nat) (state : State)
  | reconcile (engine : Nat) (state : State)
  | importArtifact (engine artifact : Nat) (policy : List ImportRelation)
  | exportState (engine : Nat)
  | restore (artifact : Nat)

namespace Family

/-- The family of a new instance. -/
def start (inst : String) (state : State) : Family State where
  engines := [⟨.genesis inst, state⟩]
  artifacts := []
  seen := [((HistoryCursor.genesis inst).historyPoint, state)]
  allocated := []
  restores := []

/-- The engine at a position changes, and its new point is seen. -/
def moved (family : Family State) (index : Nat) (engine : Engine State) : Family State :=
  { family with
    engines := family.engines.set index engine
    seen := (engine.cursor.historyPoint, engine.state) :: family.seen }

/-- The engine at a position takes a fresh point. -/
def allocates (family : Family State) (index : Nat) (allocation : Allocation)
    (engine : Engine State) : Family State :=
  { family.moved index engine with allocated := (allocation, engine.state) :: family.allocated }

/-- A step is absent when it names no engine or no artifact. -/
def step (family : Family State) : Step State → Option (Family State)
  | .commit index state =>
    family.engines[index]?.map fun engine =>
      family.allocates index engine.cursor.advanceAllocation (engine.commit state)
  | .reconcile index state =>
    family.engines[index]?.map fun engine =>
      family.allocates index engine.cursor.reconcileAllocation (engine.activateMerge state)
  | .importArtifact index source policy =>
    match family.engines[index]?, family.artifacts[source]? with
    | some engine, some artifact =>
      some (family.moved index (engine.importArtifact artifact policy))
    | _, _ => none
  | .exportState index =>
    family.engines[index]?.map fun engine =>
      { family with artifacts := family.artifacts ++ [engine.exported] }
  | .restore source =>
    family.artifacts[source]?.map fun artifact =>
      { family with
        engines := family.engines ++ [artifact.restore]
        seen := (artifact.restore.cursor.historyPoint, artifact.state) :: family.seen
        restores := (artifact.exporter, artifact.restore.cursor) :: family.restores }

/-- The family after a list of steps. -/
def run (family : Family State) : List (Step State) → Option (Family State)
  | [] => some family
  | step :: rest =>
    match family.step step with
    | some next => next.run rest
    | none => none

/-- A history point names one state: engines at one point hold one state, no point is given to another
state, and a restored cursor is the cursor that exported it. -/
structure Faithful (family : Family State) : Prop where
  engines : ∀ first ∈ family.engines, ∀ second ∈ family.engines,
    first.cursor.historyPoint = second.cursor.historyPoint → first.state = second.state
  points : ∀ point first second, (point, first) ∈ family.seen → (point, second) ∈ family.seen →
    first = second
  restores : ∀ exporter restored, (exporter, restored) ∈ family.restores → restored = exporter

/-- A fresh point is orderly when no engine of the family has continued the same lineage in the same
way at the same position, and the allocator has room. -/
def Fresh (family : Family State) (allocation : Allocation) : Prop :=
  allocation ∉ family.allocated.map Prod.fst ∧ allocation.seat + 1 < 2 ^ 64

instance (family : Family State) (allocation : Allocation) : Decidable (family.Fresh allocation) :=
  inferInstanceAs (Decidable (_ ∧ _))

/-- A step is orderly when its fresh point is, and when the exporter of a restored artifact has no
pending branch and no position between its point and its allocator. -/
def Orderly (family : Family State) : Step State → Prop
  | .commit index _ => ∀ engine, family.engines[index]? = some engine →
      family.Fresh engine.cursor.advanceAllocation
  | .reconcile index _ => ∀ engine, family.engines[index]? = some engine →
      family.Fresh engine.cursor.reconcileAllocation
  | .restore source => ∀ artifact, family.artifacts[source]? = some artifact →
      artifact.exporter.branchPending = false ∧
        artifact.exporter.next = bump artifact.exporter.point
  | .importArtifact _ _ _ => True
  | .exportState _ => True

/-- A run of orderly steps from a new instance. -/
inductive OrderlyRun (inst : String) (state : State) : Family State → Prop
  | start : OrderlyRun inst state (.start inst state)
  | step {family next : Family State} {step : Step State} (earlier : OrderlyRun inst state family)
      (orderly : family.Orderly step) (taken : family.step step = some next) :
      OrderlyRun inst state next

/-- What each step keeps: cursors and allocations are lawful, each point comes from the genesis or
from an allocation, and each allocation was taken once. -/
structure Invariant (inst : String) (state : State) (family : Family State) : Prop where
  engines : ∀ engine ∈ family.engines, engine.cursor.Lawful inst ∧
    (engine.cursor.historyPoint, engine.state) ∈ family.seen
  artifacts : ∀ artifact ∈ family.artifacts, artifact.exporter.Lawful inst ∧
    artifact.selected = artifact.exporter.historyPoint ∧ artifact.index = artifact.exporter.index ∧
    (artifact.selected, artifact.state) ∈ family.seen
  seen : ∀ point current, (point, current) ∈ family.seen →
    (point = (HistoryCursor.genesis inst).historyPoint ∧ current = state) ∨
      ∃ allocation, (allocation, current) ∈ family.allocated ∧ point = allocation.historyPoint
  allocated : ∀ allocation current, (allocation, current) ∈ family.allocated →
    allocation.Lawful inst
  once : ∀ allocation first second, (allocation, first) ∈ family.allocated →
    (allocation, second) ∈ family.allocated → first = second
  restores : ∀ exporter restored, (exporter, restored) ∈ family.restores → restored = exporter

variable {inst : String} {state : State} {family : Family State}

theorem start_invariant (inst : String) (state : State) : (start inst state).Invariant inst state where
  engines := by
    intro engine inside
    rw [start, List.mem_singleton] at inside
    subst inside
    exact ⟨HistoryCursor.genesis_lawful inst, List.mem_singleton_self _⟩
  artifacts := by simp [start]
  seen := by
    intro point current inside
    rw [start, List.mem_singleton] at inside
    cases inside
    exact .inl ⟨rfl, rfl⟩
  allocated := by simp [start]
  once := by simp [start]
  restores := by simp [start]

/-- A lawful engine that moves to a seen point keeps the invariant. -/
theorem Invariant.moved (invariant : family.Invariant inst state) {index : Nat}
    {engine : Engine State} (lawful : engine.cursor.Lawful inst)
    (visited : (engine.cursor.historyPoint, engine.state) ∈ family.seen) :
    (family.moved index engine).Invariant inst state where
  engines := by
    intro other inside
    rcases List.mem_or_eq_of_mem_set inside with inside | rfl
    · have known := invariant.engines other inside
      exact ⟨known.1, List.mem_cons_of_mem _ known.2⟩
    · exact ⟨lawful, List.mem_cons_self⟩
  artifacts := by
    intro artifact inside
    obtain ⟨exporter, selected, indexed, known⟩ := invariant.artifacts artifact inside
    exact ⟨exporter, selected, indexed, List.mem_cons_of_mem _ known⟩
  seen := by
    intro point current inside
    rcases List.mem_cons.mp inside with same | inside
    · cases same
      exact invariant.seen _ _ visited
    · exact invariant.seen point current inside
  allocated := invariant.allocated
  once := invariant.once
  restores := invariant.restores

/-- A lawful engine that takes a fresh point keeps the invariant. -/
theorem Invariant.allocates (invariant : family.Invariant inst state) {index : Nat}
    {allocation : Allocation} {engine : Engine State} (fresh : family.Fresh allocation)
    (named : engine.cursor.historyPoint = allocation.historyPoint)
    (lawful : engine.cursor.Lawful inst) (legal : allocation.Lawful inst) :
    (family.allocates index allocation engine).Invariant inst state where
  engines := by
    intro other inside
    rcases List.mem_or_eq_of_mem_set inside with inside | rfl
    · have known := invariant.engines other inside
      exact ⟨known.1, List.mem_cons_of_mem _ known.2⟩
    · exact ⟨lawful, List.mem_cons_self⟩
  artifacts := by
    intro artifact inside
    obtain ⟨exporter, selected, indexed, known⟩ := invariant.artifacts artifact inside
    exact ⟨exporter, selected, indexed, List.mem_cons_of_mem _ known⟩
  seen := by
    intro point current inside
    rcases List.mem_cons.mp inside with same | inside
    · cases same
      exact .inr ⟨allocation, List.mem_cons_self, named⟩
    · rcases invariant.seen point current inside with first | ⟨earlier, known, same⟩
      · exact .inl first
      · exact .inr ⟨earlier, List.mem_cons_of_mem _ known, same⟩
  allocated := by
    intro other current inside
    rcases List.mem_cons.mp inside with same | inside
    · cases same
      exact legal
    · exact invariant.allocated other current inside
  once := by
    intro other first second inside also
    rcases List.mem_cons.mp inside with same | inside <;>
      rcases List.mem_cons.mp also with equal | also
    · cases same
      cases equal
      rfl
    · cases same
      exact absurd (List.mem_map_of_mem also) fresh.1
    · cases equal
      exact absurd (List.mem_map_of_mem inside) fresh.1
    · exact invariant.once other first second inside also
  restores := invariant.restores

theorem Invariant.exported (invariant : family.Invariant inst state) {engine : Engine State}
    (inside : engine ∈ family.engines) :
    { family with artifacts := family.artifacts ++ [engine.exported] }.Invariant inst state where
  engines := invariant.engines
  artifacts := by
    intro artifact listed
    rcases List.mem_append.mp listed with listed | listed
    · exact invariant.artifacts artifact listed
    · rw [List.mem_singleton] at listed
      subst listed
      have known := invariant.engines engine inside
      exact ⟨known.1, rfl, rfl, known.2⟩
  seen := invariant.seen
  allocated := invariant.allocated
  once := invariant.once
  restores := invariant.restores

/-- The import of an artifact of the family moves an engine to a seen point. -/
theorem Invariant.importArtifact (invariant : family.Invariant inst state) {engine : Engine State}
    {artifact : Artifact State} (inside : engine ∈ family.engines)
    (listed : artifact ∈ family.artifacts) (policy : List ImportRelation) :
    (engine.importArtifact artifact policy).cursor.Lawful inst ∧
      ((engine.importArtifact artifact policy).cursor.historyPoint,
        (engine.importArtifact artifact policy).state) ∈ family.seen := by
  obtain ⟨lawful, known⟩ := invariant.engines engine inside
  obtain ⟨exporter, selected, -, visited⟩ := invariant.artifacts artifact listed
  unfold Engine.importArtifact
  simp only
  split
  · split
    next ahead =>
      rw [selected] at ahead visited ⊢
      obtain ⟨moved, point⟩ := lawful.applyFastForward exporter ahead
      exact ⟨moved, by rwa [point]⟩
    next behind =>
      rw [selected] at behind visited ⊢
      obtain ⟨moved, point⟩ := lawful.applyRollback exporter behind
      exact ⟨moved, by rwa [point]⟩
    next => exact ⟨lawful, known⟩
  · exact ⟨lawful, known⟩

/-- The restore of an artifact whose exporter continues directly after its point keeps the
invariant. -/
theorem Invariant.restored (invariant : family.Invariant inst state) {artifact : Artifact State}
    (listed : artifact ∈ family.artifacts)
    (settled : artifact.exporter.branchPending = false ∧
      artifact.exporter.next = bump artifact.exporter.point) :
    { family with
      engines := family.engines ++ [artifact.restore]
      seen := (artifact.restore.cursor.historyPoint, artifact.state) :: family.seen
      restores := (artifact.exporter, artifact.restore.cursor) :: family.restores }.Invariant
        inst state := by
  obtain ⟨exporter, selected, indexed, visited⟩ := invariant.artifacts artifact listed
  have same : artifact.restore.cursor = artifact.exporter := by
    rw [Artifact.restore, selected, indexed]
    exact exporter.restored_eq_iff.mpr settled
  rw [same, ← selected]
  refine ⟨?_, ?_, ?_, invariant.allocated, invariant.once, ?_⟩
  · intro engine inside
    rcases List.mem_append.mp inside with inside | inside
    · have known := invariant.engines engine inside
      exact ⟨known.1, List.mem_cons_of_mem _ known.2⟩
    · rw [List.mem_singleton] at inside
      subst inside
      rw [same, ← selected]
      exact ⟨exporter, List.mem_cons_self⟩
  · intro other inside
    obtain ⟨lawful, named, recorded, known⟩ := invariant.artifacts other inside
    exact ⟨lawful, named, recorded, List.mem_cons_of_mem _ known⟩
  · intro point current inside
    rcases List.mem_cons.mp inside with first | inside
    · cases first
      exact invariant.seen _ _ visited
    · exact invariant.seen point current inside
  · intro earlier restored inside
    rcases List.mem_cons.mp inside with first | inside
    · cases first
      rfl
    · exact invariant.restores earlier restored inside

/-- An orderly step keeps the invariant. -/
theorem Invariant.step (invariant : family.Invariant inst state) {next : Family State}
    {step : Step State} (orderly : family.Orderly step) (taken : family.step step = some next) :
    next.Invariant inst state := by
  cases step with
  | commit index current =>
    obtain ⟨engine, found, rfl⟩ := Option.map_eq_some_iff.mp taken
    have lawful := (invariant.engines engine (List.mem_of_getElem? found)).1
    have fresh := orderly engine found
    exact invariant.allocates fresh engine.cursor.advance_historyPoint (lawful.advance fresh.2)
      lawful.advanceAllocation
  | reconcile index current =>
    obtain ⟨engine, found, rfl⟩ := Option.map_eq_some_iff.mp taken
    have lawful := (invariant.engines engine (List.mem_of_getElem? found)).1
    have fresh := orderly engine found
    exact invariant.allocates fresh engine.cursor.beginReconciled_historyPoint
      (lawful.beginReconciled fresh.2) lawful.reconcileAllocation
  | importArtifact index source policy =>
    rw [Family.step] at taken
    split at taken
    next engine artifact found listed =>
      cases taken
      obtain ⟨lawful, visited⟩ := invariant.importArtifact (List.mem_of_getElem? found)
        (List.mem_of_getElem? listed) policy
      exact invariant.moved lawful visited
    next => cases taken
  | exportState index =>
    obtain ⟨engine, found, rfl⟩ := Option.map_eq_some_iff.mp taken
    exact invariant.exported (List.mem_of_getElem? found)
  | restore source =>
    obtain ⟨artifact, listed, rfl⟩ := Option.map_eq_some_iff.mp taken
    exact invariant.restored (List.mem_of_getElem? listed) (orderly artifact listed)

theorem OrderlyRun.invariant (run : OrderlyRun inst state family) : family.Invariant inst state := by
  induction run with
  | start => exact start_invariant inst state
  | step earlier orderly taken invariant => exact invariant.step orderly taken

/-- No allocation names the genesis point. -/
theorem genesis_ne {allocation : Allocation} (lawful : allocation.Lawful inst) :
    (HistoryCursor.genesis inst).historyPoint ≠ allocation.historyPoint := by
  intro same
  have points := Nat.repr_injective (HistoryPoint.mk.inj same).2
  exact absurd points lawful.started.ne

/-- A point of the family was given to one state. -/
theorem Invariant.points (invariant : family.Invariant inst state) {point : HistoryPoint}
    {first second : State} (inside : (point, first) ∈ family.seen)
    (also : (point, second) ∈ family.seen) : first = second := by
  rcases invariant.seen point first inside with ⟨rfl, rfl⟩ | ⟨early, taken, rfl⟩
  · rcases invariant.seen _ second also with ⟨-, rfl⟩ | ⟨late, known, same⟩
    · rfl
    · exact absurd same (genesis_ne (invariant.allocated late second known))
  · have lawful := invariant.allocated early first taken
    rcases invariant.seen _ second also with ⟨same, -⟩ | ⟨late, known, same⟩
    · exact absurd same.symm (genesis_ne lawful)
    · obtain rfl := lawful.historyPoint_inj (invariant.allocated late second known) same
      exact invariant.once early first second taken known

section Sample

end Sample

end Family

end Family

end Liasse.History
