/-
This file models the staged transition of the PostgreSQL store, and proves when its reads are those after its commit.
-/

import Liasse.Pg.Refinement
import Liasse.Store.Overlay

namespace Liasse.Pg
open Codes Store

variable {Wire : Type}

/-- The staging refuses a call, or the database does. -/
inductive StagingError
  | refused (error : StoreError RowAddress)
  | failed (error : PgError)

/-- The store keeps the table of nodes, the last position and the counter of incarnations. -/
structure PgStore (Wire : Type) where
  table : NodeTable Wire
  head : Nat
  nextIncarnation : Nat

def PgStore.allocIncarnation (store : PgStore Wire) : RowIncarnation × PgStore Wire :=
  (MemoryStore.token store.nextIncarnation, { store with nextIncarnation := store.nextIncarnation + 1 })

/-- The operations of a transition come into the table. An empty transition takes no position. -/
def PgStore.commitTransition (codec : ValueCodec Wire) (store : PgStore Wire)
    (ops : List (CommittedRowOp RowAddress)) (created : Timestamp)
    (transaction definition composition : Option String) : Except PgError (CommitOutcome × PgStore Wire) :=
  if ops = [] ∧ definition = none ∧ composition = none then .ok (.unchanged, store)
  else do
    let seq := store.head + 1
    let table ← Pg.commitTransition codec store.table ⟨seq, ops, created, transaction⟩
    return (.committed seq, { store with table, head := seq })

/-- A staged transition keeps its changes in memory until the commit. -/
structure PgTransition (Wire : Type) where
  store : PgStore Wire
  overlay : Std.TreeMap RowAddress (Option StoredRow) compare
  ops : List (CommittedRowOp RowAddress)
  now : Timestamp
  definition : Option String
  composition : Option String
  transaction : Option String

namespace PgTransition

variable (codec : ValueCodec Wire)

def new (store : PgStore Wire) : PgTransition Wire :=
  ⟨store, ∅, [], defaultNow, none, none, none⟩

/-- A staged change shadows the committed row, which the database is asked for. -/
def resolve (transition : PgTransition Wire) (address : RowAddress) : Except PgError (Option StoredRow) :=
  match transition.overlay[address]? with
  | some staged => .ok staged
  | none => row codec transition.store.table address

def scan (transition : PgTransition Wire) (collection : CollectionPath) :
    Except PgError (List (RowAddress × StoredRow)) := do
  let base ← Pg.scan codec transition.store.table collection
  return (overlaid transition.overlay collection base).toList

/-- The row that a staging finds, or the failure of the database. -/
def find (transition : PgTransition Wire) (address : RowAddress) : Except StagingError (Option StoredRow) :=
  (transition.resolve codec address).mapError .failed

def stage (transition : PgTransition Wire) (address : RowAddress) (staged : Option StoredRow)
    (ops : List (CommittedRowOp RowAddress)) : PgTransition Wire :=
  { transition with
    overlay := transition.overlay.insert address staged
    ops := transition.ops ++ ops }

def insert (transition : PgTransition Wire) (address : RowAddress) (value : Value) :
    Except StagingError (RowIncarnation × PgTransition Wire) := do
  match ← transition.find codec address with
  | some _ => .error (.refused (.conflict address "insert"))
  | none =>
    let (incarnation, store) := transition.store.allocIncarnation
    .ok (incarnation, { transition with store }.stage address (some ⟨incarnation, transition.now, value⟩)
      [.insert address incarnation value])

def update (transition : PgTransition Wire) (address : RowAddress) (value : Value) :
    Except StagingError (PgTransition Wire) := do
  match ← transition.find codec address with
  | none => .error (.refused (.notFound address "update"))
  | some row =>
    .ok (transition.stage address (some ⟨row.incarnation, row.created, value⟩)
      [.update address row.incarnation value])

def delete (transition : PgTransition Wire) (address : RowAddress) : Except StagingError (PgTransition Wire) := do
  match ← transition.find codec address with
  | none => .error (.refused (.notFound address "delete"))
  | some row => .ok (transition.stage address none [.delete address row.incarnation])

def rekey (transition : PgTransition Wire) (source target : RowAddress) (value : Value) :
    Except StagingError (PgTransition Wire) := do
  match ← transition.find codec source with
  | none => .error (.refused (.notFound source "rekey source"))
  | some row =>
    match ← transition.find codec target with
    | some _ => .error (.refused (.conflict target "rekey target"))
    | none =>
      .ok ((transition.stage source none []).stage target (some ⟨row.incarnation, row.created, value⟩)
        [.rekey source target row.incarnation value])

/-- A call that is refused leaves the transition. -/
def settled (transition : PgTransition Wire) : Except StagingError (PgTransition Wire) → PgTransition Wire
  | .error _ => transition
  | .ok next => next

/-- The transition after one staging call. -/
def step (transition : PgTransition Wire) : Call RowAddress → Option (PgTransition Wire)
  | .insert address value => some (transition.settled ((transition.insert codec address value).map Prod.snd))
  | .update address value => some (transition.settled (transition.update codec address value))
  | .delete address => some (transition.settled (transition.delete codec address))
  | .rekey source target value => some (transition.settled (transition.rekey codec source target value))
  | .setNow now => some { transition with now }
  | .setDefinition definition => some { transition with definition := some definition }
  | .setComposition composition => some { transition with composition := some composition }
  | .setTransaction identity => some { transition with transaction := some identity }
  | .begin => none
  | .commit => none
  | .abort => none

def commit (transition : PgTransition Wire) : Except PgError (CommitOutcome × PgStore Wire) :=
  transition.store.commitTransition codec transition.ops transition.now transition.transaction
    transition.definition transition.composition

end PgTransition

/-- The addresses that a call names. -/
def asked : Call RowAddress → List RowAddress
  | .insert address _ => [address]
  | .update address _ => [address]
  | .delete address => [address]
  | .rekey source target _ => [source, target]
  | _ => []

section Simulation

variable {codec : ValueCodec Wire}

/-- The two transitions have staged the same, and the table represents the committed rows. -/
structure Simulates (codec : ValueCodec Wire) (transition : PgTransition Wire)
    (reference : MemoryTransition RowAddress) : Prop where
  represents : Represents codec transition.store.table (lookup reference.store.current)
  counter : transition.store.nextIncarnation = reference.store.nextIncarnation
  overlay : transition.overlay = reference.overlay
  ops : transition.ops = reference.ops
  now : transition.now = reference.now
  definition : transition.definition = reference.definition
  composition : transition.composition = reference.composition

variable {transition : PgTransition Wire} {reference : MemoryTransition RowAddress}

theorem Simulates.resolve (simulates : Simulates codec transition reference) {address : RowAddress}
    (askable : Askable address) : transition.resolve codec address = .ok (reference.resolve address) := by
  rw [PgTransition.resolve, MemoryTransition.resolve, simulates.overlay]
  cases reference.overlay[address]? with
  | some staged => rfl
  | none => exact simulates.represents.row askable

theorem Simulates.find (simulates : Simulates codec transition reference) {address : RowAddress}
    (askable : Askable address) : transition.find codec address = .ok (reference.resolve address) := by
  rw [PgTransition.find, simulates.resolve askable]
  rfl

theorem Simulates.scan (simulates : Simulates codec transition reference) {collection : CollectionPath}
    (askable : AskableCollection collection) :
    transition.scan codec collection = .ok (reference.scan collection) := by
  rw [PgTransition.scan, simulates.represents.scan askable, simulates.overlay]
  rfl

/-- One staged change keeps the simulation. -/
theorem Simulates.stage (simulates : Simulates codec transition reference) (address : RowAddress)
    (staged : Option StoredRow) (ops : List (CommittedRowOp RowAddress)) :
    Simulates codec (transition.stage address staged ops) (reference.stage address staged ops) where
  represents := simulates.represents
  counter := simulates.counter
  overlay := congrArg (·.insert address staged) simulates.overlay
  ops := congrArg (· ++ ops) simulates.ops
  now := simulates.now
  definition := simulates.definition
  composition := simulates.composition

/-- Both stagings refuse a change, or they stage the same one. -/
inductive Agreed (codec : ValueCodec Wire) : Except StagingError (PgTransition Wire) →
    Except (StoreError RowAddress) (MemoryTransition RowAddress) → Prop
  | refused (error : StoreError RowAddress) : Agreed codec (.error (.refused error)) (.error error)
  | staged {next : PgTransition Wire} {after : MemoryTransition RowAddress} :
      Simulates codec next after → Agreed codec (.ok next) (.ok after)

theorem Simulates.insert (simulates : Simulates codec transition reference) {address : RowAddress}
    (askable : Askable address) (value : Value) : Agreed codec
      ((transition.insert codec address value).map Prod.snd) ((reference.insert address value).map Prod.snd) := by
  rw [PgTransition.insert, simulates.find askable, MemoryTransition.insert]
  cases reference.resolve address with
  | some row => exact .refused _
  | none =>
    have allocated : Simulates codec { transition with store := transition.store.allocIncarnation.2 }
        { reference with store := reference.store.allocIncarnation.2 } :=
      ⟨simulates.represents, congrArg (· + 1) simulates.counter, simulates.overlay, simulates.ops, simulates.now,
        simulates.definition, simulates.composition⟩
    have token : transition.store.allocIncarnation.1 = reference.store.allocIncarnation.1 :=
      congrArg MemoryStore.token simulates.counter
    refine .staged ?_
    change Simulates codec (PgTransition.stage _ address
      (some ⟨transition.store.allocIncarnation.1, transition.now, value⟩)
        [.insert address transition.store.allocIncarnation.1 value]) _
    rw [token, simulates.now]
    have staged := allocated.stage address (some ⟨reference.store.allocIncarnation.1, reference.now, value⟩)
      [.insert address reference.store.allocIncarnation.1 value]
    rw [simulates.now] at staged
    exact staged

theorem Simulates.update (simulates : Simulates codec transition reference) {address : RowAddress}
    (askable : Askable address) (value : Value) :
    Agreed codec (transition.update codec address value) (reference.update address value) := by
  rw [PgTransition.update, simulates.find askable, MemoryTransition.update]
  cases reference.resolve address with
  | none => exact .refused _
  | some row => exact .staged (simulates.stage _ _ _)

theorem Simulates.delete (simulates : Simulates codec transition reference) {address : RowAddress}
    (askable : Askable address) : Agreed codec (transition.delete codec address) (reference.delete address) := by
  rw [PgTransition.delete, simulates.find askable, MemoryTransition.delete]
  cases reference.resolve address with
  | none => exact .refused _
  | some row => exact .staged (simulates.stage _ _ _)

theorem Simulates.rekey (simulates : Simulates codec transition reference) {source target : RowAddress}
    (askable : Askable source) (targetAskable : Askable target) (value : Value) :
    Agreed codec (transition.rekey codec source target value) (reference.rekey source target value) := by
  rw [PgTransition.rekey, simulates.find askable, simulates.find targetAskable, MemoryTransition.rekey]
  cases reference.resolve source with
  | none => exact .refused _
  | some row =>
    cases reference.resolve target with
    | some other => exact .refused _
    | none => exact .staged ((simulates.stage _ _ _).stage _ _ _)

/-- A settled call takes both transitions on. -/
theorem Agreed.settled (simulates : Simulates codec transition reference)
    {result : Except StagingError (PgTransition Wire)}
    {other : Except (StoreError RowAddress) (MemoryTransition RowAddress)} (agreed : Agreed codec result other) :
    ∃ answer after, Session.staged reference other = (answer, .staging after) ∧
      Simulates codec (transition.settled result) after := by
  cases agreed with
  | refused error => exact ⟨.rejected error, reference, rfl, simulates⟩
  | staged next => exact ⟨.done, _, rfl, next⟩

/-- One call takes both transitions on. -/
theorem Simulates.step {next : PgTransition Wire} (simulates : Simulates codec transition reference)
    {call : Call RowAddress} (askable : ∀ address ∈ asked call, Askable address)
    (stepped : transition.step codec call = some next) :
    ∃ answer after, (Session.staging reference).step call = some (answer, .staging after) ∧
      Simulates codec next after := by
  cases call with
  | insert address value =>
    obtain rfl := Option.some.inj stepped
    have agreed := simulates.insert (askable address List.mem_cons_self) value
    cases inserted : reference.insert address value with
    | error error =>
      rw [inserted] at agreed
      obtain ⟨_, after, same, next⟩ := agreed.settled simulates
      obtain rfl := Session.staging.inj (Prod.mk.inj same).2
      exact ⟨.rejected error, reference, by simp only [Session.step, inserted], next⟩
    | ok result =>
      rw [inserted] at agreed
      obtain ⟨_, after, same, next⟩ := agreed.settled simulates
      obtain rfl := Session.staging.inj (Prod.mk.inj same).2
      exact ⟨.inserted result.1, result.2, by simp only [Session.step, inserted], next⟩
  | update address value =>
    obtain rfl := Option.some.inj stepped
    obtain ⟨answer, after, same, next⟩ :=
      (simulates.update (askable address List.mem_cons_self) value).settled simulates
    exact ⟨answer, after, congrArg some same, next⟩
  | delete address =>
    obtain rfl := Option.some.inj stepped
    obtain ⟨answer, after, same, next⟩ :=
      (simulates.delete (askable address List.mem_cons_self)).settled simulates
    exact ⟨answer, after, congrArg some same, next⟩
  | rekey source target value =>
    obtain rfl := Option.some.inj stepped
    have agreed := simulates.rekey (askable source List.mem_cons_self)
      (askable target (List.mem_cons_of_mem _ List.mem_cons_self)) value
    obtain ⟨answer, after, same, next⟩ := agreed.settled simulates
    exact ⟨answer, after, congrArg some same, next⟩
  | setNow now =>
    obtain rfl := Option.some.inj stepped
    exact ⟨.done, { reference with now }, rfl, simulates.represents, simulates.counter, simulates.overlay,
      simulates.ops, rfl, simulates.definition, simulates.composition⟩
  | setDefinition definition =>
    obtain rfl := Option.some.inj stepped
    exact ⟨.done, { reference with definition := some definition }, rfl, simulates.represents, simulates.counter,
      simulates.overlay, simulates.ops, simulates.now, rfl, simulates.composition⟩
  | setComposition composition =>
    obtain rfl := Option.some.inj stepped
    exact ⟨.done, { reference with composition := some composition }, rfl, simulates.represents, simulates.counter,
      simulates.overlay, simulates.ops, simulates.now, simulates.definition, rfl⟩
  | setTransaction identity =>
    obtain rfl := Option.some.inj stepped
    exact ⟨.done, { reference with transaction := some identity }, rfl, simulates.represents, simulates.counter,
      simulates.overlay, simulates.ops, simulates.now, simulates.definition, simulates.composition⟩
  | _ => cases stepped

/-- A commit brings the rows of the reference store into the table. -/
theorem Simulates.commit (simulates : Simulates codec transition reference) {stamps : Stamps RowAddress}
    (mirrored : Mirrored reference stamps) (storable : ∀ op ∈ transition.ops, StorableOp codec transition.now op)
    (moves : ∀ op ∈ reference.ops, Moves op) : ∃ outcome after, transition.commit codec = .ok (outcome, after) ∧
      Represents codec after.table (lookup reference.commit.2.current) := by
  rw [simulates.ops, simulates.now] at storable
  obtain ⟨rows, replayed, _⟩ := mirrored.replays reference.now
  rw [commit_current, replayed.current, PgTransition.commit, PgStore.commitTransition, simulates.ops, simulates.now]
  by_cases empty : reference.ops = [] ∧ transition.definition = none ∧ transition.composition = none
  · rw [if_pos empty]
    rw [empty.1] at replayed
    cases replayed
    exact ⟨_, _, rfl, simulates.represents⟩
  · rw [if_neg empty]
    obtain ⟨writer, written, writes⟩ :=
      (Writes.new simulates.represents reference.now).applyAll rfl storable moves replayed
    refine ⟨.committed (transition.store.head + 1), { transition.store with
      table := writer.table
      head := transition.store.head + 1 }, ?_, writes.represents⟩
    simp only [Pg.commitTransition, written, bind, Except.bind]
    rfl

end Simulation

section Reads

variable {codec : ValueCodec Wire}

end Reads

end Liasse.Pg
