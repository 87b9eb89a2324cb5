/-
This file models the in-memory store: its rows, its commit log, the current state that it maintains, the snapshot that
folds the log, the reads over the current rows and the staged transitions.
-/

import Liasse.Store.Address
import Liasse.Value.Basic

namespace Liasse.Store

section Log

/-- The immutable token of a row. -/
abbrev RowIncarnation := String

/-- A stored row has an incarnation, the instant of its admission and a payload. -/
structure StoredRow where
  incarnation : RowIncarnation
  created : Timestamp
  value : Value

/-- One resolved row operation with the exact incarnation. -/
inductive CommittedRowOp (Address : Type)
  | insert (address : Address) (incarnation : RowIncarnation) (value : Value)
  | update (address : Address) (incarnation : RowIncarnation) (value : Value)
  | delete (address : Address) (incarnation : RowIncarnation)
  | rekey (source target : Address) (incarnation : RowIncarnation) (value : Value)

/-- One committed transition of the log with its serial position. Position zero is before the
history. -/
structure CommittedTransition (Address : Type) where
  seq : Nat
  ops : List (CommittedRowOp Address)
  created : Timestamp
  transaction : Option String

/-- An error names the address that it is about. The text of a corruption precedes the address. -/
inductive StoreError (Address : Type)
  | conflict (address : Address) (context : String)
  | notFound (address : Address) (context : String)
  | corruption (detail : String) (address : Address)
  | pastHead (frontier head : Nat)

/-- A commit takes the given position, or nothing was staged. -/
inductive CommitOutcome
  | committed (seq : Nat)
  | unchanged
deriving DecidableEq

variable {Address : Type} [Ord Address]

/-- Rows in the order of their addresses. -/
abbrev RowMap (Address : Type) [Ord Address] :=
  Std.TreeMap Address StoredRow compare

/-- The committed state at one position. -/
structure Snapshot (Address : Type) [Ord Address] where
  frontier : Nat
  rows : RowMap Address

namespace Snapshot

/-- One operation of the log applies to the rows. An insert records the instant of its transition,
and an update or a rekey keeps the instant of the row. -/
def apply (rows : RowMap Address) (op : CommittedRowOp Address) (created : Timestamp) :
    Except (StoreError Address) (RowMap Address) :=
  match op with
  | .insert address incarnation value =>
    match rows[address]? with
    | some _ => .error (.corruption "replayed insert over live row at" address)
    | none => .ok (rows.insert address ⟨incarnation, created, value⟩)
  | .update address incarnation value =>
    match rows[address]? with
    | none => .error (.corruption "replayed update on absent row at" address)
    | some prior => .ok (rows.insert address ⟨incarnation, prior.created, value⟩)
  | .delete address _ =>
    match rows[address]? with
    | none => .error (.corruption "replayed delete on absent row at" address)
    | some _ => .ok (rows.erase address)
  | .rekey source target incarnation value =>
    match rows[source]? with
    | none => .error (.corruption "replayed rekey from absent row at" source)
    | some row =>
      match (rows.erase source)[target]? with
      | some _ => .error (.corruption "replayed rekey onto live row at" target)
      | none => .ok ((rows.erase source).insert target ⟨incarnation, row.created, value⟩)

/-- The operations of one transition apply in their order. -/
def applyAll (rows : RowMap Address) (ops : List (CommittedRowOp Address)) (created : Timestamp) :
    Except (StoreError Address) (RowMap Address) :=
  match ops with
  | [] => .ok rows
  | op :: rest =>
    match apply rows op created with
    | .error error => .error error
    | .ok next => applyAll next rest created

/-- The fold skips each transition past the frontier. -/
def replayRows (rows : RowMap Address) (transitions : List (CommittedTransition Address))
    (frontier : Nat) : Except (StoreError Address) (RowMap Address) :=
  match transitions with
  | [] => .ok rows
  | transition :: rest =>
    if frontier < transition.seq then replayRows rows rest frontier
    else
      match applyAll rows transition.ops transition.created with
      | .error error => .error error
      | .ok next => replayRows next rest frontier

/-- The replay folds the transitions up to the frontier from the empty state. -/
def replay (transitions : List (CommittedTransition Address)) (frontier : Nat) :
    Except (StoreError Address) (Snapshot Address) :=
  match replayRows ∅ transitions frontier with
  | .error error => .error error
  | .ok rows => .ok ⟨frontier, rows⟩

end Snapshot

/-- The store of one instance. -/
structure MemoryStore (Address : Type) [Ord Address] where
  head : Nat
  current : RowMap Address
  log : List (CommittedTransition Address)
  nextIncarnation : Nat
  definition : Option String
  composition : Option String

namespace MemoryStore

/-- The fresh store before any commit. -/
def new : MemoryStore Address where
  head := 0
  current := ∅
  log := []
  nextIncarnation := 0
  definition := none
  composition := none

/-- The token of the given allocation. -/
def token (count : Nat) : RowIncarnation :=
  "row-" ++ count.repr

/-- The allocation of the next row incarnation. -/
def allocIncarnation (store : MemoryStore Address) : RowIncarnation × MemoryStore Address :=
  (token store.nextIncarnation, { store with nextIncarnation := store.nextIncarnation + 1 })

/-- One validated operation applies to the current rows. -/
def applyCurrent (current : RowMap Address) (op : CommittedRowOp Address) (created : Timestamp) :
    RowMap Address :=
  match op with
  | .insert address incarnation value => current.insert address ⟨incarnation, created, value⟩
  | .update address incarnation value =>
    let preserved := (current[address]?).elim created StoredRow.created
    current.insert address ⟨incarnation, preserved, value⟩
  | .delete address _ => current.erase address
  | .rekey source target incarnation value =>
    let preserved := (current[source]?).elim created StoredRow.created
    (current.erase source).insert target ⟨incarnation, preserved, value⟩

/-- The admission of a staged transition. An empty transition takes no position. -/
def commitTransition (store : MemoryStore Address) (ops : List (CommittedRowOp Address))
    (created : Timestamp) (transaction definition composition : Option String) :
    CommitOutcome × MemoryStore Address :=
  if ops = [] ∧ definition = none ∧ composition = none then (.unchanged, store)
  else
    let seq := store.head + 1
    (.committed seq,
      { store with
        head := seq
        current := ops.foldl (fun current op => applyCurrent current op created) store.current
        log := store.log ++ [⟨seq, ops, created, transaction⟩]
        definition := definition.or store.definition
        composition := composition.or store.composition })

/-- The snapshot at a frontier is a replay of the log. -/
def snapshot (store : MemoryStore Address) (frontier : Nat) :
    Except (StoreError Address) (Snapshot Address) :=
  if store.head < frontier then .error (.pastHead frontier store.head)
  else Snapshot.replay store.log frontier

end MemoryStore

end Log

section Scans

/-- An address is strictly below a root when it extends it, through levels of the given names only. -/
def RowAddress.descendsFrom (address root : RowAddress) (names : List String) : Bool :=
  if address.depth ≤ root.depth then false
  else root.steps.isPrefixOf address.steps &&
    (address.steps.drop root.depth).all fun step => names.contains step.name

namespace MemoryStore

/-- The direct rows of a collection. -/
def scan (current : RowMap RowAddress) (collection : CollectionPath) : List (RowAddress × StoredRow) :=
  current.toList.filter fun entry => collection.contains entry.1

/-- A scan lists the rows of its collection. -/
theorem mem_scan {current : RowMap RowAddress} {collection : CollectionPath} {address : RowAddress} {row : StoredRow} :
    (address, row) ∈ scan current collection ↔ current[address]? = some row ∧ address.collection = collection := by
  rw [scan, List.mem_filter, Std.TreeMap.mem_toList_iff_getElem?_eq_some, CollectionPath.contains, decide_eq_true_iff]

/-- A scan is in the order of the addresses. -/
theorem ordered_scan (current : RowMap RowAddress) (collection : CollectionPath) :
    (scan current collection).Pairwise fun first second => compare first.1 second.1 = .lt :=
  Std.TreeMap.ordered_keys_toList.filter _

/-- The rows below a root through the given collection names. -/
def scanSubtree (current : RowMap RowAddress) (root : RowAddress) (names : List String) :
    List (RowAddress × StoredRow) :=
  current.toList.filter fun entry => entry.1.descendsFrom root names

end MemoryStore

end Scans

section Relations

variable {Address : Type} [Ord Address] (same : Value → Value → Prop)

/-- Two rows have one incarnation and one instant, and their payloads are related. -/
structure StoredRow.Alike (left right : StoredRow) : Prop where
  incarnation : left.incarnation = right.incarnation
  created : left.created = right.created
  value : same left.value right.value

/-- Two operations do the same to the rows of equal addresses. -/
inductive CommittedRowOp.Alike : CommittedRowOp Address → CommittedRowOp Address → Prop
  | insert {left right : Address} {incarnation : RowIncarnation} {value other : Value} :
      compare left right = .eq → same value other →
        Alike (.insert left incarnation value) (.insert right incarnation other)
  | update {left right : Address} {incarnation : RowIncarnation} {value other : Value} :
      compare left right = .eq → same value other →
        Alike (.update left incarnation value) (.update right incarnation other)
  | delete {left right : Address} {incarnation : RowIncarnation} :
      compare left right = .eq → Alike (.delete left incarnation) (.delete right incarnation)
  | rekey {left right left' right' : Address} {incarnation : RowIncarnation} {value other : Value} :
      compare left right = .eq → compare left' right' = .eq → same value other →
        Alike (.rekey left left' incarnation value) (.rekey right right' incarnation other)

/-- Two transitions have one position, one instant and one transaction, and their operations do the same. -/
structure CommittedTransition.Alike (left right : CommittedTransition Address) : Prop where
  seq : left.seq = right.seq
  ops : List.Forall₂ (CommittedRowOp.Alike same) left.ops right.ops
  created : left.created = right.created
  transaction : left.transaction = right.transaction

/-- Two states have the same rows at each address. -/
def RowMap.Alike (left right : RowMap Address) : Prop :=
  ∀ address : Address, Option.Rel (StoredRow.Alike same) left[address]? right[address]?

/-- Two snapshots have one frontier and the same rows. -/
structure Snapshot.Alike (left right : Snapshot Address) : Prop where
  frontier : left.frontier = right.frontier
  rows : RowMap.Alike same left.rows right.rows

/-- Two replays have related results, or they are corrupt in the same way at equal addresses. -/
inductive Replayed {α : Type} (related : α → α → Prop) :
    Except (StoreError Address) α → Except (StoreError Address) α → Prop
  | ok {left right : α} : related left right → Replayed related (.ok left) (.ok right)
  | corruption {detail : String} {left right : Address} : compare left right = .eq →
      Replayed related (.error (.corruption detail left)) (.error (.corruption detail right))

end Relations

section Replay

variable {Address : Type} [Ord Address] [Std.TransOrd Address] {same : Value → Value → Prop}

namespace RowMap

variable {left right : RowMap Address}

/-- States with the same rows have no row at equal addresses, or the same row. -/
theorem Alike.get (alike : Alike same left right) {address other : Address} (equal : compare address other = .eq) :
    (left[address]? = none ∧ right[other]? = none) ∨
      ∃ row stored, left[address]? = some row ∧ right[other]? = some stored ∧ row.Alike same stored := by
  have related := alike address
  rw [Std.TreeMap.getElem?_congr equal (t := right)] at related
  generalize left[address]? = first at related ⊢
  generalize right[other]? = second at related ⊢
  cases related with
  | none => exact .inl ⟨rfl, rfl⟩
  | some rows => exact .inr ⟨_, _, rfl, rfl, rows⟩

theorem Alike.insert (alike : Alike same left right) {address other : Address} (equal : compare address other = .eq)
    {row stored : StoredRow} (rows : row.Alike same stored) :
    Alike same (left.insert address row) (right.insert other stored) := by
  intro found
  rw [Std.TreeMap.getElem?_insert, Std.TreeMap.getElem?_insert, Std.TransCmp.congr_left equal]
  split
  · exact .some rows
  · exact alike found

theorem Alike.erase (alike : Alike same left right) {address other : Address}
    (equal : compare address other = .eq) : Alike same (left.erase address) (right.erase other) := by
  intro found
  rw [Std.TreeMap.getElem?_erase, Std.TreeMap.getElem?_erase, Std.TransCmp.congr_left equal]
  split
  · exact .none
  · exact alike found

end RowMap

namespace Snapshot

variable {left right : RowMap Address}

/-- Operations that do the same keep the states the same. -/
theorem apply_alike (alike : RowMap.Alike same left right) {op other : CommittedRowOp Address}
    (ops : op.Alike same other) (created : Timestamp) :
    Replayed (RowMap.Alike same) (apply left op created) (apply right other created) := by
  cases ops with
  | insert equal values =>
    rw [apply, apply]
    obtain ⟨first, second⟩ | ⟨row, stored, first, second, _⟩ := alike.get equal <;> rw [first, second]
    · exact .ok (alike.insert equal ⟨rfl, rfl, values⟩)
    · exact .corruption equal
  | update equal values =>
    rw [apply, apply]
    obtain ⟨first, second⟩ | ⟨row, stored, first, second, prior⟩ := alike.get equal <;> rw [first, second]
    · exact .corruption equal
    · exact .ok (alike.insert equal ⟨rfl, prior.created, values⟩)
  | delete equal =>
    rw [apply, apply]
    obtain ⟨first, second⟩ | ⟨row, stored, first, second, _⟩ := alike.get equal <;> rw [first, second]
    · exact .corruption equal
    · exact .ok (alike.erase equal)
  | rekey source target values =>
    have erased := alike.erase source
    rw [apply, apply]
    obtain ⟨first, second⟩ | ⟨row, stored, first, second, prior⟩ := alike.get source <;> rw [first, second]
    · exact .corruption source
    · dsimp only
      obtain ⟨first, second⟩ | ⟨_, _, first, second, _⟩ := erased.get target <;> rw [first, second]
      · exact .ok (erased.insert target ⟨rfl, prior.created, values⟩)
      · exact .corruption target

theorem applyAll_alike (alike : RowMap.Alike same left right) {ops others : List (CommittedRowOp Address)}
    (all : List.Forall₂ (CommittedRowOp.Alike same) ops others) (created : Timestamp) :
    Replayed (RowMap.Alike same) (applyAll left ops created) (applyAll right others created) := by
  induction all generalizing left right with
  | nil => exact .ok alike
  | cons here _ ih =>
    have step := apply_alike alike here created
    rw [applyAll, applyAll]
    generalize apply left _ created = first at step ⊢
    generalize apply right _ created = second at step ⊢
    cases step with
    | ok next => exact ih next
    | corruption equal => exact .corruption equal

theorem replayRows_alike (alike : RowMap.Alike same left right) {log read : List (CommittedTransition Address)}
    (all : List.Forall₂ (CommittedTransition.Alike same) log read) (frontier : Nat) :
    Replayed (RowMap.Alike same) (replayRows left log frontier) (replayRows right read frontier) := by
  induction all generalizing left right with
  | nil => exact .ok alike
  | @cons transition stored rest others here _ ih =>
    rw [replayRows, replayRows, ← here.seq, ← here.created]
    split
    · exact ih alike
    · have step := applyAll_alike alike here.ops transition.created
      generalize applyAll left _ _ = first at step ⊢
      generalize applyAll right _ _ = second at step ⊢
      cases step with
      | ok next => exact ih next
      | corruption equal => exact .corruption equal

/-- Logs whose operations do the same replay to the same snapshot at each frontier. -/
theorem replay_alike {log read : List (CommittedTransition Address)}
    (all : List.Forall₂ (CommittedTransition.Alike same) log read) (frontier : Nat) :
    Replayed (Snapshot.Alike same) (replay log frontier) (replay read frontier) := by
  have empty : RowMap.Alike same (∅ : RowMap Address) ∅ := fun address => by
    rw [Std.TreeMap.getElem?_emptyc]
    exact .none
  have rows := replayRows_alike empty all frontier
  rw [replay, replay]
  generalize replayRows ∅ log frontier = first at rows ⊢
  generalize replayRows ∅ read frontier = second at rows ⊢
  cases rows with
  | ok rows => exact .ok ⟨rfl, rows⟩
  | corruption equal => exact .corruption equal

end Snapshot

end Replay

variable {Address : Type} [Ord Address]

/-- The instant of a transition that was given no instant is the Unix epoch. -/
def defaultNow : Timestamp :=
  ⟨⟨0, Signed.zero_low, Signed.zero_high⟩, .micros⟩

/-- A staged transition borrows its store. It keeps the change of each address and the operations
that become the durable record. -/
structure MemoryTransition (Address : Type) [Ord Address] where
  store : MemoryStore Address
  overlay : Std.TreeMap Address (Option StoredRow) compare
  ops : List (CommittedRowOp Address)
  now : Timestamp
  definition : Option String
  composition : Option String
  transaction : Option String

namespace MemoryTransition

def new (store : MemoryStore Address) : MemoryTransition Address where
  store := store
  overlay := ∅
  ops := []
  now := defaultNow
  definition := none
  composition := none
  transaction := none

/-- The row at an address under the committed state and the staged changes. -/
def resolve (transition : MemoryTransition Address) (address : Address) : Option StoredRow :=
  match transition.overlay[address]? with
  | some staged => staged
  | none => transition.store.current[address]?

/-- The staging of one change and of the operations that record it. -/
def stage (transition : MemoryTransition Address) (address : Address) (staged : Option StoredRow)
    (ops : List (CommittedRowOp Address)) : MemoryTransition Address :=
  { transition with
    overlay := transition.overlay.insert address staged
    ops := transition.ops ++ ops }

def insert (transition : MemoryTransition Address) (address : Address) (value : Value) :
    Except (StoreError Address) (RowIncarnation × MemoryTransition Address) :=
  match transition.resolve address with
  | some _ => .error (.conflict address "insert")
  | none =>
    let (incarnation, store) := transition.store.allocIncarnation
    .ok (incarnation,
      { transition with store := store }.stage address
        (some ⟨incarnation, transition.now, value⟩) [.insert address incarnation value])

def update (transition : MemoryTransition Address) (address : Address) (value : Value) :
    Except (StoreError Address) (MemoryTransition Address) :=
  match transition.resolve address with
  | none => .error (.notFound address "update")
  | some row =>
    .ok (transition.stage address (some ⟨row.incarnation, row.created, value⟩)
      [.update address row.incarnation value])

def delete (transition : MemoryTransition Address) (address : Address) :
    Except (StoreError Address) (MemoryTransition Address) :=
  match transition.resolve address with
  | none => .error (.notFound address "delete")
  | some row => .ok (transition.stage address none [.delete address row.incarnation])

def rekey (transition : MemoryTransition Address) (source target : Address) (value : Value) :
    Except (StoreError Address) (MemoryTransition Address) :=
  match transition.resolve source with
  | none => .error (.notFound source "rekey source")
  | some row =>
    match transition.resolve target with
    | some _ => .error (.conflict target "rekey target")
    | none =>
      .ok ((transition.stage source none []).stage target
        (some ⟨row.incarnation, row.created, value⟩)
        [.rekey source target row.incarnation value])

/-- The commit admits the staged operations at the last instant that was set. -/
def commit (transition : MemoryTransition Address) : CommitOutcome × MemoryStore Address :=
  transition.store.commitTransition transition.ops transition.now transition.transaction
    transition.definition transition.composition

/-- The abort drops the overlay and the operations. -/
def abort (transition : MemoryTransition Address) : MemoryStore Address :=
  transition.store

end MemoryTransition

/-- The calls of the storage contract that stage, commit or abort. -/
inductive Call (Address : Type)
  | begin
  | insert (address : Address) (value : Value)
  | update (address : Address) (value : Value)
  | delete (address : Address)
  | rekey (source target : Address) (value : Value)
  | setNow (now : Timestamp)
  | setDefinition (definition : String)
  | setComposition (composition : String)
  | setTransaction (transaction : String)
  | commit
  | abort

/-- A session owns the store, or a transition borrows it. -/
inductive Session (Address : Type) [Ord Address]
  | idle (store : MemoryStore Address)
  | staging (transition : MemoryTransition Address)

/-- The answer to one call. -/
inductive Answer (Address : Type)
  | done
  | inserted (incarnation : RowIncarnation)
  | rejected (error : StoreError Address)
  | outcome (outcome : CommitOutcome)

namespace Session

/-- The store of a session. -/
def store : Session Address → MemoryStore Address
  | .idle store => store
  | .staging transition => transition.store

/-- A call that stages keeps the transition when it is rejected. -/
def staged (transition : MemoryTransition Address)
    (result : Except (StoreError Address) (MemoryTransition Address)) :
    Answer Address × Session Address :=
  match result with
  | .error error => (.rejected error, .staging transition)
  | .ok next => (.done, .staging next)

/-- One call. A call that the borrow does not allow has no result. -/
def step : Session Address → Call Address → Option (Answer Address × Session Address)
  | .idle store, .begin => some (.done, .staging (.new store))
  | .idle _, _ => none
  | .staging _, .begin => none
  | .staging transition, .insert address value =>
    match transition.insert address value with
    | .error error => some (.rejected error, .staging transition)
    | .ok (incarnation, next) => some (.inserted incarnation, .staging next)
  | .staging transition, .update address value =>
    some (staged transition (transition.update address value))
  | .staging transition, .delete address => some (staged transition (transition.delete address))
  | .staging transition, .rekey source target value =>
    some (staged transition (transition.rekey source target value))
  | .staging transition, .setNow now => some (.done, .staging { transition with now := now })
  | .staging transition, .setDefinition definition =>
    some (.done, .staging { transition with definition := some definition })
  | .staging transition, .setComposition composition =>
    some (.done, .staging { transition with composition := some composition })
  | .staging transition, .setTransaction identity =>
    some (.done, .staging { transition with transaction := some identity })
  | .staging transition, .commit =>
    some (.outcome transition.commit.1, .idle transition.commit.2)
  | .staging transition, .abort => some (.done, .idle transition.abort)

end Session

/-- A commit adds the current state to the states after each commit. -/
def Answer.states (answer : Answer Address) (current : RowMap Address)
    (states : List (RowMap Address)) : List (RowMap Address) :=
  match answer with
  | .outcome (.committed _) => states ++ [current]
  | _ => states

/-- An insert adds its incarnation to the issued incarnations. -/
def Answer.issued (answer : Answer Address) (issued : List RowIncarnation) : List RowIncarnation :=
  match answer with
  | .inserted incarnation => issued ++ [incarnation]
  | _ => issued

/-- A run of calls from the fresh store, with the current state after each commit and the
incarnations that the insert calls returned. -/
inductive Run : Session Address → List (RowMap Address) → List RowIncarnation → Prop
  | fresh : Run (.idle .new) [] []
  | call {session next : Session Address} {states : List (RowMap Address)}
      {issued : List RowIncarnation} {answer : Answer Address} (asked : Call Address) :
      Run session states issued → session.step asked = some (answer, next) →
      Run next (answer.states next.store.current states) (answer.issued issued)

end Liasse.Store
