/-
This file models the table of nodes of the PostgreSQL store and its columns, the writer that puts each committed
operation into it and the reads: the row at an address, the rows of a collection, the rows below an address and the
whole head state.
-/

import Liasse.Codes.Adjacency
import Liasse.KeyEnc.Canonical
import Liasse.Store.Address
import Liasse.Store.Memory
import Liasse.Value.Normal

namespace Liasse.Pg

open Codes Store

section Statements

/-- The database rejects a call, or a durable record does not decode. -/
inductive PgError
  | backend (detail : String)
  | corrupt (detail : String)
  | corruptAt (detail : String) (address : RowAddress)

/-- The tagged form of a value in a JSONB column, with the form of the empty object. -/
structure ValueCodec (Wire : Type) where
  encode : Value → Wire
  decode : Wire → Except PgError Value
  emptyObject : Wire

/-- The place of a node among its siblings is its step name and its encoded key. -/
structure Slot where
  stepName : String
  keyEnc : List UInt8
deriving DecidableEq

/-- The other columns of a node. A key that is no JSON array is missing here. -/
structure Columns (Wire : Type) where
  keyWire : Option (List Wire)
  incarnation : Option RowIncarnation
  value : Option Wire
  created : Option Wire

/-- One row of the table. -/
abbrev Node (Wire : Type) :=
  Linked Slot (Columns Wire)

/-- A node is a row when it has a value. The other nodes are tombstones. -/
def Columns.live {Wire : Type} (columns : Columns Wire) : Bool :=
  columns.value.isSome

/-- The table has one node for each parent, step name and encoded key. The seeded sentinel is kept
apart from the nodes: its encoded key is empty, which is the key of no row. -/
structure NodeTable (Wire : Type) where
  nodes : List (Node Wire)
  sequence : Nat
  unique : (nodes.map Linked.place).Nodup

variable {Wire : Type}

/-- The identifier of the sentinel, which is the parent of each node of the first level. -/
def rootSentinelId : Nat := 0

/-- The seeded sentinel is its own parent, and it has a value. -/
def sentinel (codec : ValueCodec Wire) : Node Wire where
  id := rootSentinelId
  parent := rootSentinelId
  label := ⟨"", []⟩
  payload := ⟨none, some "", some codec.emptyObject, none⟩

section Text

/-- The character that no text of the database holds. -/
def nul : Char := Char.ofNat 0

/-- The escape character of the text columns. -/
def reverseSolidus : Char := Char.ofNat 92

/-- A statement fails when one of its text parameters holds the forbidden character. -/
def bindNames (names : List String) : Except PgError Unit :=
  if ∀ name ∈ names, nul ∉ name.toList then .ok ()
  else .error (.backend "22021: invalid byte sequence for encoding UTF8: 0x00")

/-- The escape character introduces itself or the forbidden character. In any other place it stands
for itself. -/
def unescapeChars : List Char → List Char
  | [] => []
  | [scalar] => [scalar]
  | scalar :: other :: rest =>
    if scalar = reverseSolidus then
      if other = reverseSolidus then reverseSolidus :: unescapeChars rest
      else if other = '0' then nul :: unescapeChars rest
      else reverseSolidus :: other :: unescapeChars rest
    else scalar :: unescapeChars (other :: rest)

def unescape (text : String) : String :=
  String.ofList (unescapeChars text.toList)

end Text

section Keys

/-- The bytes of a key, which order and identify it among its siblings. -/
def encodeKeyValue (key : KeyClass) : List UInt8 :=
  KeyEnc.encodeKeyValue ⟨key.first.value, key.rest.map ValueClass.value⟩

/-- The slot of an address level. -/
def slot (step : AddressStep) : Slot :=
  ⟨step.name, encodeKeyValue step.key⟩

/-- The stored form of a key is the array of its canonical components. -/
def encodeKeyWire (codec : ValueCodec Wire) (key : KeyClass) : List Wire :=
  key.components.map fun component => codec.encode (KeyEnc.canonicalKey component.value)

def decodeKeyWire (codec : ValueCodec Wire) : Option (List Wire) → Except PgError KeyClass
  | none => .error (.corrupt "node key_wire is not an array")
  | some components => do
      match ← components.mapM codec.decode with
      | [] => .error (.corrupt "a key must have at least one component")
      | first :: rest => .ok (.composite first rest)

end Keys

section Rows

def encodeCreated (codec : ValueCodec Wire) (created : Timestamp) : Wire :=
  codec.encode (.timestamp created)

def decodeCreated (codec : ValueCodec Wire) (wire : Wire) : Except PgError Timestamp := do
  match ← codec.decode wire with
  | .timestamp created => .ok created
  | _ => .error (.corrupt "created column is not a timestamp")

/-- The row that the columns of a live node hold. -/
def storedRow (codec : ValueCodec Wire) (columns : Columns Wire) : Except PgError StoredRow :=
  match columns.incarnation, columns.value with
  | none, _ => .error (.corrupt "nodes.incarnation")
  | _, none => .error (.corrupt "nodes.value")
  | some incarnation, some value => do
      let value ← codec.decode value
      match columns.created with
      | none => .error (.corrupt "live node is missing its created admission instant")
      | some created => do
          let created ← decodeCreated codec created
          .ok ⟨incarnation, created, value⟩

end Rows

namespace NodeTable

/-- The table before any commit. -/
def genesis : NodeTable Wire :=
  ⟨[], 1, List.nodup_nil⟩

/-- The nested lookups of an address above its last level. -/
def parentChain (table : NodeTable Wire) (ancestors : List AddressStep) : Option Nat :=
  Linked.locate table.nodes (ancestors.map slot)

/-- The node of an address, be it a row or a tombstone. -/
def pointLookup (table : NodeTable Wire) (address : RowAddress) : Option (Node Wire) :=
  Linked.nodeAt table.nodes (address.steps.dropLast.map slot) (slot address.last)

/-- The identifier of the node of an address. -/
def resolveId (table : NodeTable Wire) (address : RowAddress) : Except PgError (Option Nat) := do
  bindNames address.declaration
  return (table.pointLookup address).map Linked.id

/-- The change of the columns of one node leaves its place. -/
def changeAt (id : Nat) (change : Columns Wire → Columns Wire) (node : Node Wire) : Node Wire :=
  if node.id = id then { node with payload := change node.payload } else node

theorem changeAt_kept (id : Nat) (change : Columns Wire → Columns Wire) (node : Node Wire) :
    (changeAt id change node).id = node.id ∧ (changeAt id change node).parent = node.parent ∧
      (changeAt id change node).label = node.label := by
  rw [changeAt]
  split <;> exact ⟨rfl, rfl, rfl⟩

theorem unique_map (table : NodeTable Wire) (id : Nat) (change : Columns Wire → Columns Wire) :
    ((table.nodes.map (changeAt id change)).map Linked.place).Nodup := by
  rw [List.map_map]
  convert table.unique using 2
  funext node
  exact Prod.ext (changeAt_kept id change node).2.1 (changeAt_kept id change node).2.2

/-- The columns of the node with an identifier change. -/
def update (table : NodeTable Wire) (id : Nat) (change : Columns Wire → Columns Wire) :
    NodeTable Wire where
  nodes := table.nodes.map (changeAt id change)
  sequence := table.sequence
  unique := table.unique_map id change

theorem unique_append {table : NodeTable Wire} {parent : Nat} {place : Slot}
    (free : Linked.child table.nodes parent place = none) (id : Nat) (columns : Columns Wire) :
    ((table.nodes ++ [(⟨id, parent, place, columns⟩ : Node Wire)]).map Linked.place).Nodup := by
  rw [List.map_append, List.map_singleton, List.nodup_append]
  refine ⟨table.unique, List.nodup_singleton _, ?_⟩
  rintro taken inside _ own rfl
  obtain ⟨other, present, rfl⟩ := List.mem_map.mp inside
  obtain ⟨parent, label⟩ := Prod.mk.inj (List.mem_singleton.mp own)
  have conflict := List.find?_eq_none.mp free other present
  exact conflict (by simpa using ⟨parent, label⟩)

/-- The insertion of a node returns its identifier. A node that is at its place stays, with its columns
changed by those of the insertion. -/
def insertOnConflict (table : NodeTable Wire) (parent : Nat) (place : Slot) (columns : Columns Wire)
    (conflict : Columns Wire → Columns Wire → Columns Wire) : Nat × NodeTable Wire :=
  match free : Linked.child table.nodes parent place with
  | some node => (node.id, table.update node.id fun old => conflict old columns)
  | none =>
    (table.sequence,
      { nodes := table.nodes ++ [⟨table.sequence, parent, place, columns⟩]
        sequence := table.sequence + 1
        unique := unique_append free table.sequence columns })

end NodeTable

end Statements

section Writer

variable {Wire : Type}

/-- The writer of one admission holds the table, the instant of the commit and the identifiers of the
addresses that the admission has met. -/
structure NodeWriter (Wire : Type) where
  table : NodeTable Wire
  now : Timestamp
  staged : Std.TreeMap RowAddress Nat compare

namespace NodeWriter

def new (table : NodeTable Wire) (now : Timestamp) : NodeWriter Wire :=
  ⟨table, now, ∅⟩

/-- The writer remembers the identifier of an address. -/
def stage (writer : NodeWriter Wire) (address : RowAddress) (id : Nat) : NodeWriter Wire :=
  { writer with staged := writer.staged.insert address id }

/-- The identifier of the node of an address that must have one. -/
def resolveId (writer : NodeWriter Wire) (address : RowAddress) :
    Except PgError (Nat × NodeWriter Wire) :=
  match writer.staged[address]? with
  | some id => .ok (id, writer)
  | none => do
      match ← writer.table.resolveId address with
      | some id => .ok (id, writer.stage address id)
      | none => .error (.corruptAt "no node for row address" address)

/-- A statement that inserts at the last level of an address under a parent. -/
def insertAt (writer : NodeWriter Wire) (parent : Nat) (address : RowAddress) (columns : Columns Wire)
    (conflict : Columns Wire → Columns Wire → Columns Wire) : Except PgError (Nat × NodeWriter Wire) := do
  bindNames [address.last.name]
  let (id, table) := writer.table.insertOnConflict parent (slot address.last) columns conflict
  return (id, { writer with table }.stage address id)

/-- A tombstone for an address, or the node that is there. -/
def createTombstone (codec : ValueCodec Wire) (writer : NodeWriter Wire) (parent : Nat)
    (address : RowAddress) : Except PgError (Nat × NodeWriter Wire) :=
  writer.insertAt parent address ⟨some (encodeKeyWire codec address.last.key), none, none, none⟩
    fun old _ => old

/-- The identifier of an address, whose levels after the first are given from the last to the second. A
missing node is created as a tombstone below its own parent. -/
def resolveOrCreate (codec : ValueCodec Wire) (writer : NodeWriter Wire) (first : AddressStep) :
    List AddressStep → Except PgError (Nat × NodeWriter Wire)
  | [] => do
      match writer.staged[RowAddress.mk first []]? with
      | some id => .ok (id, writer)
      | none =>
        match ← writer.table.resolveId ⟨first, []⟩ with
        | some id => .ok (id, writer.stage ⟨first, []⟩ id)
        | none => createTombstone codec writer rootSentinelId ⟨first, []⟩
  | last :: above => do
      let address : RowAddress := ⟨first, (last :: above).reverse⟩
      match writer.staged[address]? with
      | some id => .ok (id, writer)
      | none =>
        match ← writer.table.resolveId address with
        | some id => .ok (id, writer.stage address id)
        | none => do
            let (parent, writer) ← resolveOrCreate codec writer first above
            createTombstone codec writer parent address

/-- The identifier of the parent of an address. -/
def resolveParent (codec : ValueCodec Wire) (writer : NodeWriter Wire) (address : RowAddress) :
    Except PgError (Nat × NodeWriter Wire) :=
  match address.rest.reverse with
  | [] => .ok (rootSentinelId, writer)
  | _ :: above => resolveOrCreate codec writer address.first above

/-- A row comes to its address, where a tombstone comes back to life. -/
def place (codec : ValueCodec Wire) (writer : NodeWriter Wire) (address : RowAddress)
    (incarnation : RowIncarnation) (created : Timestamp) (value : Value) :
    Except PgError (Nat × NodeWriter Wire) := do
  let (parent, writer) ← writer.resolveParent codec address
  writer.insertAt parent address
    ⟨some (encodeKeyWire codec address.last.key), some incarnation, some (codec.encode value),
      some (encodeCreated codec created)⟩
    fun old excluded => { excluded with keyWire := old.keyWire }

/-- A node stops being a row, and the nodes below it stay. -/
def tombstone (writer : NodeWriter Wire) (id : Nat) : NodeWriter Wire :=
  { writer with
    table := writer.table.update id fun columns =>
      { columns with value := none, incarnation := none, created := none } }

/-- The recorded instant of a node. -/
def nodeCreated (codec : ValueCodec Wire) (writer : NodeWriter Wire) (id : Nat) :
    Except PgError (Option Timestamp) :=
  match writer.table.nodes.find? fun node => node.id = id with
  | none => .error (.backend "query returned an unexpected number of rows")
  | some node =>
    match node.payload.created with
    | none => .ok none
    | some wire => (decodeCreated codec wire).map some

/-- One committed operation comes into the table. -/
def apply (codec : ValueCodec Wire) (writer : NodeWriter Wire) :
    CommittedRowOp RowAddress → Except PgError (NodeWriter Wire)
  | .insert address incarnation value => do
      let (_, writer) ← writer.place codec address incarnation writer.now value
      return writer
  | .update address incarnation value => do
      let (id, writer) ← writer.resolveId address
      return { writer with
        table := writer.table.update id fun columns =>
          { columns with value := some (codec.encode value), incarnation := some incarnation } }
  | .delete address _ => do
      let (id, writer) ← writer.resolveId address
      let writer := writer.tombstone id
      return { writer with staged := writer.staged.erase address }
  | .rekey source target incarnation value => do
      let (id, writer) ← writer.resolveId source
      -- The target keeps the instant of the source, which is read before the source is a tombstone.
      let created := (← writer.nodeCreated codec id).getD writer.now
      let (_, writer) ← writer.place codec target incarnation created value
      let writer := writer.tombstone id
      return { writer with staged := writer.staged.erase source }

end NodeWriter

/-- The operations of one commit come into the table in their order. -/
def commitTransition (codec : ValueCodec Wire) (table : NodeTable Wire)
    (transition : CommittedTransition RowAddress) : Except PgError (NodeTable Wire) := do
  let writer ← transition.ops.foldlM (NodeWriter.apply codec) (.new table transition.created)
  return writer.table

/-- The table after the commits of a log. -/
def commitAll (codec : ValueCodec Wire) (log : List (CommittedTransition RowAddress)) :
    Except PgError (NodeTable Wire) :=
  log.foldlM (commitTransition codec) .genesis

end Writer

variable {Wire : Type}

/-- The live row at an address. -/
def row (codec : ValueCodec Wire) (table : NodeTable Wire) (address : RowAddress) :
    Except PgError (Option StoredRow) := do
  bindNames address.declaration
  match (table.pointLookup address).filter fun node => node.payload.live with
  | none => return none
  | some node => return some (← storedRow codec node.payload)

/-- A live node of a collection under the given parent. -/
def selects (parent : Nat) (name : String) (node : Node Wire) : Bool :=
  node.parent = parent ∧ node.label.stepName = name ∧ node.payload.live

/-- A row of a scan has its own key in the path of the collection. -/
def scanRow (codec : ValueCodec Wire) (collection : CollectionPath) (node : Node Wire) :
    Except PgError (RowAddress × StoredRow) := do
  let key ← decodeKeyWire codec node.payload.keyWire
  return (collection.row key, ← storedRow codec node.payload)

/-- The live rows of a collection in the order of their encoded keys. The sentinel is one of the rows that
the statement can select. -/
def scan (codec : ValueCodec Wire) (table : NodeTable Wire) (collection : CollectionPath) :
    Except PgError (List (RowAddress × StoredRow)) := do
  bindNames collection.declaration
  match table.parentChain collection.ancestors with
  | none => return []
  | some parent =>
    let selected := (sentinel codec :: table.nodes).filter (selects parent collection.name)
    let ordered := selected.mergeSort fun first second =>
      (compare first.label.keyEnc second.label.keyEnc).isLE
    ordered.mapM (scanRow codec collection)

/-- A descent that gets this deep is taken for a cycle. -/
def maxSubtreeDepth : Nat := 10000

/-- The address of a row from the levels below the root. The step names pass through the decoding of the
whole path. -/
def rebuildAddress (codec : ValueCodec Wire) (root : RowAddress) (path : List (Node Wire)) :
    Except PgError RowAddress :=
  path.foldlM (fun address node => do
    let key ← decodeKeyWire codec node.payload.keyWire
    return address.child ⟨unescape node.label.stepName, key⟩) root

/-- A row of the descent is the path to it, with its own columns. -/
def subtreeRow (codec : ValueCodec Wire) (root : RowAddress) (found : List (Node Wire) × Columns Wire) :
    Except PgError (RowAddress × StoredRow) := do
  if maxSubtreeDepth ≤ found.1.length then
    .error (.corruptAt "subtree descent reached its greatest depth" root)
  else
    return (← rebuildAddress codec root found.1, ← storedRow codec found.2)

/-- The nodes below an address through the given collection names, each with the path to it. -/
def subtree (table : NodeTable Wire) (root : RowAddress) (names : List String) :
    List (Nat × List (Node Wire)) :=
  Linked.descend table.nodes (fun place => place.stepName ∈ names) maxSubtreeDepth
    ((table.pointLookup root).toList.map fun node => (node.id, []))

/-- The columns of the live nodes among some reached ones. -/
def liveOf (reached : Nat × List (Node Wire)) : Option (List (Node Wire) × Columns Wire) :=
  (reached.2.getLast?.filter fun node => node.payload.live).map fun node => (reached.2, node.payload)

/-- The live rows below an address through the given collection names, in address order. -/
def scanSubtree (codec : ValueCodec Wire) (table : NodeTable Wire) (root : RowAddress)
    (names : List String) : Except PgError (List (RowAddress × StoredRow)) := do
  if names = [] then
    return []
  else
    bindNames (root.declaration ++ names)
    let rows ← ((subtree table root names).filterMap liveOf).mapM (subtreeRow codec root)
    return rows.mergeSort fun first second => (compare first.1 second.1).isLE

section Head

/-- A loaded node has its parent, its address level and its row. -/
structure LoadedNode where
  parent : Nat
  step : AddressStep
  row : Option StoredRow

/-- One row of the table is loaded. -/
def loadNode (codec : ValueCodec Wire) (node : Node Wire) : Except PgError LoadedNode := do
  let key ← decodeKeyWire codec node.payload.keyWire
  let row ← match node.payload.value, node.payload.incarnation with
    | some value, some incarnation => do
        let created ← match node.payload.created with
          | some wire => decodeCreated codec wire
          | none => .error (.corrupt "live node is missing its created admission instant")
        let value ← codec.decode value
        .ok (some ⟨incarnation, created, value⟩)
    | none, none => .ok none
    | _, _ => .error (.corrupt "node has exactly one of value/incarnation set")
  return ⟨node.parent, ⟨node.label.stepName, key⟩, row⟩

/-- The loaded nodes by their identifiers. -/
def loadNodes (codec : ValueCodec Wire) (nodes : List (Node Wire)) :
    Except PgError (Std.TreeMap Nat LoadedNode compare) :=
  nodes.foldlM (fun loaded node => return loaded.insert node.id (← loadNode codec node)) ∅

/-- The levels from the root to a node, above the levels that were already met. -/
def climb (loaded : Std.TreeMap Nat LoadedNode compare) :
    Nat → Nat → List AddressStep → Except PgError (List AddressStep)
  | 0, _, _ => .error (.corrupt "node parent chain does not terminate at the root sentinel")
  | fuel + 1, id, met =>
    match loaded[id]? with
    | none => .error (.corrupt "node parent chain is broken")
    | some node =>
      if node.parent = rootSentinelId then .ok (node.step :: met)
      else if loaded.size < (node.step :: met).length then
        .error (.corrupt "node parent chain does not terminate at the root sentinel")
      else climb loaded fuel node.parent (node.step :: met)

/-- The address of a loaded node. -/
def reconstruct (loaded : Std.TreeMap Nat LoadedNode compare) (start : Nat) :
    Except PgError RowAddress := do
  match ← climb loaded (loaded.size + 1) start [] with
  | [] => .error (.corrupt "node has no address steps")
  | first :: rest => return ⟨first, rest⟩

/-- One loaded node brings its row to the head state. -/
def headStep (loaded : Std.TreeMap Nat LoadedNode compare) (rows : RowMap RowAddress)
    (entry : Nat × LoadedNode) : Except PgError (RowMap RowAddress) :=
  match entry.2.row with
  | none => .ok rows
  | some row => do return rows.insert (← reconstruct loaded entry.1) row

/-- The live rows of the whole table by their addresses. -/
def materializeHead (codec : ValueCodec Wire) (table : NodeTable Wire) :
    Except PgError (RowMap RowAddress) := do
  let loaded ← loadNodes codec table.nodes
  loaded.toList.foldlM (headStep loaded) ∅

end Head

end Liasse.Pg
