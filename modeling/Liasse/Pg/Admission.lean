/-
This file proves that the writer of an admission keeps the representation through each operation.
-/

import Liasse.Pg.Represent

namespace Liasse.Pg
open Codes Store Linked

variable {Wire : Type}

/-- Each path that led to a node leads to the same node. -/
def Grows (before after : NodeTable Wire) : Prop :=
  ∀ steps id, locate before.nodes steps = some id → locate after.nodes steps = some id

theorem Grows.refl (table : NodeTable Wire) : Grows table table :=
  fun _ _ found => found

theorem Grows.trans {first second third : NodeTable Wire} (lower : Grows first second)
    (upper : Grows second third) : Grows first third :=
  fun steps id found => upper steps id (lower steps id found)

theorem grows_update (table : NodeTable Wire) (id : Nat) (change : Columns Wire → Columns Wire) :
    Grows table (table.update id change) := by
  intro steps found located
  rw [NodeTable.update, locate_map (NodeTable.changeAt_kept id change), located]

/-- The lookup of an address whose parent is located. -/
theorem pointLookup_under {table : NodeTable Wire} {address : RowAddress} {parent : Nat}
    (under : locate table.nodes (abovePath address) = some parent) :
    table.pointLookup address = child table.nodes parent (slot address.last) := by
  change (locate table.nodes (abovePath address)).bind _ = _
  rw [under]
  rfl

theorem resolveId_eq {table : NodeTable Wire} {address : RowAddress} (askable : Askable address) :
    table.resolveId address = .ok (locate table.nodes (path address)) := by
  rw [NodeTable.resolveId, askable.bind, locate_path]
  rfl

theorem Represents.insertOnConflict {codec : ValueCodec Wire} {table : NodeTable Wire}
    {rows : RowAddress → Option StoredRow} (represents : Represents codec table rows)
    {address : RowAddress} (legal : LegalSteps address.steps)
    (decoded : decodeKeyWire codec (some (encodeKeyWire codec address.last.key)) = .ok address.last.key)
    {parent : Nat} (under : locate table.nodes (abovePath address) = some parent) {columns : Columns Wire}
    {conflict : Columns Wire → Columns Wire → Columns Wire} {row : Option StoredRow}
    (wire : columns.keyWire = some (encodeKeyWire codec address.last.key))
    (fresh : rows address = none → Fits codec columns row)
    (again : ∀ old, Fits codec old (rows address) →
      Fits codec (conflict old columns) row ∧ (conflict old columns).keyWire = old.keyWire)
    (storable : row.isSome → Storable codec address) :
    ∃ id grown, table.insertOnConflict parent (slot address.last) columns conflict = (id, grown) ∧
      Represents codec grown (Function.update rows address row) ∧ Grows table grown ∧
      locate grown.nodes (path address) = some id := by
  have looked := pointLookup_under under
  rw [NodeTable.insertOnConflict]
  split
  · next node found =>
      have stored := looked.trans found
      obtain ⟨fits, kept⟩ := again node.payload (represents.present address legal node stored)
      refine ⟨_, _, rfl, represents.change legal stored fits kept storable, grows_update _ _ _, ?_⟩
      refine grows_update _ _ _ _ _ ?_
      rw [locate_path, stored]
      rfl
  · next free =>
      have missing := looked.trans free
      obtain ⟨grown, grows, located⟩ := represents.append legal decoded under missing wire
        (fresh (represents.absent address legal missing)) storable
        { nodes := table.nodes ++ [⟨table.sequence, parent, slot address.last, columns⟩]
          sequence := table.sequence + 1
          unique := NodeTable.unique_append free table.sequence columns } rfl rfl
      exact ⟨_, _, rfl, grown, grows, located⟩

/-- The writer represents some rows, and the identifiers that it remembers are those of the table. -/
structure Writes (codec : ValueCodec Wire) (writer : NodeWriter Wire)
    (rows : RowAddress → Option StoredRow) : Prop where
  represents : Represents codec writer.table rows
  staged : ∀ address id, writer.staged[address]? = some id →
    locate writer.table.nodes (path address) = some id

/-- The first writer becomes the second one, whose table locates an address. -/
structure Reaches (codec : ValueCodec Wire) (before after : NodeWriter Wire)
    (rows : RowAddress → Option StoredRow) (address : RowAddress) (id : Nat) : Prop where
  writes : Writes codec after rows
  grows : Grows before.table after.table
  located : locate after.table.nodes (path address) = some id
  now : after.now = before.now

namespace Writes

variable {codec : ValueCodec Wire} {writer : NodeWriter Wire} {rows : RowAddress → Option StoredRow}

theorem new {table : NodeTable Wire} (represents : Represents codec table rows) (now : Timestamp) :
    Writes codec (.new table now) rows where
  represents := represents
  staged address id found := by
    rw [NodeWriter.new, Std.TreeMap.getElem?_emptyc] at found
    cases found

/-- The table of a writer changes to one that still locates what it located. -/
theorem moved (writes : Writes codec writer rows) {table : NodeTable Wire}
    {after : RowAddress → Option StoredRow} (represents : Represents codec table after)
    (grows : Grows writer.table table) : Writes codec { writer with table } after where
  represents := represents
  staged address id found := grows _ _ (writes.staged address id found)

theorem stage (writes : Writes codec writer rows) {address : RowAddress} {id : Nat}
    (located : locate writer.table.nodes (path address) = some id) :
    Writes codec (writer.stage address id) rows where
  represents := writes.represents
  staged other found stored := by
    rw [NodeWriter.stage, Std.TreeMap.getElem?_insert] at stored
    split at stored
    · next same =>
        obtain rfl : address = other := Std.LawfulEqOrd.eq_of_compare same
        exact located.trans stored
    · exact writes.staged other found stored

theorem unstage (writes : Writes codec writer rows) (address : RowAddress) :
    Writes codec { writer with staged := writer.staged.erase address } rows where
  represents := writes.represents
  staged other found stored := by
    rw [Std.TreeMap.getElem?_erase] at stored
    split at stored
    · cases stored
    · exact writes.staged other found stored

/-- An address that has a node is resolved to it. -/
theorem resolveId (writes : Writes codec writer rows) {address : RowAddress} (askable : Askable address)
    {id : Nat} (located : locate writer.table.nodes (path address) = some id) :
    ∃ after, writer.resolveId address = .ok (id, after) ∧ Reaches codec writer after rows address id ∧
      after.table = writer.table := by
  rw [NodeWriter.resolveId]
  cases met : writer.staged[address]? with
  | some other =>
    obtain rfl := Option.some.inj ((writes.staged address other met).symm.trans located)
    exact ⟨writer, rfl, ⟨writes, .refl _, located, rfl⟩, rfl⟩
  | none =>
    refine ⟨writer.stage address id, ?_, ⟨writes.stage located, .refl _, located, rfl⟩, rfl⟩
    simp only [resolveId_eq askable, located]
    rfl

/-- An insertion under a located parent puts a row at the address, or keeps the one that is there. -/
theorem insertAt (writes : Writes codec writer rows) {address : RowAddress} (askable : Askable address)
    (decoded : decodeKeyWire codec (some (encodeKeyWire codec address.last.key)) = .ok address.last.key)
    {parent : Nat} (under : locate writer.table.nodes (abovePath address) = some parent)
    (columns : Columns Wire) (conflict : Columns Wire → Columns Wire → Columns Wire)
    (row : Option StoredRow) (wire : columns.keyWire = some (encodeKeyWire codec address.last.key))
    (fresh : rows address = none → Fits codec columns row)
    (again : ∀ old, Fits codec old (rows address) →
      Fits codec (conflict old columns) row ∧ (conflict old columns).keyWire = old.keyWire)
    (storable : row.isSome → Storable codec address) :
    ∃ id after, writer.insertAt parent address columns conflict = .ok (id, after) ∧
      Reaches codec writer after (Function.update rows address row) address id := by
  obtain ⟨id, grown, inserted, represents, grows, located⟩ :=
    writes.represents.insertOnConflict askable.keys decoded under wire fresh again storable
  refine ⟨id, _, ?_, (writes.moved represents grows).stage located, grows, located, rfl⟩
  rw [NodeWriter.insertAt, askable.bind_last]
  simp only [bind, Except.bind, inserted]
  rfl

/-- A tombstone leaves the rows as they are. -/
theorem createTombstone (writes : Writes codec writer rows) {address : RowAddress}
    (askable : Askable address)
    (decoded : decodeKeyWire codec (some (encodeKeyWire codec address.last.key)) = .ok address.last.key)
    {parent : Nat} (under : locate writer.table.nodes (abovePath address) = some parent) :
    ∃ id after, writer.createTombstone codec parent address = .ok (id, after) ∧
      Reaches codec writer after rows address id := by
  have storable (present : (rows address).isSome) : Storable codec address := by
    obtain ⟨row, stored⟩ := Option.isSome_iff_exists.mp present
    exact writes.represents.stored address row stored
  have settled := writes.insertAt askable decoded under
    ⟨some (encodeKeyWire codec address.last.key), none, none, none⟩ (fun old _ => old) (rows address) rfl
    (fun missing => by rw [missing]; exact ⟨rfl, rfl, rfl⟩) (fun old fits => ⟨fits, rfl⟩) storable
  rwa [Function.update_eq_self] at settled

end Writes

section Ancestors

theorem steps_mk (first : AddressStep) (rest : List AddressStep) :
    (RowAddress.mk first rest).steps = first :: rest :=
  rfl

theorem last_reverse (first last : AddressStep) (above : List AddressStep) :
    (RowAddress.mk first (last :: above).reverse).last = last := by
  rw [RowAddress.last, List.reverse_cons]
  simp

/-- The levels above the last one of a nested address are those of its parent. -/
theorem abovePath_reverse (first last : AddressStep) (above : List AddressStep) :
    abovePath ⟨first, (last :: above).reverse⟩ = path ⟨first, above.reverse⟩ := by
  rw [abovePath, path, steps_mk, steps_mk, List.reverse_cons, ← List.cons_append, List.dropLast_concat]

/-- The levels of an address can be asked about and come back from their stored form. -/
structure Placeable (codec : ValueCodec Wire) (steps : List AddressStep) : Prop where
  names : ∀ step ∈ steps, nul ∉ step.name.toList
  keys : LegalSteps steps
  decoded : ∀ step ∈ steps, decodeKeyWire codec (some (encodeKeyWire codec step.key)) = .ok step.key

theorem Placeable.mono {codec : ValueCodec Wire} {steps fewer : List AddressStep}
    (placeable : Placeable codec steps) (inside : ∀ step ∈ fewer, step ∈ steps) :
    Placeable codec fewer where
  names step listed := placeable.names step (inside step listed)
  keys step listed := placeable.keys step (inside step listed)
  decoded step listed := placeable.decoded step (inside step listed)

theorem Storable.placeable {codec : ValueCodec Wire} {address : RowAddress}
    (storable : Storable codec address) : Placeable codec address.steps :=
  ⟨storable.names, storable.keys, storable.decoded⟩

variable {codec : ValueCodec Wire} {rows : RowAddress → Option StoredRow}

/-- An address gets a node, with tombstones above it where nodes were missing. -/
theorem Writes.resolveOrCreate {writer : NodeWriter Wire} (writes : Writes codec writer rows)
    (first : AddressStep) (above : List AddressStep)
    (placeable : Placeable codec (first :: above.reverse)) :
    ∃ id after, writer.resolveOrCreate codec first above = .ok (id, after) ∧
      Reaches codec writer after rows ⟨first, above.reverse⟩ id := by
  induction above with
  | nil =>
    have askable : Askable ⟨first, []⟩ := ⟨placeable.names, placeable.keys⟩
    rw [NodeWriter.resolveOrCreate]
    cases met : writer.staged[RowAddress.mk first []]? with
    | some id => exact ⟨id, writer, rfl, writes, .refl _, writes.staged _ id met, rfl⟩
    | none =>
      simp only [resolveId_eq askable]
      cases located : locate writer.table.nodes (path ⟨first, []⟩) with
      | some id => exact ⟨id, _, rfl, writes.stage located, .refl _, located, rfl⟩
      | none => exact writes.createTombstone askable (placeable.decoded _ List.mem_cons_self) rfl
  | cons last above ih =>
    have askable : Askable ⟨first, (last :: above).reverse⟩ := ⟨placeable.names, placeable.keys⟩
    rw [NodeWriter.resolveOrCreate]
    cases met : writer.staged[RowAddress.mk first (last :: above).reverse]? with
    | some id => exact ⟨id, writer, rfl, writes, .refl _, writes.staged _ id met, rfl⟩
    | none =>
      simp only [resolveId_eq askable]
      cases located : locate writer.table.nodes (path ⟨first, (last :: above).reverse⟩) with
      | some id => exact ⟨id, _, rfl, writes.stage located, .refl _, located, rfl⟩
      | none =>
        obtain ⟨parent, middle, resolved, reaches⟩ := ih (placeable.mono fun step inside => by
          rw [List.reverse_cons, ← List.cons_append]
          exact List.mem_append_left _ inside)
        have own : last ∈ first :: (last :: above).reverse := by simp
        have back : decodeKeyWire codec (some (encodeKeyWire codec
            (RowAddress.mk first (last :: above).reverse).last.key)) =
              .ok (RowAddress.mk first (last :: above).reverse).last.key := by
          rw [last_reverse]
          exact placeable.decoded last own
        obtain ⟨id, after, created, next⟩ := reaches.writes.createTombstone askable back
          ((congrArg _ (abovePath_reverse first last above)).trans reaches.located)
        refine ⟨id, after, ?_, next.writes, reaches.grows.trans next.grows, next.located,
          next.now.trans reaches.now⟩
        simp only [bind, Except.bind, resolved]
        exact created

theorem Writes.resolveParent {writer : NodeWriter Wire} (writes : Writes codec writer rows)
    {address : RowAddress} (placeable : Placeable codec address.steps) :
    ∃ id after, writer.resolveParent codec address = .ok (id, after) ∧ Writes codec after rows ∧
      Grows writer.table after.table ∧ locate after.table.nodes (abovePath address) = some id ∧
      after.now = writer.now := by
  obtain ⟨first, rest⟩ := address
  rw [NodeWriter.resolveParent]
  cases levels : rest.reverse with
  | nil =>
    obtain rfl : rest = [] := List.reverse_eq_nil_iff.mp levels
    exact ⟨rootSentinelId, writer, rfl, writes, .refl _, rfl, rfl⟩
  | cons last above =>
    obtain rfl : rest = (last :: above).reverse := by rw [← levels, List.reverse_reverse]
    obtain ⟨id, after, resolved, reaches⟩ := writes.resolveOrCreate first above
      (placeable.mono fun step inside => by
        rw [steps_mk, List.reverse_cons, ← List.cons_append]
        exact List.mem_append_left _ inside)
    refine ⟨id, after, resolved, reaches.writes, reaches.grows, ?_, reaches.now⟩
    rw [abovePath_reverse]
    exact reaches.located

/-- A row comes to its address. -/
theorem Writes.place {writer : NodeWriter Wire} (writes : Writes codec writer rows) {address : RowAddress}
    (storable : Storable codec address) (row : StoredRow) (value : Kept codec row.value)
    (created : Kept codec (.timestamp row.created)) :
    ∃ id after, writer.place codec address row.incarnation row.created row.value = .ok (id, after) ∧
      Reaches codec writer after (Function.update rows address (some row)) address id := by
  obtain ⟨parent, middle, resolved, resolvedWrites, grows, under, now⟩ := writes.resolveParent storable.placeable
  obtain ⟨id, after, placed, reaches⟩ := resolvedWrites.insertAt storable.toAskable
    (storable.decoded _ (last_mem address)) under
    ⟨some (encodeKeyWire codec address.last.key), some row.incarnation, some (codec.encode row.value),
      some (encodeCreated codec row.created)⟩
    (fun old excluded => { excluded with keyWire := old.keyWire }) (some row) rfl
    (fun _ => ⟨rfl, rfl, rfl, value, created⟩) (fun _ _ => ⟨⟨rfl, rfl, rfl, value, created⟩, rfl⟩)
    fun _ => storable
  refine ⟨id, after, ?_, reaches.writes, grows.trans reaches.grows, reaches.located, reaches.now.trans now⟩
  rw [NodeWriter.place, resolved]
  exact placed

/-- The node of an address stops being a row. -/
theorem Writes.tombstone {writer : NodeWriter Wire} (writes : Writes codec writer rows)
    {address : RowAddress} (legal : LegalSteps address.steps) {id : Nat}
    (located : locate writer.table.nodes (path address) = some id) :
    Writes codec (writer.tombstone id) (Function.update rows address none) := by
  rw [locate_path] at located
  obtain ⟨node, found, rfl⟩ := Option.map_eq_some_iff.mp located
  exact writes.moved (writes.represents.change legal found ⟨rfl, rfl, rfl⟩ rfl fun impossible => by
    cases impossible) (grows_update _ _ _)

/-- The recorded instant of a live node is that of its row. -/
theorem Writes.nodeCreated {writer : NodeWriter Wire} (writes : Writes codec writer rows)
    {address : RowAddress} (legal : LegalSteps address.steps) {row : StoredRow}
    (stored : rows address = some row) {id : Nat}
    (located : locate writer.table.nodes (path address) = some id) :
    writer.nodeCreated codec id = .ok (some row.created) := by
  rw [locate_path] at located
  obtain ⟨node, found, rfl⟩ := Option.map_eq_some_iff.mp located
  obtain ⟨inside, _, _⟩ := writes.represents.lookup_iff.mp found
  have fits := writes.represents.present address legal node found
  rw [stored] at fits
  obtain ⟨_, _, created, _, kept⟩ := fits
  have only : writer.table.nodes.find? (fun other => other.id = node.id) = some node := by
    obtain ⟨other, first⟩ := Option.isSome_iff_exists.mp
      (List.find?_isSome.mpr ⟨node, inside, by simp⟩ :
        (writer.table.nodes.find? fun other => other.id = node.id).isSome)
    have same := List.find?_some first
    rw [writes.represents.grounded.eq_of_id (List.mem_of_find?_eq_some first) inside (by simpa using same)]
      at first
    exact first
  simp only [NodeWriter.nodeCreated, only, created, decodeCreated, encodeCreated]
  rw [Kept] at kept
  rw [kept]
  rfl

end Ancestors

end Liasse.Pg
