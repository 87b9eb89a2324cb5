/-
This file proves that the table represents the current rows of the reference store after each commit, and that its reads
answer as the reference store does.
-/

import Liasse.Codes.Listing
import Liasse.Pg.Admission
import Liasse.Store.Record

namespace Liasse.Pg

open Codes Store Linked

section Commits

variable {Wire : Type} {codec : ValueCodec Wire}

/-- What an operation writes comes back from its stored form. -/
def StorableOp (codec : ValueCodec Wire) (created : Timestamp) : CommittedRowOp RowAddress → Prop
  | .insert address _ value => Storable codec address ∧ Kept codec value ∧ Kept codec (.timestamp created)
  | .update _ _ value => Kept codec value
  | .delete _ _ => True
  | .rekey _ target _ value => Storable codec target ∧ Kept codec value

/-- A rekey moves its row to another address. -/
def Moves : CommittedRowOp RowAddress → Prop
  | .rekey source target _ _ => source ≠ target
  | _ => True

/-- The rows of a map by their addresses. -/
def lookup (rows : RowMap RowAddress) (address : RowAddress) : Option StoredRow :=
  rows[address]?

theorem lookup_empty : lookup ∅ = fun _ => none := by
  funext address
  exact Std.TreeMap.getElem?_emptyc

theorem lookup_insert (rows : RowMap RowAddress) (address : RowAddress) (row : StoredRow) :
    lookup (rows.insert address row) = Function.update (lookup rows) address (some row) := by
  funext other
  rw [lookup, Std.TreeMap.getElem?_insert]
  by_cases same : address = other
  · subst same
    rw [if_pos Std.ReflOrd.compare_self, Function.update_self]
  · rw [if_neg fun equal => same (Std.LawfulEqOrd.eq_of_compare equal), Function.update_of_ne (Ne.symm same)]
    rfl

theorem lookup_erase (rows : RowMap RowAddress) (address : RowAddress) :
    lookup (rows.erase address) = Function.update (lookup rows) address none := by
  funext other
  rw [lookup, Std.TreeMap.getElem?_erase]
  by_cases same : address = other
  · subst same
    rw [if_pos Std.ReflOrd.compare_self, Function.update_self]
  · rw [if_neg fun equal => same (Std.LawfulEqOrd.eq_of_compare equal), Function.update_of_ne (Ne.symm same)]
    rfl

/-- A live row has a node. -/
theorem Writes.located {writer : NodeWriter Wire} {rows : RowAddress → Option StoredRow}
    (writes : Writes codec writer rows) (address : RowAddress) {row : StoredRow}
    (stored : rows address = some row) : ∃ id, locate writer.table.nodes (path address) = some id := by
  have legal := (writes.represents.stored address row stored).keys
  cases found : writer.table.pointLookup address with
  | none =>
    rw [writes.represents.absent address legal found] at stored
    cases stored
  | some node => exact ⟨node.id, by rw [locate_path, found]; rfl⟩

/-- One operation that the log replays comes into the table. -/
theorem Writes.apply {writer : NodeWriter Wire} {current next : RowMap RowAddress}
    (writes : Writes codec writer (lookup current)) {op : CommittedRowOp RowAddress}
    (storable : StorableOp codec writer.now op) (moves : Moves op)
    (applied : Snapshot.apply current op writer.now = .ok next) :
    ∃ after, writer.apply codec op = .ok after ∧ Writes codec after (lookup next) ∧ after.now = writer.now := by
  cases op with
  | insert address incarnation value =>
    obtain ⟨address_storable, value_kept, created_kept⟩ := storable
    simp only [Snapshot.apply] at applied
    split at applied
    · cases applied
    · obtain rfl := Except.ok.inj applied
      obtain ⟨id, after, placed, reaches⟩ :=
        writes.place address_storable ⟨incarnation, writer.now, value⟩ value_kept created_kept
      refine ⟨after, ?_, ?_, reaches.now⟩
      · simp only [NodeWriter.apply, placed, bind, Except.bind]
        rfl
      · rw [lookup_insert]
        exact reaches.writes
  | update address incarnation value =>
    simp only [Snapshot.apply] at applied
    split at applied
    · cases applied
    · next prior stored =>
        obtain rfl := Except.ok.inj applied
        obtain ⟨id, located⟩ := writes.located address stored
        have known := writes.represents.stored address prior stored
        obtain ⟨middle, resolved, reaches, same⟩ := writes.resolveId known.toAskable located
        have found := reaches.located
        rw [locate_path] at found
        obtain ⟨node, looked, rfl⟩ := Option.map_eq_some_iff.mp found
        have fits := reaches.writes.represents.present address known.keys node looked
        rw [show lookup current address = some prior from stored] at fits
        obtain ⟨_, _, created, _, created_kept⟩ := fits
        have rewritten : Fits codec
            { node.payload with value := some (codec.encode value), incarnation := some incarnation }
            (some ⟨incarnation, prior.created, value⟩) :=
          ⟨rfl, rfl, created, storable, created_kept⟩
        have settled : Represents codec (middle.table.update node.id fun columns =>
            { columns with value := some (codec.encode value), incarnation := some incarnation }) _ :=
          reaches.writes.represents.change known.keys looked rewritten rfl fun _ => known
        refine ⟨_, ?_, reaches.writes.moved (lookup_insert current address _ ▸ settled)
          (grows_update _ _ _), reaches.now⟩
        simp only [NodeWriter.apply, resolved, bind, Except.bind]
        rfl
  | delete address incarnation =>
    simp only [Snapshot.apply] at applied
    split at applied
    · cases applied
    · next prior stored =>
        obtain rfl := Except.ok.inj applied
        obtain ⟨id, located⟩ := writes.located address stored
        have known := writes.represents.stored address prior stored
        obtain ⟨middle, resolved, reaches, _⟩ := writes.resolveId known.toAskable located
        have erased := (reaches.writes.tombstone known.keys reaches.located).unstage address
        rw [← lookup_erase] at erased
        refine ⟨_, ?_, erased, reaches.now⟩
        simp only [NodeWriter.apply, resolved, bind, Except.bind]
        rfl
  | rekey source target incarnation value =>
    obtain ⟨target_storable, value_kept⟩ := storable
    simp only [Snapshot.apply] at applied
    split at applied
    · cases applied
    · next prior stored =>
        split at applied
        · cases applied
        · obtain rfl := Except.ok.inj applied
          obtain ⟨id, located⟩ := writes.located source stored
          have known := writes.represents.stored source prior stored
          obtain ⟨first, resolved, reaches, _⟩ := writes.resolveId known.toAskable located
          have instant := reaches.writes.nodeCreated known.keys stored reaches.located
          have created_kept : Kept codec (.timestamp prior.created) := by
            have found := reaches.located
            rw [locate_path] at found
            obtain ⟨node, looked, rfl⟩ := Option.map_eq_some_iff.mp found
            have fits := reaches.writes.represents.present source known.keys node looked
            rw [show lookup current source = some prior from stored] at fits
            exact fits.2.2.2.2
          obtain ⟨other, second, placed, next⟩ := reaches.writes.place target_storable
            ⟨incarnation, prior.created, value⟩ value_kept created_kept
          have still := next.grows _ _ reaches.located
          have moved := (next.writes.tombstone known.keys still).unstage source
          rw [Function.update_comm (Ne.symm moves), ← lookup_erase, ← lookup_insert] at moved
          refine ⟨_, ?_, moved, next.now.trans reaches.now⟩
          simp only [NodeWriter.apply, resolved, instant, placed, bind, Except.bind, Option.getD_some]
          rfl

/-- The operations of a transition come into the table. -/
theorem Writes.applyAll {created : Timestamp} {ops : List (CommittedRowOp RowAddress)}
    {writer : NodeWriter Wire} {current next : RowMap RowAddress}
    (writes : Writes codec writer (lookup current)) (now : writer.now = created)
    (storable : ∀ op ∈ ops, StorableOp codec created op) (moves : ∀ op ∈ ops, Moves op)
    (replayed : Replays created current ops next) :
    ∃ after, ops.foldlM (NodeWriter.apply codec) writer = .ok after ∧ Writes codec after (lookup next) := by
  induction replayed generalizing writer with
  | nil rows => exact ⟨writer, rfl, writes⟩
  | @cons rows middle final op rest _ applied _ ih =>
    subst now
    obtain ⟨after, written, kept, same⟩ :=
      writes.apply (storable op List.mem_cons_self) (moves op List.mem_cons_self) applied
    obtain ⟨last, others, final⟩ := ih kept same
      (fun other inside => storable other (List.mem_cons_of_mem _ inside))
      fun other inside => moves other (List.mem_cons_of_mem _ inside)
    refine ⟨last, ?_, final⟩
    rw [List.foldlM_cons, written]
    exact others

/-- What the transitions of a log write comes back from its stored form. -/
def StorableLog (codec : ValueCodec Wire) (log : List (CommittedTransition RowAddress)) : Prop :=
  ∀ transition ∈ log, ∀ op ∈ transition.ops, StorableOp codec transition.created op

/-- The table represents the state after the last transition of a log. -/
theorem commitAll_represents {log : List (CommittedTransition RowAddress)}
    {states : List (RowMap RowAddress)} (replayed : LogReplays log states)
    (storable : StorableLog codec log) (moves : ∀ transition ∈ log, ∀ op ∈ transition.ops, Moves op) :
    ∃ table, commitAll codec log = .ok table ∧
      Represents codec table (lookup (stateAt states states.length)) := by
  induction replayed with
  | nil =>
    refine ⟨.genesis, rfl, ?_⟩
    have empty : lookup (stateAt [] 0 : RowMap RowAddress) = fun _ => none := lookup_empty
    rw [List.length_nil, empty]
    exact represents_genesis codec
  | @snoc log states transition next _ _ steps ih =>
    obtain ⟨table, committed, represents⟩ := ih
      (fun other inside => storable other (List.mem_append_left _ inside))
      fun other inside => moves other (List.mem_append_left _ inside)
    have last : transition ∈ log ++ [transition] := List.mem_append_right _ (List.mem_singleton_self _)
    obtain ⟨writer, written, writes⟩ := (Writes.new represents transition.created).applyAll rfl
      (storable transition last) (moves transition last) steps
    refine ⟨writer.table, ?_, ?_⟩
    · rw [commitAll] at committed ⊢
      rw [List.foldlM_append, committed]
      simp only [bind, Except.bind, List.foldlM_cons, commitTransition, written, List.foldlM_nil]
      rfl
    · rw [List.length_append, List.length_singleton, stateAt_last]
      exact writes.represents

section Moving

/-- Each rekey of the log and of the staged operations moves its row. -/
def MovesIn (session : Session RowAddress) : Prop :=
  (∀ transition ∈ session.store.log, ∀ op ∈ transition.ops, Moves op) ∧
    match session with
    | .idle _ => True
    | .staging transition => ∀ op ∈ transition.ops, Moves op

theorem moves_rekey {transition next : MemoryTransition RowAddress} {source target : RowAddress}
    {value : Value} (rekeyed : transition.rekey source target value = .ok next) : source ≠ target := by
  rintro rfl
  simp only [MemoryTransition.rekey] at rekeyed
  split at rekeyed
  · cases rekeyed
  · next row found =>
      rw [found] at rekeyed
      cases rekeyed

/-- The operations that one more staged change leaves. -/
def Stages (transition : MemoryTransition RowAddress)
    (result : Except (Store.StoreError RowAddress) (MemoryTransition RowAddress)) : Prop :=
  ∀ next, result = .ok next → next.store.log = transition.store.log ∧
    ∃ op, next.ops = transition.ops ++ [op] ∧ Moves op

theorem stages_update (transition : MemoryTransition RowAddress) (address : RowAddress) (value : Value) :
    Stages transition (transition.update address value) := by
  intro next updated
  rw [update_store updated]
  simp only [MemoryTransition.update] at updated
  split at updated
  · cases updated
  · obtain rfl := Except.ok.inj updated
    exact ⟨rfl, _, rfl, trivial⟩

theorem stages_delete (transition : MemoryTransition RowAddress) (address : RowAddress) :
    Stages transition (transition.delete address) := by
  intro next deleted
  rw [delete_store deleted]
  simp only [MemoryTransition.delete] at deleted
  split at deleted
  · cases deleted
  · obtain rfl := Except.ok.inj deleted
    exact ⟨rfl, _, rfl, trivial⟩

theorem stages_rekey (transition : MemoryTransition RowAddress) (source target : RowAddress)
    (value : Value) : Stages transition (transition.rekey source target value) := by
  intro next rekeyed
  have moved := moves_rekey rekeyed
  rw [rekey_store rekeyed]
  simp only [MemoryTransition.rekey] at rekeyed
  split at rekeyed
  · cases rekeyed
  · next row found =>
      split at rekeyed
      · cases rekeyed
      · obtain rfl := Except.ok.inj rekeyed
        exact ⟨rfl, .rekey source target row.incarnation value, by simp [MemoryTransition.stage], moved⟩

theorem movesIn_staged {transition : MemoryTransition RowAddress} (moves : MovesIn (.staging transition))
    {result : Except (Store.StoreError RowAddress) (MemoryTransition RowAddress)}
    (stages : Stages transition result) : MovesIn (Session.staged transition result).2 := by
  cases result with
  | error error => exact moves
  | ok next =>
    obtain ⟨log, op, ops, moved⟩ := stages next rfl
    refine ⟨?_, ?_⟩
    · change ∀ transition ∈ next.store.log, _
      rw [log]
      exact moves.1
    · intro other inside
      rw [ops] at inside
      rcases List.mem_append.mp inside with older | own
      · exact moves.2 other older
      · rw [List.mem_singleton.mp own]
        exact moved

theorem movesIn_commit {transition : MemoryTransition RowAddress} (moves : MovesIn (.staging transition)) :
    MovesIn (.idle transition.commit.2) := by
  refine ⟨?_, trivial⟩
  rw [MemoryTransition.commit, MemoryStore.commitTransition]
  split
  · exact moves.1
  · intro other inside
    rcases List.mem_append.mp inside with older | own
    · exact moves.1 other older
    · rw [List.mem_singleton.mp own]
      exact moves.2

theorem movesIn_insert {transition next : MemoryTransition RowAddress} {address : RowAddress} {value : Value}
    {incarnation : RowIncarnation} (moves : MovesIn (.staging transition))
    (inserted : transition.insert address value = .ok (incarnation, next)) : MovesIn (.staging next) := by
  refine ⟨?_, ?_⟩
  · change ∀ transition ∈ next.store.log, _
    rw [insert_store inserted]
    exact moves.1
  · simp only [MemoryTransition.insert] at inserted
    split at inserted
    · cases inserted
    · obtain ⟨_, rfl⟩ := Prod.mk.inj (Except.ok.inj inserted)
      intro op inside
      rcases List.mem_append.mp inside with older | own
      · exact moves.2 op older
      · rw [List.mem_singleton.mp own]
        trivial

theorem movesIn_step {session next : Session RowAddress} {asked : Call RowAddress}
    {answer : Answer RowAddress} (moves : MovesIn session)
    (stepped : session.step asked = some (answer, next)) : MovesIn next := by
  cases session with
  | idle store =>
    cases asked with
    | begin =>
      obtain ⟨_, rfl⟩ := Prod.mk.inj (Option.some.inj stepped)
      exact ⟨moves.1, fun _ inside => absurd inside List.not_mem_nil⟩
    | _ => cases stepped
  | staging transition =>
    cases asked with
    | begin => cases stepped
    | insert address value =>
      simp only [Session.step] at stepped
      split at stepped
      · obtain ⟨_, rfl⟩ := Prod.mk.inj (Option.some.inj stepped)
        exact moves
      · next inserted =>
          obtain ⟨_, rfl⟩ := Prod.mk.inj (Option.some.inj stepped)
          exact movesIn_insert moves inserted
    | update address value =>
      obtain rfl := congrArg Prod.snd (Option.some.inj stepped)
      exact movesIn_staged moves (stages_update transition address value)
    | delete address =>
      obtain rfl := congrArg Prod.snd (Option.some.inj stepped)
      exact movesIn_staged moves (stages_delete transition address)
    | rekey source target value =>
      obtain rfl := congrArg Prod.snd (Option.some.inj stepped)
      exact movesIn_staged moves (stages_rekey transition source target value)
    | commit =>
      obtain ⟨_, rfl⟩ := Prod.mk.inj (Option.some.inj stepped)
      exact movesIn_commit moves
    | abort =>
      obtain ⟨_, rfl⟩ := Prod.mk.inj (Option.some.inj stepped)
      exact ⟨moves.1, trivial⟩
    | _ =>
      obtain ⟨_, rfl⟩ := Prod.mk.inj (Option.some.inj stepped)
      exact moves

/-- Each rekey of a run moves its row. -/
theorem moves_of_run {session : Session RowAddress} {states : List (RowMap RowAddress)}
    {issued : List RowIncarnation} (run : Run session states issued) :
    ∀ transition ∈ session.store.log, ∀ op ∈ transition.ops, Moves op := by
  have moves : MovesIn session := by
    induction run with
    | fresh => exact ⟨fun _ inside => absurd inside List.not_mem_nil, trivial⟩
    | call asked _ stepped ih => exact movesIn_step ih stepped
  exact moves.1

end Moving

end Commits

section Readings

variable {Wire : Type} {codec : ValueCodec Wire}

section Columns

theorem live_of_fits {columns : Columns Wire} {row : Option StoredRow} (fits : Fits codec columns row) :
    columns.live = row.isSome := by
  cases row with
  | none => rw [Columns.live, fits.2.1]; rfl
  | some row => rw [Columns.live, fits.2.1]; rfl

theorem decodeCreated_kept {created : Timestamp} (kept : Kept codec (.timestamp created)) :
    decodeCreated codec (encodeCreated codec created) = .ok created := by
  rw [Kept] at kept
  rw [decodeCreated, encodeCreated, kept]
  rfl

/-- The columns of a live node give its row. -/
theorem storedRow_of_fits {columns : Columns Wire} {row : StoredRow}
    (fits : Fits codec columns (some row)) : storedRow codec columns = .ok row := by
  obtain ⟨incarnation, value, created, value_kept, created_kept⟩ := fits
  rw [Kept] at value_kept
  simp only [storedRow, incarnation, value, created, value_kept, bind, Except.bind,
    decodeCreated_kept created_kept]

end Columns

namespace Represents

variable {table : NodeTable Wire} {current : RowMap RowAddress}
  (represents : Represents codec table (lookup current))

include represents

/-- A live row is at a live node, whose columns give it. -/
theorem node_of_row {address : RowAddress} {row : StoredRow} (stored : lookup current address = some row) :
    ∃ node, table.pointLookup address = some node ∧ node.payload.live = true ∧
      storedRow codec node.payload = .ok row := by
  have legal := (represents.stored address row stored).keys
  cases found : table.pointLookup address with
  | none =>
    rw [represents.absent address legal found] at stored
    cases stored
  | some node =>
    have fits := represents.present address legal node found
    rw [stored] at fits
    exact ⟨node, rfl, live_of_fits fits, storedRow_of_fits fits⟩

/-- A live node holds the row of its address. -/
theorem row_of_node {address : RowAddress} (legal : LegalSteps address.steps) {node : Node Wire}
    (found : table.pointLookup address = some node) (live : node.payload.live = true) :
    ∃ row, lookup current address = some row ∧ storedRow codec node.payload = .ok row := by
  have fits := represents.present address legal node found
  rw [live_of_fits fits] at live
  obtain ⟨row, stored⟩ := Option.isSome_iff_exists.mp live
  rw [stored] at fits
  exact ⟨row, stored, storedRow_of_fits fits⟩

theorem row {address : RowAddress} (askable : Askable address) :
    row codec table address = .ok (lookup current address) := by
  rw [Pg.row, askable.bind]
  cases found : table.pointLookup address with
  | none =>
    rw [represents.absent address askable.keys found]
    rfl
  | some node =>
    cases live : node.payload.live with
    | false =>
      have fits := represents.present address askable.keys node found
      rw [live_of_fits fits] at live
      rw [Option.isSome_eq_false_iff.mp live |> Option.isNone_iff_eq_none.mp]
      simp [Option.filter, live_of_fits fits, live, bind, Except.bind]
      rfl
    | true =>
      obtain ⟨row, stored, decoded⟩ := represents.row_of_node askable.keys found live
      rw [stored]
      simp only [Option.filter, live, bind, Except.bind, decoded, if_true]
      rfl

end Represents

section Scan

/-- The database can be asked about a collection. Its name is not empty when it is at the top. -/
structure AskableCollection (collection : CollectionPath) : Prop where
  names : ∀ step ∈ collection.ancestors, nul ∉ step.name.toList
  keys : LegalSteps collection.ancestors
  name : nul ∉ collection.name.toList
  top : collection.ancestors = [] → collection.name ≠ ""

theorem AskableCollection.bind {collection : CollectionPath} (askable : AskableCollection collection) :
    bindNames collection.declaration = .ok () := by
  refine bindNames_ok fun name inside => ?_
  rcases List.mem_append.mp inside with above | own
  · obtain ⟨step, present, rfl⟩ := List.mem_map.mp above
    exact askable.names step present
  · rw [List.mem_singleton.mp own]
    exact askable.name

theorem compare_append (shared left right : List AddressStep) :
    compare (shared ++ left) (shared ++ right) = compare left right := by
  induction shared with
  | nil => rfl
  | cons step shared ih =>
    have head : compare (step :: (shared ++ left)) (step :: (shared ++ right)) =
        (compare step step).then (compare (shared ++ left) (shared ++ right)) :=
      List.compareLex_cons_cons ..
    rw [List.cons_append, List.cons_append, head, Std.ReflOrd.compare_self, ih]
    rfl

/-- The rows of one collection have the order of their keys. -/
theorem compare_row (collection : CollectionPath) (first second : KeyClass) :
    compare (collection.row first) (collection.row second) = compare first second := by
  change compare (collection.row first).steps (collection.row second).steps = _
  rw [CollectionPath.steps_row, CollectionPath.steps_row, compare_append]
  have single : compare [AddressStep.mk collection.name first] [AddressStep.mk collection.name second] =
      ((compareText collection.name collection.name).then (compare first second)).then .eq :=
    List.compareLex_cons_cons ..
  rw [single, (compareText_eq_iff collection.name collection.name).mpr rfl]
  cases compare first second <;> rfl

theorem collection_eq_iff {address : RowAddress} {collection : CollectionPath} :
    address.collection = collection ↔
      address.steps.dropLast = collection.ancestors ∧ address.last.name = collection.name := by
  obtain ⟨ancestors, name⟩ := collection
  simp only [RowAddress.collection, CollectionPath.mk.injEq]

variable {table : NodeTable Wire} {current : RowMap RowAddress}

/-- A node under the row of a collection is at the address of its own key. -/
theorem Represents.node_in_collection (represents : Represents codec table (lookup current))
    {collection : CollectionPath} (askable : AskableCollection collection) {parent : Nat}
    (under : table.parentChain collection.ancestors = some parent) {node : Node Wire}
    (inside : node ∈ table.nodes) (link : node.parent = parent)
    (named : node.label.stepName = collection.name) :
    ∃ key, LegalSteps (collection.row key).steps ∧ node.label.keyEnc = encodeKeyValue key ∧
      decodeKeyWire codec node.payload.keyWire = .ok key ∧
      table.pointLookup (collection.row key) = some node := by
  obtain ⟨⟨name, key⟩, level⟩ := represents.leveled node inside
  obtain rfl : name = collection.name := by rw [← named, level.slot]; rfl
  refine ⟨key, ?_, by rw [level.slot]; rfl, by rw [level.wire]; exact level.decoded, ?_⟩
  · rw [CollectionPath.steps_row]
    intro step listed
    rcases List.mem_append.mp listed with above | own
    · exact askable.keys step above
    · rw [List.mem_singleton.mp own]
      exact level.legal
  · refine represents.lookup_iff.mpr ⟨inside, ?_, ?_⟩
    · rw [abovePath, CollectionPath.steps_row, List.dropLast_concat, link]
      exact under
    · rw [CollectionPath.last_row]
      exact level.slot

/-- The reference scan holds the live rows of the collection. -/
theorem mem_scan {collection : CollectionPath} {entry : RowAddress × StoredRow} :
    entry ∈ MemoryStore.scan current collection ↔
      lookup current entry.1 = some entry.2 ∧ entry.1.collection = collection := by
  rw [MemoryStore.scan, List.mem_filter, ← Prod.eta entry, Std.TreeMap.mem_toList_iff_getElem?_eq_some,
    CollectionPath.contains, decide_eq_true_eq]
  rfl

/-- A selected node is read as the row at the address of its key. -/
theorem Represents.scanRow (represents : Represents codec table (lookup current))
    {collection : CollectionPath} (askable : AskableCollection collection) {parent : Nat}
    (under : table.parentChain collection.ancestors = some parent) {node : Node Wire}
    (inside : node ∈ table.nodes) (selected : selects parent collection.name node = true) :
    ∃ key row, LegalKey key ∧ node.label.keyEnc = encodeKeyValue key ∧
      table.pointLookup (collection.row key) = some node ∧ lookup current (collection.row key) = some row ∧
      scanRow codec collection node = .ok (collection.row key, row) := by
  obtain ⟨link, named, live⟩ := of_decide_eq_true selected
  obtain ⟨key, legal, bytes, wire, found⟩ := represents.node_in_collection askable under inside link named
  obtain ⟨row, stored, columns⟩ := represents.row_of_node legal found live
  have own : LegalKey key := by
    have last := legal _ (last_mem (collection.row key))
    rwa [CollectionPath.last_row] at last
  refine ⟨key, row, own, bytes, found, stored, ?_⟩
  simp only [Pg.scanRow, wire, columns, bind, Except.bind]
  rfl

/-- The node of a live row of the collection is selected. -/
theorem Represents.selects_of_row (represents : Represents codec table (lookup current))
    {collection : CollectionPath} {parent : Nat} (under : table.parentChain collection.ancestors = some parent)
    {address : RowAddress} {row : StoredRow} (stored : lookup current address = some row)
    (here : address.collection = collection) :
    ∃ node ∈ table.nodes, table.pointLookup address = some node ∧
      selects parent collection.name node = true := by
  obtain ⟨node, found, live, _⟩ := represents.node_of_row stored
  obtain ⟨inside, up, label⟩ := represents.lookup_iff.mp found
  obtain ⟨ancestors, name⟩ := collection_eq_iff.mp here
  refine ⟨node, inside, found, decide_eq_true ⟨?_, by rw [label]; exact name, live⟩⟩
  rw [abovePath, ancestors] at up
  exact Option.some.inj (up.symm.trans under)

/-- The sentinel has the empty name at the top, which no askable collection has. -/
theorem Represents.sentinel_unselected (represents : Represents codec table (lookup current))
    {collection : CollectionPath} (askable : AskableCollection collection) {parent : Nat}
    (under : table.parentChain collection.ancestors = some parent) :
    selects parent collection.name (sentinel codec) = false := by
  refine decide_eq_false ?_
  rintro ⟨root, empty, _⟩
  rw [← root] at under
  have top := represents.grounded.locate_inj under locate_nil
  exact askable.top (List.map_eq_nil_iff.mp top) empty.symm

/-- The scan of a collection lists its rows in address order. -/
theorem Represents.scan (represents : Represents codec table (lookup current))
    {collection : CollectionPath} (askable : AskableCollection collection) :
    scan codec table collection = .ok (MemoryStore.scan current collection) := by
  rw [Pg.scan, askable.bind]
  simp only [bind, Except.bind]
  cases under : table.parentChain collection.ancestors with
  | none =>
    have unstored : MemoryStore.scan current collection = [] := by
      refine List.eq_nil_iff_forall_not_mem.mpr fun entry listed => ?_
      obtain ⟨stored, here⟩ := mem_scan.mp listed
      obtain ⟨node, found, _⟩ := represents.node_of_row stored
      have above := (represents.lookup_iff.mp found).2.1
      rw [abovePath, (collection_eq_iff.mp here).1, ← NodeTable.parentChain, under] at above
      cases above
    rw [unstored]
    rfl
  | some parent =>
    simp only [List.filter_cons, represents.sentinel_unselected askable under, Bool.false_eq_true, if_false]
    have read (node : Node Wire) (listed : node ∈ table.nodes.filter (selects parent collection.name)) :=
      represents.scanRow askable under (List.mem_filter.mp listed).1 (List.mem_filter.mp listed).2
    have apart : ((table.nodes.filter (selects parent collection.name)).map
        fun node => node.label.keyEnc).Nodup := by
      refine (represents.grounded.nodup.filter _).map_on fun first one second two same => ?_
      obtain ⟨key, _, legal, bytes, found, _⟩ := read first one
      obtain ⟨other, _, otherLegal, otherBytes, otherFound, _⟩ := read second two
      have equal := compare_encodeKeyValue legal otherLegal
      rw [← bytes, ← otherBytes, same, Std.ReflOrd.compare_self] at equal
      obtain rfl : key = other := Std.LawfulEqOrd.eq_of_compare equal.symm
      exact Option.some.inj (found.symm.trans otherFound)
    obtain ⟨answers, all⟩ : ∃ answers, ((table.nodes.filter (selects parent collection.name)).mergeSort
        fun first second => (compare first.label.keyEnc second.label.keyEnc).isLE).mapM
          (Pg.scanRow codec collection) = .ok answers := by
      refine exists_mapM fun node listed => ?_
      obtain ⟨key, row, _, _, _, _, answered⟩ := read node (List.mem_mergeSort.mp listed)
      exact ⟨_, answered⟩
    rw [all]
    have ordered : answers.Pairwise fun first second => compare first.1 second.1 = .lt := by
      refine pairwise_of_mapM all (fun first one second two below => ?_) (strict_mergeSort apart)
      rintro _ firstAnswer _ secondAnswer
      obtain ⟨key, row, legal, bytes, _, _, answered⟩ := read first (List.mem_mergeSort.mp one)
      obtain ⟨other, another, otherLegal, otherBytes, _, _, otherAnswered⟩ :=
        read second (List.mem_mergeSort.mp two)
      rw [answered] at firstAnswer
      rw [otherAnswered] at secondAnswer
      obtain rfl := Except.ok.inj firstAnswer
      obtain rfl := Except.ok.inj secondAnswer
      rwa [compare_row, ← compare_encodeKeyValue legal otherLegal, ← bytes, ← otherBytes]
    refine congrArg Except.ok (eq_of_strict ordered (Std.TreeMap.ordered_keys_toList.filter _) fun entry => ?_)
    rw [mem_of_mapM all]
    rw [mem_scan]
    constructor
    · rintro ⟨node, listed, answer⟩
      obtain ⟨key, row, _, _, _, stored, answered⟩ := read node (List.mem_mergeSort.mp listed)
      rw [answered] at answer
      obtain rfl := Except.ok.inj answer
      exact ⟨stored, CollectionPath.collection_row collection key⟩
    · rintro ⟨stored, here⟩
      obtain ⟨node, inside, found, selected⟩ := represents.selects_of_row under stored here
      have listed : node ∈ table.nodes.filter (selects parent collection.name) :=
        List.mem_filter.mpr ⟨inside, selected⟩
      obtain ⟨key, row, legal, _, foundOwn, storedOwn, answered⟩ := read node listed
      have known := (represents.stored _ _ stored).keys
      have ownKnown := (represents.stored _ _ storedOwn).keys
      have same : entry.1 = collection.row key := represents.lookup_inj known ownKnown found foundOwn rfl
      refine ⟨node, List.mem_mergeSort.mpr listed, ?_⟩
      rw [same, storedOwn] at stored
      rw [answered, Option.some.inj stored, ← same]

end Scan

end Readings

end Liasse.Pg
