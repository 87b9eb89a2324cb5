/-
This file says when the table of nodes represents the rows of the reference store, and it proves that each
operation of the writer keeps the representation.
-/

import Liasse.Pg.Nodes
import Liasse.Store.Memory

namespace Liasse.Pg
open Codes Store Linked

variable {Wire : Type}

section Keys

/-- The components of a key are in the range of its encoding. -/
def LegalKey (key : KeyClass) : Prop :=
  ∀ component ∈ key.components, KeyEnc.Legal component.value

/-- The components of the keys of some levels are in range. -/
def LegalSteps (steps : List AddressStep) : Prop :=
  ∀ step ∈ steps, LegalKey step.key

theorem compare_value (first second : ValueClass) :
    first.value.cmp second.value = compare first second := by
  rw [← ValueClass.of_value first, ← ValueClass.of_value second, ValueClass.of_value, ValueClass.of_value]
  conv_rhs => rw [← ValueClass.of_value first, ← ValueClass.of_value second]
  rfl

theorem compareLex_value (left right : List ValueClass) :
    (left.map ValueClass.value).compareLex Value.cmp (right.map ValueClass.value) = compare left right := by
  induction left generalizing right with
  | nil => cases right <;> rfl
  | cons first left ih =>
    cases right with
    | nil => rfl
    | cons second right =>
      rw [List.map_cons, List.map_cons, List.compareLex_cons_cons, compare_value, ih]
      exact (List.compareLex_cons_cons ..).symm

/-- The bytes of two keys have the order of the keys. -/
theorem compare_encodeKeyValue {first second : KeyClass} (firstLegal : LegalKey first)
    (secondLegal : LegalKey second) :
    compare (encodeKeyValue first) (encodeKeyValue second) = compare first second := by
  have mapped (key : KeyClass) (legal : LegalKey key) :
      ∀ component ∈ (⟨key.first.value, key.rest.map ValueClass.value⟩ : KeyValue).components,
        KeyEnc.Legal component := by
    intro component inside
    obtain ⟨part, present, rfl⟩ := List.mem_map.mp
      (show component ∈ key.components.map ValueClass.value from inside)
    exact legal part present
  rw [encodeKeyValue, encodeKeyValue,
    KeyEnc.compare_encodeKeyValue (mapped first firstLegal) (mapped second secondLegal),
    KeyEnc.cmp_eq_components]
  exact compareLex_value first.components second.components

theorem slot_inj {first second : AddressStep} (firstLegal : LegalKey first.key)
    (secondLegal : LegalKey second.key) (same : slot first = slot second) : first = second := by
  obtain ⟨name, key⟩ := first
  obtain ⟨other, another⟩ := second
  obtain ⟨rfl, bytes⟩ := Slot.mk.inj same
  have equal := compare_encodeKeyValue firstLegal secondLegal
  change encodeKeyValue key = encodeKeyValue another at bytes
  rw [bytes, Std.ReflOrd.compare_self] at equal
  obtain rfl : key = another := Std.LawfulEqOrd.eq_of_compare equal.symm
  rfl

theorem slots_inj {first second : List AddressStep} (firstLegal : LegalSteps first)
    (secondLegal : LegalSteps second) (same : first.map slot = second.map slot) : first = second := by
  induction first generalizing second with
  | nil => exact (List.map_eq_nil_iff.mp same.symm).symm
  | cons step first ih =>
    cases second with
    | nil => cases same
    | cons other second =>
      obtain ⟨head, tail⟩ := List.cons.inj same
      rw [slot_inj (firstLegal _ List.mem_cons_self) (secondLegal _ List.mem_cons_self) head,
        ih (fun level inside => firstLegal level (List.mem_cons_of_mem _ inside))
          (fun level inside => secondLegal level (List.mem_cons_of_mem _ inside)) tail]

end Keys

section Addresses

/-- The slots of an address from the root. -/
def path (address : RowAddress) : List Slot :=
  address.steps.map slot

/-- The slots of an address above its last level. -/
def abovePath (address : RowAddress) : List Slot :=
  address.steps.dropLast.map slot

theorem path_eq (address : RowAddress) : path address = abovePath address ++ [slot address.last] := by
  rw [path, RowAddress.steps_eq, List.map_append, abovePath]
  simp

theorem path_inj {first second : RowAddress} (firstLegal : LegalSteps first.steps)
    (secondLegal : LegalSteps second.steps) (same : path first = path second) : first = second :=
  RowAddress.steps_inj.mp (slots_inj firstLegal secondLegal same)

theorem last_mem (address : RowAddress) : address.last ∈ address.steps := by
  rw [RowAddress.steps_eq]
  exact List.mem_append_right _ (List.mem_singleton_self _)

/-- The database can be asked about an address: its names are text that it accepts, and its keys are in the
range of their encoding. -/
structure Askable (address : RowAddress) : Prop where
  names : ∀ step ∈ address.steps, nul ∉ step.name.toList
  keys : LegalSteps address.steps

/-- An address can be stored: its keys come back from their stored form, the names below its first level
mean themselves when they are unescaped, and it is not deeper than a descent gets. -/
structure Storable (codec : ValueCodec Wire) (address : RowAddress) : Prop extends Askable address where
  decoded : ∀ step ∈ address.steps,
    decodeKeyWire codec (some (encodeKeyWire codec step.key)) = .ok step.key
  plain : ∀ step ∈ address.rest, unescape step.name = step.name
  shallow : address.depth ≤ maxSubtreeDepth

/-- A value comes back from its stored form. -/
def Kept (codec : ValueCodec Wire) (value : Value) : Prop :=
  codec.decode (codec.encode value) = .ok value

theorem bindNames_ok {names : List String} (clean : ∀ name ∈ names, nul ∉ name.toList) :
    bindNames names = .ok () :=
  if_pos clean

theorem Askable.bind {address : RowAddress} (askable : Askable address) :
    bindNames address.declaration = .ok () := by
  refine bindNames_ok fun name inside => ?_
  obtain ⟨step, present, rfl⟩ := List.mem_map.mp inside
  exact askable.names step present

theorem Askable.bind_last {address : RowAddress} (askable : Askable address) :
    bindNames [address.last.name] = .ok () := by
  refine bindNames_ok fun name inside => ?_
  rw [List.mem_singleton.mp inside]
  exact askable.names _ (last_mem address)

end Addresses

/-- The columns hold a row, or they are those of a tombstone. -/
def Fits (codec : ValueCodec Wire) (columns : Columns Wire) : Option StoredRow → Prop
  | none => columns.incarnation = none ∧ columns.value = none ∧ columns.created = none
  | some row => columns.incarnation = some row.incarnation ∧
      columns.value = some (codec.encode row.value) ∧
      columns.created = some (encodeCreated codec row.created) ∧
      Kept codec row.value ∧ Kept codec (.timestamp row.created)

/-- A node keeps the level of an address in its columns. -/
structure Level (codec : ValueCodec Wire) (node : Node Wire) (step : AddressStep) : Prop where
  legal : LegalKey step.key
  slot : node.label = slot step
  wire : node.payload.keyWire = some (encodeKeyWire codec step.key)
  decoded : decodeKeyWire codec (some (encodeKeyWire codec step.key)) = .ok step.key

/-- The table represents some rows. -/
structure Represents (codec : ValueCodec Wire) (table : NodeTable Wire)
    (rows : RowAddress → Option StoredRow) : Prop where
  grounded : Grounded table.nodes
  positive : 0 < table.sequence
  counted : ∀ node ∈ table.nodes, node.id < table.sequence
  leveled : ∀ node ∈ table.nodes, ∃ step, Level codec node step
  present : ∀ address, LegalSteps address.steps → ∀ node, table.pointLookup address = some node →
    Fits codec node.payload (rows address)
  absent : ∀ address, LegalSteps address.steps → table.pointLookup address = none → rows address = none
  stored : ∀ address row, rows address = some row → Storable codec address

theorem locate_path (table : NodeTable Wire) (address : RowAddress) :
    locate table.nodes (path address) = (table.pointLookup address).map Linked.id := by
  rw [path_eq, ← nodeAt_id]
  rfl

theorem represents_genesis (codec : ValueCodec Wire) :
    Represents codec .genesis fun _ => none where
  grounded := ⟨List.nodup_nil, List.nodup_nil, fun _ inside => absurd inside List.not_mem_nil⟩
  positive := Nat.zero_lt_one
  counted _ inside := absurd inside List.not_mem_nil
  leveled _ inside := absurd inside List.not_mem_nil
  present address _ node found := by
    have inside := List.mem_of_find?_eq_some (Option.bind_eq_some_iff.mp found).choose_spec.2
    exact absurd inside List.not_mem_nil
  absent _ _ _ := rfl
  stored _ _ found := by cases found

namespace Represents

variable {codec : ValueCodec Wire} {table : NodeTable Wire} {rows : RowAddress → Option StoredRow}
  (represents : Represents codec table rows)

include represents

/-- The lookup of an address finds the node at the end of its path. -/
theorem lookup_iff {address : RowAddress} {node : Node Wire} :
    table.pointLookup address = some node ↔
      node ∈ table.nodes ∧ locate table.nodes (abovePath address) = some node.parent ∧
        node.label = slot address.last :=
  represents.grounded.nodeAt_iff

/-- Two addresses of one node are one address. -/
theorem lookup_inj {first second : RowAddress} (firstLegal : LegalSteps first.steps)
    (secondLegal : LegalSteps second.steps) {node other : Node Wire}
    (one : table.pointLookup first = some node) (two : table.pointLookup second = some other)
    (same : node.id = other.id) : first = second := by
  have left : locate table.nodes (path first) = some node.id := by
    rw [locate_path, one]
    rfl
  have right : locate table.nodes (path second) = some node.id := by
    rw [locate_path, two, same]
    rfl
  exact path_inj firstLegal secondLegal (represents.grounded.locate_inj left right)

/-- The columns of one node change, and so does the row at its address. -/
theorem change {address : RowAddress} (legal : LegalSteps address.steps) {node : Node Wire}
    (found : table.pointLookup address = some node) {row : Option StoredRow}
    {change : Columns Wire → Columns Wire} (fits : Fits codec (change node.payload) row)
    (wire : (change node.payload).keyWire = node.payload.keyWire)
    (storable : row.isSome → Storable codec address) :
    Represents codec (table.update node.id change) (Function.update rows address row) := by
  have kept := NodeTable.changeAt_kept node.id change
  have looked (other : RowAddress) : (table.update node.id change).pointLookup other =
      (table.pointLookup other).map (NodeTable.changeAt node.id change) :=
    nodeAt_map kept _ _
  obtain ⟨inside, _, _⟩ := represents.lookup_iff.mp found
  have own (other : Node Wire) (listed : other ∈ table.nodes) :
      (other = node ∧ (NodeTable.changeAt node.id change other).payload = change node.payload) ∨
        (other.id ≠ node.id ∧ NodeTable.changeAt node.id change other = other) := by
    by_cases same : other.id = node.id
    · obtain rfl := represents.grounded.eq_of_id listed inside same
      exact Or.inl ⟨rfl, by rw [NodeTable.changeAt, if_pos rfl]⟩
    · exact Or.inr ⟨same, by rw [NodeTable.changeAt, if_neg same]⟩
  constructor
  · exact represents.grounded.map kept
  · exact represents.positive
  · intro other listed
    obtain ⟨before, present, rfl⟩ := List.mem_map.mp listed
    rw [(kept before).1]
    exact represents.counted before present
  · intro other listed
    obtain ⟨before, present, rfl⟩ := List.mem_map.mp listed
    obtain ⟨step, level⟩ := represents.leveled before present
    refine ⟨step, level.legal, (kept before).2.2.trans level.slot, ?_, level.decoded⟩
    rcases own before present with ⟨rfl, changed⟩ | ⟨_, unchanged⟩
    · rw [changed, wire, level.wire]
    · rw [unchanged, level.wire]
  · intro other otherLegal seen looking
    rw [looked] at looking
    obtain ⟨before, first, rfl⟩ := Option.map_eq_some_iff.mp looking
    obtain ⟨present, _, _⟩ := represents.lookup_iff.mp first
    rcases own before present with ⟨rfl, changed⟩ | ⟨different, unchanged⟩
    · obtain rfl := represents.lookup_inj otherLegal legal first found rfl
      rw [changed, Function.update_self]
      exact fits
    · rw [unchanged, Function.update_of_ne]
      · exact represents.present other otherLegal before first
      · rintro rfl
        rw [found] at first
        exact different (congrArg Linked.id (Option.some.inj first)).symm
  · intro other otherLegal missing
    rw [looked] at missing
    have none := Option.map_eq_none_iff.mp missing
    rw [Function.update_of_ne]
    · exact represents.absent other otherLegal none
    · rintro rfl
      rw [found] at none
      cases none
  · intro other seen stored
    by_cases same : other = address
    · subst same
      rw [Function.update_self] at stored
      exact storable (by rw [stored]; rfl)
    · rw [Function.update_of_ne same] at stored
      exact represents.stored other seen stored

/-- A node comes to an address that has none, and a row comes with it or not. -/
theorem append {address : RowAddress} (legal : LegalSteps address.steps)
    (decoded : decodeKeyWire codec (some (encodeKeyWire codec address.last.key)) = .ok address.last.key)
    {parent : Nat} (under : locate table.nodes (abovePath address) = some parent)
    (free : table.pointLookup address = none) {columns : Columns Wire} {row : Option StoredRow}
    (wire : columns.keyWire = some (encodeKeyWire codec address.last.key)) (fits : Fits codec columns row)
    (storable : row.isSome → Storable codec address) (grown : NodeTable Wire)
    (nodes : grown.nodes = table.nodes ++ [⟨table.sequence, parent, slot address.last, columns⟩])
    (sequence : grown.sequence = table.sequence + 1) :
    Represents codec grown (Function.update rows address row) ∧
      (∀ steps id, locate table.nodes steps = some id → locate grown.nodes steps = some id) ∧
      locate grown.nodes (path address) = some table.sequence := by
  have unlocated : locate table.nodes (path address) = none := by
    rw [locate_path, free]
    rfl
  have addable : Addable table.nodes (abovePath address)
      ⟨table.sequence, parent, slot address.last, columns⟩ :=
    ⟨represents.positive, represents.counted, under, by rw [← unlocated, path_eq]⟩
  have looked (other : RowAddress) : grown.pointLookup other =
      if path other = path address then some ⟨table.sequence, parent, slot address.last, columns⟩
      else table.pointLookup other := by
    rw [path_eq, path_eq address, NodeTable.pointLookup, nodes]
    exact addable.nodeAt_append represents.grounded _ _
  refine ⟨?_, ?_, ?_⟩
  · constructor
    · rw [nodes]
      exact addable.grounded represents.grounded
    · rw [sequence]
      exact Nat.succ_pos _
    · intro node listed
      rw [nodes] at listed
      rw [sequence]
      rcases List.mem_append.mp listed with older | own
      · exact Nat.lt_succ_of_lt (represents.counted node older)
      · rw [List.mem_singleton.mp own]
        exact Nat.lt_succ_self _
    · intro node listed
      rw [nodes] at listed
      rcases List.mem_append.mp listed with older | own
      · exact represents.leveled node older
      · rw [List.mem_singleton.mp own]
        exact ⟨address.last, legal _ (last_mem address), rfl, wire, decoded⟩
    · intro other otherLegal node looking
      rw [looked] at looking
      by_cases same : path other = path address
      · obtain rfl := path_inj otherLegal legal same
        rw [if_pos rfl] at looking
        obtain rfl := Option.some.inj looking
        rw [Function.update_self]
        exact fits
      · rw [if_neg same] at looking
        rw [Function.update_of_ne fun equal => same (congrArg path equal)]
        exact represents.present other otherLegal node looking
    · intro other otherLegal missing
      rw [looked] at missing
      by_cases same : path other = path address
      · rw [if_pos same] at missing
        cases missing
      · rw [if_neg same] at missing
        rw [Function.update_of_ne fun equal => same (congrArg path equal)]
        exact represents.absent other otherLegal missing
    · intro other seen stored
      by_cases same : other = address
      · subst same
        rw [Function.update_self] at stored
        exact storable (by rw [stored]; rfl)
      · rw [Function.update_of_ne same] at stored
        exact represents.stored other seen stored
  · intro steps id found
    rw [nodes, addable.locate_append represents.grounded, if_neg, found]
    rintro rfl
    rw [addable.free] at found
    cases found
  · rw [nodes, addable.locate_append represents.grounded, if_pos (path_eq address)]

end Represents

end Liasse.Pg
