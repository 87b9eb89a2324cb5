/-
This file tells which row a receiver addresses.
-/

import Liasse.Computed.Fold
import Liasse.Coverage.Shown

namespace Liasse.Coverage

open Liasse.Codes Liasse.Computed Liasse.Expr Liasse.Reading Liasse.Store
open Reading (CompiledCollection)

section Keys

/-- The key of each row has a component for each key field of its collection, and a lone component is no
composite. -/
structure Keyed (schema : Schema) (working : Working) : Prop where
  arity : ∀ row ∈ working.rows, ∀ collection,
    schema.collectionAtPath row.1.toClass.declaration = some collection →
      row.1.last.key.components.length = collection.key.length
  plain : ∀ row ∈ working.rows, row.1.last.key.rest = [] → ∀ components,
    row.1.last.key.first ≠ .composite components

/-- A key that an application sees determines the stored key. -/
theorem keyValueOf_keyIdentity {key : KeyValue}
    (plain : key.rest = [] → ∀ components, key.first ≠ .composite components) :
    keyValueOf (keyIdentity key) = key := by
  obtain ⟨first, rest⟩ := key
  cases rest with
  | nil =>
    rw [keyIdentity, keyValueOf]
    exact fun component components same => plain rfl _ same
  | cons second rest => rfl

/-- Equal values denote stored keys of one class. -/
theorem toClass_keyValueOf {left right : Value} (same : left.cmp right = .eq) :
    (keyValueOf left).toClass = (keyValueOf right).toClass := by
  rcases Value.sameKind_or_rank left right with kind | ⟨different, decided⟩
  · cases kind with
    | composite first second =>
      rw [Value.cmp, Value.cmpList_eq] at same
      have classes := ValueClass.of_list_eq_iff.mpr same
      cases first with
      | nil =>
        cases second with
        | nil => rfl
        | cons => cases same
      | cons head tail =>
        cases second with
        | nil => cases same
        | cons other rest =>
          obtain ⟨heads, tails⟩ := List.cons.inj classes
          exact congrArg₂ KeyClass.mk heads tails
    | _ => exact congrArg (KeyClass.mk · []) (ValueClass.of_eq_iff.mpr same)
  · rw [decided] at same
    exact absurd (Std.LawfulEqOrd.eq_of_compare same) different

/-- Equal application keys are keys of one class. -/
theorem toClass_of_keyIdentity {first second : KeyValue}
    (plain : first.rest = [] → ∀ components, first.first ≠ .composite components)
    (other : second.rest = [] → ∀ components, second.first ≠ .composite components)
    (same : (keyIdentity first).cmp (keyIdentity second) = .eq) : first.toClass = second.toClass := by
  have classes := toClass_keyValueOf same
  rwa [keyValueOf_keyIdentity plain, keyValueOf_keyIdentity other] at classes

end Keys

section Placed

/-- A key that an application sees of a stored key. -/
def Canonical (key : Value) : Prop :=
  keyIdentity (keyValueOf key) = key

/-- The step of an address that leads to a nested row. -/
def stepTo (field : String) (row : Row) : AddressStep :=
  ⟨field, (keyValueOf row.key).toClass⟩

mutual

/-- Each row of a tree is stored, at the address that the rows above it and its own key give. No key names two
siblings. -/
def Placed (working : Working) (field : String) : RowAddress → RoseTree Row → Prop
  | address, .node _ branches =>
    (∃ stored ∈ working.rows, stored.1.toClass = address) ∧
      (branches.Pairwise fun first second =>
        ∀ key, keyed first.label key = true → ¬keyed second.label key = true) ∧
      placedBelow working field address branches
termination_by structural _ tree => tree

def placedBelow (working : Working) (field : String) : RowAddress → List (RoseTree Row) → Prop
  | _, [] => True
  | address, tree :: rest =>
    (Canonical tree.label.key ∧ Placed working field (address.child (stepTo field tree.label)) tree) ∧
      placedBelow working field address rest
termination_by structural _ trees => trees

end

variable {working : Working} {field : String}

theorem placedBelow_iff (address : RowAddress) (trees : List (RoseTree Row)) :
    placedBelow working field address trees ↔
      ∀ tree ∈ trees, Canonical tree.label.key ∧
        Placed working field (address.child (stepTo field tree.label)) tree := by
  induction trees with
  | nil => simp [placedBelow]
  | cons tree rest ih => rw [placedBelow, ih, List.forall_mem_cons]

theorem placed_iff (address : RowAddress) (row : Row) :
    Placed working field address (subtree field row) ↔
      (∃ stored ∈ working.rows, stored.1.toClass = address) ∧
        ((nested field row).Pairwise fun first second =>
          ∀ key, keyed first key = true → ¬keyed second key = true) ∧
        ∀ child ∈ nested field row, Canonical child.key ∧
          Placed working field (address.child (stepTo field child)) (subtree field child) := by
  rw [subtree_eq, Placed, placedBelow_iff, List.pairwise_map]
  simp only [label_subtree, List.forall_mem_map]

/-- Placed trees have no two siblings of one key. -/
theorem Placed.distinct {address : RowAddress} {row : Row}
    (placed : Placed working field address (subtree field row)) : (subtree field row).Distinct keyed := by
  induction row using nested_induct field generalizing address with
  | step row ih =>
    obtain ⟨-, apart, below⟩ := (placed_iff address row).mp placed
    rw [subtree_eq, RoseTree.Distinct, RoseTree.distinctTrees_iff, List.pairwise_map]
    refine ⟨by simpa only [label_subtree] using apart, List.forall_mem_map.mpr fun child inside => ?_⟩
    exact ih child inside (below child inside).2

end Placed

section Thinning

/-- A row keeps its key, and it keeps all rows right below it or loses them. -/
def Thins (field : String) (row next : Row) : Prop :=
  next.key = row.key ∧ (nested field next = nested field row ∨ nested field next = [])

variable {field : String} {row middle next : Row}

theorem Thins.refl (row : Row) : Thins field row row :=
  ⟨rfl, .inl rfl⟩

theorem Thins.trans (earlier : Thins field row middle) (later : Thins field middle next) :
    Thins field row next := by
  refine ⟨later.1.trans earlier.1, ?_⟩
  rcases later.2 with same | lost
  · rw [same]
    exact earlier.2
  · exact .inr lost

/-- A scalar cell has no rows. -/
theorem thins_set (row : Row) (name : String) (value : Value) :
    Thins field row (row.set name (.scalar value)) := by
  refine ⟨row.set_key name _, ?_⟩
  by_cases named : field = name
  · rw [nested, named, Row.cell_set]
    exact .inr rfl
  · rw [nested, Row.cell_set_of_ne row _ named]
    exact .inl rfl

theorem thins_withIntervalCells (row : Row) (interval : Option Interval) :
    Thins field row (withIntervalCells row interval) := by
  cases interval with
  | none => exact .refl row
  | some bounds => exact (thins_set row _ _).trans (thins_set _ _ _)

theorem key_withIntervalCells (row : Row) (interval : Option Interval) :
    (withIntervalCells row interval).key = row.key := by
  have thins : Thins "" row (withIntervalCells row interval) := thins_withIntervalCells row interval
  exact thins.1

theorem thins_assign (row : Row) (name : String) (value : Value) :
    Thins field row (assign row name value).1 := by
  rcases assign_cases row name value with same | same
  · rw [same]
    exact .refl row
  · rw [same]
    exact thins_set row name value

theorem thins_foldPass (computed : List CompiledComputed) (root : Row) (parents : List Cell) (row : Row) :
    Thins field row (foldPass computed root parents row).1 := by
  have pass : ∀ (rest : List CompiledComputed) (before : Row × Bool), Thins field row before.1 →
      Thins field row (rest.foldl (foldOne root (parents ++ [.row row])) before).1 := by
    intro rest
    induction rest with
    | nil => exact fun _ thins => thins
    | cons comp rest ih =>
      intro before thins
      refine ih _ ?_
      rw [foldOne]
      cases valueOf (comp.expr root (parents ++ [.row row])) with
      | none => exact thins
      | some value => exact thins.trans (thins_assign before.1 comp.name value)
  exact pass computed (row, false) (.refl row)

theorem thins_foldPasses (computed : List CompiledComputed) (root : Row) (parents : List Cell) (left : Nat)
    (row : Row) : Thins field row (foldPasses computed root parents left row) := by
  induction left generalizing row with
  | zero => exact .refl row
  | succ left ih =>
    have first : Thins field row (foldPass computed root parents row).1 := thins_foldPass computed root parents row
    rw [Computed.foldPasses]
    generalize foldPass computed root parents row = pass at first
    obtain ⟨next, changed⟩ := pass
    cases changed with
    | false => exact first
    | true => exact first.trans (ih _)

end Thinning

section Folds

variable {working : Working} {field : String}

theorem Placed.thins {address : RowAddress} {row next : Row}
    (placed : Placed working field address (subtree field row)) (thins : Thins field row next) :
    Placed working field address (subtree field next) := by
  obtain ⟨stored, apart, below⟩ := (placed_iff address row).mp placed
  refine (placed_iff address next).mpr ⟨stored, ?_⟩
  rcases thins.2 with same | lost
  · rw [same]
    exact ⟨apart, below⟩
  · rw [lost]
    exact ⟨.nil, fun _ inside => absurd inside List.not_mem_nil⟩

theorem foldRowComputedDeep_key (collection : Computed.CompiledCollection) (root : Row) (parents : List Cell)
    (row : Row) : (foldRowComputedDeep collection root parents row).key = row.key := by
  obtain ⟨name, computed, children, views⟩ := collection
  have folded : Thins "" row (foldPasses computed root parents computed.length row) :=
    thins_foldPasses computed root parents computed.length row
  rw [foldRowComputedDeep, ← folded.1]
  split
  · rfl
  · rw [foldComputedScoped]
    cases foldPasses computed root parents computed.length row
    rfl

/-- The folds of a row and of its nested rows keep the places of the rows. -/
theorem Placed.fold (collection : Computed.CompiledCollection) {address : RowAddress} {row : Row}
    (placed : Placed working field address (subtree field row)) (root : Row) (parents : List Cell) :
    Placed working field address (subtree field (foldRowComputedDeep collection root parents row)) := by
  induction collection using Computed.CompiledCollection.induct generalizing address row parents with
  | step collection ih =>
    obtain ⟨name, computed, children, views⟩ := collection
    have folded := placed.thins (thins_foldPasses computed root parents computed.length row)
    rw [foldRowComputedDeep]
    split
    · exact folded
    · rw [← foldComputedScoped] at folded
      generalize foldComputedScoped computed root parents row = middle at folded
      obtain ⟨stored, apart, below⟩ := (placed_iff address middle).mp folded
      refine (placed_iff _ _).mpr ?_
      rw [nested, Row.cell_mapCells]
      refine ⟨stored, ?_⟩
      rw [nested] at apart below
      cases held : middle.cell field with
      | none => exact ⟨.nil, fun _ inside => absurd inside List.not_mem_nil⟩
      | some cell =>
        rw [held] at apart below
        rw [Option.map_some]
        rcases foldChildren_cases children root (parents ++ [.row middle]) field cell with
          same | ⟨child, inside, named, rows, rfl, same⟩
        · rw [same]
          exact ⟨apart, below⟩
        · rw [same]
          refine ⟨List.pairwise_map.mpr ?_, List.forall_mem_map.mpr fun inner member => ?_⟩
          · rw [rowsOf] at apart
            simpa only [keyed, foldRowComputedDeep_key] using apart
          · obtain ⟨canonical, placed⟩ := below inner member
            have deeper := ih child inside placed (parents ++ [.row middle])
            rw [stepTo, ← foldRowComputedDeep_key child root (parents ++ [.row middle]) inner] at deeper
            exact ⟨by rwa [foldRowComputedDeep_key], deeper⟩

theorem Placed.foldPasses (collection : Computed.CompiledCollection) {address : RowAddress} (root : Row)
    (left : Nat) {row : Row} (placed : Placed working field address (subtree field row)) :
    Placed working field address (subtree field (foldRowPasses collection root left row)) := by
  induction left generalizing row with
  | zero => exact placed
  | succ left ih =>
    rw [foldRowPasses]
    split
    · exact placed
    · exact ih (placed.fold collection root [])

/-- Accessor cells of other names keep the nested rows. -/
theorem Placed.augment {address : RowAddress} {row : Row}
    (placed : Placed working field address (subtree field row)) {extras : List (String × Cell)}
    (other : ∀ extra ∈ extras, extra.1 ≠ field) :
    Placed working field address (subtree field (augmentRow extras row)) := by
  rw [augmentRow]
  induction extras generalizing row with
  | nil => exact placed
  | cons extra rest ih =>
    obtain ⟨here, others⟩ := List.forall_mem_cons.mp other
    refine ih (placed.thins ⟨row.set_key _ _, .inl ?_⟩) others
    rw [nested, Row.cell_set_of_ne row _ here.symm, nested]

end Folds

section Materialized

variable {schema : Schema} {state : Prospective} {temporal : Temporal} {field : String}

theorem row_nested (parent : RowAddress) (name : String) (key : KeyClass) :
    (CollectionPath.nested parent name).row key = parent.child ⟨name, key⟩ := by
  rw [← RowAddress.steps_inj, CollectionPath.steps_row, RowAddress.steps_child]
  rfl

/-- The address of a stored row is the one of its own key in its collection. -/
theorem toClass_of_mem_under {path : CollectionPath} {stored : Reading.Address × Runtime.FieldMap}
    (inside : stored ∈ state.working.under path) : stored.1.toClass = path.row stored.1.last.key.toClass := by
  have placed : stored.1.toClass.collection = path := of_decide_eq_true (List.mem_filter.mp inside).2
  have own := CollectionPath.row_collection stored.1.toClass
  rw [placed, Address.last_toClass] at own
  exact own.symm

/-- Two rows of one collection with one application key are one row. -/
theorem eq_of_keyIdentity (keys : Keyed schema state.working) {path : CollectionPath}
    {first second : Reading.Address × Runtime.FieldMap} (left : first ∈ state.working.under path)
    (right : second ∈ state.working.under path)
    (same : (keyIdentity first.1.last.key).cmp (keyIdentity second.1.last.key) = .eq) : first = second := by
  have inside := (List.mem_filter.mp left).1
  have other := (List.mem_filter.mp right).1
  have classes := toClass_of_keyIdentity (keys.plain first inside) (keys.plain second other) same
  refine Working.eq_of_toClass inside other ?_
  rw [toClass_of_mem_under left, toClass_of_mem_under right, classes]

theorem key_buildRow (below : CollectionPath → Collection → RowId → List Row) (collection : Collection)
    (fields : Runtime.FieldMap) (key : Value) (id : RowId) (address : Reading.Address) :
    (buildRow schema below collection fields key id address).key = key :=
  key_of id key _

/-- The rows right below a built row are the rows of one nested collection, or there are none. -/
theorem nested_buildRow (below : CollectionPath → Collection → RowId → List Row) (collection : Collection)
    (fields : Runtime.FieldMap) (key : Value) (id : RowId) (address : Reading.Address) :
    nested field (buildRow schema below collection fields key id address) = [] ∨
      ∃ inner, nested field (buildRow schema below collection fields key id address) =
        below (.nested address.toClass field) inner id := by
  rw [nested, buildRow, cell_of]
  cases found : List.lookup field (List.reverse (List.map _ collection.members)) with
  | none => exact .inl rfl
  | some cell =>
    obtain ⟨member, inside, same⟩ := List.mem_map.mp (List.mem_reverse.mp (mem_of_lookup found))
    obtain ⟨rfl, rfl⟩ := Prod.mk.inj same
    cases schema.resolvedCollection member.2 with
    | none => exact .inl rfl
    | some inner => exact .inr ⟨inner, rfl⟩

/-- The rows right below a built row are placed when the rows of the nested collections are. -/
theorem placed_buildRow {below : CollectionPath → Collection → RowId → List Row} {address : Reading.Address}
    (rows : ∀ inner id, ((below (.nested address.toClass field) inner id).Pairwise fun first second =>
        ∀ key, keyed first key = true → ¬keyed second key = true) ∧
      ∀ row ∈ below (.nested address.toClass field) inner id, Canonical row.key ∧ Placed state.working field
        ((CollectionPath.nested address.toClass field).row (keyValueOf row.key).toClass) (subtree field row))
    (collection : Collection) (fields : Runtime.FieldMap) (key : Value) (id : RowId) :
    ((nested field (buildRow schema below collection fields key id address)).Pairwise fun first second =>
        ∀ key, keyed first key = true → ¬keyed second key = true) ∧
      ∀ child ∈ nested field (buildRow schema below collection fields key id address), Canonical child.key ∧
        Placed state.working field (address.toClass.child (stepTo field child)) (subtree field child) := by
  have cases : _ ∨ ∃ inner, nested field (buildRow schema below collection fields key id address) = _ :=
    nested_buildRow below collection fields key id address
  rcases cases with none | ⟨inner, same⟩
  · rw [none]
    exact ⟨.nil, fun _ inside => absurd inside List.not_mem_nil⟩
  · rw [same]
    obtain ⟨apart, each⟩ := rows inner id
    refine ⟨apart, fun child inside => ?_⟩
    have placed := each child inside
    rwa [row_nested] at placed

/-- The rows of a collection are at the addresses of the stored rows, and no key names two of them. -/
theorem placed_rowsAt (keys : Keyed schema state.working) (active : Bool) (left : Nat) (path : CollectionPath)
    (collection : Collection) (parent : RowId) :
    ((rowsAt schema state temporal active left path collection parent).Pairwise fun first second =>
        ∀ key, keyed first key = true → ¬keyed second key = true) ∧
      ∀ row ∈ rowsAt schema state temporal active left path collection parent, Canonical row.key ∧
        Placed state.working field (path.row (keyValueOf row.key).toClass) (subtree field row) := by
  induction left generalizing path collection parent with
  | zero => exact ⟨.nil, fun _ inside => absurd inside List.not_mem_nil⟩
  | succ left ih =>
    rw [rowsAt]
    constructor
    · refine List.pairwise_map.mpr (((state.working.ascending.filter _).filter _).imp_of_mem ?_)
      intro first second inside other below key here there
      rw [keyed, key_withIntervalCells, key_buildRow] at here there
      have same : (keyIdentity first.1.last.key).cmp (keyIdentity second.1.last.key) = .eq :=
        Std.TransCmp.eq_trans (eq_of_beq here) (Std.OrientedCmp.eq_symm (eq_of_beq there))
      obtain rfl := eq_of_keyIdentity keys (List.mem_filter.mp inside).1 (List.mem_filter.mp other).1 same
      have self : compare first.1.toClass first.1.toClass = .eq := Std.ReflCmp.compare_self
      rw [self] at below
      cases below
    · rintro row inside
      obtain ⟨stored, member, rfl⟩ := List.mem_map.mp inside
      have under := (List.mem_filter.mp member).1
      have held := (List.mem_filter.mp under).1
      have own := keyValueOf_keyIdentity (keys.plain stored held)
      rw [key_withIntervalCells, key_buildRow, own, ← toClass_of_mem_under under]
      refine ⟨congrArg keyIdentity own,
        Placed.thins ((placed_iff _ _).mpr ⟨⟨stored, held, rfl⟩, ?_⟩) (thins_withIntervalCells _ _)⟩
      exact placed_buildRow (fun inner id => ih (.nested stored.1.toClass field) inner id) ..

/-- A materialized row and the rows below it are at the addresses of the stored rows. -/
theorem placed_materializeRow (keys : Keyed schema state.working) {collection : Collection} {address : Reading.Address}
    {row : Row} (found : materializeRow schema state temporal collection address = some row) :
    Placed state.working field address.toClass (subtree field row) := by
  obtain ⟨fields, stored, rfl⟩ := Option.map_eq_some_iff.mp found
  obtain ⟨held, member, rfl⟩ := Option.map_eq_some_iff.mp stored
  have placed := List.find?_some member
  have inside := List.mem_of_find?_eq_some member
  refine Placed.thins ((placed_iff _ _).mpr ⟨⟨held, inside, of_decide_eq_true placed⟩, ?_⟩)
    (thins_withIntervalCells _ _)
  exact placed_buildRow (fun inner id => placed_rowsAt keys true _ (.nested address.toClass field) inner id) ..

/-- The row of a read is declared and stored. -/
theorem stored_of_materializeRowCell {ctx : EvalCtx} {declPath : List String} {address : Reading.Address} {row : Row}
    (found : ctx.materializeRowCell declPath address = some row) :
    (∃ collection, ctx.package.collectionAtPath declPath = some collection) ∧
      ∃ stored ∈ ctx.state.working.rows, stored.1.toClass = address.toClass := by
  obtain ⟨collection, declared, found⟩ := Option.bind_eq_some_iff.mp found
  obtain ⟨built, first, -⟩ := Option.bind_eq_some_iff.mp found
  obtain ⟨fields, stored, -⟩ := Option.map_eq_some_iff.mp first
  obtain ⟨held, member, -⟩ := Option.map_eq_some_iff.mp stored
  have placed := List.find?_some member
  exact ⟨⟨collection, declared⟩, held, List.mem_of_find?_eq_some member, of_decide_eq_true placed⟩

/-- The row of a read and the rows below it are at the addresses of the stored rows. -/
theorem placed_materializeRowCell {ctx : EvalCtx} (keys : Keyed ctx.package.toSchema ctx.state.working)
    {address : Reading.Address} (other : ∀ extra ∈ ctx.extras address.toClass, extra.1 ≠ field) {declPath : List String}
    {row : Row} (found : ctx.materializeRowCell declPath address = some row) :
    Placed ctx.state.working field address.toClass (subtree field row) := by
  obtain ⟨collection, -, found⟩ := Option.bind_eq_some_iff.mp found
  obtain ⟨built, first, found⟩ := Option.bind_eq_some_iff.mp found
  obtain rfl := Option.some.inj found
  have placed : Placed ctx.state.working field address.toClass (subtree field built) :=
    placed_materializeRow keys first
  refine Placed.augment ?_ other
  split
  · split
    · exact placed.foldPasses _ _ _
    · exact placed
  · exact placed

end Materialized

end Liasse.Coverage

namespace Liasse.Coverage

open Liasse.Codes Liasse.Expr Liasse.Reading Liasse.Store
open Liasse.Runtime (Rejection)
open Liasse.Surface (ScopedReceiver)

section Consumption

variable {schema : Schema}

/-- The steps of an address that may be absent. -/
def stepsOf (address : Option RowAddress) : List AddressStep :=
  address.elim [] RowAddress.steps

theorem stepsOf_extend (address : Option RowAddress) (step : AddressStep) :
    stepsOf (some (address.elim (.root step) fun parent => parent.child step)) = stepsOf address ++ [step] := by
  cases address <;> rfl

/-- A descent consumes exactly the components of the steps that it adds. -/
theorem consumed_of_descend {names above : List String} {address reached : Option RowAddress}
    {remaining rest : List Value} (done : descendOperand schema above names address remaining = .ok (reached, rest)) :
    ∃ steps, stepsOf reached = stepsOf address ++ steps ∧
      remaining.length = (steps.flatMap fun step => step.key.components).length + rest.length := by
  induction names generalizing above address remaining with
  | nil =>
    rw [descendOperand] at done
    obtain ⟨rfl, rfl⟩ := Prod.mk.inj (Except.ok.inj done)
    exact ⟨[], (List.append_nil _).symm, (Nat.zero_add _).symm⟩
  | cons name names ih =>
    rw [descendOperand] at done
    generalize ((schema.collectionAt (above ++ [name])).map fun collection =>
      max collection.key.length 1).getD 1 = arity at done
    split at done
    · cases done
    · split at done
      · cases done
      · next short first tail taken =>
          obtain ⟨steps, path, count⟩ := ih done
          refine ⟨⟨name, .composite first tail⟩ :: steps, ?_, ?_⟩
          · rw [path, stepsOf_extend, List.append_assoc]
            rfl
          · have length := congrArg List.length taken
            rw [List.length_take, List.length_cons] at length
            rw [List.length_drop] at count
            rw [List.flatMap_cons, List.length_append, KeyClass.components, KeyClass.composite,
              List.length_cons, List.length_map]
            omega

/-- The first operand of a receiver has no more components than the receiver. -/
theorem components_le_of_operands {receiver : ScopedReceiver} {target : RowTarget} {others : List RowTarget}
    (operands : receiverOperands schema receiver = .ok (target :: others)) :
    target.address.components.length ≤ receiver.key.length := by
  rw [receiverOperands] at operands
  split at operands
  · cases operands
  · cases size : receiver.key.length with
    | zero =>
      rw [List.length_eq_zero_iff.mp size, operandsFrom] at operands
      cases operands
    | succ left =>
      obtain ⟨first, rest, same⟩ := List.exists_cons_of_length_eq_add_one size
      rw [size, same, operandsFrom] at operands
      · obtain ⟨⟨reached, unread⟩, one, operands⟩ := bind_ok.mp operands
        obtain ⟨more, -, operands⟩ := bind_ok.mp operands
        obtain ⟨rfl, -⟩ := List.cons.inj (Except.ok.inj operands)
        obtain ⟨⟨address, last⟩, descent, one⟩ := bind_ok.mp one
        cases address with
        | none => cases one
        | some address =>
          obtain ⟨rfl, rfl⟩ := Prod.mk.inj (Except.ok.inj one)
          obtain ⟨steps, path, count⟩ := consumed_of_descend descent
          have own : address.steps = steps := path
          rw [← same, size] at count
          rw [RowAddress.components, own]
          omega
      · exact fun none => List.cons_ne_nil _ _ none

end Consumption

section Descent

variable {package : Package} {working : Working} {field : String}

/-- The address below a row along some nested rows. -/
def addressBelow (field : String) (address : RowAddress) (rows : List Row) : RowAddress :=
  rows.foldl (fun address row => address.child (stepTo field row)) address

/-- A row on a path of a placed tree is stored. -/
theorem stored_addressBelow {path : List Value} {current : Row} {address : RowAddress}
    (placed : Placed working field address (subtree field current)) {rows : List Row}
    (found : (subtree field current).trail keyed path = some rows) :
    ∃ stored ∈ working.rows, stored.1.toClass = addressBelow field address rows := by
  induction path generalizing current address rows with
  | nil =>
    rw [RoseTree.trail, Option.some.injEq] at found
    subst found
    exact ((placed_iff address current).mp placed).1
  | cons component rest ih =>
    obtain ⟨tree, first, deeper, below, rfl⟩ := RoseTree.trail_cons.mp found
    rw [branches_subtree, List.find?_map, Option.map_eq_some_iff] at first
    obtain ⟨child, member, rfl⟩ := first
    obtain ⟨-, -, each⟩ := (placed_iff address current).mp placed
    have inner := (each child (List.mem_of_find?_eq_some member)).2
    rw [addressBelow, List.foldl_cons, ← addressBelow, label_subtree]
    exact ih inner below

/-- The number of components that a descent consumes at the address of a stored row. -/
theorem arity_of_stored (keys : Keyed package.toSchema working) {stored : Address × Runtime.FieldMap}
    (inside : stored ∈ working.rows) (ordinary : stored.1.toClass.declaration ≠ [rootName])
    {compiled : Reading.CompiledCollection}
    (found : package.collectionAt stored.1.toClass.declaration = some compiled) :
    max compiled.key.length 1 = stored.1.toClass.last.key.components.length := by
  obtain ⟨declared, path, same⟩ := package.exists_of_collectionAt ordinary found
  have count := keys.arity stored inside declared path
  rw [Address.last_toClass, Step.toClass, KeyValue.components_toClass, List.length_map, count, same, max_eq_left]
  rw [← count, KeyValue.components, List.length_cons]
  exact Nat.le_add_left 1 _

theorem components_addressBelow (address : RowAddress) (rows : List Row) :
    (addressBelow field address rows).components.length = address.components.length +
      (rows.map fun row => (keyValueOf row.key).components.length).sum := by
  induction rows generalizing address with
  | nil => rfl
  | cons row rest ih =>
    rw [addressBelow, List.foldl_cons, ← addressBelow, ih, RowAddress.components,
      RowAddress.steps_child, List.flatMap_append, List.length_append, ← RowAddress.components,
      List.flatMap_singleton, stepTo, KeyValue.components_toClass, List.length_map, List.map_cons, List.sum_cons,
      Nat.add_assoc]

/-- A lone key is the class of each value that is equal to it. -/
theorem stepTo_of_lone {row : Row} {component : Value} (canonical : Canonical row.key)
    (lone : (keyValueOf row.key).rest = []) (named : keyed row component = true) :
    stepTo field row = ⟨field, .composite component []⟩ := by
  have own : keyValueOf row.key = ⟨row.key, []⟩ := by
    rw [Canonical, keyIdentity] at canonical
    generalize keyValueOf row.key = stored at canonical lone
    obtain ⟨first, rest⟩ := stored
    obtain rfl : rest = [] := lone
    rw [← canonical]
  have same : ValueClass.of row.key = .of component := ValueClass.of_eq_iff.mpr (eq_of_beq named)
  rw [stepTo, own]
  exact congrArg (fun key => (⟨field, ⟨key, []⟩⟩ : AddressStep)) same

/-- A descent along rows of lone keys reaches the address of the last one. -/
theorem descend_lone (keys : Keyed package.toSchema working) {path : List Value} {current : Row}
    {address : RowAddress} (placed : Placed working field address (subtree field current)) {rows : List Row}
    (found : (subtree field current).trail keyed path = some rows)
    (lone : ∀ row ∈ rows, (keyValueOf row.key).rest = []) :
    descendOperand package.toSchema address.declaration (List.replicate path.length field) (some address) path =
      .ok (some (addressBelow field address rows), []) := by
  induction path generalizing current address rows with
  | nil =>
    rw [RoseTree.trail, Option.some.injEq] at found
    subst found
    rfl
  | cons component rest ih =>
    obtain ⟨tree, first, deeper, below, rfl⟩ := RoseTree.trail_cons.mp found
    rw [branches_subtree, List.find?_map, Option.map_eq_some_iff] at first
    obtain ⟨child, member, rfl⟩ := first
    have named : keyed child component = true := by simpa using List.find?_some member
    obtain ⟨-, -, each⟩ := (placed_iff address current).mp placed
    obtain ⟨canonical, inner⟩ := each child (List.mem_of_find?_eq_some member)
    rw [label_subtree] at lone
    obtain ⟨here, others⟩ := List.forall_mem_cons.mp lone
    obtain ⟨⟨stored, inside, placedAt⟩, -⟩ := (placed_iff _ child).mp inner
    have declared : (address.child (stepTo field child)).declaration = address.declaration ++ [field] := by
      rw [RowAddress.declaration, RowAddress.steps_child, List.map_append]
      rfl
    have arity : ((package.toSchema.collectionAt (address.declaration ++ [field])).map fun collection =>
        max collection.key.length 1).getD 1 = 1 := by
      cases compiled : package.toSchema.collectionAt (address.declaration ++ [field]) with
      | none => rfl
      | some collection =>
        rw [← declared, ← placedAt] at compiled
        have ordinary : stored.1.toClass.declaration ≠ [rootName] := by
          rw [placedAt, declared]
          intro same
          have length := congrArg List.length same
          rw [List.length_append, RowAddress.declaration, List.length_map] at length
          simp [RowAddress.steps] at length
        have count := arity_of_stored keys inside ordinary compiled
        rw [Option.map_some, Option.getD_some, count, placedAt]
        have last : (address.child (stepTo field child)).last = stepTo field child := by
          simp [RowAddress.last, RowAddress.child]
        rw [last, stepTo, KeyValue.components_toClass, List.length_map, KeyValue.components, here]
        rfl
    have step : stepTo field child = ⟨field, .composite component []⟩ := stepTo_of_lone canonical here named
    have after := ih inner below others
    rw [declared, step] at after
    rw [List.length_cons, List.replicate_succ, descendOperand]
    simp only [arity]
    rw [if_neg (by rw [List.length_cons]; omega)]
    rw [addressBelow, List.foldl_cons, ← addressBelow, label_subtree, step]
    exact after

end Descent

end Liasse.Coverage
