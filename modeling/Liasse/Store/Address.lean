/-
This file models the typed address of a row and the path of a collection.
-/

import Liasse.Value.Total

namespace Liasse.Store

/-- The key of a row has at least one component. -/
structure KeyClass where
  first : ValueClass
  rest : List ValueClass
deriving DecidableEq

/-- One level of an address is a collection name and the key of the row at that level. -/
structure AddressStep where
  name : String
  key : KeyClass
deriving DecidableEq

/-- The address of a row is the nonempty list of its steps from the root. -/
structure RowAddress where
  first : AddressStep
  rest : List AddressStep
deriving DecidableEq

/-- The path of a collection is the address of the row that contains it and its own name. -/
structure CollectionPath where
  ancestors : List AddressStep
  name : String
deriving DecidableEq

namespace KeyClass

/-- The components of a key in key order. -/
def components (key : KeyClass) : List ValueClass :=
  key.first :: key.rest

theorem components_inj {first second : KeyClass} :
    first.components = second.components ↔ first = second := by
  cases first
  cases second
  simp only [components, List.cons.injEq, mk.injEq]

/-- The key of some values in key order. -/
def composite (first : Value) (rest : List Value) : KeyClass :=
  ⟨.of first, rest.map .of⟩

instance : Ord KeyClass where
  compare first second := compare first.components second.components

instance : Std.TransOrd KeyClass := by
  change Std.TransCmp (compareOn components)
  infer_instance

instance : Std.LawfulEqOrd KeyClass where
  eq_of_compare same := components_inj.mp (Std.LawfulEqOrd.eq_of_compare same)

end KeyClass

namespace AddressStep

/-- Steps compare by name, then by key. -/
def cmp (first second : AddressStep) : Ordering :=
  (compareText first.name second.name).then (compare first.key second.key)

instance : Ord AddressStep where
  compare := cmp

instance : Std.TransOrd AddressStep := by
  change Std.TransCmp (compareLex (fun first second => compareText first.name second.name)
    (compareOn AddressStep.key))
  have names : Std.TransCmp (fun first second : AddressStep =>
      compareText first.name second.name) := by
    change Std.TransCmp (compareOn fun step : AddressStep => textBytes step.name)
    infer_instance
  infer_instance

instance : Std.LawfulEqOrd AddressStep where
  eq_of_compare {first second} same := by
    obtain ⟨names, keys⟩ := Ordering.then_eq_eq.mp same
    cases first
    cases second
    obtain rfl := (compareText_eq_iff _ _).mp names
    obtain rfl := Std.LawfulEqOrd.eq_of_compare keys
    rfl

end AddressStep

namespace RowAddress

/-- The steps of an address from the root. -/
def steps (address : RowAddress) : List AddressStep :=
  address.first :: address.rest

theorem steps_inj {first second : RowAddress} : first.steps = second.steps ↔ first = second := by
  cases first
  cases second
  simp only [steps, List.cons.injEq, mk.injEq]

/-- The address of a row of a top-level collection. -/
def root (step : AddressStep) : RowAddress :=
  ⟨step, []⟩

/-- The address of a row one level below. -/
def child (address : RowAddress) (step : AddressStep) : RowAddress :=
  ⟨address.first, address.rest ++ [step]⟩

/-- The number of levels of an address. -/
def depth (address : RowAddress) : Nat :=
  1 + address.rest.length

/-- The last step of an address. -/
def last (address : RowAddress) : AddressStep :=
  address.rest.getLastD address.first

/-- The collection of a row is its address without the last key. -/
def collection (address : RowAddress) : CollectionPath :=
  ⟨address.steps.dropLast, address.last.name⟩

/-- The collection names from the root. -/
def declaration (address : RowAddress) : List String :=
  address.steps.map AddressStep.name

/-- The components of all keys from the root. -/
def components (address : RowAddress) : List ValueClass :=
  address.steps.flatMap fun step => step.key.components

instance : Ord RowAddress where
  compare first second := compare first.steps second.steps

instance : Std.TransOrd RowAddress := by
  change Std.TransCmp (compareOn steps)
  infer_instance

instance : Std.LawfulEqOrd RowAddress where
  eq_of_compare same := steps_inj.mp (Std.LawfulEqOrd.eq_of_compare same)

@[simp] theorem steps_child (address : RowAddress) (step : AddressStep) :
    (address.child step).steps = address.steps ++ [step] :=
  rfl

/-- An address is the steps above the row and its last step. -/
theorem steps_eq (address : RowAddress) :
    address.steps = address.steps.dropLast ++ [address.last] := by
  obtain ⟨first, rest⟩ := address
  induction rest using List.reverseRecOn with
  | nil => rfl
  | append_singleton rest step =>
    rw [steps, last, ← List.cons_append, List.dropLast_concat]
    simp only [List.getLastD_concat]

theorem depth_eq (address : RowAddress) : address.depth = address.steps.length := by
  rw [depth, steps, List.length_cons, Nat.add_comm]

end RowAddress

namespace CollectionPath

/-- The path of a top-level collection. -/
def top (name : String) : CollectionPath :=
  ⟨[], name⟩

/-- The path of a collection nested below a row. -/
def nested (parent : RowAddress) (name : String) : CollectionPath :=
  ⟨parent.steps, name⟩

/-- The collection names from the root. -/
def declaration (path : CollectionPath) : List String :=
  path.ancestors.map AddressStep.name ++ [path.name]

/-- The address of a row of the collection. -/
def row (path : CollectionPath) (key : KeyClass) : RowAddress :=
  match path.ancestors with
  | [] => .root ⟨path.name, key⟩
  | first :: rest => ⟨first, rest ++ [⟨path.name, key⟩]⟩

/-- A row is of the collection when its ancestors and its name are those of the path. -/
def contains (path : CollectionPath) (address : RowAddress) : Bool :=
  address.collection = path

@[simp] theorem steps_row (path : CollectionPath) (key : KeyClass) :
    (path.row key).steps = path.ancestors ++ [⟨path.name, key⟩] := by
  obtain ⟨ancestors, name⟩ := path
  cases ancestors <;> rfl

@[simp] theorem last_row (path : CollectionPath) (key : KeyClass) :
    (path.row key).last = ⟨path.name, key⟩ := by
  have split := RowAddress.steps_eq (path.row key)
  rw [steps_row] at split
  exact (List.append_inj_right' split rfl |> List.singleton_inj.mp).symm

@[simp] theorem collection_row (path : CollectionPath) (key : KeyClass) :
    (path.row key).collection = path := by
  rw [RowAddress.collection, steps_row, List.dropLast_concat, last_row]

@[simp] theorem declaration_row (path : CollectionPath) (key : KeyClass) :
    (path.row key).declaration = path.declaration := by
  rw [RowAddress.declaration, steps_row, List.map_append]
  rfl

@[simp] theorem declaration_collection (address : RowAddress) :
    address.collection.declaration = address.declaration := by
  rw [RowAddress.declaration, RowAddress.steps_eq, List.map_append]
  rfl

/-- A row is at the address of its own key in its own collection. -/
@[simp] theorem row_collection (address : RowAddress) :
    address.collection.row address.last.key = address := by
  apply RowAddress.steps_inj.mp
  rw [steps_row, RowAddress.steps_eq address]
  rfl

end CollectionPath

end Liasse.Store
