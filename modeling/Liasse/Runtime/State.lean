/-
This file states what each committed state of a definition satisfies, and it models the working copy of the state that
an admission changes.
-/

import Liasse.Codes.Table
import Liasse.Runtime.Reference
import Liasse.Store.Memory

namespace Liasse.Runtime

open Store

section Keys

/-- The key that the fields of a row give, in key order. -/
def keyOf (collection : CompiledCollection) (fields : FieldMap) : Option KeyClass :=
  match collection.key.mapM fun name => fields[name]? with
  | some (first :: rest) => some (.composite first rest)
  | _ => none

/-- Each row of a keyed collection is at the address of the key that its fields give. -/
def Keyed (compiled : Compiled) (rows : Rows) : Prop :=
  ∀ (address : RowAddress) fields collection, rows[address]? = some fields →
    address.declaration ≠ [rootName] → compiled.collectionAt address.declaration = some collection →
    keyOf collection fields = some address.last.key

instance (compiled : Compiled) (rows : Rows) : Decidable (Keyed compiled rows) :=
  decidable_of_iff (∀ row ∈ rows.toList, row.1.declaration ≠ [rootName] →
    ∀ collection ∈ compiled.collectionAt row.1.declaration,
      keyOf collection row.2 = some row.1.last.key) <| by
    constructor
    · intro each address fields collection present named declared
      exact each (address, fields) (Std.ExtTreeMap.mem_toList_iff_getElem?_eq_some.mpr present) named
        collection declared
    · rintro keyed ⟨address, fields⟩ present named collection declared
      exact keyed address fields collection (Std.ExtTreeMap.mem_toList_iff_getElem?_eq_some.mp present)
        named declared

end Keys

section References

instance (compiled : Compiled) (rows : Rows) : Decidable (RefsResolve compiled rows) :=
  decidable_of_iff (∀ row ∈ rows.toList, ∀ collection ∈ compiled.collectionAt row.1.declaration,
    ∀ site ∈ refSites collection, ∀ held ∈ site.held row.2,
      targetPresent compiled rows held.1 held.2 = true) <| by
    constructor
    · rintro each address target key ⟨fields, collection, present, declared, site, inside, held⟩
      exact targetPresent_iff.mp (each (address, fields)
        (Std.ExtTreeMap.mem_toList_iff_getElem?_eq_some.mpr present) collection declared site inside
        (target, key) held)
    · rintro resolves ⟨address, fields⟩ present collection declared site inside ⟨target, key⟩ held
      exact targetPresent_iff.mpr (resolves address target key ⟨fields, collection,
        Std.ExtTreeMap.mem_toList_iff_getElem?_eq_some.mp present, declared, site, inside, held⟩)

end References

section Uniqueness

/-- The candidate key of a row, or nothing when a component is absent. -/
def tupleOf (group : List String) (fields : FieldMap) : Option (List ValueClass) :=
  group.mapM fun name =>
    match fields[name]? with
    | some Value.none | none => none
    | some value => some (.of value)

/-- No two rows of one collection below one parent have the same candidate key. -/
def Unique (compiled : Compiled) (rows : Rows) : Prop :=
  ∀ (first second : RowAddress) left right collection group tuple,
    rows[first]? = some left → rows[second]? = some right → first.collection = second.collection →
    compiled.collectionAt first.declaration = some collection → group ∈ collection.unique →
    tupleOf group left = some tuple → tupleOf group right = some tuple → first = second

instance (compiled : Compiled) (rows : Rows) : Decidable (Unique compiled rows) :=
  decidable_of_iff (∀ first ∈ rows.toList, ∀ second ∈ rows.toList,
    first.1.collection = second.1.collection →
    ∀ collection ∈ compiled.collectionAt first.1.declaration, ∀ group ∈ collection.unique,
    ∀ tuple ∈ tupleOf group first.2, tupleOf group second.2 = some tuple → first.1 = second.1) <| by
    constructor
    · intro each first second left right collection group tuple firstLive secondLive
      exact fun same declared inside leftTuple rightTuple =>
        each (first, left) (Std.ExtTreeMap.mem_toList_iff_getElem?_eq_some.mpr firstLive) (second, right)
          (Std.ExtTreeMap.mem_toList_iff_getElem?_eq_some.mpr secondLive) same collection declared group
          inside tuple leftTuple rightTuple
    · rintro unique ⟨first, left⟩ firstLive ⟨second, right⟩ secondLive same collection declared
      exact fun group inside tuple leftTuple rightTuple => unique first second left right collection group
        tuple (Std.ExtTreeMap.mem_toList_iff_getElem?_eq_some.mp firstLive)
        (Std.ExtTreeMap.mem_toList_iff_getElem?_eq_some.mp secondLive) same declared inside leftTuple
        rightTuple

end Uniqueness

section Checks

mutual

/-- The checks of a static struct that is present, and of the structs present inside it. -/
def structChecks : CompiledStruct → Value → List CompiledCheck
  | ⟨_, _, rowChecks, structs⟩, .struct inner => rowChecks ++ nestedChecks structs (structGet inner)
  | ⟨_, _, rowChecks, _⟩, _ => rowChecks
termination_by structural member => member

def nestedChecks : List CompiledStruct → (String → Option Value) → List CompiledCheck
  | [], _ => []
  | first :: rest, lookup =>
    (match lookup first.name with
      | some value => structChecks first value
      | none => []) ++ nestedChecks rest lookup
termination_by structural members => members

end

/-- The checks that a row carries: those of its fields, its own and those of the structs that are
present in it. -/
def carriedChecks (collection : CompiledCollection) (fields : FieldMap) : List CompiledCheck :=
  collection.fields.flatMap CompiledField.checks ++ collection.rowChecks ++
    nestedChecks collection.structs fun name => fields[name]?

/-- A live row carries a check. -/
def Carries (compiled : Compiled) (rows : Rows) (address : RowAddress) (check : CompiledCheck) : Prop :=
  ∃ fields collection, rows[address]? = some fields ∧
    compiled.collectionAt address.declaration = some collection ∧
    check ∈ carriedChecks collection fields

/-- Each check holds at each live row that carries it. -/
def ChecksHold (compiled : Compiled) (rows : Rows) : Prop :=
  ∀ address check, Carries compiled rows address check → check.condition rows address = .ok true

instance (compiled : Compiled) (rows : Rows) : Decidable (ChecksHold compiled rows) :=
  decidable_of_iff (∀ row ∈ rows.toList, ∀ collection ∈ compiled.collectionAt row.1.declaration,
    ∀ check ∈ carriedChecks collection row.2, check.condition rows row.1 = .ok true) <| by
    constructor
    · rintro each address check ⟨fields, collection, present, declared, inside⟩
      exact each (address, fields) (Std.ExtTreeMap.mem_toList_iff_getElem?_eq_some.mpr present) collection
        declared check inside
    · rintro hold ⟨address, fields⟩ present collection declared check inside
      exact hold address check ⟨fields, collection,
        Std.ExtTreeMap.mem_toList_iff_getElem?_eq_some.mp present, declared, inside⟩

end Checks

section Rows

/-- The fields of a stored row. -/
def fieldsOf : Value → FieldMap
  | .struct fields => .ofList fields compareText
  | _ => ∅

/-- The stored value of a row lists its fields in name order. -/
def structOf (fields : FieldMap) : Value :=
  .struct fields.toList

end Rows

section Reached

mutual

/-- The names of the collections that are nested at some depth below a collection. -/
def nestedStepNames : CompiledCollection → List String
  | ⟨_, _, _, _, _, _, children⟩ => childStepNames children
termination_by structural collection => collection

def childStepNames : List CompiledCollection → List String
  | [] => []
  | child :: rest => child.name :: (nestedStepNames child ++ childStepNames rest)
termination_by structural children => children

end

/-- The gathering scans the declared collections and the reserved collection, and it descends through the nested
collections of the declared ones. -/
def Compiled.reaches (compiled : Compiled) (address : RowAddress) : Bool :=
  (address.rest = [] && address.first.name = rootName) ||
    match compiled.collection address.first.name with
    | some collection => address.rest.all fun step => step.name ∈ nestedStepNames collection
    | none => false

/-- The gathering visits the scanned rows, and the rows below the live ones of these. -/
def Compiled.gathers (compiled : Compiled) (rows : RowMap RowAddress) (address : RowAddress) : Bool :=
  compiled.reaches address && (address.rest.isEmpty || rows.contains ⟨address.first, []⟩)

end Reached

/-- One change between the committed state and the working state. -/
inductive Change
  | insert (address : RowAddress) (value : Value)
  | update (address : RowAddress) (value : Value)
  | delete (address : RowAddress)

/-- The working copy of one admission. The generation numbers the rows whose defaults were resolved. -/
structure Prospective where
  committed : Std.ExtTreeMap RowAddress Value compare
  working : Rows
  created : Std.ExtTreeMap RowAddress Timestamp compare
  generation : Nat

namespace Prospective

/-- The committed rows that the gathering visits. -/
def scan (compiled : Compiled) (rows : RowMap RowAddress) : List (RowAddress × StoredRow) :=
  rows.toList.filter fun row => compiled.gathers rows row.1

/-- The working copy of the committed rows. -/
def gather (compiled : Compiled) (rows : RowMap RowAddress) : Prospective where
  committed := .ofList ((scan compiled rows).map fun row => (row.1, row.2.value)) compare
  working := .ofList ((scan compiled rows).map fun row => (row.1, fieldsOf row.2.value)) compare
  created := .ofList ((scan compiled rows).map fun row => (row.1, row.2.created)) compare
  generation := 0

/-- The next ordinal for generated values. -/
def nextGeneration (prospective : Prospective) : Nat × Prospective :=
  (prospective.generation, { prospective with generation := prospective.generation + 1 })

/-- The write of the fields of a row. -/
def insert (prospective : Prospective) (address : RowAddress) (fields : FieldMap) : Prospective :=
  { prospective with working := prospective.working.insert address fields }

def remove (prospective : Prospective) (address : RowAddress) : Prospective :=
  { prospective with working := prospective.working.erase address }

/-- The rows of a collection in their order. -/
def addressesIn (rows : Rows) (path : CollectionPath) : List RowAddress :=
  rows.keys.filter path.contains

/-- The changes of the working rows, then the deletions. -/
def diff (prospective : Prospective) : List Change :=
  (prospective.working.toList.filterMap fun row =>
    match prospective.committed[row.1]? with
    | some prior =>
      if (prior == structOf row.2) = true then none else some (.update row.1 (structOf row.2))
    | none => some (.insert row.1 (structOf row.2))) ++
  (prospective.committed.keys.filter fun address => address ∉ prospective.working).map Change.delete

end Prospective

section Descendants

/-- The steps of an address start with those of an ancestor. -/
def isPrefix (ancestor address : RowAddress) : Bool :=
  ancestor.steps.isPrefixOf address.steps

/-- The live rows strictly below a row. -/
def descendants (rows : Rows) (address : RowAddress) : List RowAddress :=
  rows.keys.filter fun other => address.depth < other.depth && isPrefix address other

/-- The address of the row that contains a nested row. -/
def parentRow (address : RowAddress) : Option RowAddress :=
  match address.rest with
  | [] => none
  | _ :: _ => some ⟨address.first, address.rest.dropLast⟩

/-- A row and the rows that contain it, from the inside to the outside. -/
def chain (address : RowAddress) : List RowAddress :=
  (address.rest.inits.map fun rest => ⟨address.first, rest⟩).reverse

/-- A descendant below a new ancestor keeps its steps below the depth of the old ancestor. -/
def reroot (ancestor descendant : RowAddress) (depth : Nat) : RowAddress :=
  ⟨ancestor.first, ancestor.rest ++ descendant.steps.drop depth⟩

end Descendants

/-- One edit of the working copy, or one draw of an ordinal for generated values. -/
inductive Edit
  | insert (address : RowAddress) (fields : FieldMap)
  | replace (address : RowAddress) (fields : FieldMap)
  | remove (address : RowAddress)
  | nextGeneration

namespace Prospective

/-- The replacement of the fields of a live row writes them like the insertion of a row. -/
def replace (prospective : Prospective) (address : RowAddress) (fields : FieldMap) : Prospective :=
  { prospective with working := prospective.working.insert address fields }

def edit (prospective : Prospective) : Edit → Prospective
  | .insert address fields => prospective.insert address fields
  | .replace address fields => prospective.replace address fields
  | .remove address => prospective.remove address
  | .nextGeneration => prospective.nextGeneration.2

def edits (prospective : Prospective) (requested : List Edit) : Prospective :=
  requested.foldl edit prospective

/-- The ordinals that a sequence of edits draws. -/
def drawn (prospective : Prospective) : List Edit → List Nat
  | [] => []
  | .nextGeneration :: later => prospective.nextGeneration.1 :: drawn prospective.nextGeneration.2 later
  | change :: later => drawn (prospective.edit change) later

/-- The drawn ordinals count on from that of the working copy. -/
theorem drawn_eq (prospective : Prospective) (requested : List Edit) :
    ∃ count, count ≤ requested.length ∧
      prospective.drawn requested = List.range' prospective.generation count := by
  induction requested generalizing prospective with
  | nil => exact ⟨0, le_refl _, rfl⟩
  | cons change later ih =>
    cases change with
    | nextGeneration =>
      obtain ⟨count, bounded, rest⟩ := ih prospective.nextGeneration.2
      refine ⟨count + 1, Nat.succ_le_succ bounded, ?_⟩
      simp only [drawn, rest, List.range'_succ]
      rfl
    | insert address fields | replace address fields | remove address =>
      obtain ⟨count, bounded, rest⟩ := ih (prospective.edit _)
      exact ⟨count, Nat.le_succ_of_le bounded, rest⟩

end Prospective

end Liasse.Runtime
