/-
This file models the compiled definition that the admission pipeline reads and the references that a row holds. A compiled
expression is the function that it evaluates.
-/

import Liasse.Codes.Listing
import Liasse.Codes.Sorted
import Liasse.Runtime.Types
import Liasse.Store.Memory
import Liasse.Value.Normal

namespace Liasse.Runtime

open Store

section State

/-- The fields of one row by name. -/
abbrev FieldMap := Std.ExtTreeMap String Value compareText

/-- The rows in the order of their addresses. -/
abbrev Rows := Std.ExtTreeMap RowAddress FieldMap compare

/-- The identity of a row in the deletion graph is its collection and its application key. -/
structure RowRef where
  collection : List String
  key : ValueClass
deriving DecidableEq

/-- The address of a field inside the static structs of a row. -/
structure FieldPath where
  container : List String
  field : String
deriving DecidableEq

end State

section Expressions

/-- The result of an expression is a value, a row or the rows of a collection. The cells of a row
have names. -/
inductive Cell
  | scalar (value : Value)
  | row (key : Value) (cells : List (String × Cell))
  | collection (rows : List (Value × List (String × Cell)))

/-- A lexical local is the address of a row or an evaluated cell. -/
inductive LocalBind
  | row (target : RowAddress)
  | value (cell : Cell)

/-- The facts of a request that an expression can read beside the rows. -/
structure EvalCtx where
  now : Timestamp
  created : Std.ExtTreeMap RowAddress Timestamp compare
  params : List (String × Cell)

/-- What an expression of a program reads. -/
structure Frame where
  ctx : EvalCtx
  rows : Rows
  receiver : Option RowAddress
  locals : List (String × LocalBind)

/-- A typed expression of a program. Its static type tells the declared types it is assignable to. -/
structure Expression where
  assignable : FieldType → Bool
  eval : Frame → Except Rejection Cell

end Expressions

section Shapes

/-- The policy that an inbound reference declares for the deletion of its target. A patch evaluates
to assignments from the rows, the referencing row and the deleted row. -/
inductive OnDelete
  | undecided
  | restrict
  | cascade
  | clear
  | patch (assignments : EvalCtx → Rows → RowAddress → RowAddress → Except Rejection (List (String × Value)))

/-- The target of a reference is the declaration path of a collection. -/
structure RefInfo where
  target : List String
  isOptional : Bool
  onDelete : OnDelete

/-- A condition of the rows at the row that carries it, and the message of its failure. The condition
does not read the clock. -/
structure CompiledCheck where
  condition : Rows → RowAddress → Except Rejection Bool
  message : String

/-- A default is a literal, or it evaluates over the fields of the new row with an ordinal for
generated values. -/
inductive CompiledDefault
  | literal (value : Value)
  | expr (value : EvalCtx → Rows → FieldMap → Nat → Except Rejection Value)

/-- A writable field. Its value is a reference, or each member of its set is a reference. The
normalizer reads the value of the field. -/
structure CompiledField where
  name : String
  ty : FieldType
  reference : Option RefInfo
  elementReference : Option RefInfo
  default : Option CompiledDefault
  normalize : Option (EvalCtx → Rows → Value → Except Rejection Value)
  checks : List CompiledCheck

/-- A static struct inside a row. -/
structure CompiledStruct where
  name : String
  fields : List CompiledField
  rowChecks : List CompiledCheck
  structs : List CompiledStruct

/-- A keyed collection with the collections nested under its rows. -/
structure CompiledCollection where
  name : String
  key : List String
  unique : List (List String)
  fields : List CompiledField
  rowChecks : List CompiledCheck
  structs : List CompiledStruct
  children : List CompiledCollection

/-- The interval of a bucket. A bound reads the fields of its row and the clock. -/
structure CompiledBucket where
  collection : String
  fromBound : Option (FieldMap → Timestamp → Except Rejection (Option Timestamp))
  untilBound : Option (FieldMap → Timestamp → Except Rejection (Option Timestamp))

/-- A spend is a row that consumes meters. The allocation that funds it is frozen on the row. -/
structure CompiledSpend where
  path : List String
  fund : EvalCtx → Rows → RowAddress → Except Rejection (Option Value)

end Shapes

section Programs

/-- The location that a statement names. A selector has key operands or a filter. -/
inductive Place
  | current
  | name (id : String)
  | field (base : Place) (member : String)
  | select (base : Place) (keys : List Expression)
  | filter (base : Place)
  | other

/-- A member of a row object or of a patch is an assignment or a clear. -/
inductive Member
  | assign (name : String) (value : Expression)
  | clear (name : String)

/-- The right side of an insertion is a row object, or it is a view of rows. -/
inductive Inserted
  | object (members : List Member)
  | view (rows : Expression)

/-- The right side of an assignment. Each form has the whole expression, which an assignment
evaluates when the form does not apply. -/
inductive Assigned
  | plus (target : Place) (inserted : Inserted) (whole : Expression)
  | minus (target : Place) (keys : Expression) (whole : Expression)
  | negate (selection : Place) (rows : Expression) (whole : Expression)
  | select (selected : Place) (whole : Expression)
  | value (whole : Expression)

/-- A statement of a mutation program. -/
inductive Statement
  | assign (target : Place) (value : Assigned)
  | clear (target : Place)
  | assert (condition : Expression) (message : String)
  | erase (selection : Place) (rows : Expression)
  | call (mutation : String) (arguments : Frame → Except Rejection (List (String × Cell)))
  | plus (target : Place) (inserted : Inserted) (whole : Expression)
  | minus (target : Place) (keys : Expression)
  | negate (selection : Place) (rows : Expression)
  | patch (target : Place) (rows : Expression) (members : List Member)
  | other

/-- A mutation has a receiver row of its declaration path unless its receiver is the root. -/
structure CompiledMutation where
  name : String
  path : List String
  receiverIsRoot : Bool
  program : List Statement

/-- The compiled definition. The singleton members of the root are the fields of one reserved row. -/
structure Compiled where
  collections : List CompiledCollection
  rootSingleton : CompiledCollection
  buckets : List CompiledBucket
  spends : List CompiledSpend
  poolQuantities : EvalCtx → Rows → Except Rejection Unit
  mutations : List CompiledMutation
  divisionRounding : DivisionRounding

end Programs

namespace CompiledCollection

/-- The nested collection of a name. -/
def child (collection : CompiledCollection) (name : String) : Option CompiledCollection :=
  collection.children.find? fun child => child.name = name

end CompiledCollection

/-- The nested collection at a declaration path. -/
def CompiledCollection.at (collection : CompiledCollection) : List String → Option CompiledCollection
  | [] => some collection
  | head :: rest =>
    match collection.child head with
    | some child => child.at rest
    | none => none

/-- The reserved name of the singleton row. -/
def rootName : String :=
  "$root"

/-- The reserved address of the singleton row. -/
def rootAddress : RowAddress :=
  .root ⟨rootName, .composite (.text "") []⟩

namespace Compiled

/-- The top-level collection of a name. -/
def collection (compiled : Compiled) (name : String) : Option CompiledCollection :=
  compiled.collections.find? fun collection => collection.name = name

/-- The collection at a declaration path. The reserved name is the singleton row. -/
def collectionAt (compiled : Compiled) (path : List String) : Option CompiledCollection :=
  if path = [rootName] then some compiled.rootSingleton
  else
    match path with
    | [] => none
    | head :: rest =>
      match compiled.collection head with
      | some collection => collection.at rest
      | none => none

end Compiled

section Identity

/-- The application key of a row is its only component or the composite of its components. -/
def identityOf (names : List String) (components : List ValueClass) : ValueClass :=
  match names with
  | [_] => components.head?.getD (.of .none)
  | _ => .composite components

/-- The application key that a reference names. -/
def refIdentity (names : List String) : RefKey → ValueClass
  | .scalar value => .of value
  | .composite components => identityOf names (components.map .of)

/-- The reference to a row with the given key components. -/
def refOf (names : List String) (components : List ValueClass) : RefKey :=
  match names with
  | [_] => .scalar (components.head?.getD (.of .none)).value
  | _ => .composite (components.map ValueClass.value)

/-- The application key of a row depends on its key alone. -/
def keyIdentity (key : KeyClass) : ValueClass :=
  match key.rest with
  | [] => key.first
  | _ => .composite key.components

/-- The components that a reference carries. -/
def refKeyComponents : RefKey → List ValueClass
  | .scalar value => [.of value]
  | .composite components => components.map .of

/-- The reference to a row names its application key. -/
theorem refIdentity_refOf (names : List String) (components : List ValueClass) :
    refIdentity names (refOf names components) = identityOf names components := by
  match names with
  | [_] => exact ValueClass.of_value _
  | [] =>
    change identityOf [] ((components.map ValueClass.value).map .of) = _
    rw [ValueClass.map_of_value]
  | first :: second :: rest =>
    change identityOf (first :: second :: rest) ((components.map ValueClass.value).map .of) = _
    rw [ValueClass.map_of_value]

end Identity

section Structs

/-- The field of a struct value. -/
def structGet (fields : List (String × Value)) (name : String) : Option Value :=
  (fields.find? fun field => field.1 = name).map Prod.snd

/-- The value inside nested structs at a path of field names. -/
def descend : List String → Value → Option Value
  | [], value => some value
  | name :: rest, .struct fields =>
    match structGet fields name with
    | some inner => descend rest inner
    | none => none
  | _ :: _, _ => none

/-- A struct with one value replaced at a path of field names. A missing struct on the path leaves it
unchanged. -/
def rebuildStruct (fields : List (String × Value)) (rest : List String) (field : String)
    (value : Value) : List (String × Value) :=
  match rest with
  | [] => Codes.insertSorted Value.compareName (field, value) fields
  | head :: tail =>
    match structGet fields head with
    | some (.struct inner) =>
      Codes.insertSorted Value.compareName (head, .struct (rebuildStruct inner tail field value)) fields
    | _ => fields

/-- The fields of a row with one value replaced inside its static structs. -/
def setSiteValue (fields : FieldMap) (container : List String) (field : String) (value : Value) :
    FieldMap :=
  match container with
  | [] => fields.insert field value
  | head :: rest =>
    match fields[head]? with
    | some (.struct top) => fields.insert head (.struct (rebuildStruct top rest field value))
    | _ => fields

/-- A patch writes a value at the address of a field. -/
def FieldPath.writeInto (path : FieldPath) (fields : FieldMap) (value : Value) : FieldMap :=
  setSiteValue fields path.container path.field value

/-- The top-level field that contains the address of a field. -/
def FieldPath.topField (path : FieldPath) : String :=
  path.container.headD path.field

end Structs

/-- A field that holds references, with the static structs around it. -/
structure RefSite where
  container : List String
  field : CompiledField

namespace RefSite

/-- The stored value of the field. -/
def value (site : RefSite) (fields : FieldMap) : Option Value :=
  match site.container with
  | [] => fields[site.field.name]?
  | head :: rest =>
    match fields[head]? with
    | some outer => descend (rest ++ [site.field.name]) outer
    | none => none

/-- The name of the field in a diagnostic. -/
def displayName (site : RefSite) : String :=
  ".".intercalate (site.container ++ [site.field.name])

end RefSite

/-- The reference fields of one level of structs. -/
def levelSites (container : List String) (fields : List CompiledField) : List RefSite :=
  (fields.filter fun field => field.reference.isSome || field.elementReference.isSome).map
    (RefSite.mk container)

mutual

/-- The reference fields of a struct and of the structs inside it. -/
def structSites (container : List String) : CompiledStruct → List RefSite
  | ⟨name, fields, _, structs⟩ =>
    levelSites (container ++ [name]) fields ++ nestedSites (container ++ [name]) structs
termination_by structural member => member

def nestedSites (container : List String) : List CompiledStruct → List RefSite
  | [] => []
  | first :: rest => structSites container first ++ nestedSites container rest
termination_by structural members => members

end

/-- All reference fields of a row, at the top level and inside its static structs. -/
def refSites (collection : CompiledCollection) : List RefSite :=
  levelSites [] collection.fields ++ nestedSites [] collection.structs

/-- The key that a member of a set of references carries. A bare member is its own key. -/
def memberRefKey : Value → Option RefKey
  | .ref key => some key
  | .none => none
  | other => some (.scalar other)

/-- An address is of the row that a reference names. A reference to a nested collection carries the
keys of all levels. -/
def named (compiled : Compiled) (target : List String) (key : RefKey) (address : RowAddress) : Bool :=
  match target with
  | [name] =>
    match compiled.collection name with
    | none => false
    | some collection =>
      (CollectionPath.top name).contains address &&
        identityOf collection.key address.last.key.components = refIdentity collection.key key
  | segments =>
    (compiled.collectionAt segments).isSome && address.declaration = segments &&
      address.components = refKeyComponents key

/-- The target collection holds a live row of the key. -/
def targetPresent (compiled : Compiled) (rows : Rows) (target : List String) (key : RefKey) : Bool :=
  rows.keys.any (named compiled target key)

/-- A reference resolves when it names a live row. -/
def Resolves (compiled : Compiled) (rows : Rows) (target : List String) (key : RefKey) : Prop :=
  ∃ address ∈ rows, named compiled target key address = true

@[simp] theorem targetPresent_iff {compiled : Compiled} {rows : Rows} {target : List String}
    {key : RefKey} : targetPresent compiled rows target key = true ↔
      Resolves compiled rows target key := by
  simp only [targetPresent, Resolves, List.any_eq_true, Std.ExtTreeMap.mem_keys]

namespace RefSite

/-- The references that the field holds, each with its target. -/
def held (site : RefSite) (fields : FieldMap) : List (List String × RefKey) :=
  (match site.field.reference, site.value fields with
    | some info, some (.ref key) => [(info.target, key)]
    | _, _ => []) ++
  (match site.field.elementReference, site.value fields with
    | some info, some (.set members) => (members.filterMap memberRefKey).map fun key => (info.target, key)
    | _, _ => [])

end RefSite

/-- A live row holds a reference to a target. -/
def Holds (compiled : Compiled) (rows : Rows) (address : RowAddress) (target : List String)
    (key : RefKey) : Prop :=
  ∃ fields collection, rows[address]? = some fields ∧
    compiled.collectionAt address.declaration = some collection ∧
    ∃ site ∈ refSites collection, (target, key) ∈ site.held fields

/-- Each reference that a live row holds resolves. -/
def RefsResolve (compiled : Compiled) (rows : Rows) : Prop :=
  ∀ address target key, Holds compiled rows address target key → Resolves compiled rows target key

section Checks

/-- The check of a reference that a field holds. -/
def checkScalar (compiled : Compiled) (rows : Rows) (fields : FieldMap) (address : RowAddress)
    (site : RefSite) : Except Rejection Unit :=
  match site.field.reference with
  | none => .ok ()
  | some info =>
    match site.value fields with
    | none | some .none =>
      if info.isOptional then .ok ()
      else .error ((Rejection.new .danglingRef
        ("required reference `" ++ site.displayName ++ "` has no target")).at (.row address))
    | some (.ref key) =>
      if targetPresent compiled rows info.target key then .ok ()
      else .error ((Rejection.new .danglingRef
        ("reference `" ++ site.displayName ++ "` does not resolve to a live row")).at (.row address))
    | some _ => .ok ()

/-- The check of the members of a set of references. -/
def checkMembers (compiled : Compiled) (rows : Rows) (fields : FieldMap) (address : RowAddress)
    (site : RefSite) : Except Rejection Unit :=
  match site.field.elementReference, site.value fields with
  | some info, some (.set members) =>
    (members.filterMap memberRefKey).forM fun key =>
      if targetPresent compiled rows info.target key then .ok ()
      else .error ((Rejection.new .danglingRef ("a member of reference set `" ++ site.displayName ++
        "` does not resolve to a live row")).at (.row address))
  | _, _ => .ok ()

/-- The check of all references of a row. -/
def checkRefs (compiled : Compiled) (rows : Rows) (collection : CompiledCollection)
    (fields : FieldMap) (address : RowAddress) : Except Rejection Unit :=
  (refSites collection).forM fun site => do
    checkScalar compiled rows fields address site
    checkMembers compiled rows fields address site

theorem resolves_of_checkScalar {compiled : Compiled} {rows : Rows} {fields : FieldMap}
    {address : RowAddress} {site : RefSite}
    (passed : checkScalar compiled rows fields address site = .ok ()) {info : RefInfo} {key : RefKey}
    (declared : site.field.reference = some info) (stored : site.value fields = some (.ref key)) :
    Resolves compiled rows info.target key := by
  rw [checkScalar, declared, stored] at passed
  simp only at passed
  split at passed
  case isTrue live => exact targetPresent_iff.mp live
  case isFalse => cases passed

theorem resolves_of_checkMembers {compiled : Compiled} {rows : Rows} {fields : FieldMap}
    {address : RowAddress} {site : RefSite}
    (passed : checkMembers compiled rows fields address site = .ok ()) {info : RefInfo}
    {members : List Value} {key : RefKey} (declared : site.field.elementReference = some info)
    (stored : site.value fields = some (.set members)) (inside : key ∈ members.filterMap memberRefKey) :
    Resolves compiled rows info.target key := by
  rw [checkMembers, declared, stored] at passed
  have checked := Codes.forM_ok.mp passed key inside
  split at checked
  case isTrue live => exact targetPresent_iff.mp live
  case isFalse => cases checked

/-- A held reference is the value of its field or a member of the set of its field. -/
theorem held_cases {site : RefSite} {fields : FieldMap} {target : List String} {key : RefKey}
    (held : (target, key) ∈ site.held fields) :
    (∃ info, site.field.reference = some info ∧ site.value fields = some (.ref key) ∧
      info.target = target) ∨
    (∃ info members, site.field.elementReference = some info ∧
      site.value fields = some (.set members) ∧ key ∈ members.filterMap memberRefKey ∧
      info.target = target) := by
  rcases List.mem_append.mp held with held | held
  · split at held
    case h_1 info stored declared present =>
      obtain ⟨rfl, rfl⟩ := Prod.mk.inj (List.mem_singleton.mp held)
      exact .inl ⟨info, declared, present, rfl⟩
    case h_2 => cases held
  · split at held
    case h_1 info members declared present =>
      obtain ⟨key, inside, same⟩ := List.mem_map.mp held
      obtain ⟨rfl, rfl⟩ := Prod.mk.inj same
      exact .inr ⟨info, members, declared, present, inside, rfl⟩
    case h_2 => cases held

/-- The references of a row that passes its check resolve. -/
theorem resolves_of_checkRefs {compiled : Compiled} {rows : Rows} {collection : CompiledCollection}
    {fields : FieldMap} {address : RowAddress}
    (passed : checkRefs compiled rows collection fields address = .ok ()) {site : RefSite}
    (inside : site ∈ refSites collection) {target : List String} {key : RefKey}
    (held : (target, key) ∈ site.held fields) : Resolves compiled rows target key := by
  obtain ⟨_, scalar, members⟩ := Codes.bind_ok.mp (Codes.forM_ok.mp passed site inside)
  rcases held_cases held with ⟨info, declared, stored, rfl⟩ | ⟨info, _, declared, stored, member, rfl⟩
  · exact resolves_of_checkScalar scalar declared stored
  · exact resolves_of_checkMembers members declared stored member

end Checks

end Liasse.Runtime
