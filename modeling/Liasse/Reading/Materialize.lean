/-
This file models the declared shapes of a package, the compiled tree of its collections and the tree of the rows of a
state.
-/

import Liasse.Computed.Fold
import Liasse.Expr.Operators
import Liasse.Runtime.Reference
import Liasse.Store.Address

namespace Liasse.Reading

section Shapes

mutual

/-- The declaration of a member. A name adopts the declaration of a type. -/
inductive Node
  | collection (collection : Collection)
  | struct (members : List (String × Node))
  | named (name : String)
  | view
  | plain

/-- A keyed collection has the path of its declaration, its key fields and its members. -/
inductive Collection
  | mk (path : String) (key : List String) (members : List (String × Node))

end

namespace Collection

def path : Collection → String
  | .mk path _ _ => path

def key : Collection → List String
  | .mk _ key _ => key

def members : Collection → List (String × Node)
  | .mk _ _ members => members

end Collection

/-- The members of the root and the named types. -/
structure Schema where
  root : List (String × Node)
  types : List (String × Node)

namespace Schema

/-- Some steps along the names of types. -/
def follow (schema : Schema) : Nat → Node → Node
  | left + 1, .named name =>
    match schema.types.lookup name with
    | some next => schema.follow left next
    | none => .named name
  | _, node => node

/-- The declaration that a node adopts. A chain of names has at most one step for each type. -/
def resolvedNode (schema : Schema) (node : Node) : Node :=
  schema.follow (schema.types.length + 1) node

/-- The keyed collection that a node adopts. -/
def resolvedCollection (schema : Schema) (node : Node) : Option Collection :=
  match schema.resolvedNode node with
  | .collection collection => some collection
  | _ => none

/-- The collection that a member of a shape adopts. -/
def collectionMember (schema : Schema) (members : List (String × Node)) (name : String) :
    Option Collection :=
  (members.lookup name).bind schema.resolvedCollection

/-- The nested collection some names below a collection. -/
def descend (schema : Schema) (collection : Collection) : List String → Option Collection
  | [] => some collection
  | segment :: rest =>
    (schema.collectionMember collection.members segment).bind fun nested => schema.descend nested rest

/-- The collection at a declaration path. -/
def collectionAtPath (schema : Schema) : List String → Option Collection
  | [] => none
  | head :: rest => (schema.collectionMember schema.root head).bind fun top => schema.descend top rest

end Schema

mutual

/-- The names of the members of each shape inside a declaration differ. -/
def Node.Distinct : Node → Prop
  | .collection collection => collection.Distinct
  | _ => True
termination_by structural node => node

def Collection.Distinct : Collection → Prop
  | .mk _ _ members => (members.map Prod.fst).Nodup ∧ distinctMembers members
termination_by structural collection => collection

def distinctMembers : List (String × Node) → Prop
  | [] => True
  | member :: rest => distinctMember member ∧ distinctMembers rest
termination_by structural members => members

def distinctMember : String × Node → Prop
  | (_, node) => node.Distinct
termination_by structural member => member

end

theorem distinctMembers_iff (members : List (String × Node)) :
    distinctMembers members ↔ ∀ member ∈ members, member.2.Distinct := by
  induction members with
  | nil => simp [distinctMembers]
  | cons member rest ih =>
    obtain ⟨name, node⟩ := member
    simp [distinctMembers, distinctMember, ih]

/-- The reserved name of the singleton row. -/
def rootName : String :=
  "$root"

/-- A schema of distinct member names, in which the name of the singleton row is free. -/
structure Package extends Schema where
  names : (root.map Prod.fst).Nodup
  members : ∀ member ∈ root, member.2.Distinct
  adopted : ∀ type ∈ types, type.2.Distinct
  reserved : root.lookup rootName = none

end Shapes

section Compilation

/-- A compiled collection with the collections nested under its rows. -/
inductive CompiledCollection
  | mk (name : String) (key : List String) (children : List CompiledCollection)

namespace CompiledCollection

def name : CompiledCollection → String
  | .mk name _ _ => name

def key : CompiledCollection → List String
  | .mk _ key _ => key

def children : CompiledCollection → List CompiledCollection
  | .mk _ _ children => children

/-- The nested collection of a name. -/
def child (collection : CompiledCollection) (name : String) : Option CompiledCollection :=
  collection.children.find? fun child => child.name = name

end CompiledCollection

/-- The nested collection some names below. -/
def CompiledCollection.at (collection : CompiledCollection) : List String → Option CompiledCollection
  | [] => some collection
  | segment :: rest => (collection.child segment).bind fun child => child.at rest

/-- A shape that adopts itself is expanded this many times. -/
def maxSelfRefDepth : Nat :=
  32

mutual

/-- A collection with its directly nested collections. The collections it adopts by name are compiled one
level deeper. -/
def compileCollection (schema : Schema) (deeper : String → Collection → List CompiledCollection) :
    String → Collection → CompiledCollection
  | name, .mk _ key members => .mk name key (compileMembers schema deeper members)
termination_by structural _ collection => collection

def compileMembers (schema : Schema) (deeper : String → Collection → List CompiledCollection) :
    List (String × Node) → List CompiledCollection
  | [] => []
  | member :: rest => compileMember schema deeper member ++ compileMembers schema deeper rest
termination_by structural members => members

def compileMember (schema : Schema) (deeper : String → Collection → List CompiledCollection) :
    String × Node → List CompiledCollection
  | (name, node) => compileNode schema deeper name node
termination_by structural member => member

def compileNode (schema : Schema) (deeper : String → Collection → List CompiledCollection) :
    String → Node → List CompiledCollection
  | name, .collection nested => [compileCollection schema deeper name nested]
  | name, .named adopted =>
    match schema.resolvedCollection (.named adopted) with
    | some nested => deeper name nested
    | none => []
  | _, _ => []
termination_by structural _ node => node

end

/-- A compiled collection whose adopted collections are expanded some levels deep. -/
def compile (schema : Schema) : Nat → String → Collection → CompiledCollection
  | 0 => compileCollection schema fun _ _ => []
  | left + 1 => compileCollection schema fun name nested => [compile schema left name nested]

namespace Schema

/-- The compiled top-level collections. -/
def compileCollections (schema : Schema) : List CompiledCollection :=
  schema.root.flatMap fun member =>
    match schema.resolvedCollection member.2 with
    | some collection => [compile schema maxSelfRefDepth member.1 collection]
    | none => []

/-- The compiled collection at a declaration path. The reserved name is the singleton row. -/
def collectionAt (schema : Schema) (path : List String) : Option CompiledCollection :=
  if path = [rootName] then some (.mk rootName [] [])
  else
    match path with
    | [] => none
    | head :: rest =>
      (schema.compileCollections.find? fun collection => collection.name = head).bind fun top => top.at rest

end Schema

end Compilation

section Keys

variable {schema : Schema}

theorem mem_of_lookup {A : Type} {members : List (String × A)} {name : String} {item : A}
    (found : members.lookup name = some item) : (name, item) ∈ members := by
  obtain ⟨before, after, rfl, -⟩ := List.lookup_eq_some_iff.mp found
  exact List.mem_append_right _ List.mem_cons_self

theorem follow_distinct (adopted : ∀ type ∈ schema.types, type.2.Distinct) (left : Nat) {node : Node}
    (distinct : node.Distinct) : (schema.follow left node).Distinct := by
  induction left generalizing node with
  | zero => cases node <;> exact distinct
  | succ left ih =>
    cases node with
    | named name =>
      rw [Schema.follow]
      split
      · next next found =>
          have inside := mem_of_lookup found
          exact ih (adopted _ inside)
      · exact distinct
    | collection collection => exact distinct
    | struct members => exact distinct
    | view => exact distinct
    | plain => exact distinct

theorem resolvedCollection_distinct (adopted : ∀ type ∈ schema.types, type.2.Distinct) {node : Node}
    {collection : Collection} (distinct : node.Distinct)
    (resolved : schema.resolvedCollection node = some collection) : collection.Distinct := by
  have followed := follow_distinct adopted (schema.types.length + 1) distinct
  rw [Schema.resolvedCollection, Schema.resolvedNode] at resolved
  split at resolved
  · next found =>
      rw [found] at followed
      rw [← Option.some.inj resolved]
      exact followed
  · cases resolved

@[simp] theorem compile_name (left : Nat) (name : String) (collection : Collection) :
    (compile schema left name collection).name = name := by
  cases collection
  cases left <;> rfl

@[simp] theorem compile_key (left : Nat) (name : String) (collection : Collection) :
    (compile schema left name collection).key = collection.key := by
  cases collection
  cases left <;> rfl

/-- The collections that a compiled collection adopts by name. -/
def adoptedAt (schema : Schema) : Nat → String → Collection → List CompiledCollection
  | 0, _, _ => []
  | left + 1, name, nested => [compile schema left name nested]

theorem compile_eq (left : Nat) (name : String) (collection : Collection) :
    compile schema left name collection = compileCollection schema (adoptedAt schema left) name collection := by
  cases left <;> rfl

theorem compileMembers_eq (deeper : String → Collection → List CompiledCollection)
    (members : List (String × Node)) :
    compileMembers schema deeper members =
      members.flatMap fun member => compileNode schema deeper member.1 member.2 := by
  induction members with
  | nil => rfl
  | cons member rest ih =>
    obtain ⟨name, node⟩ := member
    rw [compileMembers, ih, List.flatMap_cons, compileMember]

/-- The compiled collection of a member is the compiled form of the collection that it adopts. -/
theorem exists_of_compileNode {left : Nat} {name : String} {node : Node} {child : CompiledCollection}
    (inside : child ∈ compileNode schema (adoptedAt schema left) name node) :
    ∃ nested depth, schema.resolvedCollection node = some nested ∧ child = compile schema depth name nested := by
  cases node with
  | collection nested =>
    rw [compileNode, ← compile_eq] at inside
    exact ⟨nested, left, rfl, List.mem_singleton.mp inside⟩
  | named adopted =>
    rw [compileNode] at inside
    split at inside
    · next nested resolved =>
        cases left with
        | zero => cases inside
        | succ left => exact ⟨nested, left, resolved, List.mem_singleton.mp inside⟩
    · cases inside
  | struct members => cases inside
  | view => cases inside
  | plain => cases inside

theorem lookup_of_mem {members : List (String × Node)} (names : (members.map Prod.fst).Nodup)
    {member : String × Node} (inside : member ∈ members) : members.lookup member.1 = some member.2 := by
  induction members with
  | nil => cases inside
  | cons first rest ih =>
    obtain ⟨fresh, names⟩ := List.nodup_cons.mp names
    rcases List.mem_cons.mp inside with rfl | inside
    · rw [List.lookup_cons_self]
    · have different : member.1 ≠ first.1 := fun same => fresh (same ▸ List.mem_map_of_mem inside)
      rw [List.lookup_cons, beq_false_of_ne different]
      exact ih names inside

/-- The compiled collection one level below is the compiled form of the collection one level below. -/
theorem exists_of_child {left : Nat} {name : String} {collection : Collection}
    (distinct : collection.Distinct) {segment : String} {child : CompiledCollection}
    (found : (compile schema left name collection).child segment = some child) :
    ∃ node nested depth, (segment, node) ∈ collection.members ∧
      schema.collectionMember collection.members segment = some nested ∧
        schema.resolvedCollection node = some nested ∧ child = compile schema depth segment nested := by
  obtain ⟨path, key, members⟩ := collection
  obtain ⟨names, -⟩ := distinct
  have named := List.find?_some found
  have inside := List.mem_of_find?_eq_some found
  rw [compile_eq, compileCollection, CompiledCollection.children, compileMembers_eq] at inside
  obtain ⟨⟨other, node⟩, member, inside⟩ := List.mem_flatMap.mp inside
  obtain ⟨nested, depth, resolved, rfl⟩ := exists_of_compileNode inside
  obtain rfl : other = segment := by simpa using named
  have lookup := lookup_of_mem names member
  refine ⟨node, nested, depth, member, ?_, resolved, rfl⟩
  rw [Schema.collectionMember, Collection.members, lookup, Option.bind_some, resolved]

theorem exists_of_at (adopted : ∀ type ∈ schema.types, type.2.Distinct) {path : List String} {left : Nat}
    {name : String} {collection : Collection} (distinct : collection.Distinct) {compiled : CompiledCollection}
    (found : (compile schema left name collection).at path = some compiled) :
    ∃ declared, schema.descend collection path = some declared ∧ compiled.key = declared.key := by
  induction path generalizing left name collection with
  | nil =>
    obtain rfl := Option.some.inj found
    exact ⟨collection, rfl, compile_key left name collection⟩
  | cons segment rest ih =>
    obtain ⟨child, first, below⟩ := Option.bind_eq_some_iff.mp found
    obtain ⟨node, nested, depth, member, step, resolved, rfl⟩ := exists_of_child distinct first
    have inner : node.Distinct := by
      cases collection
      exact (distinctMembers_iff _).mp distinct.2 _ member
    obtain ⟨declared, path, same⟩ :=
      ih (resolvedCollection_distinct adopted inner resolved) below
    exact ⟨declared, by rw [Schema.descend, step, Option.bind_some, path], same⟩

namespace Package

variable (package : Package)

/-- A compiled collection has the key of the declared one. -/
theorem exists_of_collectionAt {path : List String} (ordinary : path ≠ [rootName])
    {compiled : CompiledCollection} (found : package.collectionAt path = some compiled) :
    ∃ declared, package.collectionAtPath path = some declared ∧ compiled.key = declared.key := by
  cases path with
  | nil => cases found
  | cons head rest =>
    rw [Schema.collectionAt, if_neg ordinary] at found
    obtain ⟨top, first, below⟩ := Option.bind_eq_some_iff.mp found
    have named := List.find?_some first
    obtain ⟨⟨name, node⟩, member, inside⟩ := List.mem_flatMap.mp (List.mem_of_find?_eq_some first)
    split at inside
    · next collection resolved =>
        obtain rfl := List.mem_singleton.mp inside
        obtain rfl : name = head := by simpa using named
        obtain ⟨declared, path, same⟩ := exists_of_at package.adopted
          (resolvedCollection_distinct package.adopted (package.members _ member) resolved) below
        refine ⟨declared, ?_, same⟩
        rw [Schema.collectionAtPath, Schema.collectionMember, lookup_of_mem package.names member,
          Option.bind_some, resolved, Option.bind_some, path]
    · cases inside

/-- A declared top-level collection is compiled. -/
theorem exists_collectionAt {name : String} {declared : Collection}
    (found : package.collectionAtPath [name] = some declared) :
    ∃ compiled, package.collectionAt [name] = some compiled ∧ compiled.key = declared.key := by
  have ordinary : [name] ≠ [rootName] := by
    rintro same
    obtain rfl := List.singleton_inj.mp same
    rw [Schema.collectionAtPath, Schema.collectionMember, package.reserved] at found
    cases found
  have listed : ∃ top, (package.compileCollections.find? fun collection => collection.name = name) = some top := by
    rw [← Option.isSome_iff_exists, List.find?_isSome]
    obtain ⟨top, member, -⟩ := Option.bind_eq_some_iff.mp found
    obtain ⟨node, inside, resolved⟩ := Option.bind_eq_some_iff.mp member
    refine ⟨compile package.toSchema maxSelfRefDepth name top, List.mem_flatMap.mpr ⟨(name, node), ?_, ?_⟩, ?_⟩
    · exact mem_of_lookup inside
    · simp [resolved]
    · simp
  obtain ⟨top, first⟩ := listed
  have compiled : package.collectionAt [name] = some top := by
    rw [Schema.collectionAt, if_neg ordinary, first]
    exact CompiledCollection.at.eq_1 top
  obtain ⟨other, again, same⟩ := package.exists_of_collectionAt ordinary compiled
  obtain rfl := Option.some.inj (found.symm.trans again)
  exact ⟨top, compiled, same⟩

end Package

end Keys

end Liasse.Reading

namespace Liasse

open Liasse.Store Liasse.Expr
open Liasse.Runtime (FieldMap)

namespace KeyValue

/-- A key up to the equality of its components. -/
def toClass (key : KeyValue) : KeyClass :=
  .composite key.first key.rest

theorem components_toClass (key : KeyValue) : key.toClass.components = key.components.map .of :=
  rfl

end KeyValue

namespace Reading

section State

/-- One level of an address with its key as it was written. -/
structure Step where
  name : String
  key : KeyValue

/-- The address of a row as it was written. -/
structure Address where
  first : Step
  rest : List Step

def Step.toClass (step : Step) : AddressStep :=
  ⟨step.name, step.key.toClass⟩

namespace Address

/-- The steps of an address from the root. -/
def steps (address : Address) : List Step :=
  address.first :: address.rest

/-- The last step of an address. -/
def last (address : Address) : Step :=
  address.rest.getLastD address.first

/-- An address up to the equality of its keys. -/
def toClass (address : Address) : RowAddress :=
  ⟨address.first.toClass, address.rest.map Step.toClass⟩

theorem last_toClass (address : Address) : address.toClass.last = address.last.toClass := by
  obtain ⟨first, rest⟩ := address
  induction rest using List.reverseRecOn with
  | nil => rfl
  | append_singleton rest step => simp [toClass, last, RowAddress.last]

end Address

/-- The rows in the order of their addresses. -/
structure Working where
  rows : List (Address × FieldMap)
  ascending : rows.Pairwise fun first second => compare first.1.toClass second.1.toClass = .lt

namespace Working

/-- The fields of the row at an address. -/
def get (working : Working) (address : RowAddress) : Option FieldMap :=
  (working.rows.find? fun row => row.1.toClass = address).map Prod.snd

/-- The rows of a collection. -/
def under (working : Working) (path : CollectionPath) : List (Address × FieldMap) :=
  working.rows.filter fun row => path.contains row.1.toClass

/-- The number of levels of the deepest row. -/
def levels (working : Working) : Nat :=
  (working.rows.map fun row => row.1.toClass.depth).foldr max 0

/-- Two stored rows with one address are one row. -/
theorem eq_of_toClass {working : Working} {first second : Address × FieldMap} (left : first ∈ working.rows)
    (right : second ∈ working.rows) (same : first.1.toClass = second.1.toClass) : first = second := by
  have distinct : (working.rows.map fun row => row.1.toClass).Nodup := by
    refine List.pairwise_map.mpr (working.ascending.imp fun {first second} below equal => ?_)
    have self : compare second.1.toClass second.1.toClass = .eq := Std.ReflCmp.compare_self
    rw [equal, self] at below
    cases below
  exact List.inj_on_of_nodup_map distinct left right same

end Working

/-- The prospective state with the admission instants of its rows. -/
structure Prospective where
  working : Working
  created : Std.ExtTreeMap RowAddress Timestamp compare

/-- The interval of a bucketed row. An absent bound does not constrain it. -/
abbrev Interval := Option Timestamp × Option Timestamp

/-- The temporal role of the collections: a row that is kept by a bare read, and the interval of a bucketed
row. -/
structure Temporal where
  keep : String → FieldMap → Option Timestamp → Bool
  interval : String → FieldMap → Option Timestamp → Option Interval

end State

section Identity

/-- The key that the application sees is the lone component, or the composite of all components. -/
def keyIdentity (key : KeyValue) : Value :=
  match key.rest with
  | [] => key.first
  | second :: rest => .composite (key.first :: second :: rest)

/-- The stored key of a key that the application sees. -/
def keyValueOf : Value → KeyValue
  | .composite (first :: rest) => ⟨first, rest⟩
  | other => ⟨other, []⟩

/-- The identity of the row at an address is the chain of the keys of its steps. -/
def rowIdOf (address : Address) : RowId :=
  address.steps.map fun step => .key (keyIdentity step.key).identityValue

end Identity

section Building

/-- The cell of a bound. -/
def intervalCell (bound : Option Timestamp) : Cell :=
  .scalar (bound.elim .none .timestamp)

/-- A bucketed row carries the bounds of its interval. -/
def withIntervalCells (row : Row) (interval : Option Interval) : Row :=
  match interval with
  | some bounds => (row.set "$from" (intervalCell bounds.1)).set "$until" (intervalCell bounds.2)
  | none => row

/-- A row has a cell for each member. A nested collection is the rows stored under the address. -/
def buildRow (schema : Schema) (nested : CollectionPath → Collection → RowId → List Row)
    (collection : Collection) (fields : FieldMap) (key : Value) (id : RowId) (address : Address) : Row :=
  Row.of id key <| collection.members.map fun member =>
    (member.1, match schema.resolvedCollection member.2 with
      | some inner => .collection (nested (.nested address.toClass member.1) inner id)
      | none => .scalar (fields[member.1]?.getD .none))

variable (schema : Schema) (state : Prospective) (temporal : Temporal)

/-- The rows of a collection with their nested collections, some levels deep. An active read drops the rows
that are not active. -/
def rowsAt (active : Bool) : Nat → CollectionPath → Collection → RowId → List Row
  | 0, _, _, _ => []
  | left + 1, path, collection, parent =>
    ((state.working.under path).filter fun row =>
      !active || temporal.keep path.name row.2 state.created[row.1.toClass]?).map fun row =>
        let key := keyIdentity row.1.last.key
        let built := buildRow schema (rowsAt active left) collection row.2 key
          (parent ++ [.key key.identityValue]) row.1
        withIntervalCells built (temporal.interval path.name row.2 state.created[row.1.toClass]?)

/-- The last name of a declared path. -/
def lastName (path : String) : String :=
  (path.splitOn "/").getLastD path

/-- The single row at an address with its nested collections. -/
def materializeRow (collection : Collection) (address : Address) : Option Row :=
  (state.working.get address.toClass).map fun fields =>
    let built := buildRow schema (rowsAt schema state temporal true state.working.levels) collection fields
      (keyIdentity address.last.key) (rowIdOf address) address
    withIntervalCells built
      (temporal.interval (lastName collection.path) fields state.created[address.toClass]?)

end Building

section Cells

namespace RowCells

theorem foldl_set_key (cells : List (String × Cell)) (row : Row) :
    (cells.foldl (fun row cell => row.set cell.1 cell.2) row).key = row.key := by
  induction cells generalizing row with
  | nil => rfl
  | cons cell rest ih => rw [List.foldl_cons, ih, Row.set_key]

/-- The last cell of a name is the one that a row keeps. -/
theorem foldl_set_cell (cells : List (String × Cell)) (row : Row) (name : String) :
    (cells.foldl (fun row cell => row.set cell.1 cell.2) row).cell name =
      (cells.reverse.lookup name).or (row.cell name) := by
  induction cells generalizing row with
  | nil => simp
  | cons cell rest ih =>
    rw [List.foldl_cons, ih, List.reverse_cons, List.lookup_append]
    by_cases named : name = cell.1
    · subst named
      rw [Row.cell_set, List.lookup_cons_self]
      cases rest.reverse.lookup cell.1 <;> rfl
    · rw [Row.cell_set_of_ne _ _ named, List.lookup_cons, beq_false_of_ne named, List.lookup_nil, Option.or_none]

end RowCells

@[simp] theorem key_of (id : RowId) (key : Value) (cells : List (String × Cell)) :
    (Row.of id key cells).key = key :=
  RowCells.foldl_set_key cells _

theorem cell_of (id : RowId) (key : Value) (cells : List (String × Cell)) (name : String) :
    (Row.of id key cells).cell name = cells.reverse.lookup name := by
  rw [Row.of, RowCells.foldl_set_cell]
  exact Option.or_none

end Cells

section Access

open Liasse.Computed (foldRowComputedDeep hasComputedDeep computedCountDeep)

/-- The compiled collection of computed values some names below. -/
def computedBelow (collection : Computed.CompiledCollection) : List String → Option Computed.CompiledCollection
  | [] => some collection
  | segment :: rest =>
    (collection.children.find? fun child => child.name = segment).bind fun child => computedBelow child rest

/-- The compiled collection of computed values at a declaration path. -/
def computedAt (package : Computed.Package) : List String → Option Computed.CompiledCollection
  | [] => none
  | head :: rest => (package.collection head).bind fun top => computedBelow top rest

/-- Some passes over the computed values of a row and of its nested rows, up to the first one that changes
nothing. -/
def foldRowPasses (collection : Computed.CompiledCollection) (root : Row) : Nat → Row → Row
  | 0, row => row
  | left + 1, row =>
    let next := foldRowComputedDeep collection root [] row
    if next.same row then row else foldRowPasses collection root left next

/-- The computed values of a row and of its nested rows are folded in as many passes as there are. -/
def foldRowComputedFixpoint (collection : Computed.CompiledCollection) (root row : Row) : Row :=
  foldRowPasses collection root (computedCountDeep collection) row

/-- What the reads of rows share: the declared shapes, the computed values, the state, its temporal role, the
root that expressions read and the accessor cells of the meters of a row. -/
structure EvalCtx where
  package : Package
  computed : Computed.Package
  state : Prospective
  temporal : Temporal
  root : Row
  extras : RowAddress → List (String × Cell)

/-- The accessor cells of a row replace the cells of their names. -/
def augmentRow (extras : List (String × Cell)) (row : Row) : Row :=
  extras.foldl (fun row cell => row.set cell.1 cell.2) row

/-- The row at an address, with its computed values and its accessor cells. -/
def EvalCtx.materializeRowCell (ctx : EvalCtx) (declPath : List String) (address : Address) : Option Row := do
  let collection ← ctx.package.collectionAtPath declPath
  let row ← materializeRow ctx.package.toSchema ctx.state ctx.temporal collection address
  let folded := match computedAt ctx.computed declPath with
    | some compiled => if hasComputedDeep compiled then foldRowComputedFixpoint compiled ctx.root row else row
    | none => row
  some (augmentRow (ctx.extras address.toClass) folded)

end Access

end Reading

end Liasse
