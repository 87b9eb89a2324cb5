/-
This file models what the composition host reads of a compiled package: its exposed surface, which is compared with that
of a candidate, and the check of a package against the contracts of a module space.
-/

import Liasse.Codes.Listing
import Liasse.Codes.Table
import Liasse.Contract.Narrowing
import Liasse.Modules.Peer

namespace Liasse.Modules

open Codes Liasse.Host Liasse.Runtime

section Texts

/-- A member of a trailing projection gives an output field, or it gives none. -/
inductive BlockMember
  | named (name : String)
  | field (member : String)
  | name (name : String)
  | other

/-- The expression of an exposed view is a projection or another selector. -/
inductive ViewText
  | block (members : List BlockMember)
  | other

/-- The declaration of an exposed interface. A view may be missing, and its text may not parse. A mutation
that binds an inline program has no binding text. -/
structure InterfaceDecl where
  view : Option (Option ViewText)
  muts : List (String × Option String)

/-- What the comparison reads of a package text. -/
structure PackageText where
  expose : List (String × InterfaceDecl)
  mutations : List String

end Texts

section Surfaces

/-- The fields that a view projects. A pass-through exposes the whole row of its source. -/
inductive ViewSurface
  | all
  | fields (names : Finset String)
deriving DecidableEq

namespace ViewSurface

/-- The first field of another surface that a surface does not have. Only projections are compared. -/
def droppedFrom (view other : ViewSurface) : Option String :=
  match view, other with
  | .fields mine, .fields theirs => ((theirs \ mine).sort (· ≤ ·)).head?
  | _, _ => none

/-- The output field of a member. -/
def outputName : BlockMember → Option String
  | .named name => some name
  | .field member => some member
  | .name name => some name
  | .other => none

/-- The surface of a view text. A text that does not parse counts as a pass-through. -/
def ofText : Option ViewText → ViewSurface
  | some (.block members) => .fields (members.filterMap outputName).toFinset
  | _ => .all

/-- Nothing is dropped between two projections when the later one has every field. -/
theorem droppedFrom_eq_none {view other : ViewSurface} :
    view.droppedFrom other = none ↔
      ∀ mine theirs, view = .fields mine → other = .fields theirs → theirs ⊆ mine := by
  cases view with
  | all => simp [droppedFrom]
  | fields mine =>
    cases other with
    | all => simp [droppedFrom]
    | fields theirs =>
      rw [droppedFrom, List.head?_eq_none_iff, ← List.toFinset_eq_empty_iff, Finset.sort_toFinset,
        Finset.sdiff_eq_empty_iff_subset]
      constructor
      · rintro within _ _ ⟨⟩ ⟨⟩
        exact within
      · exact fun within => within mine theirs rfl rfl

end ViewSurface

/-- The boundary of an exposed interface has the fields of its view and its operations with their binding
texts. -/
structure ExposedInterface where
  view : ViewSurface
  operations : Std.ExtTreeMap String String compare

namespace ExposedInterface

/-- The boundary of a declaration. A missing view exposes no field. -/
def read (decl : InterfaceDecl) : ExposedInterface where
  view := (decl.view.map ViewSurface.ofText).getD (.fields ∅)
  operations := .ofList (decl.muts.map fun (name, binding) => (name, binding.getD "")) compare

/-- Two boundaries are the same when their fields and the names of their operations agree. -/
def sameContract (first second : ExposedInterface) : Bool :=
  first.view = second.view && first.operations.keys = second.operations.keys

end ExposedInterface

/-- The exposed interfaces of a package by name. -/
abbrev ExposedSurface := Std.ExtTreeMap String ExposedInterface compare

/-- The surface of a package text. A text that does not parse exposes nothing. -/
def ExposedSurface.read : Option PackageText → ExposedSurface
  | some text => .ofList (text.expose.map fun (name, decl) => (name, ExposedInterface.read decl)) compare
  | none => ∅

/-- The mutations that a package text declares. -/
def modelMutations : Option PackageText → List String
  | some text => text.mutations
  | none => []

/-- The text without the ending of a call. -/
def withoutCall (text : List Char) : List Char :=
  if "()".toList.isSuffixOf text then text.dropLast.dropLast else text

/-- The text of a binding without the blanks and the equals sign before it. -/
def bindingText (binding : String) : List Char :=
  match Contract.trim binding.toList with
  | '=' :: rest => Contract.trim rest
  | text => text

/-- The private mutation that a simple binding names. -/
def backingMutation (alphanumeric : Char → Bool) (binding : String) : Option String :=
  let text := bindingText binding
  if text.head? = some '.' then
    let tail := Contract.trim ((withoutCall text).reverse.takeWhile (· ≠ '.')).reverse
    if tail = [] ∨ !tail.all (fun char => alphanumeric char || char = '_') then none
    else some (String.ofList tail)
  else none

end Surfaces

section Comparison

/-- A package narrows its own surface, or it withdraws a binding whose mutation remains. -/
inductive NarrowingClass
  | definitional
  | bindingWithdrawn
deriving DecidableEq

/-- A narrowing with its reason. -/
structure Narrowing where
  reason : String
  kind : NarrowingClass

variable (alphanumeric : Char → Bool)

/-- A candidate that drops an operation withdraws the binding or loses the mutation. -/
def operationLost (candidateMuts : List String) (interface operation binding : String) : Narrowing where
  reason := s!"exposed interface `{interface}` no longer binds operation `{operation}`"
  kind :=
    if ((backingMutation alphanumeric binding).map candidateMuts.contains).getD false then
      .bindingWithdrawn
    else .definitional

/-- The first operation of an interface that the candidate misses. -/
def operationNarrowing (candidateMuts : List String) (interface : String)
    (active candidate : ExposedInterface) : Option Narrowing :=
  active.operations.toList.findSome? fun (operation, binding) =>
    if candidate.operations.contains operation then none
    else some (operationLost alphanumeric candidateMuts interface operation binding)

/-- The first narrowing of one interface. -/
def interfaceNarrowing (candidateMuts : List String) (interface : String)
    (active candidate : ExposedInterface) : Option Narrowing :=
  match candidate.view.droppedFrom active.view with
  | some field => some ⟨s!"exposed interface `{interface}` view drops field `{field}`", .definitional⟩
  | none => operationNarrowing alphanumeric candidateMuts interface active candidate

/-- The first narrowing that a candidate text makes. -/
def exposedNarrowing (active candidate : Option PackageText) : Option Narrowing :=
  firstUncovered (ExposedSurface.read active) (ExposedSurface.read candidate)
    (fun interface => ⟨s!"exposed interface `{interface}` is removed", .definitional⟩)
    (interfaceNarrowing alphanumeric (modelMutations candidate))

/-- An accepted interface keeps its operations, and a projection keeps its fields in a projection. -/
structure InterfaceKept (active candidate : ExposedInterface) : Prop where
  fields : ∀ mine theirs, candidate.view = .fields mine → active.view = .fields theirs → theirs ⊆ mine
  operations : ∀ operation : String, operation ∈ active.operations → operation ∈ candidate.operations

theorem interfaceNarrowing_eq_none {candidateMuts : List String} {interface : String}
    {active candidate : ExposedInterface} :
    interfaceNarrowing alphanumeric candidateMuts interface active candidate = none ↔
      InterfaceKept active candidate := by
  rw [interfaceNarrowing]
  cases dropped : candidate.view.droppedFrom active.view with
  | some field =>
    constructor
    · intro accepted
      cases accepted
    · intro kept
      rw [ViewSurface.droppedFrom_eq_none.mpr kept.fields] at dropped
      cases dropped
  | none =>
    rw [operationNarrowing, findSome?_toList_eq_none]
    constructor
    · intro quiet
      refine ⟨ViewSurface.droppedFrom_eq_none.mp dropped, fun operation inside => ?_⟩
      obtain ⟨binding, stored⟩ := Option.isSome_iff_exists.mp
        (Std.ExtTreeMap.isSome_getElem?_iff_mem.mpr inside)
      have silent := quiet operation binding stored
      by_contra missing
      simp [missing] at silent
    · intro kept operation binding stored
      have inside := kept.operations operation
        (Std.ExtTreeMap.isSome_getElem?_iff_mem.mp (Option.isSome_of_eq_some stored))
      simp [inside]

/-- A candidate is accepted when it covers every interface of the active text. -/
theorem exposedNarrowing_eq_none {active candidate : Option PackageText} :
    exposedNarrowing alphanumeric active candidate = none ↔
      Covers InterfaceKept (ExposedSurface.read active) (ExposedSurface.read candidate) :=
  firstUncovered_eq_none fun _ _ _ => interfaceNarrowing_eq_none alphanumeric

/-- The exposed interfaces of an update by the way in which they moved. -/
structure ExposedGrouping where
  unchanged : List String
  changed : List String
  removed : List String

/-- How an interface moves. -/
inductive ContractMovement
  | unchanged
  | changed
  | removed
deriving DecidableEq

/-- An interface moves from the active surface to the candidate. -/
def movementOf (active : ExposedInterface) : Option ExposedInterface → ContractMovement
  | none => .removed
  | some candidate => if active.sameContract candidate then .unchanged else .changed

/-- The names of the active interfaces that move in one way. -/
def movedNames (active candidate : ExposedSurface) (way : ContractMovement) : List String :=
  active.toList.filterMap fun (name, interface) =>
    if movementOf interface candidate[name]? = way then some name else none

/-- The grouping of the interfaces that an active text exposed. -/
def exposedGrouping (active candidate : Option PackageText) : ExposedGrouping where
  unchanged := movedNames (ExposedSurface.read active) (ExposedSurface.read candidate) .unchanged
  changed := movedNames (ExposedSurface.read active) (ExposedSurface.read candidate) .changed
  removed := movedNames (ExposedSurface.read active) (ExposedSurface.read candidate) .removed

end Comparison

section Packages

/-- An exposed view has its interface, its guard and its type. -/
structure ExposedView where
  interface : String
  guard : Option String
  type : ExprType

/-- The parameters that a bound mutation reads and the members that it returns. -/
structure MutationContract where
  params : List String
  response : Option Contract.Members

/-- A mutation that a space declares for an interface. -/
structure InterfaceMut where
  name : String
  params : Option (List String)
  returnFields : Option (List (String × FieldType))

/-- The contract that a space declares for an interface. -/
structure InterfaceContract where
  name : String
  viewFields : List (String × FieldType)
  muts : List InterfaceMut

/-- What the host reads of a compiled package. A mutation binding has its text. -/
class Package (M : Type) where
  line : M → String
  version : M → Version
  exposedViews : M → List ExposedView
  interfaceMuts : M → List (String × List (String × String))
  mutation : M → String → Option MutationContract
  alphanumeric : Char → Bool
  parse : String → Option PackageText

/-- The text of a version. -/
def versionString (version : Version) : String :=
  s!"{version.major}.{version.minor}.{version.patch}"

namespace Package

variable {M : Type} [Package M] (model : M)

/-- The exposed view of an interface. -/
def exposedView (interface : String) : Option ExposedView :=
  (exposedViews model).find? fun view => view.interface = interface

/-- The names of the readable interfaces. -/
def interfaceNames : List String :=
  (exposedViews model).map ExposedView.interface

/-- The guard of an interface. -/
def guard (interface : String) : Option String :=
  (exposedView model interface).bind ExposedView.guard

/-- The fields of the rows of a type. -/
def rowFields : ExprType → Option (List (String × ExprType))
  | .row fields _ => some fields
  | .view fields _ => some fields
  | .scalar _ => none

/-- The scalar fields that an exposed view projects. -/
def exposedViewFields (interface : String) : Option (List (String × FieldType)) := do
  let view ← exposedView model interface
  let fields ← rowFields view.type
  return fields.filterMap fun (name, type) => type.asScalar.map fun scalar => (name, scalar)

/-- The private mutation that a simple binding calls. -/
def exposedMutationName (binding : String) : Option String :=
  match bindingText binding with
  | '.' :: rest =>
    let name := withoutCall rest
    if name = [] ∨ !name.all (fun char => alphanumeric M char || char = '_') then none
    else some (String.ofList name)
  | _ => none

/-- The private mutation that an interface binds to a name. -/
def exposedMutation (interface mutation : String) : Option String := do
  let (_, muts) ← (interfaceMuts model).find? fun declared => declared.1 = interface
  let (_, binding) ← muts.find? fun bound => bound.1 = mutation
  exposedMutationName (M := M) binding

/-- The contract of the private mutation that an interface binds to a name. -/
def exposedMutationContract (interface contract : String) : Option MutationContract := do
  let name ← exposedMutation model interface contract
  mutation model name

end Package

end Packages

section Contracts

variable {M : Type} [Package M]

/-- A bound mutation reads declared parameters only. -/
def checkParams (contract : InterfaceContract) (declared : InterfaceMut) (bound : MutationContract) :
    Except ModuleError Unit :=
  match declared.params with
  | none => .ok ⟨⟩
  | some names =>
    match bound.params.find? fun param => !names.contains param with
    | some param => .error (.interfaceContract contract.name
        (s!"the bound mutation `{declared.name}` reads parameter `{param}`, which the interface " ++
          "parameter contract does not declare"))
    | none => .ok ⟨⟩

/-- A bound mutation returns every declared field with its type. -/
def checkReturn (contract : InterfaceContract) (declared : InterfaceMut) (bound : MutationContract) :
    Except ModuleError Unit :=
  match declared.returnFields, bound.response with
  | some fields, some response =>
    match fields.find? fun (field, type) => (response[field]?).bind ExprType.asScalar ≠ some type with
    | some (field, _) => .error (.interfaceContract contract.name
        (s!"the bound mutation `{declared.name}` response does not provide field `{field}` with " ++
          "the declared type"))
    | none => .ok ⟨⟩
  | _, _ => .ok ⟨⟩

/-- The mutations that a package binds satisfy a contract. -/
def checkInterfaceMuts (contract : InterfaceContract) (package : M) : Except ModuleError Unit :=
  contract.muts.forM fun declared =>
    match Package.exposedMutationContract package contract.name declared.name with
    | none => .ok ⟨⟩
    | some bound => do
        checkParams contract declared bound
        checkReturn contract declared bound

/-- The view that a package exposes has every declared field with its type. -/
def checkView (contract : InterfaceContract) (package : M) : Except ModuleError Unit :=
  match Package.exposedViewFields package contract.name with
  | none => .ok ⟨⟩
  | some exposed =>
    match contract.viewFields.find? fun field => !exposed.contains field with
    | some (field, _) => .error (.interfaceContract contract.name
        s!"the exposed view does not provide field `{field}` with the declared type")
    | none => .ok ⟨⟩

/-- A package satisfies the contracts of a space. -/
def checkContracts (contracts : List InterfaceContract) (package : M) : Except ModuleError Unit :=
  contracts.forM fun contract => do
    checkView contract package
    checkInterfaceMuts contract package

end Contracts

end Liasse.Modules
