/-
This file models the text of a key, the routing of a call of an exposed interface, and the folding of the instances of the
module spaces into the root.
-/

import Liasse.Codes.Listing
import Liasse.Codes.Related
import Liasse.Coverage.Operands
import Liasse.Modules.Lifecycle
import Liasse.Wire.Typed

namespace Liasse.Modules

open Liasse.Codes Liasse.Wire

section Escapes

/-- The escape of a reserved character. -/
def encodeChar : Char → List Char
  | '%' => ['%', '2', '5']
  | '/' => ['%', '2', 'F']
  | ':' => ['%', '3', 'A']
  | other => [other]

/-- The escaped text of a component. -/
def encode (text : String) : String :=
  .ofList (text.toList.flatMap encodeChar)

/-- A character that no escape replaces. -/
def Plain (char : Char) : Prop :=
  char ≠ '%' ∧ char ≠ '/' ∧ char ≠ ':'

theorem encodeChar_of_plain {char : Char} (plain : Plain char) : encodeChar char = [char] := by
  rw [encodeChar.eq_4]
  · exact plain.1
  · exact plain.2.1
  · exact plain.2.2

theorem length_encodeChar (char : Char) : 1 ≤ (encodeChar char).length := by
  unfold encodeChar
  split
  · decide
  · decide
  · decide
  · exact Nat.le_refl 1

theorem encodeChar_eq_singleton {char : Char} (same : (encodeChar char).length = 1) : Plain char := by
  unfold encodeChar at same
  split at same
  · cases same
  · cases same
  · cases same
  · next first second third => exact ⟨first, second, third⟩

theorem not_separator_mem_encodeChar {char : Char} : '/' ∉ encodeChar char := by
  unfold encodeChar
  split
  · decide
  · decide
  · decide
  · next _ other _ => exact fun inside => other (List.mem_singleton.mp inside).symm

/-- An escaped text is the text itself exactly when the text has no reserved character. -/
theorem encode_eq_self {text : String} : encode text = text ↔ ∀ char ∈ text.toList, Plain char := by
  have chars : encode text = text ↔ text.toList.flatMap encodeChar = text.toList := by
    rw [encode, ← String.toList_inj, String.toList_ofList]
  rw [chars]
  generalize text.toList = list
  constructor
  · intro same
    have length := congrArg List.length same
    rw [List.length_flatMap] at length
    have lone := eq_one_of_sum_le (fun char _ => length_encodeChar char) length.le
    exact fun char inside => encodeChar_eq_singleton (lone char inside)
  · intro plain
    induction list with
    | nil => rfl
    | cons char rest ih =>
      obtain ⟨here, others⟩ := List.forall_mem_cons.mp plain
      rw [List.flatMap_cons, encodeChar_of_plain here, ih others, List.singleton_append]

theorem not_separator_mem_encode (text : String) : '/' ∉ (encode text).toList := by
  rw [encode, String.toList_ofList, List.mem_flatMap]
  rintro ⟨char, -, inside⟩
  exact not_separator_mem_encodeChar inside

end Escapes

section Texts

/-- Why a value has no key text, or a text is not one of a key or of a path. -/
inductive IdentError
  | notKeyComponent (typeName : String)
  | emptyKey
  | emptyKeyComponent
  | malformedEscape (text : String)
  | pathMissingRoot (text : String)
  | emptyPathSegment (text : String)

/-- The name of the kind of a value. -/
def variantName : Value → String
  | .text _ => "text"
  | .bool _ => "bool"
  | .int _ => "int"
  | .decimal _ => "decimal"
  | .bytes _ => "bytes"
  | .uuid _ => "uuid"
  | .date _ => "date"
  | .timestamp _ => "timestamp"
  | .duration _ => "duration"
  | .period _ => "period"
  | .json _ => "json"
  | .blob _ => "blob"
  | .enum _ => "enum"
  | .ref _ => "ref"
  | .struct _ => "struct"
  | .composite _ => "composite key"
  | .set _ => "set"
  | .map _ => "map"
  | .none => "none"

variable (libraries : Libraries)

/-- The text of a scalar. -/
def fromScalar : Value → Except IdentError String
  | .text text => .ok text
  | .bool flag => .ok (if flag then "true" else "false")
  | .int integer => .ok (integerText integer)
  | .decimal decimal => .ok (Decimal.toCanonicalText decimal)
  | .bytes bytes => .ok (libraries.toBase64 bytes)
  | .uuid uuid => .ok (libraries.uuidText uuid)
  | .date date => .ok (libraries.dateText date)
  | .timestamp timestamp => .ok (integerText timestamp.count.val)
  | .duration nanos => .ok (Duration.toCanonicalText nanos)
  | .enum value => .ok value.label
  | other => .error (.notKeyComponent (variantName other))

/-- One component that is not empty. -/
def component (value : Value) : Except IdentError (List String) := do
  let text ← fromScalar libraries value
  if text = "" then throw .emptyKeyComponent
  pure [text]

mutual

/-- The components of a key value. A struct, a reference and a composite key give those of their parts. -/
def flatten : Value → Except IdentError (List String)
  | .struct fields => flattenFields fields
  | .ref key => flattenRef key
  | .composite components => flattenAll components
  | .text text => component libraries (.text text)
  | .bool flag => component libraries (.bool flag)
  | .int integer => component libraries (.int integer)
  | .decimal decimal => component libraries (.decimal decimal)
  | .bytes bytes => component libraries (.bytes bytes)
  | .uuid uuid => component libraries (.uuid uuid)
  | .date date => component libraries (.date date)
  | .timestamp timestamp => component libraries (.timestamp timestamp)
  | .duration nanos => component libraries (.duration nanos)
  | .period period => component libraries (.period period)
  | .json json => component libraries (.json json)
  | .blob blob => component libraries (.blob blob)
  | .enum value => component libraries (.enum value)
  | .set members => component libraries (.set members)
  | .map entries => component libraries (.map entries)
  | .none => component libraries .none
termination_by structural value => value

def flattenRef : RefKey → Except IdentError (List String)
  | .scalar value => flatten value
  | .composite components => flattenAll components
termination_by structural key => key

def flattenFields : List (String × Value) → Except IdentError (List String)
  | [] => .ok []
  | field :: rest => do
      let first ← flattenField field
      let others ← flattenFields rest
      pure (first ++ others)
termination_by structural fields => fields

def flattenField : String × Value → Except IdentError (List String)
  | (_, value) => flatten value
termination_by structural field => field

def flattenAll : List Value → Except IdentError (List String)
  | [] => .ok []
  | value :: rest => do
      let first ← flatten value
      let others ← flattenAll rest
      pure (first ++ others)
termination_by structural values => values

end

/-- The text of a key with some components. -/
def joinComponents (components : List String) : Except IdentError String :=
  match components with
  | [] => .error .emptyKey
  | first :: rest => .ok (rest.foldl (fun joined component => joined ++ ":" ++ encode component) (encode first))

/-- The text of a row key. -/
def keyText (key : Value) : Except IdentError String := do
  joinComponents (← flatten libraries key)

/-- The text of a text key is the escaped text. -/
theorem keyText_text {text written : String} (done : keyText libraries (.text text) = .ok written) :
    written = encode text := by
  rw [keyText, flatten, component, fromScalar] at done
  by_cases empty : text = ""
  · rw [empty] at done
    cases done
  · rw [ok_bind, if_neg empty] at done
    exact (Except.ok.inj done).symm

/-- A key text has no path separator. -/
theorem not_separator_mem_keyText {key : Value} {text : String} (done : keyText libraries key = .ok text) :
    '/' ∉ text.toList := by
  obtain ⟨components, -, made⟩ := bind_ok.mp done
  cases components with
  | nil => cases made
  | cons first rest =>
    obtain rfl := Except.ok.inj made
    clear done made
    have before := not_separator_mem_encode first
    generalize encode first = joined at before
    induction rest generalizing joined with
    | nil => exact before
    | cons component rest ih =>
      rw [List.foldl_cons]
      refine ih (joined ++ ":" ++ encode component) ?_
      rw [String.toList_append, String.toList_append, List.mem_append, List.mem_append]
      rintro ((inside | inside) | inside)
      · exact before inside
      · exact absurd inside (by decide)
      · exact not_separator_mem_encode component inside

end Texts

end Liasse.Modules

namespace Liasse.Modules

open Codes Liasse.Host Liasse.Reading Liasse.Store
open Liasse.Coverage (RowTarget receiverOperands stepTo)
open Liasse.Expr (Row Cell)
open Liasse.Runtime (ExprType Rejection)

section Delegations

mutual

/-- What a delegation distinguishes in a parsed expression. -/
inductive BindingExpr
  | handle (name : String)
  | field (base : BindingExpr) (member : String)
  | param (name : String)
  | object (members : List BindingMember)
  | call (callee : BindingExpr) (args : List BindingArg)
  | other

/-- A member of an object has a name and a value, or another form. -/
inductive BindingMember
  | named (name : String) (value : BindingExpr)
  | other

/-- An argument of a call has a name or a position. -/
inductive BindingArg
  | named (name : String) (value : BindingExpr)
  | positional (value : BindingExpr)

end

/-- Where a parent parameter draws its value from. -/
inductive ArgSource
  | param (name : String)

/-- The source of a parameter of the call. -/
def paramSource : BindingExpr → Option ArgSource
  | .param name => some (.param name)
  | _ => none

/-- The parent parameter that a member feeds. -/
def memberSource : BindingMember → Option (String × ArgSource)
  | .named name value => (paramSource value).map fun source => (name, source)
  | .other => none

/-- The parent parameter that a named argument feeds. -/
def argSource : BindingArg → Option (String × ArgSource)
  | .named name value => (paramSource value).map fun source => (name, source)
  | .positional _ => none

/-- The parent parameters that one object or some named arguments feed. -/
def parseArgs : List BindingArg → Option (List (String × ArgSource))
  | [.positional (.object members)] => members.mapM memberSource
  | args => args.mapM argSource

/-- A mutation of an imported parent surface with its arguments. -/
structure ParentMutationBinding where
  handle : String
  mutation : String
  args : List (String × ArgSource)

/-- The delegation that a bare expression states. -/
def ParentMutationBinding.ofExpr : BindingExpr → Option ParentMutationBinding
  | .call (.field (.handle handle) member) args =>
    (parseArgs args).map fun args => ⟨handle, member, args⟩
  | _ => none

/-- A call of a mutation. -/
structure CallRequest where
  mutation : String
  receiver : List Value
  receiverPath : Option (List String)
  args : Std.ExtTreeMap String Value compare
  actor : Option Value
  session : Option Value

/-- A call without a receiver and without arguments. -/
def CallRequest.new (mutation : String) : CallRequest :=
  ⟨mutation, [], none, ∅, none, none⟩

/-- The argument of a call that a source names. -/
def ArgSource.value (given : Std.ExtTreeMap String Value compare) : ArgSource → Option Value
  | .param name => given[name]?

/-- Each parent parameter takes the argument that its source names, when the call has one. -/
def feed (given : Std.ExtTreeMap String Value compare) (args : List (String × ArgSource)) :
    Std.ExtTreeMap String Value compare :=
  args.foldl (fun fed arg =>
    match arg.2.value given with
    | some value => fed.insert arg.1 value
    | none => fed) ∅

end Delegations

section Rows

variable (libraries : Wire.Libraries)

/-- A row of a key text. -/
def hasKeyText (key : String) (row : Row) : Bool :=
  match keyText libraries row.key with
  | .ok text => text = key
  | .error _ => false

/-- The row of a collection that has a key text. -/
def rowNamed (row : Row) (collection key : String) : Option Row :=
  match row.cell collection with
  | some (.collection rows) => rows.find? (hasKeyText libraries key)
  | _ => none

/-- The row that some steps address from the root. -/
def rowAt (root : Row) : List (String × String) → Option Row
  | [] => some root
  | (collection, key) :: rest => (rowNamed libraries root collection key).bind fun row => rowAt row rest

/-- The rows along some steps with the collections that hold them. -/
def trailAt (root : Row) : List (String × String) → Option (List (String × Row))
  | [] => some []
  | (collection, key) :: rest =>
    (rowNamed libraries root collection key).bind fun row =>
      (trailAt row rest).map fun below => (collection, row) :: below

variable {libraries}

theorem hasKeyText_iff {key : String} {row : Row} :
    hasKeyText libraries key row = true ↔ keyText libraries row.key = .ok key := by
  rw [hasKeyText]
  cases keyText libraries row.key with
  | ok text => rw [decide_eq_true_iff, Except.ok.injEq]
  | error error => exact iff_of_false Bool.false_ne_true fun failed => by cases failed

/-- The last row of a trail is the row that its steps address. -/
theorem rowAt_eq_trailAt (root : Row) (steps : List (String × String)) :
    rowAt libraries root steps =
      (trailAt libraries root steps).map fun trail => (trail.map Prod.snd).getLastD root := by
  induction steps generalizing root with
  | nil => rfl
  | cons step rest ih =>
    obtain ⟨collection, key⟩ := step
    rw [rowAt, trailAt]
    cases rowNamed libraries root collection key with
    | none => rfl
    | some row =>
      rw [Option.bind_some, Option.bind_some, ih row, Option.map_map]
      congr 1
      funext trail
      show _ = (((collection, row) :: trail).map Prod.snd).getLastD root
      rw [List.map_cons, List.getLastD_cons]

/-- Each row of a trail has the key text of its step. -/
theorem keyText_of_trailAt {root : Row} {steps : List (String × String)} {trail : List (String × Row)}
    (found : trailAt libraries root steps = some trail) :
    List.Forall₂ (fun step row => row.1 = step.1 ∧ keyText libraries row.2.key = .ok step.2) steps trail := by
  induction steps generalizing root trail with
  | nil =>
    obtain rfl := Option.some.inj found
    exact .nil
  | cons step rest ih =>
    obtain ⟨collection, key⟩ := step
    obtain ⟨row, named, below⟩ := Option.bind_eq_some_iff.mp found
    obtain ⟨others, deeper, rfl⟩ := Option.map_eq_some_iff.mp below
    refine .cons ⟨rfl, ?_⟩ (ih deeper)
    rw [rowNamed] at named
    split at named
    · exact hasKeyText_iff.mp (List.find?_some named)
    · cases named

end Rows

section Roots

/-- A surface that a containing row provides. -/
structure CompiledParentSurface where
  type : ExprType
  view : Row → Except EngineError Cell
  muts : List (String × String)

/-- A parent surface at its containing row. -/
structure ResolvedParentSurface where
  type : ExprType
  value : Cell
  muts : List (String × String)

/-- The value of a surface at the row that some steps address. -/
def parentSurfaceProjection (libraries : Wire.Libraries) (root : Except EngineError Row)
    (surface : Option CompiledParentSurface) (steps : List (String × String)) :
    Except EngineError (Option ResolvedParentSurface) :=
  match surface with
  | none => .ok none
  | some compiled => do
      match rowAt libraries (← root) steps with
      | none => pure none
      | some containing => pure (some ⟨compiled.type, ← compiled.view containing, compiled.muts⟩)

/-- A mutation with the path of its declaration. -/
structure CompiledMutation where
  name : String
  path : List String

/-- What the host uses of its root to route a call. The names of the declared spaces can stand in a path, and no
space at the root has the name of a collection that holds spaces. -/
structure Router (S M P : Type) [InstanceStore S M] extends Services S M P where
  libraries : Wire.Libraries
  parse : String → Option BindingExpr
  schema : Root → Reading.Schema
  mutations : Root → List CompiledMutation
  moduleSpaces : Root → List (List String)
  rootRow : Root → Except EngineError Row
  compiledSurface : Root → List String → String → Option CompiledParentSurface
  containsRow_eq : ∀ root steps,
    containsRow root steps = (rootRow root).map fun top => (rowAt libraries top steps).isSome
  parentSurface_eq : ∀ root declaration steps surface,
    parentSurface root declaration steps surface =
      (parentSurfaceProjection libraries (rootRow root) (compiledSurface root declaration surface) steps).map
        fun resolved => resolved.map fun resolved => (resolved.type, resolved.value)
  named : ∀ root, ∀ path ∈ moduleSpaces root, ∀ name ∈ path, name ≠ "" ∧ '/' ∉ name.toList
  apart : ∀ root collection member, [collection, member] ∈ moduleSpaces root → [collection] ∉ moduleSpaces root

end Roots

section Calls

variable {S M P : Type} [InstanceStore S M] {router : Router S M P}

/-- The first mutation of a name. -/
def Router.mutation (router : Router S M P) (root : router.Root) (name : String) : Option CompiledMutation :=
  (router.mutations root).find? fun mutation => mutation.name = name

theorem Router.name_of_mutation {router : Router S M P} {root : router.Root} {name : String}
    {mutation : CompiledMutation} (found : router.mutation root name = some mutation) : mutation.name = name := by
  have named := List.find?_some found
  exact of_decide_eq_true named

/-- The rows that a mutation of the root writes for a request. -/
def Router.operands (router : Router S M P) (root : router.Root) (mutation : CompiledMutation)
    (request : CallRequest) : Except Rejection (List RowTarget) :=
  if mutation.path.isEmpty then .ok []
  else receiverOperands (router.schema root) ⟨request.receiverPath.getD mutation.path, request.receiver⟩

/-- The mutation that a call of the root runs, with the rows that it writes. -/
def Router.receivers (router : Router S M P) (root : router.Root) (request : CallRequest) :
    Except Rejection (CompiledMutation × List RowTarget) :=
  match router.mutation root request.mutation with
  | none => .error (.new .malformed s!"unknown mutation `{request.mutation}`")
  | some mutation => (router.operands root mutation request).map fun targets => (mutation, targets)

theorem Router.receivers_eq_ok {root : router.Root} {request : CallRequest} {mutation : CompiledMutation}
    {targets : List RowTarget} : router.receivers root request = .ok (mutation, targets) ↔
      router.mutation root request.mutation = some mutation ∧ router.operands root mutation request = .ok targets := by
  rw [Router.receivers]
  cases router.mutation root request.mutation with
  | none => exact iff_of_false (fun failed => by cases failed) fun failed => by cases failed.1
  | some found =>
    rw [Option.some.injEq]
    constructor
    · intro done
      obtain ⟨operands, found, same⟩ := map_ok.mp done
      obtain ⟨rfl, rfl⟩ := Prod.mk.inj same
      exact ⟨rfl, found⟩
    · rintro ⟨rfl, operands⟩
      exact map_ok.mpr ⟨targets, operands, rfl⟩

/-- The root mutation that a surface binds to a name. -/
def boundMutation (muts : List (String × String)) (contract : String) : Option String :=
  match (muts.find? fun bound => bound.1 = contract).map fun bound => bound.2.toList with
  | some ('.' :: rest) => some (String.ofList (withoutCall rest))
  | _ => none

/-- A call of an exposed interface of an instance. -/
structure InterfaceCall where
  space : ModuleSpace
  name : String
  interface : String
  mutation : String
  request : CallRequest

/-- Where a call is admitted. -/
inductive Route
  | child (request : CallRequest)
  | parent (request : CallRequest)
  | inlined (binding : String) (request : CallRequest)

/-- A mutation of the root with the sources of its parameters. -/
structure Delegation where
  mutation : String
  args : List (String × ArgSource)

variable [Package M]

/-- The text that an interface binds to a mutation. -/
def Package.exposedMutationBinding (model : M) (interface mutation : String) : Option String := do
  let (_, muts) ← (interfaceMuts model).find? fun declared => declared.1 = interface
  let (_, binding) ← muts.find? fun bound => bound.1 = mutation
  pure binding

/-- A binding is a program on the rows of the instance. -/
def isInlineChildBinding (binding : String) : Bool :=
  (bindingText binding).head? = some '.'

namespace ModuleHost

variable (host : ModuleHost router.toServices)

/-- The parent surface that a handle of an instance imports. -/
def importedSurface (uses : List (String × UseSpec × Bool)) (handle : String) : Option String :=
  uses.findSome? fun use => if use.1 = handle then surfaceOf handle use.2.1 else none

/-- The delegation of a call. A binding of another form delegates nothing. -/
def delegation (child : Child S M P) (call : InterfaceCall) : Except EngineError (Option Delegation) :=
  match ((Package.exposedMutationBinding child.engine.model call.interface call.mutation).bind
    router.parse).bind ParentMutationBinding.ofExpr with
  | none => .ok none
  | some parsed =>
    match importedSurface child.bindings.uses parsed.handle with
    | none => .ok none
    | some surface => do
        let resolved ← parentSurfaceProjection router.libraries (router.rootRow host.root)
          (router.compiledSurface host.root call.space.declarationPath surface)
          (call.space.containingRowSteps.getD [])
        pure (resolved.bind fun resolved =>
          (boundMutation resolved.muts parsed.mutation).map fun mutation => ⟨mutation, parsed.args⟩)

/-- The receiver of a delegated call is a text for each step to the containing row. -/
def routedRequest (call : InterfaceCall) (delegation : Delegation) : CallRequest :=
  { CallRequest.new delegation.mutation with
    receiver := (call.space.containingRowSteps.getD []).map fun step => .text step.2
    args := feed call.request.args delegation.args }

/-- The call of the root that a delegated call becomes. -/
def parentMutationRequest (child : Child S M P) (call : InterfaceCall) :
    Except ModuleError (Option CallRequest) :=
  match host.delegation child call with
  | .error error => .error (.engine error)
  | .ok delegation => .ok (delegation.map (routedRequest call))

/-- The route of a call of an exposed interface. -/
def interfaceCall (call : InterfaceCall) : Except ModuleError Route := do
  let child ← host.enabledChild call.space call.name
  match Package.exposedMutation child.engine.model call.interface call.mutation with
  | some mutation => pure (.child { call.request with mutation })
  | none =>
    match ← host.parentMutationRequest child call with
    | some routed => pure (.parent routed)
    | none =>
      match Package.exposedMutationBinding child.engine.model call.interface call.mutation with
      | some binding =>
        if isInlineChildBinding binding then pure (.inlined binding call.request)
        else throw (.interfaceContract call.interface
          s!"interface binds no routable mutation `{call.mutation}`")
      | none => throw (.interfaceContract call.interface
          s!"interface binds no routable mutation `{call.mutation}`")

end ModuleHost

end Calls

section Folds

/-- The row of an instance in its space. -/
def instanceRow (inst : AggregatedInstance) : Row :=
  .of [.key (.text inst.name)] (.text inst.name)
    (inst.interfaces.map fun (name, rows) => (name, .collection rows))

variable (libraries : Wire.Libraries) (spaces : Std.ExtTreeMap String (List AggregatedInstance) compare)

/-- The rows of the instances at the path of a space. -/
def spaceCell (path : String) : Cell :=
  .collection ((spaces[path]?.getD []).map instanceRow)

/-- A row takes the space below it. -/
def injectRow (collection member : String) (row : Row) : Row :=
  match keyText libraries row.key with
  | .error _ => row
  | .ok key => row.set member (spaceCell spaces s!"/{collection}/{key}/{member}")

/-- A declared space is folded into the root or into the rows of one collection. Deeper spaces are not folded. -/
def injectSpace (root : Row) : List String → Row
  | [member] => root.set member (spaceCell spaces s!"/{member}")
  | [collection, member] =>
    match root.cell collection with
    | some (.collection rows) =>
      root.set collection (.collection (rows.map (injectRow libraries spaces collection member)))
    | _ => root
  | _ => root

/-- The declared spaces are folded into the root. -/
def foldInto (root : Row) (declared : List (List String)) : Row :=
  declared.foldl (injectSpace libraries spaces) root

end Folds

end Liasse.Modules
