/-
This file models the module spaces of a root application, the requests that install an instance into one and the
resolution of its peer handles among its siblings.
-/

import Mathlib.Data.List.Forall2
import Liasse.Host.Registry

namespace Liasse.Modules

open Liasse.Host

section Errors

/-- The failure of a lifecycle operation. -/
inductive ModuleError
  | emptyName
  | duplicateName (name : String)
  | unknown (name : String)
  | disabled (name : String)
  | invalidSpace (path : String)
  | missingContainingRow (space : String)
  | invalidBinding (spec : String)
  | peerUnresolved (handle detail : String)
  | interfaceContract (interface detail : String)
  | configMismatch (detail : String)
  | exposedNarrowed (reason : String)
  | interfaceBindingWithdrawn (reason : String)
  | engine (error : EngineError)
  | internal (detail : String)

end Errors

section Spaces

/-- The components of an absolute mount path. None of them is empty. -/
def mountComponents (path : String) : Option (List String) :=
  match path.toList with
  | '/' :: body =>
    let components := (body.splitOn '/').map String.ofList
    if components.contains "" then none else some components
  | _ => none

/-- A module space is the place where instances are mounted. Its components spell its path. -/
structure ModuleSpace where
  path : String
  components : List String
  mounted : mountComponents path = some components
deriving DecidableEq

namespace ModuleSpace

/-- The members of a list at the even positions. -/
def evenMembers : List String → List String
  | [] => []
  | [first] => [first]
  | first :: _ :: rest => first :: evenMembers rest

/-- The path of a list by pairs. A member without a partner falls away. -/
def pairs : List String → List (String × String)
  | first :: second :: rest => (first, second) :: pairs rest
  | _ => []

/-- The declaration path of a space leaves out the row keys. -/
def declarationPath (space : ModuleSpace) : List String :=
  evenMembers space.components

/-- The steps to the containing row of a space. -/
def containingRowSteps (space : ModuleSpace) : Option (List (String × String)) :=
  let containing := space.components.dropLast
  if containing.length % 2 ≠ 0 then none else some (pairs containing)

end ModuleSpace

end Spaces

section Bindings

/-- What a `$use` handle binds to. -/
inductive UseSpec
  | parent
  | parentSurface (surface : String)
  | path (path : String)
  | peer (line interface : String) (major : Nat)
deriving DecidableEq

/-- The text before a separator and the text after it. -/
def splitOnce (separator : Char) (text : List Char) : Option (List Char × List Char) :=
  match text.dropWhile (· ≠ separator) with
  | [] => none
  | _ :: after => some (text.takeWhile (· ≠ separator), after)

/-- A peer requirement is spelled `line/interface@major`. -/
def parsePeer (spec : String) : Except ModuleError UseSpec :=
  match splitOnce '/' spec.toList with
  | none => .error (.invalidBinding spec)
  | some (line, rest) =>
    match splitOnce '@' rest with
    | none => .error (.invalidBinding spec)
    | some (interface, digits) =>
      match History.position (String.ofList digits) with
      | none => .error (.invalidBinding spec)
      | some major =>
        if line = [] ∨ interface = [] then .error (.invalidBinding spec)
        else .ok (.peer (String.ofList line) (String.ofList interface) major)

/-- The binding that a `$use` text spells. -/
def UseSpec.parse (spec : String) : Except ModuleError UseSpec :=
  if spec = "$parent" then .ok .parent
  else if "$parent.".toList.isPrefixOf spec.toList then
    let surface := String.ofList (spec.toList.drop "$parent.".length)
    if surface = "" then .error (.invalidBinding surface) else .ok (.parentSurface surface)
  else if "/".toList.isPrefixOf spec.toList then .ok (.path spec)
  else parsePeer spec

/-- A private dependency names a package line and a major. -/
structure DepSpec where
  line : String
  major : Nat

/-- The boundary bindings of an installed instance. A use is optional or required. -/
structure AdmittedBindings where
  config : Std.ExtTreeMap String Value compare
  uses : List (String × UseSpec × Bool)
  deps : List (String × DepSpec)

/-- A request to install an instance. It remembers the first malformed binding. -/
structure InstallRequest where
  name : String
  definition : String
  bindings : AdmittedBindings
  data : Option String
  error : Option ModuleError

/-- An admitted request. -/
structure AdmittedInstall where
  name : String
  definition : String
  bindings : AdmittedBindings
  data : Option String

namespace InstallRequest

/-- A request without bindings. -/
def new (name definition : String) : InstallRequest where
  name := name
  definition := definition
  bindings := ⟨∅, [], []⟩
  data := none
  error := none

/-- A request binds a handle, or it remembers that the binding is malformed. -/
def bindUse (request : InstallRequest) (handle spec : String) (free : Bool) : InstallRequest :=
  match UseSpec.parse spec with
  | .ok parsed =>
    { request with
      bindings := { request.bindings with uses := request.bindings.uses ++ [(handle, parsed, free)] } }
  | .error error => { request with error := some (request.error.getD error) }

/-- A request declares a required handle. -/
def useHandle (request : InstallRequest) (handle spec : String) : InstallRequest :=
  request.bindUse handle spec false

/-- A request is admitted when its bindings are well formed and its name is not empty. -/
def admitInstall (request : InstallRequest) : Except ModuleError AdmittedInstall :=
  match request.error with
  | some error => .error error
  | none =>
    if request.name = "" then .error .emptyName
    else .ok ⟨request.name, request.definition, request.bindings, request.data⟩

end InstallRequest

end Bindings

end Liasse.Modules

namespace Liasse.Modules

section Resolution

/-- What peer resolution reads of an enabled sibling. -/
structure SiblingInterface where
  name : String
  line : String
  major : Nat
  interfaces : List String

/-- A peer requirement names a handle, a package line, an interface and a major. -/
structure PeerUse where
  handle : String
  line : String
  interface : String
  major : Nat
  free : Bool
deriving DecidableEq

/-- A package of the line and the major that exposes the interface satisfies a requirement. -/
def PeerUse.Met (required : PeerUse) (line : String) (major : Nat) (interfaces : List String) : Prop :=
  line = required.line ∧ major = required.major ∧ required.interface ∈ interfaces

instance (required : PeerUse) (line : String) (major : Nat) (interfaces : List String) :
    Decidable (required.Met line major interfaces) :=
  inferInstanceAs (Decidable (_ ∧ _ ∧ _))

/-- A sibling satisfies a requirement. -/
def SiblingInterface.satisfies (sibling : SiblingInterface) (required : PeerUse) : Bool :=
  required.Met sibling.line sibling.major sibling.interfaces

/-- A handle with the name of the sibling that it is bound to. An absent optional peer has none. -/
structure ResolvedPeer where
  handle : String
  interface : String
  inst : Option String
  free : Bool
deriving DecidableEq

/-- The peer requirements among the bindings of an instance. -/
def AdmittedBindings.peerUses (bindings : AdmittedBindings) : List PeerUse :=
  bindings.uses.filterMap fun (handle, spec, free) =>
    match spec with
    | .peer line interface major => some ⟨handle, line, interface, major, free⟩
    | _ => none

/-- The path that an operator bound to a handle. -/
def explicitBinding (bindings : AdmittedBindings) (handle : String) : Option String :=
  bindings.uses.findSome? fun (name, spec, _) =>
    match spec with
    | .path path => if name = handle then some path else none
    | _ => none

/-- The sibling that a path names. -/
def siblingName (space : ModuleSpace) (path : String) : Option String :=
  let above := (space.path ++ "/").toList
  if above.isPrefixOf path.toList then
    let name := path.toList.drop above.length
    if name = [] ∨ '/' ∈ name then none else some (String.ofList name)
  else none

/-- An explicit binding names a sibling that satisfies the requirement. -/
def resolveExplicit (space : ModuleSpace) (required : PeerUse) (path : String)
    (siblings : List SiblingInterface) : Except ModuleError String :=
  match siblingName space path with
  | none => .error (.peerUnresolved required.handle
      s!"explicit binding `{path}` must name a sibling instance in the same module space `{space.path}`")
  | some name =>
    match siblings.find? fun sibling => sibling.name = name with
    | none => .error (.peerUnresolved required.handle
        s!"explicit binding names `{name}`, which is not an installed sibling in this space")
    | some sibling =>
      if sibling.satisfies required then .ok name
      else .error (.peerUnresolved required.handle
        s!"sibling `{name}` does not expose interface `{required.interface}` at major {required.major} on line `{required.line}`")

/-- The only candidate is bound. A handle without a candidate must be optional. -/
def resolveAuto (required : PeerUse) (siblings : List SiblingInterface) :
    Except ModuleError (Option String) :=
  match siblings.filter fun sibling => sibling.satisfies required with
  | [] =>
    if required.free then .ok none
    else .error (.peerUnresolved required.handle
      s!"no enabled sibling in the module space exposes interface `{required.interface}` at major {required.major} on line `{required.line}`")
  | [candidate] => .ok (some candidate.name)
  | _ => .error (.peerUnresolved required.handle
      "several compatible candidates require an explicit `$use` binding naming one sibling")

/-- The sibling of one requirement. -/
def resolveOne (space : ModuleSpace) (bindings : AdmittedBindings) (siblings : List SiblingInterface)
    (required : PeerUse) : Except ModuleError ResolvedPeer :=
  match explicitBinding bindings required.handle with
  | some path =>
    match resolveExplicit space required path siblings with
    | .error error => .error error
    | .ok name => .ok ⟨required.handle, required.interface, some name, required.free⟩
  | none =>
    match resolveAuto required siblings with
    | .error error => .error error
    | .ok inst => .ok ⟨required.handle, required.interface, inst, required.free⟩

/-- The siblings of some requirements in order. -/
def resolveAll (space : ModuleSpace) (bindings : AdmittedBindings) (siblings : List SiblingInterface) :
    List PeerUse → Except ModuleError (List ResolvedPeer)
  | [] => .ok []
  | required :: rest =>
    match resolveOne space bindings siblings required with
    | .error error => .error error
    | .ok peer =>
      match resolveAll space bindings siblings rest with
      | .error error => .error error
      | .ok peers => .ok (peer :: peers)

/-- Every peer requirement of an instance is resolved among its siblings. -/
def resolve (space : ModuleSpace) (bindings : AdmittedBindings) (siblings : List SiblingInterface) :
    Except ModuleError (List ResolvedPeer) :=
  resolveAll space bindings siblings bindings.peerUses

/-- A resolved handle names a sibling that satisfies its requirement, or it is absent. -/
structure Resolves (siblings : List SiblingInterface) (required : PeerUse) (peer : ResolvedPeer) : Prop where
  handle : peer.handle = required.handle
  interface : peer.interface = required.interface
  sibling : ∀ name, peer.inst = some name →
    ∃ sibling ∈ siblings, sibling.name = name ∧ sibling.satisfies required

theorem resolveOne_ok {space : ModuleSpace} {bindings : AdmittedBindings}
    {siblings : List SiblingInterface} {required : PeerUse} {peer : ResolvedPeer}
    (resolved : resolveOne space bindings siblings required = .ok peer) :
    Resolves siblings required peer := by
  rw [resolveOne] at resolved
  split at resolved
  next path _ =>
    split at resolved
    next => cases resolved
    next name named =>
      cases resolved
      rw [resolveExplicit] at named
      split at named
      next => cases named
      next =>
        split at named
        next => cases named
        next sibling found =>
          split at named
          next satisfied =>
            cases named
            refine ⟨rfl, rfl, fun other same => ?_⟩
            cases same
            exact ⟨sibling, List.mem_of_find?_eq_some found, by simpa using List.find?_some found, satisfied⟩
          next => cases named
  next =>
    split at resolved
    next => cases resolved
    next inst auto =>
      cases resolved
      refine ⟨rfl, rfl, fun name same => ?_⟩
      dsimp only at same
      subst same
      rw [resolveAuto] at auto
      split at auto
      next => split at auto <;> cases auto
      next candidate only =>
        cases auto
        have inside : candidate ∈ siblings.filter fun sibling => sibling.satisfies required := by
          rw [only]
          exact List.mem_singleton_self _
        obtain ⟨listed, satisfied⟩ := List.mem_filter.mp inside
        exact ⟨candidate, listed, rfl, satisfied⟩
      next => cases auto

/-- The resolved handles of an instance answer its requirements one by one. -/
theorem resolve_ok {space : ModuleSpace} {bindings : AdmittedBindings}
    {siblings : List SiblingInterface} {peers : List ResolvedPeer}
    (resolved : resolve space bindings siblings = .ok peers) :
    List.Forall₂ (Resolves siblings) bindings.peerUses peers := by
  have each : ∀ uses peers, resolveAll space bindings siblings uses = .ok peers →
      List.Forall₂ (Resolves siblings) uses peers := by
    intro uses
    induction uses with
    | nil =>
      intro peers resolved
      cases resolved
      exact .nil
    | cons required rest ih =>
      intro peers resolved
      rw [resolveAll] at resolved
      split at resolved
      next => cases resolved
      next peer one =>
        split at resolved
        next => cases resolved
        next others all =>
          cases resolved
          exact .cons (resolveOne_ok one) (ih others all)
  exact each _ _ resolved

end Resolution

end Liasse.Modules
