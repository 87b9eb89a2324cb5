/-
This file defines the requests that reach a surface host, the outcomes that it reports and the engine below it. It models
how a credential is resolved to an actor with a role.
-/

import Liasse.Live.Watch
import Liasse.Value.Basic
import Liasse.Value.Total

namespace Liasse.Surface

open Live

section Outcomes

/-- The classes in which the surface layer refuses a request. -/
inductive DenialReason
  | unresolved
  | unauthenticated
  | authenticatorNotAccepted
  | authenticatorMissing
  | unverified
  | checkFailed
  | sessionInvalid
  | actorUnresolved
  | malformed
deriving DecidableEq

/-- A refusal of the surface layer. -/
structure Denial where
  reason : DenialReason
  message : String
deriving DecidableEq

/-- The classes in which admission refuses a request. -/
inductive RejectionReason
  | assertion
  | check
  | duplicateKey
  | danglingRef
  | uniqueness
  | typeError
  | missingTarget
  | restricted
  | evaluation
  | malformed
  | host
  | compatibility
  | unsupported
deriving DecidableEq

/-- A refusal of admission. -/
structure Rejection where
  reason : RejectionReason
  message : String
  path : Option String
deriving DecidableEq

/-- A refusal without a path. -/
def Rejection.new (reason : RejectionReason) (message : String) : Rejection :=
  ⟨reason, message, none⟩

/-- What the engine reports of an admitted call. -/
inductive CallOutcome (Response : Type)
  | committed (seq : Nat) (response : Option Response)
  | unchanged (response : Option Response)
  | rejected (rejection : Rejection)

/-- What the surface host reports of a call. -/
inductive SurfaceOutcome (Response : Type)
  | committed (frontier commit : Nat) (response : Option Response)
  | unchanged (frontier : Nat) (response : Option Response)
  | rejected (rejection : Rejection)
  | denied (denial : Denial)
deriving DecidableEq

/-- The commit of a committed outcome. -/
def SurfaceOutcome.commit {Response : Type} : SurfaceOutcome Response → Option Nat
  | .committed _ commit _ => some commit
  | _ => none

/-- A fault of the host is not an outcome. -/
inductive SurfaceError (Fault : Type)
  | noConnection (id : String)
  | engine (fault : Fault)

end Outcomes

section Addresses

/-- The authority under which an address is scoped. -/
inductive Authority
  | publicSurface
  | role (name : String)
deriving DecidableEq

/-- An address names a surface and, for a call, a member of it. -/
structure SurfaceAddress where
  authority : Authority
  surface : String
  call : Option String

/-- The address without its call. -/
def SurfaceAddress.surfacePrefix (address : SurfaceAddress) : String :=
  match address.authority with
  | .publicSurface => "public." ++ address.surface
  | .role name => name ++ "." ++ address.surface

/-- An authenticator and the credential for it. -/
structure AuthSelection where
  auth : String
  credential : Value

/-- The arguments of a request by name. -/
abbrev Arguments := Std.ExtTreeMap String Value

/-- A call of a surface mutation. -/
structure SurfaceCall where
  address : SurfaceAddress
  args : Arguments
  operationId : Option String
  auth : Option AuthSelection
  context : Option String
  scope : List Value
  descendant : List Value

/-- A request that opens a live subscription. -/
structure SurfaceWatch (RowId : Type) where
  address : SurfaceAddress
  id : String
  args : Arguments
  auth : Option AuthSelection
  context : Option String
  scope : List Value
  window : Option (Window RowId Value)

/-- A request that opens a subscription again from an earlier frontier. -/
structure SurfaceResume where
  address : SurfaceAddress
  id : String
  start : Nat
  args : Arguments
  auth : Option AuthSelection
  context : Option String

end Addresses

section Engine

/-- The request that the engine admits. -/
structure CallRequest where
  mutation : String
  receiver : List Value
  receiverPath : Option (List String)
  args : Arguments
  actor : Option Value
  session : Option Value

/-- The bindings under which the engine evaluates a view. -/
structure ViewQuery where
  params : Arguments
  actor : Option Value
  session : Option Value
  scope : List Value

/-- The row that an addressed call of a scoped role mutates. -/
structure ScopedReceiver where
  path : List String
  key : List Value

/-- How an address resolves against the coverage of the scoped roles. -/
inductive ScopedResolution
  | unscoped
  | denied
  | receiver (receiver : ScopedReceiver)

/-- The engine below a surface host. A read does not change the engine. A call changes it and draws from
the entropy. -/
structure Runtime where
  Engine : Type
  Hydrated : Type
  Entropy : Type
  Fault : Type
  Response : Type
  RowId : Type
  head : Engine → Except Fault Nat
  call : Engine → CallRequest → Timestamp → Entropy →
    Engine × Entropy × Except Fault (CallOutcome Response)
  viewAtHead : Engine → String → Except Fault (Option (ViewResult RowId Value))
  viewWith : Engine → String → Nat → ViewQuery → Except Fault (Option (ViewResult RowId Value))
  hydrate : Engine → Nat → Except Fault Hydrated
  viewWithHydrated : Engine → String → Hydrated → ViewQuery →
    Except Fault (Option (ViewResult RowId Value))
  scopedReceiver : Engine → String → Nat → Value → List Value → List Value →
    Except Fault ScopedResolution
  surfaceViewParams : Engine → String → List String
  rowIdentity : Value → Option RowId

end Engine

section Rows

/-- The values are one value of the runtime. -/
def sameValue (first second : Value) : Bool :=
  first.cmp second = .eq

/-- The application key of a scalar reference is the key of its target. -/
def applicationKey : Value → Value
  | .ref (.scalar key) => key
  | value => value

/-- The identity that a value with several key components names. -/
def compositeIdentity : Value → Option Value
  | .composite components => some (.composite components)
  | .ref (.composite components) => some (.composite components)
  | _ => none

/-- The committed state that authentication reads, at one instant. -/
structure StateReader (rt : Runtime) where
  view : String → Except rt.Fault (Option (ViewResult rt.RowId Value))
  now : Timestamp

/-- The reader of the state of an engine. -/
def engineReader (rt : Runtime) (engine : rt.Engine) (now : Timestamp) : StateReader rt :=
  ⟨rt.viewAtHead engine, now⟩

/-- A view and the field of its rows that holds their key. -/
structure RowSource where
  view : String
  keyField : String

/-- The rows that carry a key are none, one or several. -/
inductive RowLookup (RowId : Type)
  | missing
  | found (row : ViewRow RowId Value)
  | ambiguous

/-- The only row of a list. -/
def RowLookup.ofRows {RowId : Type} : List (ViewRow RowId Value) → RowLookup RowId
  | [] => .missing
  | [row] => .found row
  | _ => .ambiguous

/-- The value of a field of a row. -/
def fieldOf {RowId : Type} (row : ViewRow RowId Value) (name : String) : Option Value :=
  row.fields.lookup name

/-- The field of a row carries the key, up to references. -/
def carries {RowId : Type} (row : ViewRow RowId Value) (name : String) (key : Value) : Bool :=
  match fieldOf row name with
  | some value => sameValue (applicationKey value) (applicationKey key)
  | none => false

variable {rt : Runtime} [DecidableEq rt.RowId]

namespace RowSource

/-- The rows of a result that carry a key. A composite key is the identity of its row. -/
def rowsOf (source : RowSource) (result : ViewResult rt.RowId Value) (key : Value) :
    List (ViewRow rt.RowId Value) :=
  match compositeIdentity key with
  | some identity =>
    match rt.rowIdentity identity with
    | some target => result.viewRows.filter fun row => row.id = target
    | none => []
  | none => result.viewRows.filter fun row => carries row source.keyField key

/-- The only row that carries a key. There is none where the view is not declared. -/
def resolve (source : RowSource) (reader : StateReader rt) (key : Value) :
    Except rt.Fault (RowLookup rt.RowId) := do
  match ← reader.view source.view with
  | none => return .missing
  | some result => return .ofRows (source.rowsOf result key)

omit [DecidableEq rt.RowId] in
/-- The key of a row that was found under a key. -/
def matchedKey (source : RowSource) (row : ViewRow rt.RowId Value) (key : Value) : Value :=
  (compositeIdentity key).getD ((fieldOf row source.keyField).getD key)

/-- Some row of a result carries a key. -/
def contains (source : RowSource) (result : ViewResult rt.RowId Value) (key : Value) : Bool :=
  !(source.rowsOf result key).isEmpty

omit [DecidableEq rt.RowId] in
/-- Some row of a result carries a key under a scope. -/
def containsScoped (source : RowSource) (result : ViewResult rt.RowId Value) (scopeField : String)
    (scopeKey actor : Value) : Bool :=
  result.viewRows.any fun row =>
    carries row scopeField scopeKey && carries row source.keyField actor

end RowSource

end Rows

section Authenticators

/-- What a verified credential claims. -/
structure Claims where
  auth : String
  session : Option Value
  account : Option Value

/-- A session that an authenticator resolved. -/
structure Session where
  key : Value
  expiresAt : Option Timestamp
  revoked : Bool

/-- A session is active until it is revoked or expires. -/
def Session.isActiveAt (session : Session) (now : Timestamp) : Bool :=
  !session.revoked && session.expiresAt.all fun limit => now.cmp limit = .lt

/-- What an authenticator resolved a credential to. -/
structure AuthContext where
  authName : String
  actor : Value
  session : Option Session

/-- The rows of the sessions and their fields. -/
structure SessionSource where
  rows : RowSource
  accountField : String
  expiresField : String
  revokedField : String

/-- An authenticator verifies a credential and resolves its rows. It may have sessions. -/
structure SessionAuthenticator where
  name : String
  verify : Value → Except String Claims
  session : Option SessionSource
  accounts : RowSource

variable {rt : Runtime} [DecidableEq rt.RowId]

/-- The expiry of a session row. A row without one does not expire. -/
def expiryOf {RowId : Type} (row : ViewRow RowId Value) (field : String) :
    Except Denial (Option Timestamp) :=
  match fieldOf row field with
  | some (.timestamp instant) => .ok (some instant)
  | none | some .none => .ok none
  | some _ => .error ⟨.sessionInvalid, "the session expiry is not a timestamp"⟩

/-- A session row is revoked when its field is true. -/
def revokedOf {RowId : Type} (row : ViewRow RowId Value) (field : String) : Bool :=
  match fieldOf row field with
  | some (.bool true) => true
  | _ => false

/-- The active session of a key and its account. -/
def SessionSource.resolve (source : SessionSource) (reader : StateReader rt) (key : Value) :
    Except Denial (Session × Value) :=
  match source.rows.resolve reader key with
  | .ok (.found row) => do
      let expiresAt ← expiryOf row source.expiresField
      let revoked := revokedOf row source.revokedField
      let some account := fieldOf row source.accountField
        | .error ⟨.sessionInvalid, "the session names no account"⟩
      let session : Session := ⟨key, expiresAt, revoked⟩
      if session.isActiveAt reader.now then
        return (session, account)
      else
        .error ⟨.sessionInvalid, "the session is revoked or expired"⟩
  | .ok .missing => .error ⟨.sessionInvalid, "no session matches the proof"⟩
  | .ok .ambiguous => .error ⟨.sessionInvalid, "the session key is ambiguous"⟩
  | .error _ => .error ⟨.sessionInvalid, "the session store is unreadable"⟩

namespace SessionAuthenticator

/-- The actor of an account. -/
def actor (authenticator : SessionAuthenticator) (reader : StateReader rt) (account : Value) :
    Except Denial Value :=
  match authenticator.accounts.resolve reader account with
  | .ok (.found row) => .ok (authenticator.accounts.matchedKey row account)
  | .ok .missing => .error ⟨.actorUnresolved, "no account matches the proof"⟩
  | .ok .ambiguous => .error ⟨.actorUnresolved, "the account key is ambiguous"⟩
  | .error _ => .error ⟨.actorUnresolved, "the account store is unreadable"⟩

/-- The proof must name the authenticator. -/
def bound (authenticator : SessionAuthenticator) (claims : Claims) : Except Denial Unit :=
  if claims.auth = authenticator.name then
    .ok ()
  else
    .error ⟨.checkFailed, "the proof is not bound to the selected authenticator"⟩

/-- The context of a credential. -/
def resolve (authenticator : SessionAuthenticator) (credential : Value) (reader : StateReader rt) :
    Except Denial AuthContext := do
  let claims ← (authenticator.verify credential).mapError fun message => ⟨.unverified, message⟩
  authenticator.bound claims
  match authenticator.session with
  | some source =>
    let some key := claims.session
      | .error ⟨.sessionInvalid, "the proof carries no session key"⟩
    let (session, account) ← source.resolve reader key
    let actor ← authenticator.actor reader account
    return ⟨authenticator.name, actor, some session⟩
  | none =>
    let some account := claims.account
      | .error ⟨.actorUnresolved, "the proof carries no account key"⟩
    let actor ← authenticator.actor reader account
    return ⟨authenticator.name, actor, none⟩

end SessionAuthenticator

end Authenticators

section Roles

/-- A role accepts some authenticators, and a view lists its members. The members of a scoped role are
listed with their scope. -/
structure Role where
  name : String
  accepted : List String
  members : RowSource
  scopeField : Option String

variable {rt : Runtime} [DecidableEq rt.RowId]

namespace Role

/-- The role accepts an authenticator. -/
def accepts (role : Role) (auth : String) : Bool :=
  role.accepted.any (· = auth)

/-- The actor holds the role for a scope. -/
def holds (role : Role) (actor : Value) (scope : List Value) (reader : StateReader rt) :
    Except rt.Fault Bool := do
  let some result ← reader.view role.members.view | return false
  match role.scopeField, scope.head? with
  | some scopeField, some scopeKey =>
    return role.members.containsScoped result scopeField scopeKey actor
  | some _, none => return false
  | none, _ => return role.members.contains result actor

/-- The actor holds the role for some scope. -/
def holdsAnywhere (role : Role) (actor : Value) (reader : StateReader rt) : Except rt.Fault Bool := do
  let some result ← reader.view role.members.view | return false
  return role.members.contains result actor

end Role

/-- The mutation of a call and the roles of its arguments. -/
structure CallBinding where
  mutation : String
  receiver : List String
  params : List String
  blobs : List String

/-- What a surface exposes. -/
structure SurfaceBinding where
  view : Option String
  calls : Std.ExtTreeMap String CallBinding

/-- A role and the surfaces that it grants. -/
structure RoleGrant where
  role : Role
  surfaces : Std.ExtTreeMap String SurfaceBinding

/-- The surfaces that a host exposes and its authenticators. -/
structure SurfaceRouter where
  publicSurfaces : Std.ExtTreeMap String SurfaceBinding
  roles : Std.ExtTreeMap String RoleGrant
  authenticators : Std.ExtTreeMap String SessionAuthenticator

namespace SurfaceRouter

/-- The refusal of an address that the router does not expose. -/
def unresolved : Denial :=
  ⟨.unresolved, "the address names no exposed surface"⟩

/-- The role of a name. -/
def role (router : SurfaceRouter) (name : String) : Option Role :=
  router.roles[name]?.map RoleGrant.role

/-- The call that an address names among some surfaces. -/
def callIn (surfaces : Std.ExtTreeMap String SurfaceBinding) (address : SurfaceAddress) :
    Except Denial CallBinding :=
  match surfaces[address.surface]? with
  | none => .error unresolved
  | some surface =>
    match address.call with
    | none => .error unresolved
    | some call =>
      match surface.calls[call]? with
      | none => .error unresolved
      | some binding => .ok binding

/-- The view that an address names among some surfaces. The address of a call names no view. -/
def viewIn (surfaces : Std.ExtTreeMap String SurfaceBinding) (address : SurfaceAddress) :
    Except Denial String :=
  match surfaces[address.surface]? with
  | none => .error unresolved
  | some surface =>
    match surface.view with
    | none => .error unresolved
    | some view => .ok view

/-- The public call of an address. -/
def publicCall (router : SurfaceRouter) (address : SurfaceAddress) : Except Denial CallBinding :=
  callIn router.publicSurfaces address

/-- The call of an address under a role. -/
def roleCall (router : SurfaceRouter) (role : String) (address : SurfaceAddress) :
    Except Denial CallBinding :=
  match router.roles[role]? with
  | none => .error unresolved
  | some grant => callIn grant.surfaces address

/-- The public view of an address. -/
def publicView (router : SurfaceRouter) (address : SurfaceAddress) : Except Denial String :=
  if address.call.isSome then .error unresolved else viewIn router.publicSurfaces address

/-- The view of an address under a role. -/
def roleView (router : SurfaceRouter) (role : String) (address : SurfaceAddress) :
    Except Denial String :=
  if address.call.isSome then
    .error unresolved
  else
    match router.roles[role]? with
    | none => .error unresolved
    | some grant => viewIn grant.surfaces address

end SurfaceRouter

end Roles

end Liasse.Surface
