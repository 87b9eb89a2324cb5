/-
This file models the surface host: its connections, the completion barrier, the retained operations and the requests that
it serves, which are a call, a subscription, a resume and an authentication.
-/

import Liasse.Surface.Authn

namespace Liasse.Surface

open Live

section State

/-- A selection that is bound on a connection, with the role that it authenticated against and whether its
actor was a member of that role. -/
structure BoundContext where
  role : String
  member : Bool
  selection : AuthSelection

/-- The authority under which a subscription runs. -/
structure WatchAuthz where
  context : Option String
  role : Option String
  selection : Option AuthSelection

/-- A live subscription of a connection. -/
structure OpenWatch (rt : Runtime) where
  view : String
  authz : WatchAuthz
  args : Arguments
  scope : List Value
  live : Watch rt.RowId Value
  closed : Option String

/-- A logical connection. -/
structure Connection (rt : Runtime) where
  frontier : Nat
  contexts : Std.ExtTreeMap String BoundContext
  watches : Std.ExtTreeMap String (OpenWatch rt)

/-- The scope of a retained operation. -/
structure OperationKey where
  target : String
  auth : Option String
  id : String
deriving DecidableEq

/-- The request that an operation is compared by. -/
structure RequestModel where
  mutation : String
  receiver : List Value
  args : Arguments

/-- The request that an operation executed and its outcome. -/
structure OperationRecord (Response : Type) where
  request : RequestModel
  outcome : SurfaceOutcome Response

/-- The retained operations by key. -/
abbrev OperationLog (Response : Type) := OperationKey → Option (OperationRecord Response)

/-- The state of a surface host. -/
structure SurfaceHost (rt : Runtime) where
  engine : rt.Engine
  router : SurfaceRouter
  clock : Timestamp
  entropy : rt.Entropy
  connections : Std.ExtTreeMap String (Connection rt)
  operations : OperationLog rt.Response

end State

section Operations

/-- The name of the context that a request uses when it names none. -/
def defaultContext : String := "default"

namespace Connection

variable {rt : Runtime}

/-- The frontier never moves back. -/
def advanceFrontier (connection : Connection rt) (seq : Nat) : Connection rt :=
  if seq > connection.frontier then { connection with frontier := seq } else connection

/-- The selection that a request uses. -/
def selectContext (connection : Connection rt) (name : Option String) : Option AuthSelection :=
  connection.contexts[name.getD defaultContext]?.map BoundContext.selection

/-- The selected context has authority over a role. -/
def establishes (connection : Connection rt) (name : Option String) (role : String) : Bool :=
  connection.contexts[name.getD defaultContext]?.any fun bound => bound.member && bound.role = role

/-- A subscription closes for a reason. It drops its rows. -/
def closeWatch (connection : Connection rt) (id : String) (watch : OpenWatch rt) (reason : String) :
    Connection rt :=
  { connection with
    watches := connection.watches.insert id
      { watch with
        live := { watch.live with last := none, windowed := none }
        closed := some reason } }

end Connection

namespace RequestModel

/-- Two requests are equivalent when their parts are equal. -/
def same (first second : RequestModel) : Bool :=
  first.mutation = second.mutation &&
    first.receiver.compareLex Value.cmp second.receiver = .eq &&
    first.args.toList.compareLex
      (fun left right => (compareText left.1 right.1).then (left.2.cmp right.2))
      second.args.toList = .eq

end RequestModel

/-- How a submission with an operation identifier is treated. -/
inductive Dedup (Response : Type)
  | fresh
  | replay (outcome : SurfaceOutcome Response)
  | conflict

namespace OperationLog

variable {Response : Type}

/-- The treatment of a request under a key. -/
def decide (log : OperationLog Response) (key : OperationKey) (request : RequestModel) :
    Dedup Response :=
  match log key with
  | none => .fresh
  | some record => if record.request.same request then .replay record.outcome else .conflict

/-- A completed outcome is retained. A denial is not. -/
def record (log : OperationLog Response) (key : OperationKey) (request : RequestModel)
    (outcome : SurfaceOutcome Response) : OperationLog Response :=
  match outcome with
  | .denied _ => log
  | _ => Function.update log key (some ⟨request, outcome⟩)

end OperationLog

end Operations

section Barrier

/-- A state changes step by step until a step fails. The change of the failed step stays. -/
def visitAll {σ α ε : Type} (step : σ → α → σ × Except ε Unit) : σ → List α → σ × Except ε Unit
  | state, [] => (state, .ok ())
  | state, item :: rest =>
    match step state item with
    | (state, .ok _) => visitAll step state rest
    | (state, .error fault) => (state, .error fault)

/-- The bindings of a view query from the arguments, the identity and the scope of a subscription. -/
def viewQuery (args : Arguments) (context : Option AuthContext) (scope : List Value) : ViewQuery :=
  ⟨args, context.map AuthContext.actor, context.bind fun known => known.session.map Session.key, scope⟩

/-- The parts of a host that the barrier only reads. -/
structure Barrier (rt : Runtime) where
  engine : rt.Engine
  router : SurfaceRouter
  now : Timestamp

namespace Barrier

variable {rt : Runtime} [DecidableEq rt.RowId]

/-- The context under which a subscription is still authorized. A public subscription has none. -/
def authorized (barrier : Barrier rt) (authz : WatchAuthz) (scope : List Value)
    (connection : Connection rt) : Except rt.Fault (Option (Option AuthContext)) := do
  let some roleName := authz.role | return some none
  let some selection := authz.selection <|>
      authz.context.bind fun name => connection.contexts[name]?.map BoundContext.selection
    | return none
  let some role := barrier.router.role roleName | return none
  if !role.accepts selection.auth then
    return none
  let some authenticator := barrier.router.authenticators[selection.auth]? | return none
  let reader := engineReader rt barrier.engine barrier.now
  match authenticator.resolve selection.credential reader with
  | .error _ => return none
  | .ok context =>
    if ← role.holds context.actor scope reader then
      return some (some context)
    else
      return none

/-- One subscription of a peer closes when it has lost its authority. -/
def closeOne (barrier : Barrier rt) (connection : Connection rt) (id : String) :
    Connection rt × Except rt.Fault Unit :=
  match connection.watches[id]? with
  | none => (connection, .ok ())
  | some watch =>
    if watch.closed.isSome then
      (connection, .ok ())
    else
      match barrier.authorized watch.authz watch.scope connection with
      | .error fault => (connection, .error fault)
      | .ok none => (connection.closeWatch id watch "authority removed at frontier", .ok ())
      | .ok (some _) => (connection, .ok ())

/-- The subscriptions of a peer that have lost their authority close. -/
def closeLostAuthority (barrier : Barrier rt) (connection : Connection rt) :
    Connection rt × Except rt.Fault Unit :=
  visitAll barrier.closeOne connection connection.watches.keys

variable [Ord rt.RowId] [DecidableEq Value]

/-- One subscription advances through a frontier, or closes. -/
def advanceOne (barrier : Barrier rt) (frontier : Nat) (connection : Connection rt) (id : String) :
    Connection rt × Except rt.Fault Unit :=
  match connection.watches[id]? with
  | none => (connection, .ok ())
  | some watch =>
    if watch.closed.isSome then
      (connection, .ok ())
    else
      match barrier.authorized watch.authz watch.scope connection with
      | .error fault => (connection, .error fault)
      | .ok none => (connection.closeWatch id watch "authority removed at frontier", .ok ())
      | .ok (some context) =>
        let query := viewQuery watch.args context watch.scope
        match rt.hydrate barrier.engine frontier with
        | .error fault => (connection, .error fault)
        | .ok hydrated =>
          match rt.viewWithHydrated barrier.engine watch.view hydrated query with
          | .error fault => (connection, .error fault)
          | .ok none => (connection.closeWatch id watch "surface removed at frontier", .ok ())
          | .ok (some result) =>
            let live := (watch.live.advance result frontier).1
            ({ connection with watches := connection.watches.insert id { watch with live } },
              .ok ())

/-- Each subscription of a connection advances through a frontier. -/
def sweep (barrier : Barrier rt) (connection : Connection rt) (frontier : Nat) :
    Connection rt × Except rt.Fault Unit :=
  visitAll (barrier.advanceOne frontier) connection connection.watches.keys

end Barrier

end Barrier

/-- The refusal of every name that is not served to a caller. -/
def unresolvedName : Denial :=
  ⟨.unresolved, "the address names nothing exposed to this caller"⟩

/-- A refusal over a role that the caller has no authority over is the refusal of a name that does not
exist. -/
def hideUnenumerableDenial (authority : Authority) (established : Bool) (denial : Denial) : Denial :=
  match authority with
  | .role _ => if !established && denial.reason ≠ .unresolved then unresolvedName else denial
  | .publicSurface => denial

/-- The arguments of a call must be declared, where the mutation declares any. -/
def closedCallArgs (binding : CallBinding) (args : Arguments) : Except Rejection Unit :=
  let declared := binding.receiver ++ binding.params ++ binding.blobs
  if declared.isEmpty then
    .ok ()
  else
    match args.keys.find? fun name => !declared.contains name with
    | some member =>
      .error (.new .malformed
        ("argument `" ++ member ++ "` is not a declared parameter of this mutation (§12.1)"))
    | none => .ok ()

/-- The receiver key of a call from its arguments. -/
def receiverOf (args : Arguments) : List String → Except Rejection (List Value)
  | [] => .ok []
  | name :: rest =>
    match args[name]? with
    | none => .error (.new .malformed ("missing receiver argument `" ++ name ++ "`"))
    | some value => do return value :: (← receiverOf args rest)

/-- The parameters of a mutation that a call supplies. -/
def boundParams (args : Arguments) (params : List String) : Arguments :=
  params.foldl (fun bound name =>
    match args[name]? with
    | some value => bound.insert name value
    | none => bound) ∅

/-- The request for the engine and the request that the operation is compared by. -/
def buildRequest (binding : CallBinding) (args : Arguments) (context : Option AuthContext)
    (addressed : Option ScopedReceiver) : Except Rejection (CallRequest × RequestModel) := do
  let receiver ←
    match addressed with
    | some row => Except.ok row.key
    | none => receiverOf args binding.receiver
  let request : CallRequest :=
    { mutation := binding.mutation
      receiver
      receiverPath := addressed.map ScopedReceiver.path
      args := boundParams args binding.params
      actor := context.map AuthContext.actor
      session := context.bind fun known => known.session.map Session.key }
  return (request, ⟨binding.mutation, receiver, args⟩)

namespace SurfaceHost

variable {rt : Runtime} [DecidableEq rt.RowId]

section Authorization

/-- The selection must be accepted by the role and must resolve to a context. -/
def verifySelection (host : SurfaceHost rt) (role : Role) (selection : AuthSelection) :
    Except Denial AuthContext :=
  if !role.accepts selection.auth then
    .error ⟨.authenticatorNotAccepted, "the targeted role does not accept this authenticator"⟩
  else
    match host.router.authenticators[selection.auth]? with
    | none => .error ⟨.authenticatorNotAccepted, "the named authenticator is not declared"⟩
    | some authenticator =>
      authenticator.resolve selection.credential (engineReader rt host.engine host.clock)

/-- The selection must verify, and its actor must hold the role for the scope. -/
def authorizeRole (host : SurfaceHost rt) (role : Role) (selection : AuthSelection)
    (scope : List Value) : Except Denial AuthContext := do
  let context ← host.verifySelection role selection
  match role.holds context.actor scope (engineReader rt host.engine host.clock) with
  | .ok true => return context
  | _ => .error unresolvedName

omit [DecidableEq rt.RowId] in
/-- The selection of a role request is its own or that of a bound context. -/
def callSelection (host : SurfaceHost rt) (id : String) (context : Option String)
    (auth : Option AuthSelection) : Except Denial AuthSelection :=
  match auth with
  | some selection => .ok selection
  | none =>
    match host.connections[id]? with
    | none => .error ⟨.unauthenticated, "the connection is not open"⟩
    | some connection =>
      match connection.selectContext context with
      | some selection => .ok selection
      | none => .error ⟨.unauthenticated, "a role surface requires an authenticated actor"⟩

omit [DecidableEq rt.RowId] in
/-- The request authorizes from a bound context that has authority over the role. -/
def established (host : SurfaceHost rt) (id : String) (context : Option String)
    (auth : Option AuthSelection) (role : String) : Bool :=
  auth.isNone && host.connections[id]?.any fun connection => connection.establishes context role

omit [DecidableEq rt.RowId] in
/-- The row that an addressed call of a scoped role mutates. -/
def resolveScopedReceiver (host : SurfaceHost rt) (call : SurfaceCall) (actor : Value) :
    Except Denial (Option ScopedReceiver) :=
  match rt.head host.engine with
  | .error _ => .error unresolvedName
  | .ok frontier =>
    match rt.scopedReceiver host.engine call.address.surfacePrefix frontier actor call.scope
        call.descendant with
    | .ok .unscoped => .ok none
    | .ok (.receiver receiver) => .ok (some receiver)
    | .ok .denied | .error _ => .error unresolvedName

/-- The context of a role request. A refusal is hidden from a caller without authority. -/
def authorizeRequest (host : SurfaceHost rt) (id role : String) (context : Option String)
    (auth : Option AuthSelection) (scope : List Value) : Except Denial AuthContext :=
  match host.router.role role with
  | none => .error unresolvedName
  | some roleDef => do
      let selection ← (host.callSelection id context auth).mapError
        (hideUnenumerableDenial (.role role) false)
      (host.authorizeRole roleDef selection scope).mapError
        (hideUnenumerableDenial (.role role) (host.established id context auth role))

end Authorization

section Calls

/-- The binding, the context and the receiver of a call. -/
def resolveCall (host : SurfaceHost rt) (id : String) (call : SurfaceCall) :
    Except (SurfaceOutcome rt.Response)
      (CallBinding × Option AuthContext × Option ScopedReceiver) :=
  match call.address.authority with
  | .publicSurface => do
      let binding ← (host.router.publicCall call.address).mapError .denied
      if call.auth.isSome then
        .error (.rejected (.new .malformed "a public address carries no authenticator selection"))
      else
        return (binding, none, none)
  | .role role => do
      let context ←
        (host.authorizeRequest id role call.context call.auth call.scope).mapError .denied
      let binding ← (host.router.roleCall role call.address).mapError .denied
      let receiver ← (host.resolveScopedReceiver call context.actor).mapError .denied
      return (binding, some context, receiver)

/-- A call that reaches the retained operations: its request, its model and its operation key. -/
structure Prepared where
  request : CallRequest
  model : RequestModel
  key : Option OperationKey

/-- The pipeline of a call up to the retained operations. -/
def prepare (host : SurfaceHost rt) (id : String) (call : SurfaceCall) :
    Except (SurfaceOutcome rt.Response) Prepared := do
  let (binding, context, receiver) ← host.resolveCall id call
  (closedCallArgs binding call.args).mapError .rejected
  let (request, model) ← (buildRequest binding call.args context receiver).mapError .rejected
  return ⟨request, model,
    call.operationId.map fun opid =>
      ⟨call.address.surfacePrefix, context.map AuthContext.authName, opid⟩⟩

omit [DecidableEq rt.RowId] in
/-- The parts of the host that its barrier reads. -/
def barrier (host : SurfaceHost rt) : Barrier rt :=
  ⟨host.engine, host.router, host.clock⟩

variable [Ord rt.RowId] [DecidableEq Value]

/-- A commit reaches one connection: the caller advances through it, and a peer loses the subscriptions
that it is no longer authorized for. The state is the connections and the frontier of the caller. -/
def settleOne (barrier : Barrier rt) (id : String) (seq : Nat)
    (state : Std.ExtTreeMap String (Connection rt) × Nat) (other : String) :
    (Std.ExtTreeMap String (Connection rt) × Nat) × Except rt.Fault Unit :=
  match state.1[other]? with
  | none => (state, .ok ())
  | some connection =>
    if other = id then
      let connection := connection.advanceFrontier seq
      let swept := barrier.sweep connection connection.frontier
      ((state.1.insert other swept.1, connection.frontier), swept.2)
    else
      let swept := barrier.closeLostAuthority connection
      ((state.1.insert other swept.1, state.2), swept.2)

/-- A commit settles on each connection. The result is the frontier of the caller. -/
def settleCommit (host : SurfaceHost rt) (id : String) (seq : Nat) :
    SurfaceHost rt × Except rt.Fault Nat :=
  let settled := visitAll (settleOne host.barrier id seq) (host.connections, seq) host.connections.keys
  ({ host with connections := settled.1.1 }, settled.2.map fun _ => settled.1.2)

/-- A retained outcome is observed again. A commit settles again on the connection. -/
def replay (host : SurfaceHost rt) (id : String) (outcome : SurfaceOutcome rt.Response) :
    SurfaceHost rt × Except (SurfaceError rt.Fault) (SurfaceOutcome rt.Response) :=
  match outcome.commit with
  | none => (host, .ok outcome)
  | some commit =>
    let settled := host.settleCommit id commit
    (settled.1, (settled.2.mapError .engine).map fun _ => outcome)

omit [DecidableEq rt.RowId] [Ord rt.RowId] [DecidableEq Value] in
/-- The engine runs a request. -/
def admitCall (host : SurfaceHost rt) (request : CallRequest) :
    SurfaceHost rt × Except rt.Fault (CallOutcome rt.Response) :=
  let (engine, entropy, result) := rt.call host.engine request host.clock host.entropy
  ({ host with engine, entropy }, result)

/-- The engine runs a request, and a commit settles. -/
def execute (host : SurfaceHost rt) (id : String) (request : CallRequest) :
    SurfaceHost rt × Except (SurfaceError rt.Fault) (SurfaceOutcome rt.Response) :=
  match host.admitCall request with
  | (host, .error fault) => (host, .error (.engine fault))
  | (host, .ok (.committed seq response)) =>
    let settled := host.settleCommit id seq
    (settled.1, (settled.2.mapError .engine).map fun frontier => .committed frontier seq response)
  | (host, .ok (.unchanged response)) =>
    match host.connections[id]? with
    | some connection => (host, .ok (.unchanged connection.frontier response))
    | none => (host, ((rt.head host.engine).mapError .engine).map fun head => .unchanged head response)
  | (host, .ok (.rejected rejection)) => (host, .ok (.rejected rejection))

omit [DecidableEq rt.RowId] [Ord rt.RowId] [DecidableEq Value] in
/-- The outcome of an executed operation is retained under its key. -/
def retain (host : SurfaceHost rt) (key : Option OperationKey) (model : RequestModel)
    (outcome : SurfaceOutcome rt.Response) : SurfaceHost rt :=
  match key with
  | some key => { host with operations := host.operations.record key model outcome }
  | none => host

/-- How the retained operations treat a call. A call without a key is always fresh. -/
def decision (host : SurfaceHost rt) (prepared : Prepared) : Dedup rt.Response :=
  match prepared.key with
  | some key => host.operations.decide key prepared.model
  | none => .fresh

/-- A call of a surface mutation on a connection. -/
def call (host : SurfaceHost rt) (id : String) (call : SurfaceCall) :
    SurfaceHost rt × Except (SurfaceError rt.Fault) (SurfaceOutcome rt.Response) :=
  if !host.connections.contains id then
    (host, .error (.noConnection id))
  else
    match host.prepare id call with
    | .error outcome => (host, .ok outcome)
    | .ok prepared =>
      match host.decision prepared with
      | .replay outcome => host.replay id outcome
      | .conflict =>
        (host, .ok (.rejected
          (.new .malformed "operation identifier reused with different request metadata")))
      | .fresh =>
        match host.execute id prepared.request with
        | (host, .error error) => (host, .error error)
        | (host, .ok outcome) => (host.retain prepared.key prepared.model outcome, .ok outcome)

end Calls

section Subscriptions

/-- The answer to a request for a subscription. -/
inductive Subscription (rt : Runtime)
  | init (result : ViewResult rt.RowId Value)
  | window (rows : List (ViewRow rt.RowId Value))
  | denied (denial : Denial)
  | failed (error : WindowError)

/-- The view, the authority and the context of a subscription. -/
def resolveView (host : SurfaceHost rt) (id : String) (address : SurfaceAddress)
    (context : Option String) (auth : Option AuthSelection) (scope : List Value) :
    Except Denial (String × WatchAuthz × Option AuthContext) :=
  match address.authority with
  | .publicSurface => do
      let view ← host.router.publicView address
      if auth.isSome then
        .error ⟨.authenticatorNotAccepted, "a public address carries no authenticator selection"⟩
      else
        return (view, ⟨none, none, none⟩, none)
  | .role role => do
      let known ← host.authorizeRequest id role context auth scope
      let view ← host.router.roleView role address
      return (view,
        ⟨some (context.getD defaultContext), (host.router.role role).map Role.name, auth⟩, some known)

omit [DecidableEq rt.RowId] in
/-- The arguments of a subscription must be declared, where the view declares any. -/
def closedViewArgs (host : SurfaceHost rt) (view : String) (args : Arguments) : Except Denial Unit :=
  let declared := rt.surfaceViewParams host.engine view
  if declared.isEmpty then
    .ok ()
  else
    match args.keys.find? fun name => !declared.contains name with
    | some member =>
      .error ⟨.malformed,
        "argument `" ++ member ++ "` is not a declared parameter of this view (§12.1)"⟩
    | none => .ok ()

variable [Ord rt.RowId] [DecidableEq Value]

omit [DecidableEq rt.RowId] [Ord rt.RowId] [DecidableEq Value] in
/-- A subscription joins a connection. -/
def installWatch (host : SurfaceHost rt) (id name : String) (watch : OpenWatch rt) : SurfaceHost rt :=
  match host.connections[id]? with
  | none => host
  | some connection =>
    { host with
      connections := host.connections.insert id
        { connection with watches := connection.watches.insert name watch } }

/-- A subscription opens with its first result. -/
def openSubscription (host : SurfaceHost rt) (id name view : String) (authz : WatchAuthz)
    (frontier : Nat) (window : Option (Window rt.RowId Value)) (args : Arguments) (query : ViewQuery) :
    SurfaceHost rt × Except (SurfaceError rt.Fault) (Subscription rt) :=
  match rt.viewWith host.engine view frontier query with
  | .error fault => (host, .error (.engine fault))
  | .ok none => (host, .ok (.denied unresolvedName))
  | .ok (some result) =>
    match window, result with
    | some _, .scalar _ => (host, .ok (.failed .scalarView))
    | _, _ =>
      match (Watch.opened window frontier).init result frontier with
      | .error error => (host, .ok (.failed error))
      | .ok (live, _) =>
        let host := host.installWatch id name ⟨view, authz, args, query.scope, live, none⟩
        match window with
        | some _ => (host, .ok (.window (live.windowed.getD [])))
        | none => (host, .ok (.init result))

/-- The steps that open a subscription and open it again. -/
def subscribe (host : SurfaceHost rt) (id name : String) (address : SurfaceAddress) (args : Arguments)
    (auth : Option AuthSelection) (context : Option String) (scope : List Value)
    (window : Option (Window rt.RowId Value)) :
    SurfaceHost rt × Except (SurfaceError rt.Fault) (Subscription rt) :=
  match host.connections[id]? with
  | none => (host, .error (.noConnection id))
  | some connection =>
    match host.resolveView id address context auth scope with
    | .error denial => (host, .ok (.denied denial))
    | .ok (view, authz, known) =>
      match host.closedViewArgs view args with
      | .error denial => (host, .ok (.denied denial))
      | .ok _ =>
        host.openSubscription id name view authz connection.frontier window args
          (viewQuery args known scope)

/-- A live subscription opens over a surface view. -/
def watch (host : SurfaceHost rt) (id : String) (watch : SurfaceWatch rt.RowId) :
    SurfaceHost rt × Except (SurfaceError rt.Fault) (Subscription rt) :=
  host.subscribe id watch.id watch.address watch.args watch.auth watch.context watch.scope watch.window

/-- A subscription opens again with a fresh result. It has no scope and no window. -/
def resume (host : SurfaceHost rt) (id : String) (resume : SurfaceResume) :
    SurfaceHost rt × Except (SurfaceError rt.Fault) (Subscription rt) :=
  host.subscribe id resume.id resume.address resume.args resume.auth resume.context [] none

end Subscriptions

section Connections

omit [DecidableEq rt.RowId] in
/-- A connection opens at the head of the engine. -/
def connect (host : SurfaceHost rt) (id : String) :
    SurfaceHost rt × Except (SurfaceError rt.Fault) Unit :=
  match rt.head host.engine with
  | .error fault => (host, .error (.engine fault))
  | .ok frontier => ({ host with connections := host.connections.insert id ⟨frontier, ∅, ∅⟩ }, .ok ())

/-- A selection that verifies against a role is bound on a connection. The context records whether its
actor is a member of the role now. -/
def authenticate (host : SurfaceHost rt) (id role context : String) (selection : AuthSelection) :
    SurfaceHost rt × Except (SurfaceError rt.Fault) (Except Denial Unit) :=
  match host.connections[id]? with
  | none => (host, .error (.noConnection id))
  | some connection =>
    match host.router.role role with
    | none => (host, .ok (.error ⟨.unresolved, "the address names no exposed role"⟩))
    | some roleDef =>
      match host.verifySelection roleDef selection with
      | .error denial => (host, .ok (.error denial))
      | .ok known =>
        let member :=
          match roleDef.holdsAnywhere known.actor (engineReader rt host.engine host.clock) with
          | .ok member => member
          | .error _ => false
        ({ host with
            connections := host.connections.insert id
              { connection with
                contexts := connection.contexts.insert context ⟨role, member, selection⟩ } },
          .ok (.ok ()))

end Connections

section Service

/-- The requests of clients that name a surface. -/
inductive Request (rt : Runtime)
  | call (call : SurfaceCall)
  | watch (watch : SurfaceWatch rt.RowId)
  | resume (resume : SurfaceResume)

/-- The answer to a request. -/
inductive Reply (rt : Runtime)
  | outcome (outcome : SurfaceOutcome rt.Response)
  | subscription (subscription : Subscription rt)

namespace Request

omit [DecidableEq rt.RowId]

/-- The address of a request. -/
def address : Request rt → SurfaceAddress
  | .call request => request.address
  | .watch request => request.address
  | .resume request => request.address

/-- The context that a request names. -/
def context : Request rt → Option String
  | .call request => request.context
  | .watch request => request.context
  | .resume request => request.context

/-- The selection that a request carries. -/
def auth : Request rt → Option AuthSelection
  | .call request => request.auth
  | .watch request => request.auth
  | .resume request => request.auth

/-- The scope that a request addresses. A resume addresses none. -/
def scope : Request rt → List Value
  | .call request => request.scope
  | .watch request => request.scope
  | .resume _ => []

/-- The reply that refuses a request. -/
def refusal (denial : Denial) : Request rt → Reply rt
  | .call _ => .outcome (.denied denial)
  | .watch _ | .resume _ => .subscription (.denied denial)

/-- The request asks for a call. -/
def isCall : Request rt → Bool
  | .call _ => true
  | .watch _ | .resume _ => false

end Request

variable [Ord rt.RowId] [DecidableEq Value]

/-- A host serves a request on a connection. -/
def serve (host : SurfaceHost rt) (id : String) :
    Request rt → SurfaceHost rt × Except (SurfaceError rt.Fault) (Reply rt)
  | .call request =>
    let (host, result) := host.call id request
    (host, result.map .outcome)
  | .watch request =>
    let (host, result) := host.watch id request
    (host, result.map .subscription)
  | .resume request =>
    let (host, result) := host.resume id request
    (host, result.map .subscription)

end Service

end SurfaceHost

end Liasse.Surface
