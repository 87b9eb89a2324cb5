/-
This file models what a client holds of its subscriptions, the effect of a downstream frame on it, and the session that
binds the subscriptions to the stream of the server.
-/

import Liasse.Live.Patch

namespace Liasse.Connect

open Liasse.Live (WireRow PatchOp ApplyError)

section Frames

/-- The reasons for which the server closes a subscription. -/
inductive CloseReason
  | unauthorized
  | unsubscribed
  | replaced
  | serverClosed
deriving DecidableEq

/-- The reasons for which the server resets a connection. -/
inductive ResetReason
  | unknownConnection
  | overflow
  | serverReset
deriving DecidableEq

/-- The classes of transport faults. -/
inductive FaultCode
  | badToken
  | malformed
  | oversized
  | internal
deriving DecidableEq

/-- The downstream frames of one connection. -/
inductive Frame (Sub Occ Value : Type)
  | init (sub : Sub) (rows : List (WireRow Occ Value))
  | scalar (sub : Sub) (value : Value)
  | patch (sub : Sub) (ops : List (PatchOp Occ Value))
  | close (sub : Sub) (reason : CloseReason)
  | frontier
  | reset (reason : ResetReason)
  | fault (code : FaultCode) (message : String)

end Frames

section Stores

/-- The observed state of one subscription. -/
inductive Phase (Occ Value : Type)
  | pending
  | rows (held : List (WireRow Occ Value))
  | scalar (value : Value)
  | closed (reason : CloseReason)
  | reset (reason : ResetReason)

/-- The reason for which a frame does not fit the state of its subscription. -/
inductive StoreError (Occ : Type)
  | notInitialized
  | shapeMismatch
  | notLive
  | apply (error : ApplyError Occ)

/-- The replica of one subscription with the frontier at which it was last observed. -/
structure WireStore (Occ Value : Type) where
  phase : Phase Occ Value
  frontier : Option String

namespace WireStore

variable {Occ Value : Type}

def new : WireStore Occ Value :=
  ⟨.pending, none⟩

/-- A closed or reset subscription is not live. -/
def isLive (store : WireStore Occ Value) : Bool :=
  match store.phase with
  | .closed _ => false
  | .reset _ => false
  | _ => true

def ensureLive (store : WireStore Occ Value) : Except (StoreError Occ) Unit :=
  if store.isLive then .ok ⟨⟩ else .error .notLive

def init (store : WireStore Occ Value) (rows : List (WireRow Occ Value)) (frontier : String) :
    Except (StoreError Occ) (WireStore Occ Value) :=
  store.ensureLive >>= fun _ => .ok ⟨.rows rows, some frontier⟩

def scalar (store : WireStore Occ Value) (value : Value) (frontier : String) :
    Except (StoreError Occ) (WireStore Occ Value) :=
  store.ensureLive >>= fun _ => .ok ⟨.scalar value, some frontier⟩

/-- A patch applies to rows only. -/
def patch [DecidableEq Occ] (store : WireStore Occ Value) (ops : List (PatchOp Occ Value)) (frontier : String) :
    Except (StoreError Occ) (WireStore Occ Value) :=
  match store.phase with
  | .rows held =>
    match Live.apply held ops with
    | .ok rows => .ok ⟨.rows rows, some frontier⟩
    | .error error => .error (.apply error)
  | .scalar _ => .error .shapeMismatch
  | .pending => .error .notInitialized
  | .closed _ => .error .notLive
  | .reset _ => .error .notLive

def advanceFrontier (store : WireStore Occ Value) (frontier : String) :
    Except (StoreError Occ) (WireStore Occ Value) :=
  store.ensureLive >>= fun _ => .ok { store with frontier := some frontier }

def close (store : WireStore Occ Value) (reason : CloseReason) : WireStore Occ Value :=
  { store with phase := .closed reason }

def reset (store : WireStore Occ Value) (reason : ResetReason) : WireStore Occ Value :=
  { store with phase := .reset reason }

end WireStore

end Stores

section Replicas

/-- The reason for which a frame is refused. -/
inductive CoreError (Sub Occ : Type)
  | notSubscribed (sub : Sub)
  | store (error : StoreError Occ)

/-- What a frame did to the replica. -/
inductive Applied (Sub : Type)
  | init (sub : Sub)
  | patch (sub : Sub)
  | scalar (sub : Sub)
  | close (sub : Sub)
  | frontier
  | reset
  | fault (code : FaultCode) (message : String)

/-- The replica of a connection. -/
structure ClientReplica (Sub Occ Value : Type) where
  subs : Sub → Option (WireStore Occ Value)
  frontier : Option String

namespace ClientReplica

variable {Sub Occ Value : Type} [DecidableEq Sub]

def new : ClientReplica Sub Occ Value :=
  ⟨fun _ => none, none⟩

/-- The store of a subscription, which a frame opens. -/
def entry (replica : ClientReplica Sub Occ Value) (sub : Sub) : WireStore Occ Value :=
  (replica.subs sub).getD .new

/-- A changed store takes its place, and the frontier of the connection advances. -/
def store (replica : ClientReplica Sub Occ Value) (sub : Sub) (frontier : String)
    (changed : Except (StoreError Occ) (WireStore Occ Value)) :
    Except (CoreError Sub Occ) (ClientReplica Sub Occ Value) :=
  match changed with
  | .ok store => .ok ⟨Function.update replica.subs sub (some store), some frontier⟩
  | .error error => .error (.store error)

/-- The frontier of the whole connection advances each live subscription. -/
def advance (frontier : String) (store : WireStore Occ Value) : WireStore Occ Value :=
  match store.advanceFrontier frontier with
  | .ok store => store
  | .error _ => store

/-- The effect of one frame with the frontier of its event. -/
def apply [DecidableEq Occ] (replica : ClientReplica Sub Occ Value) (frame : Frame Sub Occ Value)
    (frontier : String) : Except (CoreError Sub Occ) (ClientReplica Sub Occ Value × Applied Sub) :=
  match frame with
  | .init sub rows =>
    (replica.store sub frontier ((replica.entry sub).init rows frontier)).map fun replica => (replica, .init sub)
  | .scalar sub value =>
    (replica.store sub frontier ((replica.entry sub).scalar value frontier)).map fun replica =>
      (replica, .scalar sub)
  | .patch sub ops =>
    match replica.subs sub with
    | none => .error (.notSubscribed sub)
    | some store => (replica.store sub frontier (store.patch ops frontier)).map fun replica => (replica, .patch sub)
  | .close sub reason =>
    .ok (⟨Function.update replica.subs sub (some ((replica.entry sub).close reason)),
      if frontier = "" then replica.frontier else some frontier⟩, .close sub)
  | .frontier => .ok (⟨fun sub => (replica.subs sub).map (advance frontier), some frontier⟩, .frontier)
  | .reset _ => .ok (new, .reset)
  | .fault code message => .ok (replica, .fault code message)

def frontierOf (replica : ClientReplica Sub Occ Value) (sub : Sub) : Option String :=
  (replica.subs sub).bind WireStore.frontier

/-- A subscription is closed when its store is not live. One that was never opened is not. -/
def isClosed (replica : ClientReplica Sub Occ Value) (sub : Sub) : Bool :=
  (replica.subs sub).any fun store => !store.isLive

end ClientReplica

end Replicas

end Liasse.Connect

namespace Liasse.Connect

section Streams

/-- The state of the downstream connection. -/
inductive ConnectionState
  | connecting
  | opened
  | reconnecting
deriving DecidableEq

/-- The one event source of a connection by its number, and its rebuild. -/
structure Stream where
  source : Nat
  state : ConnectionState
  attempt : Nat
  scheduled : Bool

namespace Stream

/-- The first source. -/
def opening : Stream :=
  ⟨0, .connecting, 0, false⟩

/-- A frame, an announcement or an opening shows that the stream is live. -/
def markProgress (stream : Stream) : Stream :=
  { stream with state := .opened, attempt := 0, scheduled := false }

/-- A source that gave up is rebuilt later, once. -/
def onError (stream : Stream) (gaveUp : Bool) : Stream :=
  if gaveUp ∧ ¬stream.scheduled then
    { stream with state := .reconnecting, attempt := stream.attempt + 1, scheduled := true }
  else { stream with state := .reconnecting }

/-- The scheduled rebuild replaces the source. -/
def reconnect (stream : Stream) : Stream :=
  if stream.scheduled then
    { stream with
      source := stream.source + 1
      state := if stream.attempt = 0 then .connecting else .reconnecting
      scheduled := false }
  else stream

end Stream

end Streams

section Subscriptions

/-- The status that a view reports. -/
inductive ViewStatus
  | pending
  | opened
  | failed
  | closed
deriving DecidableEq

/-- The progress of one attempt to open a view. It waits for the stream session, and then it posts. -/
inductive Outcome
  | waiting
  | posted
  | accepted
  | refused
deriving DecidableEq

/-- An attempt has the stream session that its request carried. -/
structure Attempt where
  outcome : Outcome
  session : Option String

/-- A subscription has its intent, its attempts and the error of a refused one. The field `received` is not part
of the program: it tells that a frame came since the latest attempt began. -/
structure Subscription (Intent : Type) where
  intent : Intent
  attempts : List Attempt
  failure : Option String
  received : Bool

namespace Subscription

variable {Intent : Type}

/-- A new attempt clears the failure. -/
def beginOpen (subscription : Subscription Intent) : Subscription Intent :=
  { subscription with
    attempts := subscription.attempts ++ [⟨.waiting, none⟩]
    failure := none
    received := false }

def fail (subscription : Subscription Intent) (error : String) : Subscription Intent :=
  { subscription with failure := some error }

/-- The progress of an attempt. -/
def progress (subscription : Subscription Intent) (number : Nat) (outcome : Outcome) : Subscription Intent :=
  { subscription with
    attempts := subscription.attempts.modify number fun attempt => { attempt with outcome } }

/-- An attempt posts with the current stream session. -/
def post (subscription : Subscription Intent) (number : Nat) (session : String) : Subscription Intent :=
  { subscription with attempts := subscription.attempts.modify number fun _ => ⟨.posted, some session⟩ }

def receive (subscription : Subscription Intent) : Subscription Intent :=
  { subscription with received := true }

end Subscription

end Subscriptions

section Sessions

variable {Sub Occ Value Intent : Type}

/-- The requests of the client that concern its subscriptions. -/
inductive Request (Sub Intent : Type)
  | view (sub : Sub) (intent : Intent) (session : String)
  | unsubscribe (sub : Sub)

/-- The session of a client. A handle lives on after its subscription has left the session. The requests are in
the order in which they were posted, and `ending` has those to unsubscribe without a reply. -/
structure Session (Sub Occ Value Intent : Type) where
  replica : ClientReplica Sub Occ Value
  handles : Sub → Option (Subscription Intent)
  subs : List Sub
  stream : Option Stream
  streamSession : Option String
  requests : List (Request Sub Intent)
  ending : List Sub

/-- What happens at a client. A reply names the attempt of its request. A message has the number of its source,
and its frame when it is well formed. -/
inductive Event (Sub Occ Value Intent : Type)
  | subscribe (sub : Sub) (intent : Intent)
  | unsubscribe (sub : Sub)
  | resume (sub : Sub) (number : Nat)
  | accepted (sub : Sub) (number : Nat)
  | refused (sub : Sub) (number : Nat) (error : String)
  | unsubscribed (sub : Sub)
  | sourceOpened (source : Nat)
  | announce (source : Nat) (session : String)
  | message (source : Nat) (frame : Option (Frame Sub Occ Value)) (frontier : String)
  | sourceError (source : Nat) (gaveUp : Bool)
  | reconnect

namespace Session

def new : Session Sub Occ Value Intent :=
  ⟨.new, fun _ => none, [], none, none, [], []⟩

/-- An event of the current source. -/
def isCurrent (session : Session Sub Occ Value Intent) (source : Nat) : Bool :=
  session.stream.any fun stream => stream.source = source

/-- A change of the stream. -/
def withStream (session : Session Sub Occ Value Intent) (change : Stream → Stream) :
    Session Sub Occ Value Intent :=
  { session with stream := session.stream.map change }

/-- A change of one handle. -/
def withHandle [DecidableEq Sub] (session : Session Sub Occ Value Intent) (sub : Sub)
    (change : Subscription Intent → Subscription Intent) : Session Sub Occ Value Intent :=
  { session with handles := Function.update session.handles sub ((session.handles sub).map change) }

/-- The attempt of a number of a subscription. -/
def attempt (session : Session Sub Occ Value Intent) (sub : Sub) (number : Nat) : Option Attempt :=
  (session.handles sub).bind fun subscription => subscription.attempts[number]?

variable [DecidableEq Sub]

/-- A subscription of a fresh identifier opens the stream when there is none, and begins its first attempt. -/
def subscribe (session : Session Sub Occ Value Intent) (sub : Sub) (intent : Intent) :
    Session Sub Occ Value Intent :=
  if (session.handles sub).isSome then session
  else
    { session with
      handles := Function.update session.handles sub (some (Subscription.beginOpen ⟨intent, [], none, false⟩))
      subs := session.subs ++ [sub]
      stream := session.stream.or (some .opening) }

/-- The subscription stays until the reply. -/
def endSubscription (session : Session Sub Occ Value Intent) (sub : Sub) : Session Sub Occ Value Intent :=
  if sub ∈ session.subs then
    { session with
      requests := session.requests ++ [.unsubscribe sub]
      ending := session.ending ++ [sub] }
  else session

/-- An attempt that waits goes on when the stream session is known: it posts its request. -/
def postView (session : Session Sub Occ Value Intent) (sub : Sub) (number : Nat) : Session Sub Occ Value Intent :=
  match session.streamSession, session.handles sub, session.attempt sub number with
  | some stream, some subscription, some ⟨.waiting, _⟩ =>
    { session.withHandle sub fun subscription => subscription.post number stream with
      requests := session.requests ++ [.view sub subscription.intent stream] }
  | _, _, _ => session

/-- Each subscription that is not closed begins a new attempt. -/
def bindAllLive (session : Session Sub Occ Value Intent) : Session Sub Occ Value Intent :=
  { session with
    handles := fun sub =>
      if sub ∈ session.subs ∧ session.replica.isClosed sub = false then
        (session.handles sub).map Subscription.beginOpen
      else session.handles sub }

/-- A fresh stream session binds the subscriptions again when there was another one. -/
def onSession (session : Session Sub Occ Value Intent) (announced : String) : Session Sub Occ Value Intent :=
  let known := { session with streamSession := some announced }
  if session.streamSession.isSome then known.bindAllLive else known

/-- An applied frame brings a subscription a new result. -/
def receives (applied : Applied Sub) (sub : Sub) : Bool :=
  match applied with
  | .init other | .patch other | .scalar other => sub = other
  | _ => false

/-- The effect of a frame that was applied. -/
def route (session : Session Sub Occ Value Intent) (applied : Applied Sub) : Session Sub Occ Value Intent :=
  match applied with
  | .reset => session.bindAllLive
  | applied =>
    { session with
      handles := fun sub =>
        if receives applied sub then (session.handles sub).map Subscription.receive
        else session.handles sub }

/-- A frame that is malformed or refused leaves the session as it is. -/
def handleFrame [DecidableEq Occ] (session : Session Sub Occ Value Intent)
    (frame : Option (Frame Sub Occ Value)) (frontier : String) : Session Sub Occ Value Intent :=
  match frame with
  | none => session
  | some frame =>
    match session.replica.apply frame frontier with
    | .ok (replica, applied) => { session with replica }.route applied
    | .error _ => session

/-- The reply to an unsubscription drops the local handle. -/
def finish (session : Session Sub Occ Value Intent) (sub : Sub) : Session Sub Occ Value Intent :=
  if sub ∈ session.ending then
    { session with subs := session.subs.erase sub, ending := session.ending.erase sub }
  else session

/-- The effect of one event. Events of another source than the current one are ignored. -/
def step [DecidableEq Occ] (session : Session Sub Occ Value Intent) :
    Event Sub Occ Value Intent → Session Sub Occ Value Intent
  | .subscribe sub intent => session.subscribe sub intent
  | .unsubscribe sub => session.endSubscription sub
  | .resume sub number => session.postView sub number
  | .accepted sub number =>
    if (session.attempt sub number).map Attempt.outcome = some .posted then
      session.withHandle sub fun subscription => subscription.progress number .accepted
    else session
  | .refused sub number error =>
    if (session.attempt sub number).map Attempt.outcome = some .posted then
      session.withHandle sub fun subscription => (subscription.progress number .refused).fail error
    else session
  | .unsubscribed sub => session.finish sub
  | .sourceOpened source =>
    if session.isCurrent source then session.withStream Stream.markProgress else session
  | .announce source announced =>
    if session.isCurrent source then (session.withStream Stream.markProgress).onSession announced else session
  | .message source frame frontier =>
    if session.isCurrent source then (session.withStream Stream.markProgress).handleFrame frame frontier
    else session
  | .sourceError source gaveUp =>
    if session.isCurrent source then session.withStream fun stream => stream.onError gaveUp else session
  | .reconnect => session.withStream Stream.reconnect

/-- The session after some events. -/
def after [DecidableEq Occ] (first : Session Sub Occ Value Intent) (events : List (Event Sub Occ Value Intent)) :
    Session Sub Occ Value Intent :=
  events.foldl step first

/-- The status of a view: the replica tells whether it is closed or open, and a refused attempt that it failed. -/
def status (session : Session Sub Occ Value Intent) (sub : Sub) : ViewStatus :=
  if session.replica.isClosed sub then .closed
  else if ((session.handles sub).bind Subscription.failure).isSome then .failed
  else if (session.replica.frontierOf sub).isSome then .opened
  else .pending

end Session

end Sessions

end Liasse.Connect
