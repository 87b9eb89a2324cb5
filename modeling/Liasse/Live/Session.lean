/-
This file models the live subscriptions of one connection: the frames that a view, a commit, a close and a
reconnect emit, and the client that folds them.
-/

import Liasse.Live.Outbound
import Liasse.Live.Patch

namespace Liasse.Live

/-- The reasons for which a subscription closes. -/
inductive CloseReason
  | unauthorized
  | unsubscribed
deriving DecidableEq

/-- The reasons for which a connection resets. -/
inductive ResetReason
  | overflow
  | serverReset
deriving DecidableEq

/-- The frames that a connection enqueues. -/
inductive Downstream (Sub Occ Value : Type)
  | init (sub : Sub) (rows : List (WireRow Occ Value))
  | scalar (sub : Sub) (value : Value)
  | patch (sub : Sub) (ops : List (PatchOp Occ Value))
  | close (sub : Sub) (reason : CloseReason)
  | reset (reason : ResetReason)
deriving DecidableEq

/-- The state of a subscription. The snapshot is what the client holds. -/
structure SubState (Occ Value : Type) where
  windowed : Bool
  scalar : Bool
  closed : Bool
  snapshot : List (WireRow Occ Value)
  scalarValue : Option Value

/-- What the connection reads of its host: its frontier, the subscriptions that the host closed, the
current rows under their occurrence tokens and the current scalar values. -/
structure Observation (Sub Occ Value : Type) where
  frontier : Nat
  closed : Sub → Bool
  rows : Sub → Bool → List (WireRow Occ Value)
  scalar : Sub → Option Value

/-- The state of a connection: its subscriptions and its ring. -/
structure Session (Sub Occ Value : Type) [Ord Sub] where
  subs : Std.ExtTreeMap Sub (SubState Occ Value)
  outbound : Outbound (Downstream Sub Occ Value)

/-- The requests of a client and the events of the host that reach a connection. The position of a resume
is the frontier that the event token names, when it names one. -/
inductive Request (Sub Occ Value : Type)
  | openRows (sub : Sub) (rows : List (WireRow Occ Value)) (windowed : Bool)
  | openScalar (sub : Sub) (value : Value)
  | unsubscribe (sub : Sub)
  | commit
  | peerCommit (seq : Nat)
  | poll
  | resume (lastEventId : Option (Option Nat))

namespace Session

variable {Sub Occ Value : Type} [Ord Sub] [Std.TransOrd Sub] [DecidableEq Occ] [DecidableEq Value]

omit [Std.TransOrd Sub] [DecidableEq Occ] [DecidableEq Value] in
/-- A new connection. -/
def new (capacity : Nat) : Session Sub Occ Value :=
  ⟨∅, Outbound.new capacity⟩

omit [Std.TransOrd Sub] [DecidableEq Occ] [DecidableEq Value] in
/-- A frame enters the ring of the connection. -/
def enqueue (session : Session Sub Occ Value) (seq : Nat) (frame : Downstream Sub Occ Value) :
    Session Sub Occ Value :=
  { session with outbound := session.outbound.enqueue seq frame }

omit [DecidableEq Occ] [DecidableEq Value] in
/-- A row subscription opens with its rows. -/
def installRows (session : Session Sub Occ Value) (host : Observation Sub Occ Value) (sub : Sub)
    (rows : List (WireRow Occ Value)) (windowed : Bool) : Session Sub Occ Value :=
  { session with subs := session.subs.insert sub ⟨windowed, false, false, rows, none⟩ }.enqueue
    host.frontier (.init sub rows)

omit [DecidableEq Occ] [DecidableEq Value] in
/-- A scalar subscription opens with its value. -/
def installScalar (session : Session Sub Occ Value) (host : Observation Sub Occ Value) (sub : Sub)
    (value : Value) : Session Sub Occ Value :=
  { session with subs := session.subs.insert sub ⟨false, true, false, [], some value⟩ }.enqueue
    host.frontier (.scalar sub value)

omit [DecidableEq Occ] [DecidableEq Value] in
/-- A live subscription closes. -/
def emitClose (session : Session Sub Occ Value) (sub : Sub) (state : SubState Occ Value) (seq : Nat)
    (reason : CloseReason) : Session Sub Occ Value :=
  { session with subs := session.subs.insert sub { state with closed := true } }.enqueue seq
    (.close sub reason)

omit [DecidableEq Occ] [DecidableEq Value] in
/-- The client ends a subscription. -/
def unsubscribe (session : Session Sub Occ Value) (host : Observation Sub Occ Value) (sub : Sub) :
    Session Sub Occ Value :=
  match session.subs[sub]? with
  | some state =>
    if state.closed then session else session.emitClose sub state host.frontier .unsubscribed
  | none => session

/-- A row subscription advances by the patch from its snapshot to the current rows. -/
def advanceRows (session : Session Sub Occ Value) (host : Observation Sub Occ Value) (sub : Sub)
    (state : SubState Occ Value) (seq : Nat) : Session Sub Occ Value :=
  let rows := host.rows sub state.windowed
  let ops := diffRows state.snapshot rows
  let session := { session with subs := session.subs.insert sub { state with snapshot := rows } }
  if ops ≠ [] then session.enqueue seq (.patch sub ops) else session

omit [DecidableEq Occ] in
/-- A scalar subscription advances to a changed value. -/
def advanceScalar (session : Session Sub Occ Value) (host : Observation Sub Occ Value) (sub : Sub)
    (state : SubState Occ Value) (seq : Nat) : Session Sub Occ Value :=
  match host.scalar sub with
  | none => session
  | some value =>
    if state.scalarValue ≠ some value then
      { session with subs := session.subs.insert sub { state with scalarValue := some value } }.enqueue
        seq (.scalar sub value)
    else session

/-- The sweep of one subscription. A commit of another connection can close it but not advance it. -/
def sweepOne (host : Observation Sub Occ Value) (seq : Nat) (caller : Bool)
    (session : Session Sub Occ Value) (sub : Sub) : Session Sub Occ Value :=
  match session.subs[sub]? with
  | none => session
  | some state =>
    if state.closed then session
    else if host.closed sub then session.emitClose sub state seq .unauthorized
    else if !caller then session
    else if state.scalar then session.advanceScalar host sub state seq
    else session.advanceRows host sub state seq

/-- The sweep of each subscription through a commit. -/
def sweep (session : Session Sub Occ Value) (host : Observation Sub Occ Value) (seq : Nat)
    (caller : Bool) : Session Sub Occ Value :=
  session.subs.keys.foldl (sweepOne host seq caller) session

omit [DecidableEq Occ] [DecidableEq Value] in
/-- A live subscription starts again with its current rows or value. -/
def reprojectInit (host : Observation Sub Occ Value) (seq : Nat) (session : Session Sub Occ Value)
    (sub : Sub) : Session Sub Occ Value :=
  match session.subs[sub]? with
  | none => session
  | some state =>
    if state.closed then session
    else if state.scalar then
      match host.scalar sub with
      | none => session
      | some value =>
        { session with
          subs := session.subs.insert sub { state with scalarValue := some value } }.enqueue seq
            (.scalar sub value)
    else
      let rows := host.rows sub state.windowed
      { session with subs := session.subs.insert sub { state with snapshot := rows } }.enqueue seq
        (.init sub rows)

omit [Std.TransOrd Sub] [DecidableEq Occ] [DecidableEq Value] in
/-- The delivery of the pending frames. -/
def drainPending (session : Session Sub Occ Value) :
    Session Sub Occ Value × List (Emitted (Downstream Sub Occ Value)) :=
  let (outbound, emitted) := session.outbound.drainPending
  ({ session with outbound }, emitted)

omit [DecidableEq Occ] [DecidableEq Value] in
/-- The stream starts again: the retained frames count as delivered, and each live subscription starts
again after an optional reset. -/
def reinit (session : Session Sub Occ Value) (host : Observation Sub Occ Value)
    (reset : Option ResetReason) :
    Session Sub Occ Value × List (Emitted (Downstream Sub Occ Value)) :=
  let marked := { session with outbound := session.outbound.markDelivered }
  let announced := match reset with
    | some reason => marked.enqueue host.frontier (.reset reason)
    | none => marked
  (announced.subs.keys.foldl (reprojectInit host host.frontier) announced).drainPending

omit [DecidableEq Occ] [DecidableEq Value] in
/-- A poll delivers the pending frames, or starts again after an overflow. -/
def poll (session : Session Sub Occ Value) (host : Observation Sub Occ Value) :
    Session Sub Occ Value × List (Emitted (Downstream Sub Occ Value)) :=
  let (outbound, overflow) := session.outbound.takeOverflow
  if overflow then { session with outbound }.reinit host (some .overflow)
  else { session with outbound }.drainPending

omit [DecidableEq Occ] [DecidableEq Value] in
/-- A resume replays the retained frames after the last event, or starts again. -/
def resume (session : Session Sub Occ Value) (host : Observation Sub Occ Value)
    (lastEventId : Option (Option Nat)) :
    Session Sub Occ Value × List (Emitted (Downstream Sub Occ Value)) :=
  let (outbound, overflow) := session.outbound.takeOverflow
  let taken := { session with outbound }
  if overflow then taken.reinit host (some .overflow)
  else
    match lastEventId with
    | none => taken.reinit host none
    | some none => taken.reinit host (some .serverReset)
    | some (some seq) =>
      if taken.outbound.replayable seq then
        let (outbound, emitted) := taken.outbound.replayAfter seq
        ({ taken with outbound }, emitted)
      else taken.reinit host (some .serverReset)

/-- The effect of a request and the frames that it delivers. -/
def step (session : Session Sub Occ Value) (host : Observation Sub Occ Value) :
    Request Sub Occ Value → Session Sub Occ Value × List (Emitted (Downstream Sub Occ Value))
  | .openRows sub rows windowed => (session.installRows host sub rows windowed, [])
  | .openScalar sub value => (session.installScalar host sub value, [])
  | .unsubscribe sub => (session.unsubscribe host sub, [])
  | .commit => (session.sweep host host.frontier true, [])
  | .peerCommit seq => (session.sweep host seq false, [])
  | .poll => session.poll host
  | .resume lastEventId => session.resume host lastEventId

section Emission

/-- A sweep stamps its frames with its frontier, and a commit of another connection only closes
subscriptions. -/
def Swept (seq : Nat) (caller : Bool) (stamp : Nat) (frame : Downstream Sub Occ Value) : Prop :=
  stamp = seq ∧ (caller = false → ∃ sub, frame = .close sub .unauthorized)

theorem sweepOne_emits (host : Observation Sub Occ Value) (seq : Nat) (caller : Bool)
    (session : Session Sub Occ Value) (sub : Sub) :
    session.outbound.Emits (Swept seq caller) (sweepOne host seq caller session sub).outbound := by
  unfold sweepOne
  split
  · exact .refl
  · split
    · exact .refl
    · split
      · exact .enqueue ⟨rfl, fun _ => ⟨sub, rfl⟩⟩ .refl
      · split
        · exact .refl
        · next own =>
            have called : caller = true := by simpa using own
            split
            · unfold advanceScalar
              split
              · exact .refl
              · split
                · exact .enqueue ⟨rfl, fun peer => Bool.noConfusion (called.symm.trans peer)⟩ .refl
                · exact .refl
            · unfold advanceRows
              dsimp only
              split
              · exact .enqueue ⟨rfl, fun peer => Bool.noConfusion (called.symm.trans peer)⟩ .refl
              · exact .refl

theorem sweep_emits (session : Session Sub Occ Value) (host : Observation Sub Occ Value) (seq : Nat)
    (caller : Bool) : session.outbound.Emits (Swept seq caller) (session.sweep host seq caller).outbound :=
  Outbound.Emits.foldl Session.outbound (sweepOne_emits host seq caller) _ session

theorem sweep_extends (session : Session Sub Occ Value) (host : Observation Sub Occ Value) (seq : Nat)
    (caller : Bool) : session.outbound.Extends (session.sweep host seq caller).outbound :=
  (session.sweep_emits host seq caller).toExtends

omit [DecidableEq Occ] [DecidableEq Value] in
theorem unsubscribe_emits (session : Session Sub Occ Value) (host : Observation Sub Occ Value)
    (sub : Sub) :
    session.outbound.Emits (fun stamp _ => stamp = host.frontier) (session.unsubscribe host sub).outbound := by
  unfold unsubscribe
  split
  · split
    · exact .refl
    · exact .enqueue rfl .refl
  · exact .refl

omit [DecidableEq Occ] [DecidableEq Value] in
theorem unsubscribe_extends (session : Session Sub Occ Value) (host : Observation Sub Occ Value)
    (sub : Sub) : session.outbound.Extends (session.unsubscribe host sub).outbound :=
  (session.unsubscribe_emits host sub).toExtends

omit [DecidableEq Occ] [DecidableEq Value] in
theorem reprojectInit_emits (host : Observation Sub Occ Value) (seq : Nat)
    (session : Session Sub Occ Value) (sub : Sub) :
    session.outbound.Emits (fun stamp _ => stamp = seq) (reprojectInit host seq session sub).outbound := by
  unfold reprojectInit
  split
  · exact .refl
  · split
    · exact .refl
    · split
      · split
        · exact .refl
        · exact .enqueue rfl .refl
      · exact .enqueue rfl .refl

omit [DecidableEq Occ] [DecidableEq Value] in
theorem reprojectInit_extends (host : Observation Sub Occ Value) (seq : Nat)
    (session : Session Sub Occ Value) (sub : Sub) :
    session.outbound.Extends (reprojectInit host seq session sub).outbound :=
  (reprojectInit_emits host seq session sub).toExtends

omit [DecidableEq Occ] [DecidableEq Value] in
/-- The stream starts again on a sound ring. -/
theorem reinit_sound {session : Session Sub Occ Value} (host : Observation Sub Occ Value)
    (reset : Option ResetReason) (marked : session.outbound.markDelivered.Sound) :
    (session.reinit host reset).1.outbound.Sound := by
  refine Outbound.Sound.drainPending ?_
  refine (Outbound.Extends.foldl Session.outbound (reprojectInit_extends host host.frontier) _ _).sound ?_
  cases reset with
  | none => exact marked
  | some reason => exact marked.enqueue _ _

/-- The connection with its latch cleared. -/
def cleared (session : Session Sub Occ Value) : Session Sub Occ Value :=
  { session with outbound := session.outbound.takeOverflow.1 }

omit [Std.TransOrd Sub] [DecidableEq Occ] [DecidableEq Value] in
theorem cleared_calm {session : Session Sub Occ Value} (calm : session.outbound.overflow = false) :
    session.cleared = session := by
  obtain ⟨subs, outbound⟩ := session
  obtain ⟨ring, capacity, nextPos, cursor, evictedThrough, overflow, history⟩ := outbound
  subst calm
  rfl

omit [DecidableEq Occ] [DecidableEq Value] in
theorem poll_eq (session : Session Sub Occ Value) (host : Observation Sub Occ Value) :
    session.poll host =
      if session.outbound.overflow then session.cleared.reinit host (some .overflow)
      else session.cleared.drainPending :=
  rfl

omit [DecidableEq Occ] [DecidableEq Value] in
theorem poll_calm {session : Session Sub Occ Value} (calm : session.outbound.overflow = false)
    (host : Observation Sub Occ Value) : session.poll host = session.drainPending := by
  rw [poll_eq, calm, cleared_calm calm]
  rfl

omit [DecidableEq Occ] [DecidableEq Value] in
theorem poll_latched {session : Session Sub Occ Value} (latched : session.outbound.overflow = true)
    (host : Observation Sub Occ Value) :
    session.poll host = session.cleared.reinit host (some .overflow) := by
  rw [poll_eq, if_pos latched]

omit [DecidableEq Occ] [DecidableEq Value] in
theorem resume_latched {session : Session Sub Occ Value} (latched : session.outbound.overflow = true)
    (host : Observation Sub Occ Value) (lastEventId : Option (Option Nat)) :
    session.resume host lastEventId = session.cleared.reinit host (some .overflow) := by
  unfold resume
  exact if_pos latched

omit [DecidableEq Occ] [DecidableEq Value] in
/-- A resume that replays delivers the retained frames with a later frontier. -/
theorem resume_replay {session : Session Sub Occ Value} (calm : session.outbound.overflow = false)
    {seq : Nat} (retained : session.outbound.replayable seq = true)
    (host : Observation Sub Occ Value) :
    session.resume host (some (some seq)) =
      ({ session with outbound := (session.outbound.replayAfter seq).1 },
        (session.outbound.replayAfter seq).2) := by
  have whole : session.resume host (some (some seq)) =
      if session.outbound.overflow then session.cleared.reinit host (some .overflow)
      else if session.cleared.outbound.replayable seq then
        ({ session.cleared with outbound := (session.cleared.outbound.replayAfter seq).1 },
          (session.cleared.outbound.replayAfter seq).2)
      else session.cleared.reinit host (some .serverReset) := rfl
  rw [whole, calm, cleared_calm calm, retained]
  rfl

omit [DecidableEq Occ] [DecidableEq Value] in
/-- A resume that cannot replay starts again. -/
theorem resume_restarts {session : Session Sub Occ Value} (host : Observation Sub Occ Value)
    {lastEventId : Option (Option Nat)}
    (lost : ∀ seq, ¬ (session.outbound.overflow = false ∧ lastEventId = some (some seq) ∧
      session.outbound.replayable seq = true)) :
    ∃ reset, session.resume host lastEventId = session.cleared.reinit host reset := by
  cases latch : session.outbound.overflow with
  | true => exact ⟨some .overflow, resume_latched latch host lastEventId⟩
  | false =>
    match lastEventId with
    | none => exact ⟨none, if_neg (ne_true_of_eq_false latch)⟩
    | some none => exact ⟨some .serverReset, if_neg (ne_true_of_eq_false latch)⟩
    | some (some seq) =>
      have gone : ¬ session.cleared.outbound.replayable seq = true := fun retained =>
        lost seq ⟨latch, rfl, retained⟩
      exact ⟨some .serverReset, (if_neg (ne_true_of_eq_false latch)).trans (if_neg gone)⟩

omit [DecidableEq Occ] [DecidableEq Value] in
theorem resume_sound {session : Session Sub Occ Value} (sound : session.outbound.Sound)
    (host : Observation Sub Occ Value) (lastEventId : Option (Option Nat)) :
    (session.resume host lastEventId).1.outbound.Sound := by
  cases latch : session.outbound.overflow with
  | true =>
    rw [resume_latched latch]
    exact reinit_sound host _ sound.restart
  | false =>
    unfold resume
    change ((if session.outbound.overflow then _ else _ : Session Sub Occ Value × _)).1.outbound.Sound
    rw [latch, if_neg Bool.false_ne_true]
    split
    · exact reinit_sound host _ sound.restart
    · exact reinit_sound host _ sound.restart
    · next seq =>
        split
        · have cleared : session.cleared.outbound.Sound := by
            rw [cleared_calm latch]
            exact sound
          exact cleared.replayAfter seq
        · exact reinit_sound host _ sound.restart

/-- Each request keeps the ring sound. -/
theorem step_sound {session : Session Sub Occ Value} (sound : session.outbound.Sound)
    (host : Observation Sub Occ Value) (request : Request Sub Occ Value) :
    (session.step host request).1.outbound.Sound := by
  cases request with
  | openRows sub rows windowed => exact sound.enqueue _ _
  | openScalar sub value => exact sound.enqueue _ _
  | unsubscribe sub => exact (session.unsubscribe_extends host sub).sound sound
  | commit => exact (session.sweep_extends host host.frontier true).sound sound
  | peerCommit seq => exact (session.sweep_extends host seq false).sound sound
  | poll =>
    change (session.poll host).1.outbound.Sound
    cases latch : session.outbound.overflow with
    | true =>
      rw [poll_latched latch]
      exact reinit_sound host _ sound.restart
    | false =>
      rw [poll_calm latch]
      exact sound.drainPending
  | resume lastEventId => exact resume_sound sound host lastEventId

end Emission

end Session

end Liasse.Live
