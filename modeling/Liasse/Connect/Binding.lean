/-
This file proves what the bindings of a client guarantee on every run: each stream session binds the live subscriptions
again, and a replaced source has no effect.
-/

import Liasse.Codes.Related
import Liasse.Connect.Session

namespace Liasse.Connect

namespace Subscription

variable {Intent : Type} {subscription : Subscription Intent}

/-- The latest attempt was refused, and no frame came since it began. -/
def isFailing (subscription : Subscription Intent) : Bool :=
  (subscription.attempts.getLast?.any fun attempt => attempt.outcome = .refused) && !subscription.received

/-- The failure of a subscription is that of its latest attempt. -/
def Honest (subscription : Subscription Intent) : Prop :=
  subscription.failure.isSome = subscription.isFailing

/-- The latest attempt of the subscription waits, or its request carried the stream session. -/
def BoundTo (subscription : Subscription Intent) (announced : String) : Prop :=
  ∃ attempt, subscription.attempts.getLast? = some attempt ∧
    (attempt.outcome = .waiting ∨ attempt.session = some announced)

/-- No attempt of the subscription waits. -/
def Settled (subscription : Subscription Intent) : Prop :=
  ∀ attempt ∈ subscription.attempts, attempt.outcome ≠ .waiting

theorem honest_beginOpen (subscription : Subscription Intent) : subscription.beginOpen.Honest := by
  simp [Honest, isFailing, beginOpen]

theorem boundTo_beginOpen (subscription : Subscription Intent) (announced : String) :
    subscription.beginOpen.BoundTo announced :=
  ⟨⟨.waiting, none⟩, List.getLast?_concat, .inl rfl⟩

theorem honest_receive (clear : subscription.failure = none) : subscription.receive.Honest := by
  simp [Honest, isFailing, receive, clear]

theorem modify_ne_nil {attempts : List Attempt} (begun : attempts ≠ []) (number : Nat)
    (change : Attempt → Attempt) : attempts.modify number change ≠ [] := by
  intro empty
  have length : attempts.length = 0 := by
    rw [← List.length_modify change attempts number, empty]
    rfl
  exact begun (List.length_eq_zero_iff.mp length)

/-- The change of one attempt concerns the latest one when it has the last number. -/
theorem getLast?_modify (attempts : List Attempt) (number : Nat) (change : Attempt → Attempt) :
    (attempts.modify number change).getLast? =
      if number + 1 = attempts.length then attempts.getLast?.map change else attempts.getLast? := by
  rw [List.getLast?_eq_getElem?, List.getLast?_eq_getElem?, List.length_modify, List.getElem?_modify]
  by_cases empty : attempts.length = 0
  · simp [List.length_eq_zero_iff.mp empty]
  · have same : number = attempts.length - 1 ↔ number + 1 = attempts.length := by omega
    simp only [same]
    split
    · rfl
    · simp

/-- The latest attempt by its number. -/
theorem getLast?_of_getElem? {attempts : List Attempt} {number : Nat} {attempt : Attempt}
    (present : attempts[number]? = some attempt) (latest : number + 1 = attempts.length) :
    attempts.getLast? = some attempt := by
  rw [List.getLast?_eq_getElem?, ← latest]
  exact present

/-- The change of an attempt that was not refused to another one that is not refused keeps the failure of the
latest attempt. -/
theorem honest_modify (honest : subscription.Honest) {number : Nat} {change : Attempt → Attempt} {attempt : Attempt}
    (present : subscription.attempts[number]? = some attempt) (before : attempt.outcome ≠ .refused)
    (after : (change attempt).outcome ≠ .refused) :
    Honest { subscription with attempts := subscription.attempts.modify number change } := by
  have same : ((subscription.attempts.modify number change).getLast?.any fun attempt =>
      attempt.outcome = .refused) = subscription.attempts.getLast?.any fun attempt => attempt.outcome = .refused := by
    rw [getLast?_modify]
    split
    · next latest => simp [getLast?_of_getElem? present latest, before, after]
    · rfl
  rw [Honest, isFailing, same]
  exact honest

/-- A refusal is the failure of the latest attempt when it is that of the latest attempt, or when the latest one
failed already, and no frame came before. -/
theorem honest_refused {number : Nat} {attempt : Attempt} (present : subscription.attempts[number]? = some attempt)
    (latest : number + 1 = subscription.attempts.length ∨ subscription.isFailing = true)
    (silent : subscription.received = false) (error : String) :
    ((subscription.progress number .refused).fail error).Honest := by
  have last : (subscription.attempts.modify number fun attempt => { attempt with outcome := .refused }).getLast?.any
      (fun attempt => attempt.outcome = .refused) = true := by
    rw [getLast?_modify]
    split
    · next latest => simp [getLast?_of_getElem? present latest]
    · next earlier => exact (Bool.and_eq_true_iff.mp (latest.resolve_left earlier)).1
  simp only [Honest, isFailing, progress, fail, last, silent]
  rfl

/-- The change of an attempt keeps the binding when it keeps that of the latest attempt. -/
theorem boundTo_modify {announced : String} (bound : subscription.BoundTo announced) {number : Nat}
    {change : Attempt → Attempt}
    (kept : ∀ attempt, subscription.attempts[number]? = some attempt →
      attempt.outcome = .waiting ∨ attempt.session = some announced →
        (change attempt).outcome = .waiting ∨ (change attempt).session = some announced) :
    BoundTo { subscription with attempts := subscription.attempts.modify number change } announced := by
  obtain ⟨attempt, last, binds⟩ := bound
  rw [BoundTo, getLast?_modify]
  split
  · next latest =>
      refine ⟨change attempt, by rw [last]; rfl, kept attempt ?_ binds⟩
      rw [List.getLast?_eq_getElem?, ← latest] at last
      exact last
  · exact ⟨attempt, last, binds⟩

end Subscription

namespace ClientReplica

variable {Sub Occ Value : Type} [DecidableEq Sub]
variable {replica result : ClientReplica Sub Occ Value} {sub other : Sub} {frontier : String}

theorem store_ok {changed : Except (StoreError Occ) (WireStore Occ Value)}
    (done : replica.store sub frontier changed = .ok result) :
    ∃ store, changed = .ok store ∧ result.subs = Function.update replica.subs sub (some store) := by
  cases changed with
  | error error => cases done
  | ok store =>
    cases done
    exact ⟨store, rfl, rfl⟩

theorem isClosed_of_subs {store : WireStore Occ Value}
    (subs : result.subs = Function.update replica.subs sub (some store)) :
    result.isClosed other = if other = sub then !store.isLive else replica.isClosed other := by
  rw [isClosed, subs, Function.update_apply]
  split
  · rfl
  · rfl

/-- A closed subscription takes no further result. -/
theorem isClosed_of_store {changed : Except (StoreError Occ) (WireStore Occ Value)}
    (done : replica.store sub frontier changed = .ok result)
    (live : ∀ store, changed = .ok store → replica.isClosed sub = false) (closed : replica.isClosed other = true) :
    result.isClosed other = true := by
  obtain ⟨store, changed, subs⟩ := store_ok done
  rw [isClosed_of_subs subs]
  split
  · next same =>
      subst same
      rw [live store changed] at closed
      cases closed
  · exact closed

omit [DecidableEq Sub] in
theorem isClosed_of_ensureLive (live : (replica.entry sub).ensureLive = .ok ⟨⟩) : replica.isClosed sub = false := by
  unfold entry at live
  unfold isClosed
  cases found : replica.subs sub with
  | none => rfl
  | some store =>
    rw [found] at live
    have lives : store.isLive = true := by
      by_contra dead
      simp [WireStore.ensureLive, dead] at live
    simp [lives]

/-- A subscription closes for good until a reset. -/
theorem isClosed_of_apply [DecidableEq Occ] {frame : Frame Sub Occ Value} {applied : Applied Sub}
    (done : replica.apply frame frontier = .ok (result, applied)) (kept : applied ≠ .reset)
    (closed : replica.isClosed other = true) : result.isClosed other = true := by
  cases frame with
  | init sub rows =>
    obtain ⟨_, stored, same⟩ := Codes.map_ok.mp done
    cases same
    refine isClosed_of_store stored (fun store changed => ?_) closed
    obtain ⟨_, live, _⟩ := Codes.bind_ok.mp changed
    exact isClosed_of_ensureLive live
  | scalar sub value =>
    obtain ⟨_, stored, same⟩ := Codes.map_ok.mp done
    cases same
    refine isClosed_of_store stored (fun store changed => ?_) closed
    obtain ⟨_, live, _⟩ := Codes.bind_ok.mp changed
    exact isClosed_of_ensureLive live
  | patch sub ops =>
    rw [apply] at done
    split at done
    · cases done
    · next store found =>
        obtain ⟨_, stored, same⟩ := Codes.map_ok.mp done
        cases same
        refine isClosed_of_store stored (fun changed patched => ?_) closed
        unfold WireStore.patch at patched
        split at patched
        · next rows phase => simp [isClosed, found, WireStore.isLive, phase]
        · cases patched
        · cases patched
        · cases patched
        · cases patched
  | close sub reason =>
    cases done
    rw [isClosed_of_subs rfl]
    split
    · rfl
    · exact closed
  | frontier =>
    cases done
    obtain ⟨store, found, dead⟩ := (Option.any_eq_true _ _).mp closed
    have dead : store.isLive = false := by simpa using dead
    have same : advance frontier store = store := by
      rw [advance, WireStore.advanceFrontier, WireStore.ensureLive, dead]
      rfl
    simp [isClosed, found, same, dead]
  | reset reason =>
    cases done
    exact absurd rfl kept
  | fault code message =>
    cases done
    exact closed

/-- A subscription that is live after a frame was live before it. -/
theorem was_live [DecidableEq Occ] {frame : Frame Sub Occ Value} {applied : Applied Sub}
    (done : replica.apply frame frontier = .ok (result, applied)) (kept : applied ≠ .reset)
    (live : result.isClosed other = false) : replica.isClosed other = false := by
  by_contra closed
  rw [isClosed_of_apply done kept (Bool.not_eq_false _ ▸ closed)] at live
  cases live

end ClientReplica

namespace Session

variable {Sub Occ Value Intent : Type} [DecidableEq Sub] [DecidableEq Occ]

/-- The registered subscriptions have handles, and a handle is registered unless it was to unsubscribe. -/
structure Registered (session : Session Sub Occ Value Intent) : Prop where
  known : ∀ sub ∈ session.subs, (session.handles sub).isSome
  distinct : session.subs.Nodup
  asked : ∀ sub ∈ session.ending, .unsubscribe sub ∈ session.requests
  left : ∀ sub, .unsubscribe sub ∈ session.requests → (session.handles sub).isSome
  listed : ∀ sub, (session.handles sub).isSome → .unsubscribe sub ∉ session.requests → sub ∈ session.subs

/-- Before the first announcement all attempts wait. After it each live subscription is bound to the announced
stream session, or will be. -/
structure Bindings (session : Session Sub Occ Value Intent) : Prop where
  begun : ∀ sub subscription, session.handles sub = some subscription → subscription.attempts ≠ []
  unannounced : session.streamSession = none → ∀ sub subscription, session.handles sub = some subscription →
    ∀ attempt ∈ subscription.attempts, attempt.outcome = .waiting
  carried : ∀ sub subscription, session.handles sub = some subscription → ∀ attempt ∈ subscription.attempts,
    ∀ announced, attempt.session = some announced → .view sub subscription.intent announced ∈ session.requests
  bound : ∀ announced, session.streamSession = some announced → ∀ sub ∈ session.subs,
    session.replica.isClosed sub = false → ∀ subscription, session.handles sub = some subscription →
      subscription.BoundTo announced

variable {session : Session Sub Occ Value Intent}

section Handles

omit [DecidableEq Occ]

/-- The handle that was set, or another one. -/
theorem handles_update {handles : Sub → Option (Subscription Intent)} {sub other : Sub}
    {added : Option (Subscription Intent)} {subscription : Subscription Intent}
    (found : Function.update handles sub added other = some subscription) :
    (other ≠ sub ∧ handles other = some subscription) ∨ (other = sub ∧ added = some subscription) := by
  rw [Function.update_apply] at found
  split at found
  · next same => exact .inr ⟨same, found⟩
  · next different => exact .inl ⟨different, found⟩

/-- The change of a handle sets it, and it keeps the other handles. -/
theorem handles_withHandle {sub other : Sub} {change : Subscription Intent → Subscription Intent}
    {subscription : Subscription Intent} (found : (session.withHandle sub change).handles other = some subscription) :
    (other ≠ sub ∧ session.handles other = some subscription) ∨
      (other = sub ∧ ∃ before, session.handles sub = some before ∧ change before = subscription) := by
  rcases handles_update found with kept | ⟨same, changed⟩
  · exact .inl kept
  · exact .inr ⟨same, Option.map_eq_some_iff.mp changed⟩

/-- The live subscriptions begin a new attempt, and the other ones keep theirs. -/
theorem handles_bindAllLive {sub : Sub} {subscription : Subscription Intent}
    (found : session.bindAllLive.handles sub = some subscription) :
    ((sub ∈ session.subs ∧ session.replica.isClosed sub = false) ∧
      ∃ before, session.handles sub = some before ∧ before.beginOpen = subscription) ∨
    ¬(sub ∈ session.subs ∧ session.replica.isClosed sub = false) ∧ session.handles sub = some subscription := by
  dsimp only [Session.bindAllLive] at found
  split at found
  · next live => exact .inl ⟨live, Option.map_eq_some_iff.mp found⟩
  · next other => exact .inr ⟨other, found⟩

theorem handles_of_route {applied : Applied Sub} (kept : applied ≠ .reset) (sub : Sub) :
    (session.route applied).handles sub =
      if receives applied sub then (session.handles sub).map Subscription.receive else session.handles sub := by
  cases applied with
  | reset => exact absurd rfl kept
  | init _ | patch _ | scalar _ | close _ | frontier | fault _ _ => rfl

/-- The subscriptions that a frame is for receive it, and the other ones stay as they are. -/
theorem handles_route {applied : Applied Sub} (kept : applied ≠ .reset) {sub : Sub}
    {subscription : Subscription Intent} (found : (session.route applied).handles sub = some subscription) :
    (receives applied sub = true ∧ ∃ before, session.handles sub = some before ∧ before.receive = subscription) ∨
      receives applied sub = false ∧ session.handles sub = some subscription := by
  rw [handles_of_route kept] at found
  split at found
  · next received => exact .inl ⟨received, Option.map_eq_some_iff.mp found⟩
  · next other => exact .inr ⟨by simpa using other, found⟩

/-- A frame other than a reset changes the handles only. -/
theorem route_of_ne {applied : Applied Sub} (kept : applied ≠ .reset) :
    session.route applied = { session with handles := (session.route applied).handles } := by
  cases applied with
  | reset => exact absurd rfl kept
  | init _ | patch _ | scalar _ | close _ | frontier | fault _ _ => rfl

end Handles

section Steps

omit [DecidableEq Occ] in
theorem onSession_withStream (change : Stream → Stream) (announced : String) :
    (session.withStream change).onSession announced = (session.onSession announced).withStream change := by
  cases known : session.streamSession with
  | none => simp [Session.onSession, Session.withStream, known]
  | some earlier => simp [Session.onSession, Session.withStream, Session.bindAllLive, known]

theorem handleFrame_withStream (change : Stream → Stream) (frame : Option (Frame Sub Occ Value))
    (frontier : String) :
    (session.withStream change).handleFrame frame frontier =
      (session.handleFrame frame frontier).withStream change := by
  cases frame with
  | none => rfl
  | some frame =>
    dsimp only [Session.handleFrame, Session.withStream]
    cases session.replica.apply frame frontier with
    | error error => rfl
    | ok result =>
      obtain ⟨replica, applied⟩ := result
      cases applied with
      | init _ | patch _ | scalar _ | close _ | frontier | reset | fault _ _ => rfl

/-- What the operation of an event has to keep. -/
def Operates (keeps : Session Sub Occ Value Intent → Prop) (session : Session Sub Occ Value Intent) :
    Event Sub Occ Value Intent → Prop
  | .subscribe sub intent => keeps (session.subscribe sub intent)
  | .unsubscribe sub => keeps (session.endSubscription sub)
  | .resume sub number => keeps (session.postView sub number)
  | .accepted sub number =>
    (session.attempt sub number).map Attempt.outcome = some .posted →
      keeps (session.withHandle sub fun subscription => subscription.progress number .accepted)
  | .refused sub number error =>
    (session.attempt sub number).map Attempt.outcome = some .posted →
      keeps (session.withHandle sub fun subscription => (subscription.progress number .refused).fail error)
  | .unsubscribed sub => keeps (session.finish sub)
  | .announce source announced => session.isCurrent source = true → keeps (session.onSession announced)
  | .message source frame frontier =>
    session.isCurrent source = true → keeps (session.handleFrame frame frontier)
  | .sourceOpened _ | .sourceError _ _ | .reconnect => True

/-- A property that does not depend on the stream is kept by a step when the operation of its event keeps it. -/
theorem step_rule {keeps : Session Sub Occ Value Intent → Prop} {event : Event Sub Occ Value Intent}
    (streamed : ∀ {other : Session Sub Occ Value Intent} (change : Stream → Stream),
      keeps other → keeps (other.withStream change))
    (held : keeps session) (operates : session.Operates keeps event) : keeps (session.step event) := by
  cases event with
  | subscribe sub intent => exact operates
  | unsubscribe sub => exact operates
  | resume sub number => exact operates
  | accepted sub number =>
    rw [Session.step]
    split
    · next posted => exact operates posted
    · exact held
  | refused sub number error =>
    rw [Session.step]
    split
    · next posted => exact operates posted
    · exact held
  | unsubscribed sub => exact operates
  | sourceOpened source =>
    rw [Session.step]
    split
    · exact streamed _ held
    · exact held
  | announce source announced =>
    rw [Session.step]
    split
    · next current =>
        rw [onSession_withStream]
        exact streamed _ (operates current)
    · exact held
  | message source frame frontier =>
    rw [Session.step]
    split
    · next current =>
        rw [handleFrame_withStream]
        exact streamed _ (operates current)
    · exact held
  | sourceError source gaveUp =>
    rw [Session.step]
    split
    · exact streamed _ held
    · exact held
  | reconnect => exact streamed _ held

end Steps

namespace Registered

section Handles

omit [DecidableEq Occ]

omit [DecidableEq Sub] in
/-- The change of handles, bindings and requests for views keeps the registration. -/
theorem of_same (registered : session.Registered) {result : Session Sub Occ Value Intent}
    (subs : result.subs = session.subs) (ending : result.ending = session.ending)
    (handles : ∀ sub, (result.handles sub).isSome = (session.handles sub).isSome)
    (requests : ∀ sub, .unsubscribe sub ∈ result.requests ↔ .unsubscribe sub ∈ session.requests) :
    result.Registered where
  known sub inside := (handles sub).trans (registered.known sub (subs ▸ inside))
  distinct := subs ▸ registered.distinct
  asked sub inside := (requests sub).mpr (registered.asked sub (ending ▸ inside))
  left sub asked := (handles sub).trans (registered.left sub ((requests sub).mp asked))
  listed sub found fresh := subs ▸ registered.listed sub ((handles sub).symm.trans found) fun asked =>
    fresh ((requests sub).mpr asked)

theorem isSome_update (handles : Sub → Option (Subscription Intent)) (sub other : Sub)
    (change : Subscription Intent → Subscription Intent) :
    (Function.update handles sub ((handles sub).map change) other).isSome = (handles other).isSome := by
  rw [Function.update_apply]
  split
  · next same =>
      subst same
      exact Option.isSome_map
  · rfl

theorem withHandle (registered : session.Registered) (sub : Sub)
    (change : Subscription Intent → Subscription Intent) : (session.withHandle sub change).Registered :=
  registered.of_same rfl rfl (fun other => isSome_update session.handles sub other change) fun _ => Iff.rfl

theorem subscribe (registered : session.Registered) (sub : Sub) (intent : Intent) :
    (session.subscribe sub intent).Registered := by
  unfold Session.subscribe
  split
  · exact registered
  · next fresh =>
      have outside {other : Sub} (found : (session.handles other).isSome) : other ≠ sub := fun same =>
        fresh (same ▸ found)
      have kept {other : Sub} (found : (session.handles other).isSome) (added : Option (Subscription Intent)) :
          (Function.update session.handles sub added other).isSome := by
        rw [Function.update_of_ne (outside found)]
        exact found
      constructor
      · intro other inside
        rcases List.mem_append.mp inside with inside | last
        · exact kept (registered.known other inside) _
        · obtain rfl := List.mem_singleton.mp last
          simp
      · refine List.nodup_append.mpr
          ⟨registered.distinct, List.nodup_singleton sub, fun first inside last single => ?_⟩
        exact (List.mem_singleton.mp single).symm ▸ outside (registered.known first inside)
      · exact registered.asked
      · intro other asked
        exact kept (registered.left other asked) _
      · intro other found unasked
        by_cases same : other = sub
        · exact List.mem_append_right _ (List.mem_singleton.mpr same)
        · have held := found
          dsimp only at held
          rw [Function.update_of_ne same] at held
          exact List.mem_append_left _ (registered.listed other held unasked)

theorem endSubscription (registered : session.Registered) (sub : Sub) :
    (session.endSubscription sub).Registered := by
  unfold Session.endSubscription
  split
  · next inside =>
      constructor
      · exact registered.known
      · exact registered.distinct
      · intro other ends
        rcases List.mem_append.mp ends with ends | last
        · exact List.mem_append_left _ (registered.asked other ends)
        · obtain rfl := List.mem_singleton.mp last
          exact List.mem_append_right _ List.mem_cons_self
      · intro other asked
        rcases List.mem_append.mp asked with asked | last
        · exact registered.left other asked
        · cases List.mem_singleton.mp last
          exact registered.known sub inside
      · intro other found unasked
        exact registered.listed other found fun asked => unasked (List.mem_append_left _ asked)
  · exact registered

theorem postView (registered : session.Registered) (sub : Sub) (number : Nat) :
    (session.postView sub number).Registered := by
  unfold Session.postView
  split
  · refine registered.of_same rfl rfl (fun other => isSome_update session.handles sub other _) fun other => ?_
    simp
  · exact registered

theorem bindAllLive (registered : session.Registered) : session.bindAllLive.Registered := by
  refine registered.of_same rfl rfl (fun other => ?_) fun _ => Iff.rfl
  dsimp only [Session.bindAllLive]
  split
  · exact Option.isSome_map
  · rfl

theorem route (registered : session.Registered) (applied : Applied Sub) : (session.route applied).Registered := by
  by_cases reset : applied = .reset
  · subst reset
    exact registered.bindAllLive
  · rw [route_of_ne reset]
    refine registered.of_same rfl rfl (fun other => ?_) fun _ => Iff.rfl
    change ((session.route applied).handles other).isSome = _
    rw [handles_of_route reset]
    split
    · exact Option.isSome_map
    · rfl

/-- A subscription leaves the session after its request to unsubscribe only. -/
theorem finish (registered : session.Registered) (sub : Sub) : (session.finish sub).Registered := by
  unfold Session.finish
  split
  · next ends =>
      constructor
      · exact fun other inside => registered.known other (List.mem_of_mem_erase inside)
      · exact registered.distinct.erase sub
      · exact fun other inside => registered.asked other (List.mem_of_mem_erase inside)
      · exact registered.left
      · intro other found unasked
        have different : other ≠ sub := fun same => unasked (same ▸ registered.asked sub ends)
        exact (List.mem_erase_of_ne different).mpr (registered.listed other found unasked)
  · exact registered

end Handles

theorem handleFrame (registered : session.Registered) (frame : Option (Frame Sub Occ Value)) (frontier : String) :
    (session.handleFrame frame frontier).Registered := by
  unfold Session.handleFrame
  split
  · exact registered
  · split
    · next replica applied _ =>
        have replaced : Registered { session with replica } :=
          registered.of_same rfl rfl (fun _ => rfl) fun _ => Iff.rfl
        exact replaced.route applied
    · exact registered

omit [DecidableEq Occ] in
theorem onSession (registered : session.Registered) (announced : String) :
    (session.onSession announced).Registered := by
  have named : Registered { session with streamSession := some announced } :=
    registered.of_same rfl rfl (fun _ => rfl) fun _ => Iff.rfl
  unfold Session.onSession
  split
  · exact named.bindAllLive
  · exact named

theorem step (registered : session.Registered) (event : Event Sub Occ Value Intent) :
    (session.step event).Registered := by
  refine step_rule (fun _ held => held.of_same rfl rfl (fun _ => rfl) fun _ => Iff.rfl) registered ?_
  cases event with
  | subscribe sub intent => exact registered.subscribe sub intent
  | unsubscribe sub => exact registered.endSubscription sub
  | resume sub number => exact registered.postView sub number
  | accepted sub number => exact fun _ => registered.withHandle sub _
  | refused sub number error => exact fun _ => registered.withHandle sub _
  | unsubscribed sub => exact registered.finish sub
  | announce source announced => exact fun _ => registered.onSession announced
  | message source frame frontier => exact fun _ => registered.handleFrame frame frontier
  | sourceOpened _ | sourceError _ _ | reconnect => exact ⟨⟩

end Registered

namespace Bindings

section Handles

omit [DecidableEq Occ]

theorem subscribe (bindings : session.Bindings) (sub : Sub) (intent : Intent) :
    (session.subscribe sub intent).Bindings := by
  unfold Session.subscribe
  split
  · exact bindings
  · next fresh =>
      constructor
      · intro other subscription found
        rcases handles_update found with ⟨_, found⟩ | ⟨rfl, added⟩
        · exact bindings.begun other subscription found
        · obtain rfl := Option.some.inj added
          simp [Subscription.beginOpen]
      · intro unknown other subscription found attempt inside
        rcases handles_update found with ⟨_, found⟩ | ⟨rfl, added⟩
        · exact bindings.unannounced unknown other subscription found attempt inside
        · obtain rfl := Option.some.inj added
          obtain rfl := List.mem_singleton.mp inside
          rfl
      · intro other subscription found attempt inside announced carried
        rcases handles_update found with ⟨_, found⟩ | ⟨rfl, added⟩
        · exact bindings.carried other subscription found attempt inside announced carried
        · obtain rfl := Option.some.inj added
          obtain rfl := List.mem_singleton.mp inside
          cases carried
      · intro announced known other inside live subscription found
        rcases handles_update found with ⟨different, found⟩ | ⟨rfl, added⟩
        · have listed : other ∈ session.subs := (List.mem_append.mp inside).resolve_right fun last =>
            different (List.mem_singleton.mp last)
          exact bindings.bound announced known other listed live subscription found
        · obtain rfl := Option.some.inj added
          exact Subscription.boundTo_beginOpen _ announced

omit [DecidableEq Sub] in
/-- More requests and fewer subscriptions keep the bindings. -/
theorem of_same (bindings : session.Bindings) {result : Session Sub Occ Value Intent}
    (replica : result.replica = session.replica) (handles : result.handles = session.handles)
    (announced : result.streamSession = session.streamSession) (subs : ∀ sub ∈ result.subs, sub ∈ session.subs)
    (requests : ∀ request ∈ session.requests, request ∈ result.requests) : result.Bindings where
  begun := handles ▸ bindings.begun
  unannounced := announced ▸ handles ▸ bindings.unannounced
  carried sub subscription found attempt inside session carried :=
    requests _ (bindings.carried sub subscription (handles ▸ found) attempt inside session carried)
  bound name known sub inside live subscription found :=
    bindings.bound name (announced ▸ known) sub (subs sub inside) (replica ▸ live) subscription (handles ▸ found)

/-- The change of one attempt of a handle keeps the bindings when the changed attempt goes on as it has to. -/
theorem modify (bindings : session.Bindings) {sub : Sub} {number : Nat} {change : Attempt → Attempt}
    {update : Subscription Intent → Subscription Intent}
    (attempts : ∀ subscription, (update subscription).attempts = subscription.attempts.modify number change)
    (intent : ∀ subscription, (update subscription).intent = subscription.intent)
    (requests : List (Request Sub Intent))
    (unannounced : ∀ attempt, session.attempt sub number = some attempt → session.streamSession ≠ none)
    (carried : ∀ subscription attempt announced, session.handles sub = some subscription →
      subscription.attempts[number]? = some attempt → (change attempt).session = some announced →
        .view sub subscription.intent announced ∈ session.requests ++ requests)
    (bound : ∀ attempt announced, session.attempt sub number = some attempt →
      session.streamSession = some announced → attempt.outcome = .waiting ∨ attempt.session = some announced →
        (change attempt).outcome = .waiting ∨ (change attempt).session = some announced) :
    Bindings { session.withHandle sub update with requests := session.requests ++ requests } := by
  have attempt_of {before : Subscription Intent} (held : session.handles sub = some before) :
      session.attempt sub number = before.attempts[number]? := by
    rw [attempt, held]
    rfl
  constructor
  · intro other subscription found
    rcases handles_withHandle found with ⟨_, found⟩ | ⟨rfl, before, held, rfl⟩
    · exact bindings.begun other subscription found
    · rw [attempts]
      exact Subscription.modify_ne_nil (bindings.begun other before held) _ _
  · intro unknown other subscription found other_ inside
    rcases handles_withHandle found with ⟨_, found⟩ | ⟨rfl, before, held, rfl⟩
    · exact bindings.unannounced unknown other subscription found other_ inside
    · rw [attempts] at inside
      cases present : before.attempts[number]? with
      | none =>
        rw [List.modify_eq_self (List.getElem?_eq_none_iff.mp present)] at inside
        exact bindings.unannounced unknown other before held other_ inside
      | some attempt => exact absurd unknown (unannounced attempt ((attempt_of held).trans present))
  · intro other subscription found other_ inside announced carries
    rcases handles_withHandle found with ⟨_, found⟩ | ⟨rfl, before, held, rfl⟩
    · exact List.mem_append_left _ (bindings.carried other subscription found other_ inside announced carries)
    · rw [attempts] at inside
      rw [intent]
      obtain ⟨index, present⟩ := List.mem_iff_getElem?.mp inside
      rw [List.getElem?_modify] at present
      obtain ⟨attempt, there, changed⟩ := Option.map_eq_some_iff.mp present
      by_cases same : number = index
      · subst same
        rw [if_pos rfl] at changed
        subst changed
        exact carried before attempt announced held there carries
      · rw [if_neg same] at changed
        subst changed
        exact List.mem_append_left _
          (bindings.carried other before held attempt (List.mem_of_getElem? there) announced carries)
  · intro announced known other inside live subscription found
    rcases handles_withHandle found with ⟨_, found⟩ | ⟨rfl, before, held, rfl⟩
    · exact bindings.bound announced known other inside live subscription found
    · have before_bound := bindings.bound announced known other inside live before held
      obtain ⟨attempt, last, binds⟩ := Subscription.boundTo_modify before_bound
        fun attempt present => bound attempt announced ((attempt_of held).trans present) known
      exact ⟨attempt, by rw [attempts]; exact last, binds⟩

theorem postView (bindings : session.Bindings) (sub : Sub) (number : Nat) :
    (session.postView sub number).Bindings := by
  unfold Session.postView
  split
  · next stream subscription kept announced held waiting =>
      have attempts (before : Subscription Intent) : (before.post number stream).attempts =
          before.attempts.modify number fun _ => ⟨.posted, some stream⟩ := rfl
      refine bindings.modify attempts (fun _ => rfl) _ (fun _ _ => ?_) ?_ ?_
      · rw [announced]
        exact Option.some_ne_none stream
      · intro before attempt name found present carries
        obtain rfl := Option.some.inj (held.symm.trans found)
        obtain rfl := Option.some.inj carries
        exact List.mem_append_right _ List.mem_cons_self
      · intro attempt name present known binds
        exact .inr (announced.symm.trans known)
  · exact bindings

/-- The reply to a request keeps the bindings. -/
theorem progress (bindings : session.Bindings) {sub : Sub} {number : Nat}
    (posted : (session.attempt sub number).map Attempt.outcome = some .posted) {outcome : Outcome}
    {update : Subscription Intent → Subscription Intent}
    (attempts : ∀ subscription, (update subscription).attempts = (subscription.progress number outcome).attempts)
    (intent : ∀ subscription, (update subscription).intent = subscription.intent) :
    (session.withHandle sub update).Bindings := by
  obtain ⟨attempt, present, done⟩ := Option.map_eq_some_iff.mp posted
  have changed : Bindings { session.withHandle sub update with requests := session.requests ++ [] } := by
    refine bindings.modify attempts intent [] (fun other _ unknown => ?_) ?_ ?_
    · obtain ⟨subscription, held, there⟩ := Option.bind_eq_some_iff.mp present
      have waits := bindings.unannounced unknown sub subscription held attempt (List.mem_of_getElem? there)
      rw [done] at waits
      cases waits
    · intro subscription other announced held there carries
      rw [List.append_nil]
      exact bindings.carried sub subscription held other (List.mem_of_getElem? there) announced carries
    · intro other announced there known binds
      obtain rfl := Option.some.inj (present.symm.trans there)
      refine .inr (binds.resolve_left fun waits => ?_)
      rw [done] at waits
      cases waits
  rw [List.append_nil] at changed
  exact changed

/-- The new attempts bind the subscriptions whatever the old ones did. -/
theorem rebind (begun : ∀ sub subscription, session.handles sub = some subscription → subscription.attempts ≠ [])
    (unannounced : session.streamSession = none → ∀ sub subscription, session.handles sub = some subscription →
      ∀ attempt ∈ subscription.attempts, attempt.outcome = .waiting)
    (carried : ∀ sub subscription, session.handles sub = some subscription → ∀ attempt ∈ subscription.attempts,
      ∀ announced, attempt.session = some announced →
        .view sub subscription.intent announced ∈ session.requests) : session.bindAllLive.Bindings := by
  constructor
  · intro sub subscription found
    rcases handles_bindAllLive found with ⟨_, before, held, rfl⟩ | ⟨_, held⟩
    · simp [Subscription.beginOpen]
    · exact begun sub subscription held
  · intro unknown sub subscription found attempt inside
    rcases handles_bindAllLive found with ⟨_, before, held, rfl⟩ | ⟨_, held⟩
    · rcases List.mem_append.mp inside with inside | last
      · exact unannounced unknown sub before held attempt inside
      · obtain rfl := List.mem_singleton.mp last
        rfl
    · exact unannounced unknown sub subscription held attempt inside
  · intro sub subscription found attempt inside announced carries
    rcases handles_bindAllLive found with ⟨_, before, held, rfl⟩ | ⟨_, held⟩
    · rcases List.mem_append.mp inside with inside | last
      · exact carried sub before held attempt inside announced carries
      · obtain rfl := List.mem_singleton.mp last
        cases carries
    · exact carried sub subscription held attempt inside announced carries
  · intro announced _ sub inside live subscription found
    rcases handles_bindAllLive found with ⟨_, before, held, rfl⟩ | ⟨other, _⟩
    · exact Subscription.boundTo_beginOpen before announced
    · exact absurd ⟨inside, live⟩ other

theorem onSession (bindings : session.Bindings) (announced : String) : (session.onSession announced).Bindings := by
  unfold Session.onSession
  split
  · exact rebind bindings.begun (by simp) bindings.carried
  · next first =>
      have unknown : session.streamSession = none := by simpa using first
      refine ⟨bindings.begun, by simp, bindings.carried, fun _ _ sub _ _ subscription found => ?_⟩
      have last := List.getLast?_eq_some_getLast (bindings.begun sub subscription found)
      exact ⟨_, last, .inl (bindings.unannounced unknown sub subscription found _ (List.mem_of_getLast? last))⟩

end Handles

theorem handleFrame (bindings : session.Bindings) (frame : Option (Frame Sub Occ Value)) (frontier : String) :
    (session.handleFrame frame frontier).Bindings := by
  unfold Session.handleFrame
  split
  · exact bindings
  · split
    · next replica applied done =>
        by_cases reset : applied = .reset
        · subst reset
          exact rebind bindings.begun bindings.unannounced bindings.carried
        · rw [route_of_ne reset]
          constructor
          · intro sub subscription found
            rcases handles_route reset found with ⟨_, before, held, rfl⟩ | ⟨_, held⟩
            · exact bindings.begun sub before held
            · exact bindings.begun sub subscription held
          · intro unknown sub subscription found
            rcases handles_route reset found with ⟨_, before, held, rfl⟩ | ⟨_, held⟩
            · exact bindings.unannounced unknown sub before held
            · exact bindings.unannounced unknown sub subscription held
          · intro sub subscription found
            rcases handles_route reset found with ⟨_, before, held, rfl⟩ | ⟨_, held⟩
            · exact bindings.carried sub before held
            · exact bindings.carried sub subscription held
          · intro announced known sub inside live subscription found
            have was_live := ClientReplica.was_live done reset live
            rcases handles_route reset found with ⟨_, before, held, rfl⟩ | ⟨_, held⟩
            · exact bindings.bound announced known sub inside was_live before held
            · exact bindings.bound announced known sub inside was_live subscription held
    · exact bindings

theorem step (bindings : session.Bindings) (event : Event Sub Occ Value Intent) :
    (session.step event).Bindings := by
  refine step_rule (fun _ held => held.of_same rfl rfl rfl (fun _ => id) fun _ => id) bindings ?_
  cases event with
  | subscribe sub intent => exact bindings.subscribe sub intent
  | unsubscribe sub =>
    rw [Operates, Session.endSubscription]
    split
    · exact bindings.of_same rfl rfl rfl (fun _ => id) fun _ => List.mem_append_left _
    · exact bindings
  | resume sub number => exact bindings.postView sub number
  | accepted sub number => exact fun posted => bindings.progress posted (fun _ => rfl) fun _ => rfl
  | refused sub number error => exact fun posted => bindings.progress posted (fun _ => rfl) fun _ => rfl
  | unsubscribed sub =>
    rw [Operates, Session.finish]
    split
    · exact bindings.of_same rfl rfl rfl (fun _ => List.mem_of_mem_erase) fun _ => id
    · exact bindings
  | announce source announced => exact fun _ => bindings.onSession announced
  | message source frame frontier => exact fun _ => bindings.handleFrame frame frontier
  | sourceOpened _ | sourceError _ _ | reconnect => exact ⟨⟩

end Bindings

end Session

end Liasse.Connect
