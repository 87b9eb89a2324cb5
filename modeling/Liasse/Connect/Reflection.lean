/-
This file tells on which runs of a client the status of a view reflects its latest attempt, and on which no view
is bound after its unsubscription.
-/

import Liasse.Connect.Binding

namespace Liasse.Connect

namespace Session

variable {Sub Occ Value Intent : Type} [DecidableEq Sub] [DecidableEq Occ]
variable {session : Session Sub Occ Value Intent}

/-- The status of a view after its replica and its latest attempt. -/
def reflected (session : Session Sub Occ Value Intent) (sub : Sub) : ViewStatus :=
  if session.replica.isClosed sub then .closed
  else if (session.handles sub).any Subscription.isFailing then .failed
  else if (session.replica.frontierOf sub).isSome then .opened
  else .pending

/-- The failure of each live subscription is that of its latest attempt. -/
def Honest (session : Session Sub Occ Value Intent) : Prop :=
  ∀ sub ∈ session.subs, session.replica.isClosed sub = false → ∀ subscription,
    session.handles sub = some subscription → subscription.Honest

/-- No request for a view follows the request to unsubscribe it. -/
def Quiet (requests : List (Request Sub Intent)) : Prop :=
  requests.Pairwise fun earlier later => ∀ sub intent announced, earlier = .unsubscribe sub →
    later ≠ .view sub intent announced

/-- A subscription that was to unsubscribe has no attempt that waits, and it leaves the session at the reply. -/
structure Ended (session : Session Sub Occ Value Intent) : Prop where
  leaves : ∀ sub, .unsubscribe sub ∈ session.requests → sub ∈ session.subs → sub ∈ session.ending
  settled : ∀ sub subscription, .unsubscribe sub ∈ session.requests → session.handles sub = some subscription →
    subscription.Settled
  quiet : Quiet session.requests

/-- A subscription ends when nothing waits. A refusal concerns the latest attempt, before frames come, or an
attempt before a latest one that failed itself. The subscriptions begin again when none of them ends, and a frame
comes for a view without a failure. -/
def Careful (session : Session Sub Occ Value Intent) : Event Sub Occ Value Intent → Prop
  | .unsubscribe sub => sub ∈ session.subs → ∀ subscription, session.handles sub = some subscription →
      subscription.Settled
  | .refused sub number _ => sub ∈ session.subs → session.replica.isClosed sub = false → ∀ subscription attempt,
      session.handles sub = some subscription → subscription.attempts[number]? = some attempt →
        attempt.outcome = .posted →
          (number + 1 = subscription.attempts.length ∨ subscription.isFailing = true) ∧ subscription.received = false
  | .announce source _ => session.isCurrent source = true → session.streamSession.isSome → ∀ sub ∈ session.subs,
      session.replica.isClosed sub = false → sub ∉ session.ending
  | .message source frame frontier => session.isCurrent source = true → ∀ downstream, frame = some downstream →
      ∀ replica applied, session.replica.apply downstream frontier = .ok (replica, applied) →
        (applied = .reset → ∀ sub ∈ session.subs, sub ∉ session.ending) ∧
        ∀ sub ∈ session.subs, receives applied sub = true → ∀ subscription, session.handles sub = some subscription →
          subscription.failure = none
  | _ => True

/-- Each event of a run is careful when it happens. -/
def CarefulRun (first : Session Sub Occ Value Intent) (events : List (Event Sub Occ Value Intent)) : Prop :=
  ∀ earlier event, earlier ++ [event] <+: events → (first.after earlier).Careful event

section Attempts

variable {subscription : Subscription Intent}

/-- A settled subscription stays so when the changed attempt does not wait. -/
theorem settled_modify (settled : subscription.Settled) {number : Nat} {change : Attempt → Attempt}
    (kept : ∀ attempt, (change attempt).outcome ≠ .waiting) :
    Subscription.Settled { subscription with attempts := subscription.attempts.modify number change } := by
  intro attempt inside
  obtain ⟨index, present⟩ := List.mem_iff_getElem?.mp inside
  rw [List.getElem?_modify] at present
  obtain ⟨before, there, changed⟩ := Option.map_eq_some_iff.mp present
  split at changed
  · subst changed
    exact kept before
  · subst changed
    exact settled before (List.mem_of_getElem? there)

end Attempts

section Endings

omit [DecidableEq Occ]

omit [DecidableEq Sub] in
/-- The change of handles keeps the end of each subscription when no attempt begins to wait. -/
theorem Ended.of_same (ended : session.Ended) {result : Session Sub Occ Value Intent}
    (subs : result.subs = session.subs) (ending : result.ending = session.ending)
    (requests : result.requests = session.requests)
    (settled : ∀ sub after, .unsubscribe sub ∈ session.requests → result.handles sub = some after →
      ∃ before, session.handles sub = some before ∧ (before.Settled → after.Settled)) : result.Ended where
  leaves sub asked inside := ending ▸ ended.leaves sub (requests ▸ asked) (subs ▸ inside)
  settled sub after asked found := by
    rw [requests] at asked
    obtain ⟨before, held, keeps⟩ := settled sub after asked found
    exact keeps (ended.settled sub before asked held)
  quiet := requests ▸ ended.quiet

theorem Ended.withHandle (ended : session.Ended) {sub : Sub} {change : Subscription Intent → Subscription Intent}
    (kept : ∀ subscription, subscription.Settled → (change subscription).Settled) :
    (session.withHandle sub change).Ended := by
  refine ended.of_same rfl rfl rfl fun other after _ found => ?_
  rcases handles_withHandle found with ⟨_, held⟩ | ⟨rfl, before, held, rfl⟩
  · exact ⟨after, held, id⟩
  · exact ⟨before, held, kept before⟩

theorem Ended.subscribe (ended : session.Ended) (registered : session.Registered) (sub : Sub) (intent : Intent) :
    (session.subscribe sub intent).Ended := by
  unfold Session.subscribe
  split
  · exact ended
  · next fresh =>
      have unasked {other : Sub} (asked : .unsubscribe other ∈ session.requests) : other ≠ sub := fun same =>
        fresh (same ▸ registered.left other asked)
      constructor
      · intro other asked inside
        exact ended.leaves other asked ((List.mem_append.mp inside).resolve_right fun last =>
          unasked asked (List.mem_singleton.mp last))
      · intro other subscription asked found
        rcases handles_update found with ⟨_, held⟩ | ⟨same, _⟩
        · exact ended.settled other subscription asked held
        · exact absurd same (unasked asked)
      · exact ended.quiet

theorem Ended.endSubscription (ended : session.Ended) {sub : Sub}
    (careful : sub ∈ session.subs → ∀ subscription, session.handles sub = some subscription →
      subscription.Settled) : (session.endSubscription sub).Ended := by
  unfold Session.endSubscription
  split
  · next inside =>
      have cases_of {other : Sub} (asked : .unsubscribe other ∈ session.requests ++ [.unsubscribe sub]) :
          .unsubscribe other ∈ session.requests ∨ other = sub := by
        rcases List.mem_append.mp asked with asked | last
        · exact .inl asked
        · cases List.mem_singleton.mp last
          exact .inr rfl
      constructor
      · intro other asked there
        rcases cases_of asked with asked | same
        · exact List.mem_append_left _ (ended.leaves other asked there)
        · exact List.mem_append_right _ (List.mem_singleton.mpr same)
      · intro other subscription asked found
        rcases cases_of asked with asked | same
        · exact ended.settled other subscription asked found
        · exact careful inside subscription (same ▸ found)
      · refine List.pairwise_append.mpr ⟨ended.quiet, List.pairwise_singleton _ _, ?_⟩
        intro earlier _ later last other intent announced _ same
        cases (List.mem_singleton.mp last).symm.trans same
  · exact ended

/-- A request for a view has an attempt that waits, and therefore no request to unsubscribe before it. -/
theorem Ended.postView (ended : session.Ended) (sub : Sub) (number : Nat) : (session.postView sub number).Ended := by
  unfold Session.postView
  split
  · next stream subscription kept announced held waiting =>
      have unasked : .unsubscribe sub ∉ session.requests := fun asked => by
        rw [attempt, held] at waiting
        exact ended.settled sub subscription asked held _ (List.mem_of_getElem? waiting) rfl
      have earlier {other : Sub}
          (asked : .unsubscribe other ∈ session.requests ++ [.view sub subscription.intent stream]) :
          .unsubscribe other ∈ session.requests ∧ other ≠ sub := by
        rcases List.mem_append.mp asked with asked | last
        · exact ⟨asked, fun same => unasked (same ▸ asked)⟩
        · cases List.mem_singleton.mp last
      constructor
      · exact fun other asked => ended.leaves other (earlier asked).1
      · intro other after asked found
        rcases handles_withHandle found with ⟨_, held⟩ | ⟨same, _⟩
        · exact ended.settled other after (earlier asked).1 held
        · exact absurd same (earlier asked).2
      · refine List.pairwise_append.mpr ⟨ended.quiet, List.pairwise_singleton _ _, ?_⟩
        rintro first inside later last other intent name rfl same
        cases (List.mem_singleton.mp last).symm.trans same
        exact unasked inside
  · exact ended

/-- The subscriptions that begin again do not end. -/
theorem Ended.bindAllLive (ended : session.Ended)
    (careful : ∀ sub ∈ session.subs, session.replica.isClosed sub = false → sub ∉ session.ending) :
    session.bindAllLive.Ended := by
  refine ended.of_same rfl rfl rfl fun sub after asked found => ?_
  rcases handles_bindAllLive found with ⟨⟨inside, live⟩, _⟩ | ⟨_, held⟩
  · exact absurd (ended.leaves sub asked inside) (careful sub inside live)
  · exact ⟨after, held, id⟩

theorem Ended.onSession (ended : session.Ended) (announced : String)
    (careful : session.streamSession.isSome → ∀ sub ∈ session.subs, session.replica.isClosed sub = false →
      sub ∉ session.ending) : (session.onSession announced).Ended := by
  have named : Ended { session with streamSession := some announced } := ⟨ended.leaves, ended.settled, ended.quiet⟩
  unfold Session.onSession
  split
  · next known => exact named.bindAllLive (careful known)
  · exact named

theorem Ended.finish (ended : session.Ended) (registered : session.Registered) (sub : Sub) :
    (session.finish sub).Ended := by
  unfold Session.finish
  split
  · refine ⟨fun other asked inside => ?_, ended.settled, ended.quiet⟩
    obtain ⟨different, there⟩ := registered.distinct.mem_erase_iff.mp inside
    exact (List.mem_erase_of_ne different).mpr (ended.leaves other asked there)
  · exact ended

end Endings

theorem Ended.handleFrame (ended : session.Ended) (frame : Option (Frame Sub Occ Value)) (frontier : String)
    (careful : ∀ downstream, frame = some downstream → ∀ replica,
      session.replica.apply downstream frontier = .ok (replica, .reset) → ∀ sub ∈ session.subs,
        sub ∉ session.ending) : (session.handleFrame frame frontier).Ended := by
  unfold Session.handleFrame
  split
  · exact ended
  · next downstream =>
      split
      · next replica applied done =>
          have replaced : Ended { session with replica } := ⟨ended.leaves, ended.settled, ended.quiet⟩
          by_cases reset : applied = .reset
          · subst reset
            exact replaced.bindAllLive fun sub inside _ => careful downstream rfl replica done sub inside
          · rw [route_of_ne reset]
            refine replaced.of_same rfl rfl rfl fun sub after _ found => ?_
            rcases handles_route reset found with ⟨_, before, held, rfl⟩ | ⟨_, held⟩
            · exact ⟨before, held, id⟩
            · exact ⟨after, held, id⟩
      · exact ended

theorem Ended.step (ended : session.Ended) (registered : session.Registered) {event : Event Sub Occ Value Intent}
    (careful : session.Careful event) : (session.step event).Ended := by
  refine step_rule (fun _ held => ⟨held.leaves, held.settled, held.quiet⟩) ended ?_
  cases event with
  | subscribe sub intent => exact ended.subscribe registered sub intent
  | unsubscribe sub => exact ended.endSubscription careful
  | resume sub number => exact ended.postView sub number
  | accepted sub number =>
    exact fun _ => ended.withHandle fun _ settled => settled_modify settled fun _ => by simp
  | refused sub number error =>
    exact fun _ => ended.withHandle fun _ settled => settled_modify settled fun _ => by simp
  | unsubscribed sub => exact ended.finish registered sub
  | announce source announced => exact fun current => ended.onSession announced (careful current)
  | message source frame frontier =>
    exact fun current => ended.handleFrame frame frontier fun downstream same replica done =>
      (careful current downstream same replica .reset done).1 rfl
  | sourceOpened _ | sourceError _ _ | reconnect => exact ⟨⟩

section Honesty

omit [DecidableEq Occ]

theorem Honest.subscribe (honest : session.Honest) (sub : Sub) (intent : Intent) :
    (session.subscribe sub intent).Honest := by
  unfold Session.subscribe
  split
  · exact honest
  · intro other inside live subscription found
    rcases handles_update found with ⟨different, found⟩ | ⟨rfl, added⟩
    · have listed : other ∈ session.subs := (List.mem_append.mp inside).resolve_right fun last =>
        different (List.mem_singleton.mp last)
      exact honest other listed live subscription found
    · obtain rfl := Option.some.inj added
      exact Subscription.honest_beginOpen _

theorem Honest.withHandle (honest : session.Honest) {sub : Sub} {change : Subscription Intent → Subscription Intent}
    (kept : sub ∈ session.subs → session.replica.isClosed sub = false → ∀ subscription,
      session.handles sub = some subscription → subscription.Honest → (change subscription).Honest) :
    (session.withHandle sub change).Honest := by
  intro other inside live subscription found
  rcases handles_withHandle found with ⟨_, held⟩ | ⟨rfl, before, held, rfl⟩
  · exact honest other inside live subscription held
  · exact kept inside live before held (honest other inside live before held)

theorem Honest.postView (honest : session.Honest) (sub : Sub) (number : Nat) :
    (session.postView sub number).Honest := by
  unfold Session.postView
  split
  · next stream subscription kept announced held waiting =>
      refine honest.withHandle fun _ _ before found was_honest => ?_
      rw [attempt, found] at waiting
      exact Subscription.honest_modify was_honest waiting (by simp) (by simp)
  · exact honest

/-- The accepted attempt was posted, and it is not refused. -/
theorem Honest.accept (honest : session.Honest) {sub : Sub} {number : Nat}
    (posted : (session.attempt sub number).map Attempt.outcome = some .posted) :
    (session.withHandle sub fun subscription => subscription.progress number .accepted).Honest := by
  obtain ⟨attempt, present, done⟩ := Option.map_eq_some_iff.mp posted
  refine honest.withHandle fun _ _ before found was_honest => ?_
  rw [Session.attempt, found] at present
  exact Subscription.honest_modify was_honest present (by simp [done]) (by simp)

theorem Honest.refuse (honest : session.Honest) {sub : Sub} {number : Nat} (error : String)
    (posted : (session.attempt sub number).map Attempt.outcome = some .posted)
    (careful : sub ∈ session.subs → session.replica.isClosed sub = false → ∀ subscription attempt,
      session.handles sub = some subscription → subscription.attempts[number]? = some attempt →
        attempt.outcome = .posted → (number + 1 = subscription.attempts.length ∨ subscription.isFailing = true) ∧
          subscription.received = false) :
    (session.withHandle sub fun subscription => (subscription.progress number .refused).fail error).Honest := by
  obtain ⟨attempt, present, done⟩ := Option.map_eq_some_iff.mp posted
  refine honest.withHandle fun inside live before found _ => ?_
  rw [Session.attempt, found] at present
  obtain ⟨latest, silent⟩ := careful inside live before attempt found present done
  exact Subscription.honest_refused present latest silent error

/-- The new attempts of the live subscriptions have no failure. -/
theorem honest_bindAllLive (session : Session Sub Occ Value Intent) : session.bindAllLive.Honest := by
  intro sub inside live subscription found
  rcases handles_bindAllLive found with ⟨_, before, _, rfl⟩ | ⟨other, _⟩
  · exact Subscription.honest_beginOpen before
  · exact absurd ⟨inside, live⟩ other

theorem Honest.onSession (honest : session.Honest) (announced : String) : (session.onSession announced).Honest := by
  unfold Session.onSession
  split
  · exact honest_bindAllLive _
  · exact honest

theorem Honest.finish (honest : session.Honest) (sub : Sub) : (session.finish sub).Honest := by
  unfold Session.finish
  split
  · exact fun other inside => honest other (List.mem_of_mem_erase inside)
  · exact honest

end Honesty

theorem Honest.handleFrame (honest : session.Honest) (frame : Option (Frame Sub Occ Value)) (frontier : String)
    (careful : ∀ downstream, frame = some downstream → ∀ replica applied,
      session.replica.apply downstream frontier = .ok (replica, applied) → ∀ sub ∈ session.subs,
        receives applied sub = true → ∀ subscription, session.handles sub = some subscription →
          subscription.failure = none) : (session.handleFrame frame frontier).Honest := by
  unfold Session.handleFrame
  split
  · exact honest
  · next downstream =>
      split
      · next replica applied done =>
          by_cases reset : applied = .reset
          · subst reset
            exact honest_bindAllLive _
          · rw [route_of_ne reset]
            intro sub inside live subscription found
            rcases handles_route reset found with ⟨received, before, held, rfl⟩ | ⟨_, held⟩
            · exact Subscription.honest_receive (careful downstream rfl replica applied done sub inside received before held)
            · exact honest sub inside (ClientReplica.was_live done reset live) subscription held
      · exact honest

theorem Honest.step (honest : session.Honest) {event : Event Sub Occ Value Intent}
    (careful : session.Careful event) : (session.step event).Honest := by
  refine step_rule (fun _ held => held) honest ?_
  cases event with
  | subscribe sub intent => exact honest.subscribe sub intent
  | unsubscribe sub =>
    rw [Operates, Session.endSubscription]
    split
    · exact honest
    · exact honest
  | resume sub number => exact honest.postView sub number
  | accepted sub number => exact fun posted => honest.accept posted
  | refused sub number error => exact fun posted => honest.refuse error posted careful
  | unsubscribed sub => exact honest.finish sub
  | announce source announced => exact fun _ => honest.onSession announced
  | message source frame frontier =>
    exact fun current => honest.handleFrame frame frontier fun downstream same replica applied done =>
      (careful current downstream same replica applied done).2
  | sourceOpened _ | sourceError _ _ | reconnect => exact ⟨⟩

omit [DecidableEq Sub] [DecidableEq Occ] in
/-- The status of a live subscription with an honest failure reflects its latest attempt. -/
theorem status_eq_reflected (honest : session.Honest) {sub : Sub} (inside : sub ∈ session.subs) :
    session.status sub = session.reflected sub := by
  unfold status reflected
  by_cases closed : session.replica.isClosed sub = true
  · rw [if_pos closed, if_pos closed]
  · have same : (((session.handles sub).bind Subscription.failure).isSome = true) =
        ((session.handles sub).any Subscription.isFailing = true) := by
      cases found : session.handles sub with
      | none => simp
      | some subscription =>
        have reflects := honest sub inside (Bool.not_eq_true _ ▸ closed) subscription found
        exact congrArg (· = true) reflects
    rw [if_neg closed, if_neg closed]
    simp only [same]

section Sources

omit [DecidableEq Sub] [DecidableEq Occ]

/-- A later source has taken the place of a source. -/
def Replaced (session : Session Sub Occ Value Intent) (source : Nat) : Prop :=
  ∃ stream, session.stream = some stream ∧ source < stream.source

theorem Stream.source_reconnect (stream : Stream) : stream.source ≤ stream.reconnect.source := by
  unfold Stream.reconnect
  split
  · exact Nat.le_succ _
  · exact le_rfl

theorem Stream.source_onError (stream : Stream) (gaveUp : Bool) : (stream.onError gaveUp).source = stream.source := by
  unfold Stream.onError
  split
  · rfl
  · rfl

theorem Replaced.not_current {source : Nat} (replaced : session.Replaced source) :
    session.isCurrent source = false := by
  obtain ⟨stream, found, earlier⟩ := replaced
  simp [isCurrent, found, Nat.ne_of_gt earlier]

end Sources

section Streams

omit [DecidableEq Occ]

theorem stream_onSession (session : Session Sub Occ Value Intent) (announced : String) :
    (session.onSession announced).stream = session.stream := by
  unfold Session.onSession
  split
  · rfl
  · rfl

end Streams

theorem stream_handleFrame (session : Session Sub Occ Value Intent) (frame : Option (Frame Sub Occ Value))
    (frontier : String) : (session.handleFrame frame frontier).stream = session.stream := by
  unfold Session.handleFrame
  split
  · rfl
  · split
    · next replica applied _ =>
        by_cases reset : applied = .reset
        · subst reset
          rfl
        · rw [route_of_ne reset]
    · rfl

/-- The number of the source never decreases. -/
theorem Replaced.step {source : Nat} (replaced : session.Replaced source) (event : Event Sub Occ Value Intent) :
    (session.step event).Replaced source := by
  obtain ⟨stream, found, earlier⟩ := replaced
  have same {result : Session Sub Occ Value Intent} (streams : result.stream = session.stream) :
      result.Replaced source := ⟨stream, streams.trans found, earlier⟩
  have changed {result : Session Sub Occ Value Intent} (change : Stream → Stream)
      (streams : result.stream = session.stream.map change) (grows : stream.source ≤ (change stream).source) :
      result.Replaced source :=
    ⟨change stream, by rw [streams, found]; rfl, earlier.trans_le grows⟩
  cases event with
  | subscribe sub intent =>
    rw [Session.step, Session.subscribe]
    split
    · exact same rfl
    · refine same ?_
      rw [found]
      rfl
  | unsubscribe sub =>
    rw [Session.step, endSubscription]
    split
    · exact same rfl
    · exact same rfl
  | resume sub number =>
    rw [Session.step, postView]
    split
    · exact same rfl
    · exact same rfl
  | accepted sub number =>
    rw [Session.step]
    split
    · exact same rfl
    · exact same rfl
  | refused sub number error =>
    rw [Session.step]
    split
    · exact same rfl
    · exact same rfl
  | unsubscribed sub =>
    rw [Session.step, finish]
    split
    · exact same rfl
    · exact same rfl
  | sourceOpened other =>
    rw [Session.step]
    split
    · exact changed _ rfl le_rfl
    · exact same rfl
  | announce other announced =>
    rw [Session.step]
    split
    · rw [onSession_withStream]
      refine changed Stream.markProgress ?_ le_rfl
      rw [Session.withStream, stream_onSession]
    · exact same rfl
  | message other frame frontier =>
    rw [Session.step]
    split
    · rw [handleFrame_withStream]
      refine changed Stream.markProgress ?_ le_rfl
      rw [Session.withStream, stream_handleFrame]
    · exact same rfl
  | sourceError other gaveUp =>
    rw [Session.step]
    split
    · exact changed _ rfl (Stream.source_onError stream gaveUp).ge
    · exact same rfl
  | reconnect => exact changed _ rfl (Stream.source_reconnect stream)

/-- What comes from a replaced source has no effect. -/
theorem Replaced.silent {source : Nat} (replaced : session.Replaced source) (announced frontier : String)
    (frame : Option (Frame Sub Occ Value)) :
    session.step (.message source frame frontier) = session ∧ session.step (.announce source announced) = session := by
  have other := replaced.not_current
  constructor
  · rw [Session.step, other]
    rfl
  · rw [Session.step, other]
    rfl

section Runs

theorem after_append (first : Session Sub Occ Value Intent) (earlier later : List (Event Sub Occ Value Intent)) :
    first.after (earlier ++ later) = (first.after earlier).after later :=
  List.foldl_append

theorem after_concat (first : Session Sub Occ Value Intent) (earlier : List (Event Sub Occ Value Intent))
    (event : Event Sub Occ Value Intent) : first.after (earlier ++ [event]) = (first.after earlier).step event :=
  after_append first earlier [event]

/-- A property of the new session that each step keeps holds after each run. -/
theorem run_rule {keeps : Session Sub Occ Value Intent → Prop} {first : Session Sub Occ Value Intent}
    {events : List (Event Sub Occ Value Intent)} (start : keeps first)
    (kept : ∀ earlier event, earlier ++ [event] <+: events → keeps (first.after earlier) →
      keeps ((first.after earlier).step event)) : keeps (first.after events) := by
  induction events using List.reverseRecOn with
  | nil => exact start
  | append_singleton earlier event ih =>
    rw [after_concat]
    refine kept earlier event (List.prefix_refl _) (ih fun before other inside => ?_)
    exact kept before other (inside.trans (List.prefix_append _ _))

variable {events : List (Event Sub Occ Value Intent)}

theorem registered_after (events : List (Event Sub Occ Value Intent)) :
    ((Session.new : Session Sub Occ Value Intent).after events).Registered :=
  run_rule ⟨by simp [Session.new], List.nodup_nil, by simp [Session.new], by simp [Session.new], by simp [Session.new]⟩
    fun _ event _ registered => registered.step event

theorem bindings_after (events : List (Event Sub Occ Value Intent)) :
    ((Session.new : Session Sub Occ Value Intent).after events).Bindings :=
  run_rule ⟨by simp [Session.new], by simp [Session.new], by simp [Session.new], by simp [Session.new]⟩
    fun _ event _ bindings => bindings.step event

theorem Replaced.after {source : Nat} (replaced : session.Replaced source)
    (later : List (Event Sub Occ Value Intent)) : (session.after later).Replaced source := by
  induction later generalizing session with
  | nil => exact replaced
  | cons event later ih => exact ih (replaced.step event)

theorem honest_after (careful : CarefulRun (.new : Session Sub Occ Value Intent) events) :
    ((Session.new : Session Sub Occ Value Intent).after events).Honest :=
  run_rule (fun _ inside => absurd inside List.not_mem_nil)
    fun earlier event inside honest => honest.step (careful earlier event inside)

theorem ended_after (careful : CarefulRun (.new : Session Sub Occ Value Intent) events) :
    ((Session.new : Session Sub Occ Value Intent).after events).Ended :=
  run_rule ⟨by simp [Session.new], by simp [Session.new], List.Pairwise.nil⟩
    fun earlier event inside ended => ended.step (registered_after earlier) (careful earlier event inside)

/-- On each run, every subscription that was not to unsubscribe and that the server did not close is bound to the
latest stream session, or its latest attempt waits to be, and a replaced source has no effect. On a careful run the
status of each subscription reflects its latest attempt, and no view is bound after its unsubscription. -/
theorem bindings_reflect (events : List (Event Sub Occ Value Intent)) :
    let session : Session Sub Occ Value Intent := Session.new.after events
    (∀ sub subscription announced, session.handles sub = some subscription →
      .unsubscribe sub ∉ session.requests → session.replica.isClosed sub = false →
        session.streamSession = some announced →
          ∃ attempt, subscription.attempts.getLast? = some attempt ∧ (attempt.outcome = .waiting ∨
            attempt.session = some announced ∧ .view sub subscription.intent announced ∈ session.requests)) ∧
    (∀ earlier later source, events = earlier ++ later →
      (Session.new.after earlier : Session Sub Occ Value Intent).Replaced source →
        ∀ frame frontier announced, session.step (.message source frame frontier) = session ∧
          session.step (.announce source announced) = session) ∧
    (CarefulRun .new events →
      (∀ sub ∈ session.subs, session.status sub = session.reflected sub) ∧ Quiet session.requests) := by
  intro session
  have registered : session.Registered := registered_after events
  have bindings : session.Bindings := bindings_after events
  refine ⟨fun sub subscription announced found unasked live known => ?_,
    fun earlier later source split replaced frame frontier announced => ?_, fun careful => ?_⟩
  · have inside := registered.listed sub (by simp [found]) unasked
    obtain ⟨attempt, last, binds⟩ := bindings.bound announced known sub inside live subscription found
    refine ⟨attempt, last, binds.imp_right fun carries => ⟨carries, ?_⟩⟩
    exact bindings.carried sub subscription found attempt (List.mem_of_getLast? last) announced carries
  · have still : session.Replaced source := by
      change (Session.new.after events).Replaced source
      rw [split, after_append]
      exact replaced.after later
    exact still.silent announced frontier frame
  · exact ⟨fun sub inside => status_eq_reflected (honest_after careful) inside, (ended_after careful).quiet⟩

/-- A client that subscribes, and whose view opens. -/
def openedRun : List (Event Nat Nat Nat Nat) :=
  [.subscribe 0 7, .announce 0 "first", .resume 0 0, .accepted 0 0, .message 0 (some (.init 0 [])) "1"]

/-- The stream resets before the reply to the first request, and the second request opens the view. -/
def supersededRun : List (Event Nat Nat Nat Nat) :=
  [.subscribe 0 7, .announce 0 "first", .resume 0 0, .message 0 (some (.reset .overflow)) "", .resume 0 1,
    .accepted 0 1, .message 0 (some (.init 0 [])) "1", .refused 0 0 "timeout"]

/-- The stream resets before the reply to a request to unsubscribe. -/
def endedRun : List (Event Nat Nat Nat Nat) :=
  openedRun ++ [.unsubscribe 0, .message 0 (some (.reset .overflow)) "", .resume 0 1]

theorem CarefulRun.nil (first : Session Sub Occ Value Intent) : CarefulRun first [] := fun earlier event inside => by
  simp at inside

theorem CarefulRun.concat {first : Session Sub Occ Value Intent} {events : List (Event Sub Occ Value Intent)}
    (earlier : CarefulRun first events) {event : Event Sub Occ Value Intent}
    (careful : (first.after events).Careful event) : CarefulRun first (events ++ [event]) := by
  intro before other inside
  rcases List.prefix_concat_iff.mp inside with same | inside
  · obtain ⟨rfl, last⟩ := List.append_inj' same rfl
    cases last
    exact careful
  · exact earlier before other inside

theorem openedRun_careful : CarefulRun .new openedRun := by
  have subscribed : CarefulRun .new ([] ++ [.subscribe 0 7] : List (Event Nat Nat Nat Nat)) :=
    (CarefulRun.nil _).concat ⟨⟩
  have announced : CarefulRun .new (openedRun.take 2) := subscribed.concat fun _ known => by cases known
  have posted : CarefulRun .new (openedRun.take 3) := announced.concat ⟨⟩
  have accepted : CarefulRun .new (openedRun.take 4) := posted.concat ⟨⟩
  refine accepted.concat fun _ downstream _ replica applied _ =>
    ⟨fun _ sub _ => List.not_mem_nil, fun sub inside _ subscription found => ?_⟩
  obtain rfl := List.mem_singleton.mp inside
  obtain rfl := Option.some.inj found
  rfl

/-- An accepted view is open once its rows came. -/
theorem openedRun_reflects :
    ((Session.new.after openedRun).status 0 = .opened) ∧ Quiet (Session.new.after openedRun).requests := by
  obtain ⟨reflects, quiet⟩ := (bindings_reflect openedRun).2.2 openedRun_careful
  refine ⟨(reflects 0 ?_).trans ?_, quiet⟩
  · exact List.mem_singleton_self 0
  · decide +kernel

/-- The refusal of an attempt that another one has superseded marks an open view as failed, and a reset before the
reply to a request to unsubscribe binds the view again after that request. -/
theorem superseded_fails :
    ((Session.new.after supersededRun).status 0 = .failed ∧
      (Session.new.after supersededRun).reflected 0 = .opened) ∧
    ¬ Quiet (Session.new.after endedRun).requests := by
  have requests : (Session.new.after endedRun).requests = [.view 0 7 "first", .unsubscribe 0, .view 0 7 "first"] := rfl
  refine ⟨⟨?_, ?_⟩, fun quiet => ?_⟩
  · decide +kernel
  · decide +kernel
  · rw [requests] at quiet
    obtain ⟨_, rest⟩ := List.pairwise_cons.mp quiet
    exact (List.pairwise_cons.mp rest).1 _ List.mem_cons_self 0 7 "first" rfl rfl

end Runs

end Session

end Liasse.Connect
