/-
This file tells when a reconnect loses no frame: the replay gives the rest of the stream exactly when the frontier of
the last received frame separates it from the later ones.
-/

import Liasse.Live.Recovery
import Liasse.Codes.Table

namespace Liasse.Live

/-- What a client holds of a subscription. -/
inductive Phase (Occ Value : Type)
  | rows (held : List (WireRow Occ Value))
  | scalar (value : Value)
  | closed

section Folding

variable {Sub Occ Value : Type} [DecidableEq Sub] [DecidableEq Occ]

/-- The effect of a frame on a client. A start opens a subscription anew, and a patch applies to rows
only. -/
def fold (client : Sub → Option (Phase Occ Value)) :
    Downstream Sub Occ Value → Sub → Option (Phase Occ Value)
  | .init sub rows => Function.update client sub (some (.rows rows))
  | .scalar sub value => Function.update client sub (some (.scalar value))
  | .patch sub ops =>
    match client sub with
    | some (.rows held) =>
      match apply held ops with
      | .ok rows => Function.update client sub (some (.rows rows))
      | .error _ => client
    | _ => client
  | .close sub _ => Function.update client sub (some .closed)
  | .reset _ => fun _ => none

/-- What a client holds after some frames. -/
def replica (frames : List (Downstream Sub Occ Value)) : Sub → Option (Phase Occ Value) :=
  frames.foldl fold fun _ => none

omit [DecidableEq Sub] [DecidableEq Occ] in
/-- What the server believes that the client holds. -/
def SubState.phase (state : SubState Occ Value) : Option (Phase Occ Value) :=
  if state.scalar then state.scalarValue.map .scalar else some (.rows state.snapshot)

end Folding

namespace Session

variable {Sub Occ Value : Type} [Ord Sub] [Std.TransOrd Sub] [Std.LawfulEqOrd Sub] [DecidableEq Sub]
  [DecidableEq Occ]

/-- What a client of the whole stream holds. -/
def mirror (session : Session Sub Occ Value) : Sub → Option (Phase Occ Value) :=
  replica (session.outbound.history.map Emitted.frame)

/-- The client of the whole stream holds what the server tracks of each live subscription, except for
those that wait for a fresh start. -/
def TidyOutside (waiting : List Sub) (session : Session Sub Occ Value) : Prop :=
  ∀ sub state, session.subs[sub]? = some state → Distinct state.snapshot ∧
    (state.closed = false → sub ∉ waiting → session.mirror sub = state.phase)

/-- The client of the whole stream holds what the server tracks. -/
def Tidy (session : Session Sub Occ Value) : Prop :=
  TidyOutside [] session

/-- A host serves a request when its rows have different occurrences and it has a value for each live
scalar subscription. -/
structure Serves (session : Session Sub Occ Value) (host : Observation Sub Occ Value)
    (request : Request Sub Occ Value) : Prop where
  rows : ∀ sub windowed, Distinct (host.rows sub windowed)
  opened : ∀ sub rows windowed, request = .openRows sub rows windowed → Distinct rows
  served : Served host session

omit [Std.TransOrd Sub] [Std.LawfulEqOrd Sub] in
theorem mirror_enqueue (session : Session Sub Occ Value) (subs : Std.ExtTreeMap Sub (SubState Occ Value))
    (seq : Nat) (frame : Downstream Sub Occ Value) :
    mirror ⟨subs, session.outbound.enqueue seq frame⟩ = fold session.mirror frame := by
  change replica ((session.outbound.history ++ [_]).map Emitted.frame) = _
  rw [List.map_append, replica, List.foldl_append]
  rfl

/-- A frame of a subscription keeps the other subscriptions tidy. -/
theorem tidy_emit {session : Session Sub Occ Value} {waiting : List Sub} {sub : Sub}
    (tidy : TidyOutside (sub :: waiting) session) (state : SubState Occ Value)
    (distinct : Distinct state.snapshot) (seq : Nat) (frame : Downstream Sub Occ Value)
    (here : state.closed = false → fold session.mirror frame sub = state.phase)
    (elsewhere : ∀ other, other ≠ sub → fold session.mirror frame other = session.mirror other) :
    TidyOutside waiting ⟨session.subs.insert sub state, session.outbound.enqueue seq frame⟩ := by
  intro other found stored
  rw [mirror_enqueue]
  by_cases same : other = sub
  · subst same
    rw [Std.ExtTreeMap.getElem?_insert_self] at stored
    obtain rfl := Option.some.inj stored
    exact ⟨distinct, fun opened _ => here opened⟩
  · change (session.subs.insert sub state)[other]? = _ at stored
    rw [Codes.getElem?_insert_of_ne same] at stored
    obtain ⟨kept, held⟩ := tidy other found stored
    refine ⟨kept, fun opened outside => ?_⟩
    rw [elsewhere other same]
    exact held opened (by simp [same, outside])

omit [Std.LawfulEqOrd Sub] in
theorem TidyOutside.weaken {session : Session Sub Occ Value} {waiting others : List Sub}
    (tidy : TidyOutside waiting session) (more : waiting ⊆ others) : TidyOutside others session :=
  fun sub state stored => ⟨(tidy sub state stored).1, fun opened outside =>
    (tidy sub state stored).2 opened fun inside => outside (more inside)⟩

theorem installRows_tidy {session : Session Sub Occ Value} (tidy : Tidy session)
    (host : Observation Sub Occ Value) (sub : Sub) {rows : List (WireRow Occ Value)}
    (distinct : Distinct rows) (windowed : Bool) : Tidy (session.installRows host sub rows windowed) :=
  tidy_emit (tidy.weaken (List.nil_subset _)) ⟨windowed, false, false, rows, none⟩ distinct host.frontier
    (.init sub rows) (fun _ => Function.update_self ..) fun _ different => Function.update_of_ne different ..

theorem installScalar_tidy {session : Session Sub Occ Value} (tidy : Tidy session)
    (host : Observation Sub Occ Value) (sub : Sub) (value : Value) :
    Tidy (session.installScalar host sub value) :=
  tidy_emit (tidy.weaken (List.nil_subset _)) ⟨false, true, false, [], some value⟩ List.nodup_nil
    host.frontier (.scalar sub value) (fun _ => Function.update_self ..)
    fun _ different => Function.update_of_ne different ..

theorem emitClose_tidy {session : Session Sub Occ Value} (tidy : Tidy session) {sub : Sub}
    {state : SubState Occ Value} (found : session.subs[sub]? = some state) (seq : Nat)
    (reason : CloseReason) : Tidy (session.emitClose sub state seq reason) :=
  tidy_emit (tidy.weaken (List.nil_subset _)) { state with closed := true } (tidy sub state found).1 seq
    (.close sub reason) (fun opened => absurd opened (by simp))
    fun _ different => Function.update_of_ne different ..

variable [DecidableEq Value]

theorem advanceScalar_tidy {session : Session Sub Occ Value} (tidy : Tidy session)
    (host : Observation Sub Occ Value) {sub : Sub} {state : SubState Occ Value}
    (found : session.subs[sub]? = some state) (scalar : state.scalar = true) (seq : Nat) :
    Tidy (session.advanceScalar host sub state seq) := by
  unfold advanceScalar
  split
  · exact tidy
  · next value read =>
      split
      · refine tidy_emit (tidy.weaken (List.nil_subset _)) { state with scalarValue := some value }
          (tidy sub state found).1 seq (.scalar sub value) (fun _ => ?_)
          fun _ different => Function.update_of_ne different ..
        rw [SubState.phase, if_pos scalar]
        exact Function.update_self ..
      · exact tidy

theorem advanceRows_tidy {session : Session Sub Occ Value} (tidy : Tidy session)
    (host : Observation Sub Occ Value) {sub : Sub} {state : SubState Occ Value}
    (found : session.subs[sub]? = some state) (opened : state.closed = false)
    (rows : state.scalar = false) (distinct : Distinct (host.rows sub state.windowed)) (seq : Nat) :
    Tidy (session.advanceRows host sub state seq) := by
  obtain ⟨old, held⟩ := tidy sub state found
  have before : session.mirror sub = some (.rows state.snapshot) := by
    rw [held opened List.not_mem_nil, SubState.phase, if_neg (by simp [rows])]
  have exact := apply_diffRows old distinct
  unfold advanceRows
  dsimp only
  split
  · refine tidy_emit (tidy.weaken (List.nil_subset _))
      { state with snapshot := host.rows sub state.windowed } distinct seq
      (.patch sub (diffRows state.snapshot (host.rows sub state.windowed))) (fun _ => ?_)
      fun other different => ?_
    · simp only [fold, before, exact]
      rw [SubState.phase, if_neg (by simp [rows])]
      exact Function.update_self ..
    · simp only [fold, before, exact]
      exact Function.update_of_ne different ..
  · next quiet =>
      have same := (diffRows_eq_nil old distinct).mp (not_not.mp quiet)
      intro other stored kept
      by_cases equal : other = sub
      · subst equal
        rw [Std.ExtTreeMap.getElem?_insert_self] at kept
        obtain rfl := Option.some.inj kept
        refine ⟨distinct, fun _ _ => ?_⟩
        rw [SubState.phase, if_neg (by simp [rows]), ← same]
        exact before
      · change (session.subs.insert sub _)[other]? = _ at kept
        rw [Codes.getElem?_insert_of_ne equal] at kept
        exact tidy other stored kept

theorem sweepOne_tidy {session : Session Sub Occ Value} (tidy : Tidy session)
    {host : Observation Sub Occ Value} (distinct : ∀ sub windowed, Distinct (host.rows sub windowed))
    (seq : Nat) (caller : Bool) (sub : Sub) : Tidy (sweepOne host seq caller session sub) := by
  unfold sweepOne
  cases found : session.subs[sub]? with
  | none => exact tidy
  | some state =>
    dsimp only
    split
    · exact tidy
    · next opened =>
        split
        · exact emitClose_tidy tidy found seq .unauthorized
        · split
          · exact tidy
          · split
            · next scalar => exact advanceScalar_tidy tidy host found scalar seq
            · next rows =>
                exact advanceRows_tidy tidy host found (by simpa using opened) (by simpa using rows)
                  (distinct sub state.windowed) seq

theorem sweep_tidy {session : Session Sub Occ Value} (tidy : Tidy session)
    {host : Observation Sub Occ Value} (distinct : ∀ sub windowed, Distinct (host.rows sub windowed))
    (seq : Nat) (caller : Bool) : Tidy (session.sweep host seq caller) :=
  List.foldlRecOn (motive := Tidy) _ _ tidy fun _ tidy sub _ => sweepOne_tidy tidy distinct seq caller sub

omit [DecidableEq Value] in
/-- A served subscription that starts again no longer waits. -/
theorem reprojectInit_tidy {session : Session Sub Occ Value} {sub : Sub} {waiting : List Sub}
    (tidy : TidyOutside (sub :: waiting) session) {host : Observation Sub Occ Value}
    (distinct : ∀ sub windowed, Distinct (host.rows sub windowed)) (served : Served host session)
    (seq : Nat) : TidyOutside waiting (reprojectInit host seq session sub) := by
  have settled : ∀ state, session.subs[sub]? = some state → state.closed = true →
      TidyOutside waiting session := by
    intro state found closed other stored kept
    refine ⟨(tidy other stored kept).1, fun opened outside => (tidy other stored kept).2 opened ?_⟩
    refine List.not_mem_cons_of_ne_of_not_mem (fun same => ?_) outside
    subst same
    rw [found] at kept
    rw [Option.some.inj kept, opened] at closed
    cases closed
  unfold reprojectInit
  cases found : session.subs[sub]? with
  | none =>
    refine fun other stored kept => ⟨(tidy other stored kept).1, fun opened outside =>
      (tidy other stored kept).2 opened (List.not_mem_cons_of_ne_of_not_mem (fun same => ?_) outside)⟩
    rw [← same, kept] at found
    cases found
  | some state =>
    dsimp only
    split
    · next closed => exact settled state found closed
    · next opened =>
        split
        · next scalar =>
            obtain ⟨value, read⟩ := Option.ne_none_iff_exists'.mp
              (served sub state found (by simpa using opened) scalar)
            rw [read]
            refine tidy_emit tidy { state with scalarValue := some value } (tidy sub state found).1 seq
              (.scalar sub value) (fun _ => ?_) fun _ different => Function.update_of_ne different ..
            rw [SubState.phase, if_pos scalar]
            exact Function.update_self ..
        · next rows =>
            refine tidy_emit tidy { state with snapshot := host.rows sub state.windowed }
              (distinct sub state.windowed) seq (.init sub (host.rows sub state.windowed)) (fun _ => ?_)
              fun _ different => Function.update_of_ne different ..
            rw [SubState.phase, if_neg rows]
            exact Function.update_self ..

omit [DecidableEq Occ] [DecidableEq Value] [DecidableEq Sub] [Std.LawfulEqOrd Sub] in
theorem served_congr {first second : Session Sub Occ Value} (same : SameKinds first second)
    {host : Observation Sub Occ Value} (served : Served host second) : Served host first := by
  intro sub state found opened scalar
  have kinds := same sub
  cases stored : second.subs[sub]? with
  | none => simp [found, stored] at kinds
  | some other =>
    simp only [found, stored, Option.map_some, Option.some.injEq, Prod.mk.injEq] at kinds
    exact served sub other stored (kinds.2.2 ▸ opened) (kinds.2.1 ▸ scalar)

omit [DecidableEq Value] in
theorem foldl_reprojectInit_tidy {host : Observation Sub Occ Value}
    (distinct : ∀ sub windowed, Distinct (host.rows sub windowed)) (seq : Nat) (waiting : List Sub)
    {session : Session Sub Occ Value} (tidy : TidyOutside waiting session) (served : Served host session) :
    Tidy (waiting.foldl (reprojectInit host seq) session) := by
  induction waiting generalizing session with
  | nil => exact tidy
  | cons sub waiting ih =>
    exact ih (reprojectInit_tidy tidy distinct served seq)
      (served_congr (reprojectInit_spec host seq session sub).2 served)

omit [DecidableEq Value] in
/-- A restart leaves the client and the server in agreement, with or without a reset. -/
theorem reinit_tidy {session : Session Sub Occ Value} (tidy : Tidy session)
    {host : Observation Sub Occ Value} (distinct : ∀ sub windowed, Distinct (host.rows sub windowed))
    (served : Served host session) (reset : Option ResetReason) :
    Tidy (session.reinit host reset).1 := by
  cases reset with
  | none =>
    have marked : Tidy { session with outbound := session.outbound.markDelivered } := tidy
    exact foldl_reprojectInit_tidy distinct host.frontier session.subs.keys
      (marked.weaken (List.nil_subset _)) served
  | some reason =>
    refine foldl_reprojectInit_tidy distinct host.frontier session.subs.keys ?_ served
    intro sub state found
    refine ⟨(tidy sub state found).1, fun _ outside => absurd ?_ outside⟩
    rw [Std.ExtTreeMap.mem_keys, Std.ExtTreeMap.mem_iff_isSome_getElem?]
    exact Option.isSome_of_eq_some found

/-- A served request leaves the client and the server in agreement. -/
theorem step_tidy {session : Session Sub Occ Value} (tidy : Tidy session)
    {host : Observation Sub Occ Value} {request : Request Sub Occ Value}
    (serves : Serves session host request) : Tidy (session.step host request).1 := by
  have cleared : Tidy session.cleared := tidy
  have restarts := reinit_tidy cleared serves.rows serves.served
  cases request with
  | openRows sub rows windowed =>
    exact installRows_tidy tidy host sub (serves.opened sub rows windowed rfl) windowed
  | openScalar sub value => exact installScalar_tidy tidy host sub value
  | unsubscribe sub =>
    change Tidy (session.unsubscribe host sub)
    unfold unsubscribe
    cases found : session.subs[sub]? with
    | none => exact tidy
    | some state =>
      dsimp only
      split
      · exact tidy
      · exact emitClose_tidy tidy found host.frontier .unsubscribed
  | commit => exact sweep_tidy tidy serves.rows host.frontier true
  | peerCommit seq => exact sweep_tidy tidy serves.rows seq false
  | poll =>
    change Tidy (session.poll host).1
    rw [poll_eq]
    split
    · exact restarts _
    · exact tidy
  | resume lastEventId =>
    change Tidy (session.resume host lastEventId).1
    unfold resume
    dsimp only
    split
    · exact restarts _
    · split
      · exact restarts _
      · exact restarts _
      · split
        · exact tidy
        · exact restarts _

theorem tidy_of_reachable
    {allowed : Session Sub Occ Value → Observation Sub Occ Value → Request Sub Occ Value → Prop}
    (serves : ∀ session host request, allowed session host request → Serves session host request)
    {capacity : Nat} {session : Session Sub Occ Value} (reachable : Reachable allowed capacity session) :
    Tidy session := by
  induction reachable with
  | new => exact fun sub state found => absurd found (by simp [Session.new])
  | step host request _ admitted ih =>
    exact step_tidy ih (serves _ host request admitted)

end Session

section Streams

variable {Sub Occ Value : Type} [Ord Sub] [Std.TransOrd Sub] [DecidableEq Occ] [DecidableEq Value]

/-- A request goes on with the stream unless it reconnects, or polls a latched connection. -/
def Streaming (session : Session Sub Occ Value) : Request Sub Occ Value → Prop
  | .resume _ => False
  | .poll => session.outbound.overflow = false
  | _ => True

/-- The frames that later requests deliver while the stream goes on. -/
inductive Streams
    (allowed : Session Sub Occ Value → Observation Sub Occ Value → Request Sub Occ Value → Prop)
    (session : Session Sub Occ Value) :
    List (Emitted (Downstream Sub Occ Value)) → Session Sub Occ Value → Prop
  | refl : Streams allowed session [] session
  | step {out : List (Emitted (Downstream Sub Occ Value))} {reached : Session Sub Occ Value}
      (host : Observation Sub Occ Value) (request : Request Sub Occ Value)
      (earlier : Streams allowed session out reached) (admitted : allowed reached host request)
      (streaming : Streaming reached request) :
      Streams allowed session (out ++ (reached.step host request).2) (reached.step host request).1

/-- While the stream goes on, the history grows, and the frames delivered since a drained point are those
from there to the cursor. -/
theorem Streams.spec
    {allowed : Session Sub Occ Value → Observation Sub Occ Value → Request Sub Occ Value → Prop}
    {session final : Session Sub Occ Value} {out : List (Emitted (Downstream Sub Occ Value))}
    (streams : Streams allowed session out final) (sound : session.outbound.Sound) :
    final.outbound.Sound ∧ (∃ frames, final.outbound.history = session.outbound.history ++ frames) ∧
      session.outbound.cursor ≤ final.outbound.cursor ∧
        out = (final.outbound.history.take final.outbound.cursor).drop session.outbound.cursor := by
  induction streams with
  | refl =>
    refine ⟨sound, ⟨[], (List.append_nil _).symm⟩, le_rfl, ?_⟩
    rw [List.drop_eq_nil_of_le]
    exact List.length_take_le _ _
  | @step out reached host request earlier admitted streaming ih =>
    obtain ⟨soundReached, ⟨frames, grown⟩, ahead, delivered⟩ := ih
    have length := soundReached.length_history
    have emits : ∀ next : Session Sub Occ Value, reached.outbound.Extends next.outbound →
        next.outbound.Sound ∧ (∃ frames, next.outbound.history = session.outbound.history ++ frames) ∧
          session.outbound.cursor ≤ next.outbound.cursor ∧
            out ++ [] = (next.outbound.history.take next.outbound.cursor).drop session.outbound.cursor := by
      intro next longer
      obtain ⟨more, split⟩ := longer.history
      refine ⟨longer.sound soundReached, ⟨frames ++ more, ?_⟩, longer.cursor ▸ ahead, ?_⟩
      · rw [split, grown, List.append_assoc]
      · rw [List.append_nil, longer.cursor, split,
          List.take_append_of_le_length (length ▸ soundReached.reached)]
        exact delivered
    cases request with
    | openRows sub rows windowed => exact emits _ (.enqueue _ _ .refl)
    | openScalar sub value => exact emits _ (.enqueue _ _ .refl)
    | unsubscribe sub => exact emits _ (reached.unsubscribe_extends host sub)
    | commit => exact emits _ (reached.sweep_extends host host.frontier true)
    | peerCommit seq => exact emits _ (reached.sweep_extends host seq false)
    | resume lastEventId => exact streaming.elim
    | poll =>
      have calm : reached.outbound.overflow = false := streaming
      change (reached.poll host).1.outbound.Sound ∧ (∃ frames, (reached.poll host).1.outbound.history = _) ∧
        _ ≤ (reached.poll host).1.outbound.cursor ∧ out ++ (reached.poll host).2 =
          ((reached.poll host).1.outbound.history.take (reached.poll host).1.outbound.cursor).drop _
      rw [Session.poll_calm calm]
      refine ⟨soundReached.drainPending, ⟨frames, grown⟩, ahead.trans soundReached.reached, ?_⟩
      change out ++ reached.outbound.drainPending.2 =
        (reached.outbound.history.take reached.outbound.nextPos).drop _
      rw [soundReached.drain_eq calm, delivered, List.take_of_length_le length.le]
      conv_rhs => rw [← List.take_append_drop reached.outbound.cursor reached.outbound.history]
      rw [List.drop_append_of_le_length]
      rw [List.length_take, length]
      exact le_min ahead (ahead.trans soundReached.reached)

end Streams

section Losslessness

variable {Sub Occ Value : Type} [Ord Sub] [Std.TransOrd Sub] [Std.LawfulEqOrd Sub] [DecidableEq Sub]
  [DecidableEq Occ] [DecidableEq Value]

theorem Streams.tidy
    {allowed : Session Sub Occ Value → Observation Sub Occ Value → Request Sub Occ Value → Prop}
    (serves : ∀ session host request, allowed session host request →
      Session.Serves session host request)
    {session final : Session Sub Occ Value} {out : List (Emitted (Downstream Sub Occ Value))}
    (streams : Streams allowed session out final) (tidy : session.Tidy) : final.Tidy := by
  induction streams with
  | refl => exact tidy
  | step host request _ admitted _ ih =>
    exact Session.step_tidy ih (serves _ host request admitted)

/-- When a resume replays, its frames and those of the later drains are the stream after the received
prefix if and only if the frontier separates them. A client that holds the prefix and then receives these
frames holds what the server tracks of each live subscription, once everything is drained. -/
theorem resume_lossless_iff
    {allowed : Session Sub Occ Value → Observation Sub Occ Value → Request Sub Occ Value → Prop}
    {capacity : Nat} {session : Session Sub Occ Value} (reachable : Reachable allowed capacity session)
    (calm : session.outbound.overflow = false) {seq : Nat}
    (retained : session.outbound.replayable seq = true) (host : Observation Sub Occ Value) {count : Nat}
    (received : count ≤ session.outbound.cursor) {out : List (Emitted (Downstream Sub Occ Value))}
    {final : Session Sub Occ Value}
    (later : Streams allowed (session.resume host (some (some seq))).1 out final) :
    ((session.resume host (some (some seq))).2 ++ out =
        (final.outbound.history.take final.outbound.cursor).drop count ↔
          session.outbound.Separates count seq) ∧
      ((∀ session host request, allowed session host request → Session.Serves session host request) →
        session.outbound.Separates count seq → final.outbound.cursor = final.outbound.nextPos →
          ∀ sub state, final.subs[sub]? = some state → state.closed = false →
            replica ((session.outbound.history.take count ++
              ((session.resume host (some (some seq))).2 ++ out)).map Emitted.frame) sub = state.phase) := by
  have sound := Session.sound_of_reachable reachable
  have replayed := Session.resume_replay calm retained host
  rw [replayed] at later ⊢
  obtain ⟨soundFinal, ⟨frames, grown⟩, ahead, delivered⟩ := later.spec (sound.replayAfter seq)
  change final.outbound.history = session.outbound.history ++ frames at grown
  change session.outbound.nextPos ≤ final.outbound.cursor at ahead
  change out = (final.outbound.history.take final.outbound.cursor).drop session.outbound.nextPos at delivered
  have length := sound.length_history
  -- The stream after the prefix is the rest of the old history and what was delivered since.
  have stream : (final.outbound.history.take final.outbound.cursor).drop count =
      session.outbound.history.drop count ++ out := by
    rw [delivered, grown, List.take_append, List.take_of_length_le (length.trans_le ahead),
      List.drop_append_of_le_length (received.trans (length ▸ sound.reached)),
      List.drop_append_of_le_length length.ge, List.drop_eq_nil_of_le length.le, List.nil_append]
  have lossless : (session.outbound.replayAfter seq).2 ++ out =
      (final.outbound.history.take final.outbound.cursor).drop count ↔
        session.outbound.Separates count seq := by
    rw [stream, List.append_cancel_right_eq]
    exact sound.replay_eq_iff retained
  refine ⟨lossless, fun serves separates drained sub state found opened => ?_⟩
  have old : session.Tidy := Session.tidy_of_reachable serves reachable
  have tidy := later.tidy serves old
  have whole : session.outbound.history.take count ++
      ((session.outbound.replayAfter seq).2 ++ out) = final.outbound.history := by
    rw [lossless.mpr separates, drained, List.take_of_length_le soundFinal.length_history.le]
    have early : session.outbound.history.take count = final.outbound.history.take count := by
      rw [grown, List.take_append_of_le_length (received.trans (length ▸ sound.reached))]
    rw [early, List.take_append_drop]
  rw [whole]
  exact (tidy sub state found).2 opened List.not_mem_nil

/-- The host after a commit that gives each view one row. -/
def busyHost : Observation Nat Nat Nat :=
  ⟨2, fun _ => false, fun _ _ => [⟨1, 1⟩], fun _ => some 0⟩

/-- A connection with some row subscriptions whose first frames were delivered. -/
def delivered (subs : List Nat) : Session Nat Nat Nat :=
  ((Session.opening 3 subs).step Session.quietHost .poll).1

theorem delivered_reachable (subs : List Nat) :
    Reachable (fun _ _ _ => True) 3 (delivered subs) :=
  (Session.opening_reachable 3 subs).step Session.quietHost .poll trivial

/-- A client that has the first frame of its only view receives the patch of the next commit. -/
theorem resume_lossless_patch :
    let session := ((delivered [0]).step busyHost .commit).1
    (session.resume busyHost (some (some 1))).2 ++ [] =
      ((session.resume busyHost (some (some 1))).1.outbound.history.take
        (session.resume busyHost (some (some 1))).1.outbound.cursor).drop 1 :=
  (resume_lossless_iff ((delivered_reachable [0]).step busyHost .commit trivial) (by decide +kernel)
    (by decide +kernel) busyHost (by decide +kernel) .refl).1.mpr (by decide +kernel)

/-- Two views open at one frontier. A client that has the first of the two frames resumes from this
frontier, and the replay leaves the second frame out. -/
theorem resume_loses :
    let session := delivered [0, 1]
    session.outbound.overflow = false ∧ session.outbound.replayable 1 = true ∧
      (session.outbound.history.take 1).map Emitted.frontierSeq = [1] ∧
        ((session.outbound.history.take session.outbound.cursor).drop 1).map Emitted.frame =
          [.init 1 []] ∧ (session.resume Session.quietHost (some (some 1))).2.map Emitted.frame = [] := by
  decide +kernel

end Losslessness

end Liasse.Live
