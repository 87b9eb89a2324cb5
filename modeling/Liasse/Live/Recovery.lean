/-
This file tells when a connection recovers from an overflow of its ring: the frames of the next delivery
start each live subscription again exactly when they all fit in the ring.
-/

import Liasse.Live.Session

namespace Liasse.Live

/-- The connections that some requests reach. A predicate tells which requests can be made. -/
inductive Reachable {Sub Occ Value : Type} [Ord Sub] [Std.TransOrd Sub] [DecidableEq Occ]
    [DecidableEq Value]
    (allowed : Session Sub Occ Value → Observation Sub Occ Value → Request Sub Occ Value → Prop)
    (capacity : Nat) : Session Sub Occ Value → Prop
  | new : Reachable allowed capacity (.new capacity)
  | step {session : Session Sub Occ Value} (host : Observation Sub Occ Value)
      (request : Request Sub Occ Value) (earlier : Reachable allowed capacity session)
      (admitted : allowed session host request) :
      Reachable allowed capacity (session.step host request).1

namespace Session

variable {Sub Occ Value : Type} [Ord Sub] [Std.TransOrd Sub] [DecidableEq Occ] [DecidableEq Value]

theorem sound_of_reachable
    {allowed : Session Sub Occ Value → Observation Sub Occ Value → Request Sub Occ Value → Prop}
    {capacity : Nat} {session : Session Sub Occ Value} (reachable : Reachable allowed capacity session) :
    session.outbound.Sound := by
  induction reachable with
  | new => exact .new capacity
  | step host request _ _ ih => exact step_sound ih host request

omit [DecidableEq Occ] [DecidableEq Value] in
/-- A subscription is live until it closes. -/
def live (session : Session Sub Occ Value) (sub : Sub) : Bool :=
  match session.subs[sub]? with
  | some state => !state.closed
  | none => false

omit [DecidableEq Occ] [DecidableEq Value] in
/-- The live subscriptions of a connection. -/
def liveSubs (session : Session Sub Occ Value) : List Sub :=
  session.subs.keys.filter session.live

omit [DecidableEq Occ] [DecidableEq Value] in
/-- The frame that starts a live subscription again. A scalar without a value has none. -/
def freshFrame (host : Observation Sub Occ Value) (session : Session Sub Occ Value) (sub : Sub) :
    Option (Downstream Sub Occ Value) :=
  match session.subs[sub]? with
  | none => none
  | some state =>
    if state.closed then none
    else if state.scalar then (host.scalar sub).map (.scalar sub)
    else some (.init sub (host.rows sub state.windowed))

/-- The host serves the live subscriptions when it has a value for each scalar one. -/
def Served (host : Observation Sub Occ Value) (session : Session Sub Occ Value) : Prop :=
  ∀ sub state, session.subs[sub]? = some state → state.closed = false → state.scalar = true →
    host.scalar sub ≠ none

/-- A frame starts a subscription again with the current rows or the current value. -/
def Fresh (host : Observation Sub Occ Value) (sub : Sub) (frame : Downstream Sub Occ Value) : Prop :=
  (∃ windowed, frame = .init sub (host.rows sub windowed)) ∨
    ∃ value, host.scalar sub = some value ∧ frame = .scalar sub value

/-- Some frames recover a connection when they contain a reset and then a fresh start of each live
subscription. -/
def Recovers (host : Observation Sub Occ Value) (session : Session Sub Occ Value)
    (frames : List (Downstream Sub Occ Value)) : Prop :=
  ∃ before reason after, frames = before ++ .reset reason :: after ∧
    ∀ sub, session.live sub = true → ∃ frame ∈ after, Fresh host sub frame

section Shape

variable [Std.LawfulEqOrd Sub]

/-- Two connections have subscriptions of the same kinds, and the same ones are closed. -/
def SameKinds (first second : Session Sub Occ Value) : Prop :=
  ∀ sub : Sub, (first.subs[sub]?.map fun state => (state.windowed, state.scalar, state.closed)) =
    second.subs[sub]?.map fun state => (state.windowed, state.scalar, state.closed)

omit [DecidableEq Occ] [DecidableEq Value] [Std.LawfulEqOrd Sub] in
theorem freshFrame_congr {first second : Session Sub Occ Value} (same : SameKinds first second)
    (host : Observation Sub Occ Value) (sub : Sub) : freshFrame host first sub = freshFrame host second sub := by
  have kinds := same sub
  unfold freshFrame
  cases left : first.subs[sub]? with
  | none =>
    cases right : second.subs[sub]? with
    | none => rfl
    | some other => simp [left, right] at kinds
  | some state =>
    cases right : second.subs[sub]? with
    | none => simp [left, right] at kinds
    | some other =>
      simp only [left, right, Option.map_some, Option.some.injEq, Prod.mk.injEq] at kinds
      obtain ⟨windowed, scalar, closed⟩ := kinds
      simp only [windowed, scalar, closed]

omit [DecidableEq Occ] [DecidableEq Value] in
theorem sameKinds_insert {session : Session Sub Occ Value} {sub : Sub} {state : SubState Occ Value}
    (found : session.subs[sub]? = some state) (after : SubState Occ Value)
    (kept : (after.windowed, after.scalar, after.closed) = (state.windowed, state.scalar, state.closed))
    (outbound : Outbound (Downstream Sub Occ Value)) :
    SameKinds ⟨session.subs.insert sub after, outbound⟩ session := by
  intro other
  change ((session.subs.insert sub after)[other]?.map _) = _
  rw [Std.ExtTreeMap.getElem?_insert]
  split
  · next equal =>
      obtain rfl := Std.LawfulEqOrd.eq_of_compare equal
      rw [found, Option.map_some, Option.map_some, kept]
  · rfl

omit [DecidableEq Occ] [DecidableEq Value] in
/-- A subscription that starts again emits its fresh frame, and the kinds stay. -/
theorem reprojectInit_spec (host : Observation Sub Occ Value) (seq : Nat)
    (session : Session Sub Occ Value) (sub : Sub) :
    (reprojectInit host seq session sub).outbound.history.map Emitted.frame =
        session.outbound.history.map Emitted.frame ++ (freshFrame host session sub).toList ∧
      SameKinds (reprojectInit host seq session sub) session := by
  unfold reprojectInit freshFrame
  cases found : session.subs[sub]? with
  | none => exact ⟨by simp, fun _ => rfl⟩
  | some state =>
    dsimp only
    by_cases closed : state.closed = true
    · rw [if_pos closed, if_pos closed]
      exact ⟨by simp, fun _ => rfl⟩
    · rw [if_neg closed, if_neg closed]
      by_cases scalar : state.scalar = true
      · rw [if_pos scalar, if_pos scalar]
        cases host.scalar sub with
        | none => exact ⟨by simp, fun _ => rfl⟩
        | some value =>
          exact ⟨List.map_append,
            sameKinds_insert found { state with scalarValue := some value } rfl _⟩
      · rw [if_neg scalar, if_neg scalar]
        exact ⟨List.map_append,
          sameKinds_insert found { state with snapshot := host.rows sub state.windowed } rfl _⟩

omit [DecidableEq Occ] [DecidableEq Value] in
/-- The subscriptions that start again emit their fresh frames in order. -/
theorem foldl_reprojectInit (host : Observation Sub Occ Value) (seq : Nat) (subs : List Sub)
    (session : Session Sub Occ Value) :
    (subs.foldl (reprojectInit host seq) session).outbound.history.map Emitted.frame =
      session.outbound.history.map Emitted.frame ++ subs.filterMap (freshFrame host session) := by
  induction subs generalizing session with
  | nil => simp
  | cons sub subs ih =>
    obtain ⟨emitted, same⟩ := reprojectInit_spec host seq session sub
    rw [List.foldl_cons, ih, emitted, List.append_assoc, List.filterMap_cons,
      funext (freshFrame_congr same host)]
    cases freshFrame host session sub <;> rfl

omit [DecidableEq Occ] [DecidableEq Value] [Std.LawfulEqOrd Sub] in
theorem freshFrame_live {host : Observation Sub Occ Value} {session : Session Sub Occ Value} {sub : Sub}
    {frame : Downstream Sub Occ Value} (fresh : freshFrame host session sub = some frame) :
    session.live sub = true ∧ Fresh host sub frame := by
  unfold freshFrame at fresh
  unfold live
  cases found : session.subs[sub]? with
  | none => simp [found] at fresh
  | some state =>
    simp only [found] at fresh ⊢
    split at fresh
    · cases fresh
    · next opened =>
        refine ⟨by simpa using opened, ?_⟩
        split at fresh
        · obtain ⟨value, read, rfl⟩ := Option.map_eq_some_iff.mp fresh
          exact Or.inr ⟨value, read, rfl⟩
        · obtain rfl := Option.some.inj fresh
          exact Or.inl ⟨state.windowed, rfl⟩

omit [DecidableEq Occ] [DecidableEq Value] [Std.LawfulEqOrd Sub] in
/-- A served live subscription has a fresh frame. -/
theorem freshFrame_served {host : Observation Sub Occ Value} {session : Session Sub Occ Value}
    (served : Served host session) {sub : Sub} (alive : session.live sub = true) :
    ∃ frame, freshFrame host session sub = some frame := by
  unfold live at alive
  unfold freshFrame
  cases found : session.subs[sub]? with
  | none => simp [found] at alive
  | some state =>
    simp only [found, Bool.not_eq_true'] at alive ⊢
    rw [if_neg (by simp [alive])]
    split
    · next scalar =>
        obtain ⟨value, read⟩ := Option.ne_none_iff_exists'.mp (served sub state found alive scalar)
        exact ⟨.scalar sub value, by rw [read, Option.map_some]⟩
    · exact ⟨_, rfl⟩

omit [DecidableEq Occ] [DecidableEq Value] in
/-- The frames of a reset connection: the reset, then the fresh frames of its subscriptions. -/
def restartFrames (host : Observation Sub Occ Value) (session : Session Sub Occ Value) :
    List (Downstream Sub Occ Value) :=
  .reset .overflow :: session.subs.keys.filterMap (freshFrame host session)

omit [DecidableEq Occ] [DecidableEq Value] in
/-- A restart is calm exactly when its frames fit in the ring, and then it delivers them all. -/
theorem restart_spec {session : Session Sub Occ Value} (sound : session.outbound.Sound)
    (host : Observation Sub Occ Value) :
    ((session.cleared.reinit host (some .overflow)).1.outbound.overflow = false ↔
        (restartFrames host session).length ≤ session.outbound.capacity) ∧
      ((session.cleared.reinit host (some .overflow)).1.outbound.overflow = false →
        (session.cleared.reinit host (some .overflow)).2.map Emitted.frame = restartFrames host session) := by
  let marked : Session Sub Occ Value := { session.cleared with
    outbound := session.cleared.outbound.markDelivered }
  let announced := marked.enqueue host.frontier (.reset .overflow)
  let final := announced.subs.keys.foldl (reprojectInit host host.frontier) announced
  have start : marked.outbound.Sound := sound.restart
  have longer : marked.outbound.Extends final.outbound :=
    (Outbound.Extends.enqueue host.frontier _ .refl).trans
      (Outbound.Extends.foldl Session.outbound (reprojectInit_extends host host.frontier) _ announced)
  obtain ⟨news, split⟩ := longer.history
  have emitted : news.map Emitted.frame = restartFrames host session := by
    have whole := foldl_reprojectInit host host.frontier announced.subs.keys announced
    change final.outbound.history.map _ = (marked.outbound.history ++ [_]).map _ ++ _ at whole
    rw [split, List.map_append, List.map_append, List.append_assoc, List.append_cancel_left_eq] at whole
    exact whole
  have size : news.length = (restartFrames host session).length := by
    rw [← emitted, List.length_map]
  have delivered : final.outbound.overflow = false → final.outbound.drainPending.2 = news := by
    intro calm
    rw [(longer.sound start).drain_eq calm, split, longer.cursor]
    exact List.drop_left' start.length_history
  change (final.outbound.overflow = false ↔ _) ∧
    (final.outbound.overflow = false → final.outbound.drainPending.2.map _ = _)
  refine ⟨⟨fun calm => ?_, fun space => ?_⟩, fun calm => by rw [delivered calm, emitted]⟩
  · rw [← size, ← delivered calm]
    refine (List.length_filter_le _ _).trans ((longer.sound start).bounded.trans ?_)
    exact longer.capacity.le
  · exact (longer.calm start rfl rfl news split (size.trans_le space)).1

omit [DecidableEq Occ] [DecidableEq Value] [Std.LawfulEqOrd Sub] in
/-- A served connection restarts with one frame for each live subscription and the reset. -/
theorem restartFrames_length {host : Observation Sub Occ Value} {session : Session Sub Occ Value}
    (served : Served host session) :
    (restartFrames host session).length = session.liveSubs.length + 1 := by
  rw [restartFrames, List.length_cons, List.length_filterMap_eq_countP, liveSubs,
    ← List.countP_eq_length_filter]
  congr 2
  funext sub
  cases alive : session.live sub with
  | true =>
    obtain ⟨frame, fresh⟩ := freshFrame_served served alive
    rw [fresh, Option.isSome_some]
  | false =>
    rw [Option.isSome_eq_false_iff, Option.isNone_iff_eq_none, Option.eq_none_iff_forall_ne_some]
    intro frame fresh
    rw [(freshFrame_live fresh).1] at alive
    cases alive

omit [DecidableEq Occ] [DecidableEq Value] in
/-- The frames of a served restart recover the connection. -/
theorem recovers_of_served {host : Observation Sub Occ Value} {session : Session Sub Occ Value}
    (served : Served host session) : Recovers host session (restartFrames host session) := by
  refine ⟨[], .overflow, _, rfl, fun sub alive => ?_⟩
  obtain ⟨frame, fresh⟩ := freshFrame_served served alive
  have listed : sub ∈ session.subs.keys := by
    rw [Std.ExtTreeMap.mem_keys, Std.ExtTreeMap.mem_iff_isSome_getElem?]
    unfold freshFrame at fresh
    cases found : session.subs[sub]? with
    | none => simp [found] at fresh
    | some state => rfl
  exact ⟨frame, List.mem_filterMap.mpr ⟨sub, listed, fresh⟩, (freshFrame_live fresh).2⟩

omit [DecidableEq Occ] [DecidableEq Value] [Std.LawfulEqOrd Sub] in
/-- A connection that recovers is served: only its own frame starts a subscription. -/
theorem served_of_recovers {host : Observation Sub Occ Value} {session : Session Sub Occ Value}
    (recovers : Recovers host session (restartFrames host session)) : Served host session := by
  obtain ⟨before, reason, after, split, starts⟩ := recovers
  intro sub state found opened scalar unread
  obtain ⟨frame, inside, fresh⟩ := starts sub (by simp [live, found, opened])
  have listed : frame ∈ restartFrames host session := by
    rw [split]
    exact List.mem_append_right _ (List.mem_cons_of_mem _ inside)
  rcases fresh with ⟨windowed, rfl⟩ | ⟨value, read, _⟩
  · obtain ⟨other, _, emitted⟩ := List.mem_filterMap.mp
      ((List.mem_cons.mp listed).resolve_left (by simp))
    unfold freshFrame at emitted
    cases stored : session.subs[other]? with
    | none => simp [stored] at emitted
    | some kept =>
      simp only [stored] at emitted
      split at emitted
      · cases emitted
      · split at emitted
        · simp at emitted
        · next rows =>
            simp only [Option.some.injEq, Downstream.init.injEq] at emitted
            obtain ⟨rfl, _⟩ := emitted
            rw [found] at stored
            exact rows (Option.some.inj stored ▸ scalar)
  · rw [unread] at read
    cases read

/-- After an overflow, the frames of the next poll or resume contain a reset and then a fresh start of
each live subscription, and the connection is no longer latched, if and only if the ring holds all these
frames and the host has a value for each live scalar subscription. -/
theorem overflow_recovery_iff
    {allowed : Session Sub Occ Value → Observation Sub Occ Value → Request Sub Occ Value → Prop}
    {capacity : Nat} {session : Session Sub Occ Value} (reachable : Reachable allowed capacity session)
    (latched : session.outbound.overflow = true) (host : Observation Sub Occ Value)
    (request : Request Sub Occ Value) (asked : request = .poll ∨ ∃ id, request = .resume id) :
    (Recovers host session ((session.step host request).2.map Emitted.frame) ∧
        (session.step host request).1.outbound.overflow = false) ↔
      session.liveSubs.length + 1 ≤ session.outbound.capacity ∧ Served host session := by
  have same : session.step host request = session.cleared.reinit host (some .overflow) := by
    rcases asked with rfl | ⟨id, rfl⟩
    · exact poll_latched latched host
    · exact resume_latched latched host id
  obtain ⟨calm, delivered⟩ := restart_spec (sound_of_reachable reachable) host
  rw [same]
  constructor
  · rintro ⟨recovers, quiet⟩
    rw [delivered quiet] at recovers
    have served := served_of_recovers recovers
    exact ⟨restartFrames_length served ▸ calm.mp quiet, served⟩
  · rintro ⟨space, served⟩
    have quiet := calm.mpr ((restartFrames_length served).trans_le space)
    rw [delivered quiet]
    exact ⟨recovers_of_served served, quiet⟩

end Shape

section Samples

/-- A host at the first frontier whose views have no rows and whose scalars are zero. -/
def quietHost : Observation Nat Nat Nat :=
  ⟨1, fun _ => false, fun _ _ => [], fun _ => some 0⟩

/-- A connection that opens some row subscriptions before it delivers a frame. -/
def opening (capacity : Nat) (subs : List Nat) : Session Nat Nat Nat :=
  subs.foldl (fun session sub => (session.step quietHost (.openRows sub [] false)).1) (.new capacity)

theorem opening_reachable (capacity : Nat) (subs : List Nat) :
    Reachable (fun _ _ _ => True) capacity (opening capacity subs) := by
  induction subs using List.reverseRecOn with
  | nil => exact .new
  | append_singleton subs sub ih =>
    rw [opening, List.foldl_append]
    exact ih.step quietHost _ trivial

/-- A ring of two frames recovers one subscription that was opened three times. -/
theorem overflow_recovery_once :
    Recovers quietHost (opening 2 [0, 0, 0])
      (((opening 2 [0, 0, 0]).step quietHost .poll).2.map Emitted.frame) :=
  ((overflow_recovery_iff (opening_reachable 2 [0, 0, 0]) (by decide +kernel) quietHost .poll
    (Or.inl rfl)).mpr ⟨by decide +kernel, fun _ _ _ _ _ => Option.some_ne_none 0⟩).1

/-- A ring of two frames never recovers two subscriptions: the poll drops its own reset and latches the
overflow again. -/
theorem overflow_unrecovered :
    let session := opening 2 [0, 1, 1]
    session.outbound.overflow = true ∧
      (session.step quietHost .poll).2.map Emitted.frame = [.init 0 [], .init 1 []] ∧
        (session.step quietHost .poll).1.outbound.overflow = true := by
  decide +kernel

end Samples

end Session

end Liasse.Live
