/-
This file tells when the frontiers of the frames that a connection delivers never regress.
-/

import Liasse.Live.Recovery

namespace Liasse.Live

section Feeds

/-- A connection at its host: the latest commit of the host, the frontier of the connection and the frames
that the client received. -/
structure Feed (Sub Occ Value : Type) [Ord Sub] where
  head : Nat
  frontier : Nat
  session : Session Sub Occ Value
  received : List (Emitted (Downstream Sub Occ Value))

/-- What happens at a connection and at its host. A retry returns the commit that its operation made before.
A client that resumes keeps the first frames that it received. -/
inductive Traffic (Sub Occ Value : Type)
  | openRows (sub : Sub) (rows : List (WireRow Occ Value)) (windowed : Bool)
  | openScalar (sub : Sub) (value : Value)
  | unsubscribe (sub : Sub)
  | commit
  | retry (seq : Nat)
  | peerCommit
  | peerRetry (seq : Nat)
  | hostCommit
  | sweepAll
  | poll
  | resume (kept : Nat) (lastEventId : Option (Option Nat))

namespace Feed

variable {Sub Occ Value : Type} [Ord Sub] [Std.TransOrd Sub] [DecidableEq Occ] [DecidableEq Value]

omit [Std.TransOrd Sub] [DecidableEq Occ] [DecidableEq Value] in
/-- A new connection at the latest commit of the host. -/
def new (head capacity : Nat) : Feed Sub Occ Value :=
  ⟨head, head, .new capacity, []⟩

/-- A request at the frontier of the connection, and its frames at the client. -/
def request (feed : Feed Sub Occ Value) (host : Observation Sub Occ Value) (request : Request Sub Occ Value) :
    Feed Sub Occ Value :=
  let (session, frames) := feed.session.step { host with frontier := feed.frontier } request
  { feed with session, received := feed.received ++ frames }

/-- The connection after an event. Its own commits advance its frontier, and those of a peer do not. -/
def step (feed : Feed Sub Occ Value) (host : Observation Sub Occ Value) :
    Traffic Sub Occ Value → Feed Sub Occ Value
  | .openRows sub rows windowed => feed.request host (.openRows sub rows windowed)
  | .openScalar sub value => feed.request host (.openScalar sub value)
  | .unsubscribe sub => feed.request host (.unsubscribe sub)
  | .commit =>
    { feed with head := feed.head + 1, frontier := max feed.frontier (feed.head + 1) }.request host .commit
  | .retry seq => { feed with frontier := max feed.frontier seq }.request host .commit
  | .peerCommit => { feed with head := feed.head + 1 }.request host (.peerCommit (feed.head + 1))
  | .peerRetry seq => feed.request host (.peerCommit seq)
  | .hostCommit => { feed with head := feed.head + 1 }
  | .sweepAll => { feed with frontier := max feed.frontier feed.head }
  | .poll => feed.request host .poll
  | .resume kept lastEventId =>
    { feed with received := feed.received.take kept }.request host (.resume lastEventId)

/-- The connection after some events. The last event comes first. -/
def after (first : Feed Sub Occ Value) (events : List (Observation Sub Occ Value × Traffic Sub Occ Value)) :
    Feed Sub Occ Value :=
  events.foldr (fun event feed => feed.step event.1 event.2) first

/-- The frontiers of the frames that the client received. -/
def stamps (feed : Feed Sub Occ Value) : List Nat :=
  feed.received.map Emitted.frontierSeq

/-- A frontier has caught up with each close that a lost authority caused. -/
def Caught (feed : Feed Sub Occ Value) (frontier : Nat) : Prop :=
  ∀ emitted ∈ feed.session.outbound.history, ∀ sub, emitted.frame = .close sub .unauthorized →
    emitted.frontierSeq ≤ frontier

/-- A resume replays when the connection has not overflowed and retains the frames after the frontier. -/
def Replays (feed : Feed Sub Occ Value) (lastEventId : Option (Option Nat)) (seq : Nat) : Prop :=
  feed.session.outbound.overflow = false ∧ lastEventId = some (some seq) ∧
    feed.session.outbound.replayable seq = true

/-- An event is steady when the frontier has caught up before the connection emits a frame of its own, and a
retry of a peer does not close a subscription below an earlier frame. A client resumes from a frame that it
keeps. -/
def Steady (feed : Feed Sub Occ Value) (host : Observation Sub Occ Value) : Traffic Sub Occ Value → Prop
  | .openRows _ _ _ => feed.Caught feed.frontier
  | .openScalar _ _ => feed.Caught feed.frontier
  | .unsubscribe sub => feed.session.live sub = true → feed.Caught feed.frontier
  | .retry seq => seq ≤ feed.head ∧
      ∀ sub, feed.session.live sub = true → feed.Caught (max feed.frontier seq)
  | .peerRetry seq => seq ≤ feed.head ∧
      ∀ sub, feed.session.live sub = true → host.closed sub = true →
        ∀ emitted ∈ feed.session.outbound.history, emitted.frontierSeq ≤ seq
  | .poll => feed.session.outbound.overflow = true → feed.Caught feed.frontier
  | .resume kept lastEventId =>
    (∀ seq, feed.Replays lastEventId seq →
      ∀ emitted ∈ feed.received.take kept, emitted.frontierSeq ≤ seq) ∧
    ((∀ seq, ¬ feed.Replays lastEventId seq) → feed.Caught feed.frontier)
  | .commit => True
  | .peerCommit => True
  | .hostCommit => True
  | .sweepAll => True

/-- Each event of a run is steady when it happens. -/
def SteadyRun (first : Feed Sub Occ Value) (events : List (Observation Sub Occ Value × Traffic Sub Occ Value)) :
    Prop :=
  ∀ event before, event :: before <:+ events → (first.after before).Steady event.1 event.2

namespace SteadyRun

variable {first : Feed Sub Occ Value} {events : List (Observation Sub Occ Value × Traffic Sub Occ Value)}
  {event : Observation Sub Occ Value × Traffic Sub Occ Value}

theorem nil : SteadyRun first [] := fun _ _ inside =>
  absurd (List.suffix_nil.mp inside) (List.cons_ne_nil _ _)

theorem cons (earlier : SteadyRun first events) (steady : (first.after events).Steady event.1 event.2) :
    SteadyRun first (event :: events) := by
  intro other before inside
  rcases List.suffix_cons_iff.mp inside with same | inside
  · obtain ⟨rfl, rfl⟩ := List.cons.inj same
    exact steady
  · exact earlier other before inside

theorem suffix (steady : SteadyRun first events)
    {reached : List (Observation Sub Occ Value × Traffic Sub Occ Value)} (passed : reached <:+ events) :
    SteadyRun first reached :=
  fun event before inside => steady event before (inside.trans passed)

end SteadyRun

end Feed

variable {Sub Occ Value : Type}

/-- The frames of a connection are ordered when their frontiers never regress, in the history and at the
client. Each frame except for a close that a lost authority caused is at most at the frontier of the
connection. -/
structure Sequenced (head frontier : Nat) (outbound : Outbound (Downstream Sub Occ Value))
    (received : List (Emitted (Downstream Sub Occ Value))) : Prop where
  sound : outbound.Sound
  within : frontier ≤ head
  emitted : ∀ emitted ∈ outbound.history, emitted.frontierSeq ≤ head
  own : ∀ emitted ∈ outbound.history, (∃ sub, emitted.frame = .close sub .unauthorized) ∨
    emitted.frontierSeq ≤ frontier
  history : outbound.history.Pairwise fun first second => first.frontierSeq ≤ second.frontierSeq
  delivered : ∀ emitted ∈ received, emitted ∈ outbound.history ∧ emitted.pos < outbound.cursor
  client : received.Pairwise fun first second => first.frontierSeq ≤ second.frontierSeq

namespace Sequenced

variable {head frontier : Nat} {outbound : Outbound (Downstream Sub Occ Value)}
  {received : List (Emitted (Downstream Sub Occ Value))}

theorem new (head capacity : Nat) :
    Sequenced head head (.new capacity : Outbound (Downstream Sub Occ Value)) [] where
  sound := .new capacity
  within := le_rfl
  emitted := fun _ inside => absurd inside List.not_mem_nil
  own := fun _ inside => absurd inside List.not_mem_nil
  history := .nil
  delivered := fun _ inside => absurd inside List.not_mem_nil
  client := .nil

/-- The frontier and the head can advance. -/
theorem advance (ordered : Sequenced head frontier outbound received) {newHead newFrontier : Nat}
    (later : head ≤ newHead) (further : frontier ≤ newFrontier) (within : newFrontier ≤ newHead) :
    Sequenced newHead newFrontier outbound received where
  sound := ordered.sound
  within := within
  emitted := fun emitted inside => (ordered.emitted emitted inside).trans later
  own := fun emitted inside => (ordered.own emitted inside).imp_right fun reached => reached.trans further
  history := ordered.history
  delivered := ordered.delivered
  client := ordered.client

/-- A client that keeps its first frames is ordered. -/
theorem keep (ordered : Sequenced head frontier outbound received) (kept : Nat) :
    Sequenced head frontier outbound (received.take kept) where
  sound := ordered.sound
  within := ordered.within
  emitted := ordered.emitted
  own := ordered.own
  history := ordered.history
  delivered := fun emitted inside => ordered.delivered emitted (List.mem_of_mem_take inside)
  client := ordered.client.sublist (List.take_sublist kept received)

/-- New frames at one frontier keep the order when no earlier frame is later. -/
theorem emit (ordered : Sequenced head frontier outbound received) {seq : Nat}
    {allowed : Nat → Downstream Sub Occ Value → Prop} {after : Outbound (Downstream Sub Occ Value)}
    (emits : outbound.Emits allowed after) (stamped : ∀ stamp frame, allowed stamp frame → stamp = seq)
    (own : ∀ stamp frame, allowed stamp frame → (∃ sub, frame = .close sub .unauthorized) ∨ seq ≤ frontier)
    (current : seq ≤ head) (latest : ∀ emitted ∈ outbound.history, emitted.frontierSeq ≤ seq) :
    Sequenced head frontier after received := by
  obtain ⟨frames, split, satisfied⟩ := emits.history
  have stamps : ∀ emitted ∈ frames, emitted.frontierSeq = seq := fun emitted inside =>
    stamped _ _ (satisfied emitted inside)
  refine ⟨emits.toExtends.sound ordered.sound, ordered.within, ?_, ?_, ?_, ?_, ordered.client⟩
  · intro emitted inside
    rw [split] at inside
    rcases List.mem_append.mp inside with inside | inside
    · exact ordered.emitted emitted inside
    · exact (stamps emitted inside).trans_le current
  · intro emitted inside
    rw [split] at inside
    rcases List.mem_append.mp inside with inside | inside
    · exact ordered.own emitted inside
    · exact (own _ _ (satisfied emitted inside)).imp_right (stamps emitted inside).trans_le
  · rw [split, List.pairwise_append]
    refine ⟨ordered.history, ?_, ?_⟩
    · refine List.pairwise_iff_forall_sublist.mpr fun {first second} both => ?_
      have members := both.subset
      rw [stamps first (members (by simp)), stamps second (members (by simp))]
    · intro first before second news
      exact (latest first before).trans (stamps second news).ge
  · intro emitted inside
    obtain ⟨listed, passed⟩ := ordered.delivered emitted inside
    rw [split, emits.toExtends.cursor]
    exact ⟨List.mem_append_left _ listed, passed⟩

/-- New frames at the frontier of the connection keep the order when it has caught up. -/
theorem emit_own (ordered : Sequenced head frontier outbound received)
    {after : Outbound (Downstream Sub Occ Value)}
    (emits : outbound.Emits (fun stamp _ => stamp = frontier) after)
    (latest : ∀ emitted ∈ outbound.history, emitted.frontierSeq ≤ frontier) :
    Sequenced head frontier after received :=
  ordered.emit emits (fun _ _ stamped => stamped) (fun _ _ _ => Or.inr le_rfl) ordered.within latest

/-- The frontiers of two frames of the history are in the order of their positions. -/
theorem le_of_pos (ordered : Sequenced head frontier outbound received)
    {first second : Emitted (Downstream Sub Occ Value)} (before : first ∈ outbound.history)
    (after : second ∈ outbound.history) (earlier : first.pos < second.pos) :
    first.frontierSeq ≤ second.frontierSeq := by
  have split := List.take_append_drop second.pos outbound.history
  have sorted := ordered.history
  rw [← split] at sorted before after
  refine (List.pairwise_append.mp sorted).2.2 first ?_ second ?_
  · refine (List.mem_append.mp before).resolve_right fun late => ?_
    exact absurd (ordered.sound.le_pos_of_mem_drop late) (not_le.mpr earlier)
  · refine (List.mem_append.mp after).resolve_left fun early => ?_
    exact lt_irrefl _ (ordered.sound.pos_lt_of_mem_take early)

/-- The frames of the ring that a client did not receive follow those that it received. -/
theorem deliver (ordered : Sequenced head frontier outbound received)
    {kept : Emitted (Downstream Sub Occ Value) → Bool} {after : Outbound (Downstream Sub Occ Value)}
    (sound : after.Sound) (history : after.history = outbound.history)
    (cursor : after.cursor = outbound.nextPos)
    (follows : ∀ first ∈ received, ∀ second ∈ outbound.ring, kept second = true →
      first.frontierSeq ≤ second.frontierSeq) :
    Sequenced head frontier after (received ++ outbound.ring.filter kept) := by
  obtain ⟨gone, split, _⟩ := ordered.sound.retained
  have inside : ∀ emitted ∈ outbound.ring, emitted ∈ outbound.history := fun emitted listed => by
    rw [split]
    exact List.mem_append_right _ listed
  refine ⟨sound, ordered.within, ?_, ?_, ?_, ?_, ?_⟩
  · rw [history]
    exact ordered.emitted
  · rw [history]
    exact ordered.own
  · rw [history]
    exact ordered.history
  · intro emitted listed
    rw [history, cursor]
    rcases List.mem_append.mp listed with old | new
    · have held := (ordered.delivered emitted old).1
      exact ⟨held, ordered.sound.pos_lt held⟩
    · have held := inside emitted (List.mem_filter.mp new).1
      exact ⟨held, ordered.sound.pos_lt held⟩
  · rw [List.pairwise_append]
    refine ⟨ordered.client, ?_, ?_⟩
    · refine ordered.history.sublist (List.filter_sublist.trans ?_)
      rw [split]
      exact List.sublist_append_right gone outbound.ring
    · intro first before second new
      obtain ⟨listed, chosen⟩ := List.mem_filter.mp new
      exact follows first before second listed chosen

/-- A drain keeps the order. -/
theorem drain (ordered : Sequenced head frontier outbound received) :
    Sequenced head frontier outbound.drainPending.1 (received ++ outbound.drainPending.2) := by
  obtain ⟨gone, split, _⟩ := ordered.sound.retained
  refine ordered.deliver ordered.sound.drainPending rfl rfl fun first before second listed chosen => ?_
  obtain ⟨held, passed⟩ := ordered.delivered first before
  have pending : outbound.cursor ≤ second.pos := by simpa using chosen
  refine ordered.le_of_pos held ?_ (passed.trans_le pending)
  rw [split]
  exact List.mem_append_right _ listed

/-- A replay after a frontier keeps the order when each frame of the client is at most at it. -/
theorem replay (ordered : Sequenced head frontier outbound received) {seq : Nat}
    (behind : ∀ emitted ∈ received, emitted.frontierSeq ≤ seq) :
    Sequenced head frontier (outbound.replayAfter seq).1 (received ++ (outbound.replayAfter seq).2) := by
  refine ordered.deliver (ordered.sound.replayAfter seq) rfl rfl fun first before second _ chosen => ?_
  have later : seq < second.frontierSeq := by simpa using chosen
  exact (behind first before).trans later.le

/-- The order stays when the latch is taken and the retained frames count as delivered. -/
theorem restart (ordered : Sequenced head frontier outbound received) :
    Sequenced head frontier outbound.takeOverflow.1.markDelivered received where
  sound := ordered.sound.restart
  within := ordered.within
  emitted := ordered.emitted
  own := ordered.own
  history := ordered.history
  delivered := fun emitted inside =>
    ⟨(ordered.delivered emitted inside).1, ordered.sound.pos_lt (ordered.delivered emitted inside).1⟩
  client := ordered.client

end Sequenced

variable [Ord Sub] [Std.TransOrd Sub] [DecidableEq Occ] [DecidableEq Value]

omit [DecidableEq Occ] [DecidableEq Value] in
/-- A stream that starts again keeps the order when the frontier has caught up. -/
theorem reinit_ordered {head : Nat} (session : Session Sub Occ Value) (host : Observation Sub Occ Value)
    {received : List (Emitted (Downstream Sub Occ Value))}
    (ordered : Sequenced head host.frontier session.outbound.markDelivered received)
    (latest : ∀ emitted ∈ session.outbound.history, emitted.frontierSeq ≤ host.frontier)
    (reset : Option ResetReason) :
    Sequenced head host.frontier (session.reinit host reset).1.outbound
      (received ++ (session.reinit host reset).2) := by
  refine Sequenced.drain ?_
  have fresh := Outbound.Emits.foldl Session.outbound (Session.reprojectInit_emits host host.frontier)
  let marked : Session Sub Occ Value := { session with outbound := session.outbound.markDelivered }
  cases reset with
  | none =>
    exact ordered.emit_own (fresh marked.subs.keys marked) latest
  | some reason =>
    let announced := marked.enqueue host.frontier (.reset reason)
    have opened : marked.outbound.Emits (fun stamp _ => stamp = host.frontier) announced.outbound :=
      .enqueue rfl .refl
    exact ordered.emit_own (opened.trans (fresh announced.subs.keys announced)) latest

/-- A sweep that closes no subscription and advances none changes nothing. -/
theorem sweep_quiet (session : Session Sub Occ Value) (host : Observation Sub Occ Value) (seq : Nat)
    (caller : Bool) (quiet : ∀ sub, session.live sub = true → host.closed sub = false ∧ caller = false) :
    session.sweep host seq caller = session := by
  have still : ∀ subs : List Sub, subs.foldl (Session.sweepOne host seq caller) session = session := by
    intro subs
    induction subs with
    | nil => rfl
    | cons sub subs ih =>
      have same : Session.sweepOne host seq caller session sub = session := by
        have calm := quiet sub
        unfold Session.live at calm
        unfold Session.sweepOne
        cases found : session.subs[sub]? with
        | none => rfl
        | some state =>
          simp only [found, Bool.not_eq_true'] at calm ⊢
          cases closed : state.closed with
          | true => rfl
          | false =>
            obtain ⟨opened, peer⟩ := calm closed
            rw [opened, peer]
            rfl
      rw [List.foldl_cons, same]
      exact ih
  exact still _

omit [DecidableEq Occ] [DecidableEq Value] in
/-- A closed subscription does not close again. -/
theorem unsubscribe_quiet {session : Session Sub Occ Value} (host : Observation Sub Occ Value) {sub : Sub}
    (ended : ¬ session.live sub = true) : session.unsubscribe host sub = session := by
  unfold Session.live at ended
  unfold Session.unsubscribe
  cases found : session.subs[sub]? with
  | none => rfl
  | some state =>
    simp only [found, Bool.not_eq_true', Bool.not_eq_false] at ended ⊢
    rw [if_pos ended]

namespace Feed

variable {feed : Feed Sub Occ Value} {host : Observation Sub Occ Value}

/-- The frames of a connection and of its client are ordered. -/
def InOrder (feed : Feed Sub Occ Value) : Prop :=
  Sequenced feed.head feed.frontier feed.session.outbound feed.received

omit [Std.TransOrd Sub] [DecidableEq Occ] [DecidableEq Value] in
/-- The emitted frames are at most at a frontier that has caught up. -/
theorem latest_of_caught (ordered : feed.InOrder) {frontier : Nat} (further : feed.frontier ≤ frontier)
    (caught : feed.Caught frontier) :
    ∀ emitted ∈ feed.session.outbound.history, emitted.frontierSeq ≤ frontier := by
  intro emitted inside
  rcases ordered.own emitted inside with ⟨sub, closed⟩ | reached
  · exact caught emitted inside sub closed
  · exact reached.trans further

/-- A sweep for the commit of the connection itself keeps the order. -/
theorem commit_ordered {head frontier : Nat} {session : Session Sub Occ Value}
    {received : List (Emitted (Downstream Sub Occ Value))}
    (ordered : Sequenced head frontier session.outbound received)
    (latest : ∀ emitted ∈ session.outbound.history, emitted.frontierSeq ≤ frontier)
    (host : Observation Sub Occ Value) :
    Sequenced head frontier (session.sweep host frontier true).outbound received :=
  ordered.emit (session.sweep_emits host frontier true) (fun _ _ swept => swept.1)
    (fun _ _ _ => Or.inr le_rfl) ordered.within latest

/-- A sweep for the commit of a peer keeps the order when no earlier frame is later. -/
theorem peer_ordered {head frontier seq : Nat} {session : Session Sub Occ Value}
    {received : List (Emitted (Downstream Sub Occ Value))}
    (ordered : Sequenced head frontier session.outbound received) (current : seq ≤ head)
    (latest : ∀ emitted ∈ session.outbound.history, emitted.frontierSeq ≤ seq)
    (host : Observation Sub Occ Value) :
    Sequenced head frontier (session.sweep host seq false).outbound received :=
  ordered.emit (session.sweep_emits host seq false) (fun _ _ swept => swept.1)
    (fun _ _ swept => Or.inl (swept.2 rfl)) current latest

/-- A request that delivers nothing keeps the order when its session does. -/
theorem request_ordered {request : Request Sub Occ Value}
    (silent : (feed.session.step { host with frontier := feed.frontier } request).2 = [])
    (ordered : Sequenced feed.head feed.frontier
      (feed.session.step { host with frontier := feed.frontier } request).1.outbound feed.received) :
    (feed.request host request).InOrder := by
  change Sequenced _ _ _ (feed.received ++ (feed.session.step _ request).2)
  rw [silent, List.append_nil]
  exact ordered

/-- A poll keeps the order. -/
theorem poll_ordered (ordered : feed.InOrder)
    (steady : feed.session.outbound.overflow = true → feed.Caught feed.frontier) :
    (feed.request host .poll).InOrder := by
  cases latch : feed.session.outbound.overflow with
  | true =>
    have latest := latest_of_caught ordered le_rfl (steady latch)
    have again := reinit_ordered feed.session.cleared { host with frontier := feed.frontier }
      ordered.restart latest (some .overflow)
    rw [← Session.poll_latched latch] at again
    exact again
  | false =>
    have drained := ordered.drain
    have same := Session.poll_calm latch { host with frontier := feed.frontier }
    change Sequenced _ _ (feed.session.poll _).1.outbound (_ ++ (feed.session.poll _).2)
    rw [same]
    exact drained

/-- A resume keeps the order. -/
theorem resume_ordered (ordered : feed.InOrder) {lastEventId : Option (Option Nat)}
    (behind : ∀ seq, feed.Replays lastEventId seq → ∀ emitted ∈ feed.received, emitted.frontierSeq ≤ seq)
    (steady : (∀ seq, ¬ feed.Replays lastEventId seq) → feed.Caught feed.frontier) :
    (feed.request host (.resume lastEventId)).InOrder := by
  change Sequenced _ _ (feed.session.resume { host with frontier := feed.frontier } lastEventId).1.outbound
    (_ ++ (feed.session.resume { host with frontier := feed.frontier } lastEventId).2)
  by_cases replayed : ∃ seq, feed.Replays lastEventId seq
  · obtain ⟨seq, calm, rfl, retained⟩ := replayed
    rw [Session.resume_replay calm retained]
    exact ordered.replay (behind seq ⟨calm, rfl, retained⟩)
  · have lost := not_exists.mp replayed
    obtain ⟨reset, restarted⟩ := Session.resume_restarts { host with frontier := feed.frontier } lost
    rw [restarted]
    exact reinit_ordered feed.session.cleared { host with frontier := feed.frontier } ordered.restart
      (latest_of_caught ordered le_rfl (steady lost)) reset

/-- A steady event keeps the frames of a connection in order. -/
theorem step_ordered (ordered : feed.InOrder) {event : Traffic Sub Occ Value}
    (steady : feed.Steady host event) : (feed.step host event).InOrder := by
  cases event with
  | openRows sub rows windowed =>
    exact request_ordered rfl
      (Sequenced.emit_own ordered (.enqueue rfl .refl) (latest_of_caught ordered le_rfl steady))
  | openScalar sub value =>
    exact request_ordered rfl
      (Sequenced.emit_own ordered (.enqueue rfl .refl) (latest_of_caught ordered le_rfl steady))
  | unsubscribe sub =>
    refine request_ordered rfl ?_
    change Sequenced _ _ (feed.session.unsubscribe { host with frontier := feed.frontier } sub).outbound _
    by_cases alive : feed.session.live sub = true
    · exact Sequenced.emit_own ordered
        (feed.session.unsubscribe_emits { host with frontier := feed.frontier } sub)
        (latest_of_caught ordered le_rfl (steady alive))
    · rw [unsubscribe_quiet _ alive]
      exact ordered
  | commit =>
    refine request_ordered rfl ?_
    have next : feed.head + 1 ≤ max feed.frontier (feed.head + 1) := le_max_right _ _
    have within : max feed.frontier (feed.head + 1) ≤ feed.head + 1 :=
      max_le (ordered.within.trans (Nat.le_succ _)) le_rfl
    exact commit_ordered (Sequenced.advance ordered (Nat.le_succ _) (le_max_left _ _) within)
      (fun emitted inside => (ordered.emitted emitted inside).trans ((Nat.le_succ _).trans next)) _
  | retry seq =>
    refine request_ordered rfl ?_
    obtain ⟨known, caught⟩ := steady
    have later := Sequenced.advance ordered le_rfl (le_max_left _ seq) (max_le ordered.within known)
    by_cases alive : ∃ sub, feed.session.live sub = true
    · obtain ⟨sub, alive⟩ := alive
      exact commit_ordered later (latest_of_caught ordered (le_max_left _ _) (caught sub alive)) _
    · have quiet := sweep_quiet feed.session { host with frontier := max feed.frontier seq }
        (max feed.frontier seq) true fun sub open' => absurd ⟨sub, open'⟩ alive
      change Sequenced _ _ (feed.session.sweep _ _ _).outbound _
      rw [quiet]
      exact later
  | peerCommit =>
    refine request_ordered rfl ?_
    exact peer_ordered
      (Sequenced.advance ordered (Nat.le_succ _) le_rfl (ordered.within.trans (Nat.le_succ _))) le_rfl
      (fun emitted inside => (ordered.emitted emitted inside).trans (Nat.le_succ _)) _
  | peerRetry seq =>
    refine request_ordered rfl ?_
    obtain ⟨known, latest⟩ := steady
    by_cases closes : ∃ sub, feed.session.live sub = true ∧ host.closed sub = true
    · obtain ⟨sub, alive, closed⟩ := closes
      exact peer_ordered ordered known (latest sub alive closed) _
    · have quiet := sweep_quiet feed.session { host with frontier := feed.frontier } seq
        false fun sub alive =>
          ⟨eq_false_of_ne_true fun closed => closes ⟨sub, alive, closed⟩, rfl⟩
      change Sequenced _ _ (feed.session.sweep _ _ _).outbound _
      rw [quiet]
      exact ordered
  | hostCommit =>
    exact Sequenced.advance ordered (Nat.le_succ _) le_rfl (ordered.within.trans (Nat.le_succ _))
  | sweepAll => exact Sequenced.advance ordered le_rfl (le_max_left _ _) (max_le ordered.within le_rfl)
  | poll => exact poll_ordered ordered steady
  | resume kept lastEventId =>
    have shorter : InOrder { feed with received := feed.received.take kept } := Sequenced.keep ordered kept
    exact resume_ordered shorter steady.1 steady.2

/-- A run of steady events keeps the frames of a connection in order. -/
theorem after_ordered {first : Feed Sub Occ Value} (start : first.InOrder)
    {events : List (Observation Sub Occ Value × Traffic Sub Occ Value)} (steady : SteadyRun first events) :
    (first.after events).InOrder := by
  induction events with
  | nil => exact start
  | cons event events ih =>
    have earlier := ih (steady.suffix (List.suffix_cons event events))
    exact step_ordered earlier (steady event events (List.suffix_refl _))

/-- The frontiers of the frames that a connection delivers never regress, in each run whose events are
steady. -/
theorem stamps_sorted (head capacity : Nat)
    {events : List (Observation Sub Occ Value × Traffic Sub Occ Value)}
    (steady : SteadyRun (.new head capacity) events)
    {reached : List (Observation Sub Occ Value × Traffic Sub Occ Value)} (passed : reached <:+ events) :
    ((Feed.new head capacity).after reached).stamps.Pairwise (· ≤ ·) := by
  have start : (Feed.new head capacity : Feed Sub Occ Value).InOrder := Sequenced.new head capacity
  exact List.pairwise_map.mpr (after_ordered start (steady.suffix passed)).client

section Samples

/-- A host that closes the first subscription. -/
def revokingHost : Observation Nat Nat Nat :=
  { Session.quietHost with closed := fun sub => sub == 0 }

/-- A connection opens a view, the commit of a peer closes it, and the connection opens another view and
polls. The close has the later frontier of the peer. -/
theorem open_after_close_regresses :
    ((Feed.new 1 8 : Feed Nat Nat Nat).after [(Session.quietHost, .poll),
      (Session.quietHost, .openRows 1 [] false), (revokingHost, .peerCommit),
      (Session.quietHost, .openRows 0 [] false)]).stamps = [1, 2, 1] ∧
    ¬ ((Feed.new 1 8 : Feed Nat Nat Nat).after [(Session.quietHost, .poll),
      (Session.quietHost, .openRows 1 [] false), (revokingHost, .peerCommit),
      (Session.quietHost, .openRows 0 [] false)]).stamps.Pairwise (· ≤ ·) := by
  decide +kernel

/-- A connection whose view a peer closes and that commits next. -/
def caughtRun : List (Observation Nat Nat Nat × Traffic Nat Nat Nat) :=
  [(Session.quietHost, .commit), (revokingHost, .peerCommit), (Session.quietHost, .openRows 0 [] false)]

/-- The connection opens another view after its commit. -/
def reopenedRun : List (Observation Nat Nat Nat × Traffic Nat Nat Nat) :=
  (Session.quietHost, .openRows 1 [] false) :: caughtRun

theorem caughtRun_steady : SteadyRun (.new 1 8) caughtRun := by
  have opened : SteadyRun (.new 1 8) (caughtRun.drop 2) :=
    SteadyRun.nil.cons fun _ inside => absurd inside List.not_mem_nil
  have closed : SteadyRun (.new 1 8) (caughtRun.drop 1) := opened.cons trivial
  exact closed.cons trivial

theorem reopenedRun_steady : SteadyRun (.new 1 8) ((Session.quietHost, .poll) :: reopenedRun) := by
  have latest : ∀ emitted ∈ ((Feed.new 1 8).after caughtRun).session.outbound.history,
      emitted.frontierSeq ≤ 3 := by
    decide +kernel
  have reopened : SteadyRun (.new 1 8) reopenedRun :=
    caughtRun_steady.cons fun emitted inside _ _ => latest emitted inside
  have calm : ((Feed.new 1 8).after reopenedRun).session.outbound.overflow = false := by
    decide +kernel
  exact reopened.cons fun latched => absurd latched (ne_true_of_eq_false calm)

/-- The frontiers of the run that commits in between do not regress. -/
theorem stamps_sorted_caught :
    ((Feed.new 1 8).after ((Session.quietHost, .poll) :: reopenedRun)).stamps.Pairwise (· ≤ ·) :=
  stamps_sorted 1 8 reopenedRun_steady (List.suffix_refl _)

end Samples

end Feed

end Feeds

end Liasse.Live
