/-
This file models a connection with the tokens of its rows. It tells what each subscription shows after a visit.
-/

import Liasse.Live.Tokens

namespace Liasse.Live

open Codes

/-- A connection has tokens, subscriptions and a ring. -/
structure TokenSession (Sub RowId Value : Type) [Ord Sub] [Ord RowId] where
  tokens : Tokens Sub RowId
  session : Session Sub String Value

/-- What the host shows under the tokens of some rows. -/
def Observation.under {Sub RowId Value : Type} (host : Observation Sub RowId Value)
    (rows : List (WireRow String Value)) : Observation Sub String Value :=
  ⟨host.frontier, host.closed, fun _ _ => rows, host.scalar⟩

/-- The rows that the host shows to a subscription. -/
def Observation.shown {Sub RowId Value : Type} (host : Observation Sub RowId Value) (sub : Sub) (windowed : Bool) :
    List RowId :=
  (host.rows sub windowed).map WireRow.occ

namespace TokenSession

variable {Sub RowId Value : Type} [Ord Sub] [Std.TransOrd Sub] [Ord RowId] [Std.TransOrd RowId] [DecidableEq Value]

section Operations

omit [Std.TransOrd Sub] [Std.TransOrd RowId] [DecidableEq Value] in
/-- A new connection. -/
def new (capacity : Nat) : TokenSession Sub RowId Value :=
  ⟨Tokens.new, Session.new capacity⟩

variable (keys : ConnKeys) (minter : TokenMinter)

omit [DecidableEq Value] in
/-- A row subscription opens with new tokens. -/
def installRows (state : TokenSession Sub RowId Value) (host : Observation Sub RowId Value) (sub : Sub)
    (rows : List (WireRow RowId Value)) (windowed : Bool) : TokenSession Sub RowId Value :=
  let projected := (state.tokens.renew sub).project keys minter sub rows
  ⟨projected.1, state.session.installRows (host.under []) sub projected.2 windowed⟩

omit [Std.TransOrd RowId] [DecidableEq Value] in
/-- A scalar subscription opens without tokens. -/
def installScalar (state : TokenSession Sub RowId Value) (host : Observation Sub RowId Value) (sub : Sub)
    (value : Value) : TokenSession Sub RowId Value :=
  ⟨state.tokens.renew sub, state.session.installScalar (host.under []) sub value⟩

omit [Std.TransOrd RowId] [DecidableEq Value] in
/-- A closed subscription keeps its tokens. -/
def unsubscribe (state : TokenSession Sub RowId Value) (host : Observation Sub RowId Value) (sub : Sub) :
    TokenSession Sub RowId Value :=
  { state with session := state.session.unsubscribe (host.under []) sub }

omit [DecidableEq Value] in
/-- A live row subscription reads its rows under their tokens. -/
def observe (state : TokenSession Sub RowId Value) (host : Observation Sub RowId Value) (sub : Sub) :
    Tokens Sub RowId × Observation Sub String Value :=
  match state.session.subs[sub]? with
  | some own =>
    if own.closed || own.scalar then (state.tokens, host.under [])
    else
      let projected := state.tokens.project keys minter sub (host.rows sub own.windowed)
      (projected.1, host.under projected.2)
  | none => (state.tokens, host.under [])

/-- The sweep of one subscription. It reads rows only for the caller. -/
def sweepOne (host : Observation Sub RowId Value) (seq : Nat) (caller : Bool)
    (state : TokenSession Sub RowId Value) (sub : Sub) : TokenSession Sub RowId Value :=
  if host.closed sub || !caller then
    { state with session := Session.sweepOne (host.under []) seq caller state.session sub }
  else
    let observed := state.observe keys minter host sub
    ⟨observed.1, Session.sweepOne observed.2 seq caller state.session sub⟩

/-- The sweep of each subscription through a commit. -/
def sweep (state : TokenSession Sub RowId Value) (host : Observation Sub RowId Value) (seq : Nat) (caller : Bool) :
    TokenSession Sub RowId Value :=
  state.session.subs.keys.foldl (sweepOne keys minter host seq caller) state

omit [DecidableEq Value] in
/-- A live subscription starts again. -/
def reprojectInit (host : Observation Sub RowId Value) (seq : Nat) (state : TokenSession Sub RowId Value)
    (sub : Sub) : TokenSession Sub RowId Value :=
  let observed := state.observe keys minter host sub
  ⟨observed.1, Session.reprojectInit observed.2 seq state.session sub⟩

/-- What a request of a connection delivers. -/
abbrev Delivery (Sub RowId Value : Type) [Ord Sub] [Ord RowId] :=
  TokenSession Sub RowId Value × List (Emitted (Downstream Sub String Value))

omit [Std.TransOrd Sub] [Std.TransOrd RowId] [DecidableEq Value] in
/-- The delivery of the pending frames. -/
def drainPending (state : TokenSession Sub RowId Value) : Delivery Sub RowId Value :=
  let drained := state.session.drainPending
  ({ state with session := drained.1 }, drained.2)

omit [Std.TransOrd Sub] [Std.TransOrd RowId] [DecidableEq Value] in
/-- The retained frames count as delivered, and an optional reset follows them. -/
def announce (state : TokenSession Sub RowId Value) (host : Observation Sub RowId Value)
    (reset : Option ResetReason) : TokenSession Sub RowId Value :=
  let marked := { state.session with outbound := state.session.outbound.markDelivered }
  match reset with
  | some reason => { state with session := marked.enqueue host.frontier (.reset reason) }
  | none => { state with session := marked }

omit [DecidableEq Value] in
/-- The stream starts again. -/
def reinit (state : TokenSession Sub RowId Value) (host : Observation Sub RowId Value)
    (reset : Option ResetReason) : Delivery Sub RowId Value :=
  let announced := state.announce host reset
  (announced.session.subs.keys.foldl (reprojectInit keys minter host host.frontier) announced).drainPending

omit [DecidableEq Value] in
/-- A poll delivers the pending frames, or starts again after an overflow. -/
def poll (state : TokenSession Sub RowId Value) (host : Observation Sub RowId Value) : Delivery Sub RowId Value :=
  let cleared := { state with session := state.session.cleared }
  if state.session.outbound.overflow then cleared.reinit keys minter host (some .overflow) else cleared.drainPending

omit [DecidableEq Value] in
/-- A resume replays the retained frames after the last event, or starts again. -/
def resume (state : TokenSession Sub RowId Value) (host : Observation Sub RowId Value)
    (lastEventId : Option (Option Nat)) : Delivery Sub RowId Value :=
  let cleared := { state with session := state.session.cleared }
  if state.session.outbound.overflow then cleared.reinit keys minter host (some .overflow)
  else
    match lastEventId with
    | none => cleared.reinit keys minter host none
    | some none => cleared.reinit keys minter host (some .serverReset)
    | some (some seq) =>
      if cleared.session.outbound.replayable seq then
        let replayed := cleared.session.outbound.replayAfter seq
        ({ cleared with session := { cleared.session with outbound := replayed.1 } }, replayed.2)
      else cleared.reinit keys minter host (some .serverReset)

/-- The effect of a request and the frames that it delivers. -/
def step (state : TokenSession Sub RowId Value) (host : Observation Sub RowId Value) :
    Request Sub RowId Value → Delivery Sub RowId Value
  | .openRows sub rows windowed => (state.installRows keys minter host sub rows windowed, [])
  | .openScalar sub value => (state.installScalar host sub value, [])
  | .unsubscribe sub => (state.unsubscribe host sub, [])
  | .commit => (state.sweep keys minter host host.frontier true, [])
  | .peerCommit seq => (state.sweep keys minter host seq false, [])
  | .poll => state.poll keys minter host
  | .resume lastEventId => state.resume keys minter host lastEventId

/-- The state after some requests. -/
def run (capacity : Nat) (events : List (Observation Sub RowId Value × Request Sub RowId Value)) :
    TokenSession Sub RowId Value :=
  events.foldl (fun state event => (state.step keys minter event.1 event.2).1) (new capacity)

end Operations

section Faces

omit [DecidableEq Value]

/-- What a live subscription shows: its kind, its life and its rows. -/
structure Face (RowId : Type) where
  windowed : Bool
  scalar : Bool
  life : Nat
  shown : List RowId

/-- What a subscription shows. A closed one shows nothing. -/
def face (state : TokenSession Sub RowId Value) (sub : Sub) : Option (Face RowId) :=
  state.session.subs[sub]?.bind fun own => state.tokens.subs[sub]?.bind fun known =>
    if own.closed then none else some ⟨own.windowed, own.scalar, known.life, known.shown⟩

/-- The client holds a token that a live subscription shows. -/
def Holds (state : TokenSession Sub RowId Value) (occ : String) : Prop :=
  ∃ (sub : Sub) (own : SubState String Value), state.session.subs[sub]? = some own ∧ own.closed = false ∧
    occ ∈ occs own.snapshot

/-- The tokens are sound, and each subscription holds the tokens of the rows that it shows. A scalar subscription
shows no rows. -/
structure Coherent (keys : ConnKeys) (minter : TokenMinter) (state : TokenSession Sub RowId Value) : Prop where
  sound : state.tokens.Sound keys minter
  paired : ∀ (sub : Sub) (own : SubState String Value), state.session.subs[sub]? = some own →
    ∃ known, state.tokens.subs[sub]? = some known ∧ (own.scalar = true → known.shown = []) ∧
      List.Forall₂ (fun row occ => ⟨sub, known.life, row, occ⟩ ∈ state.tokens.issued) known.shown (occs own.snapshot)

/-- The new tokens belong to rows that the later state shows. -/
def Grows (state next : TokenSession Sub RowId Value) (among : Sub → Prop) : Prop :=
  ∃ more, next.tokens.issued = state.tokens.issued ++ more ∧ ∀ issue ∈ more, among issue.sub ∧
    ∃ face, next.face issue.sub = some face ∧ face.life = issue.life ∧ issue.row ∈ face.shown

/-- A coherent state that shows what a step tells. -/
structure Steps (keys : ConnKeys) (minter : TokenMinter) (after : Sub → Option (Face RowId) → Option (Face RowId))
    (among : Sub → Prop) (state next : TokenSession Sub RowId Value) : Prop where
  coherent : next.Coherent keys minter
  inside : ∀ sub, among sub → next.face sub = after sub (state.face sub)
  outside : ∀ sub, ¬ among sub → next.face sub = state.face sub
  grows : Grows state next among

variable {keys : ConnKeys} {minter : TokenMinter} {state next : TokenSession Sub RowId Value}
  {after : Sub → Option (Face RowId) → Option (Face RowId)} {among : Sub → Prop}

omit [Std.TransOrd RowId] in
theorem face_of {sub : Sub} {own : SubState String Value} {known : SubTokens RowId}
    (stored : state.session.subs[sub]? = some own) (found : state.tokens.subs[sub]? = some known) :
    state.face sub = if own.closed then none else some ⟨own.windowed, own.scalar, known.life, known.shown⟩ := by
  rw [face, stored, found]
  rfl

omit [Std.TransOrd RowId] in
theorem face_congr {sub : Sub} (sessions : next.session.subs[sub]? = state.session.subs[sub]?)
    (tokens : next.tokens.subs[sub]? = state.tokens.subs[sub]?) : next.face sub = state.face sub := by
  rw [face, face, sessions, tokens]

omit [Std.TransOrd RowId] in
theorem face_absent {sub : Sub} (absent : state.session.subs[sub]? = none) : state.face sub = none := by
  rw [face, absent]
  rfl

/-- A step that changes no subscription shows the same. -/
theorem Coherent.still (coherent : state.Coherent keys minter) (sessions : next.session.subs = state.session.subs)
    (tokens : next.tokens = state.tokens) (same : ∀ sub, among sub → after sub (state.face sub) = state.face sub) :
    Steps keys minter after among state next := by
  have faces (sub : Sub) : next.face sub = state.face sub := face_congr (by rw [sessions]) (by rw [tokens])
  refine ⟨⟨tokens ▸ coherent.sound, fun sub own stored => ?_⟩,
    fun sub inside => (faces sub).trans (same sub inside).symm, fun sub _ => faces sub, [], ?_, nofun⟩
  · rw [sessions] at stored
    rw [tokens]
    exact coherent.paired sub own stored
  · rw [tokens, List.append_nil]

end Faces

section Changes

variable {keys : ConnKeys} {minter : TokenMinter} {state next : TokenSession Sub RowId Value}
  {after : Sub → Option (Face RowId) → Option (Face RowId)}

variable [Std.LawfulEqOrd Sub]

omit [DecidableEq Value]

/-- A step that stores a live subscription with its tokens shows that subscription, and the others as before. -/
theorem Coherent.change (coherent : state.Coherent keys minter) {sub : Sub} {own : SubState String Value}
    {known : SubTokens RowId} {base : Tokens Sub RowId} (sound : next.tokens.Sound keys minter)
    (sessions : next.session.subs = state.session.subs.insert sub own) (opened : own.closed = false)
    (plain : own.scalar = true → known.shown = []) (issued : base.issued = state.tokens.issued)
    (others : ∀ other : Sub, other ≠ sub → base.subs[other]? = state.tokens.subs[other]?)
    (labels : base.Labels next.tokens sub known known.shown (occs own.snapshot))
    (same : after sub (state.face sub) = some ⟨own.windowed, own.scalar, known.life, known.shown⟩) :
    Steps keys minter after (· = sub) state next := by
  obtain ⟨⟨more, longer, fresh⟩, _, ⟨occOf, found⟩, elsewhere, labelled⟩ := labels
  rw [issued] at longer
  have stored : next.session.subs[sub]? = some own := by rw [sessions, Std.ExtTreeMap.getElem?_insert_self]
  have shown : next.face sub = some ⟨own.windowed, own.scalar, known.life, known.shown⟩ := by
    rw [face_of stored found, opened]
    rfl
  have apart (other : Sub) (different : other ≠ sub) : next.session.subs[other]? = state.session.subs[other]? ∧
      next.tokens.subs[other]? = state.tokens.subs[other]? := by
    rw [sessions, getElem?_insert_of_ne different]
    exact ⟨rfl, (elsewhere other different).trans (others other different)⟩
  refine ⟨⟨sound, fun other others present => ?_⟩, fun other inside => ?_,
    fun other different => face_congr (apart other different).1 (apart other different).2, more, longer,
    fun issue inside => ?_⟩
  · by_cases alike : other = sub
    · obtain rfl := alike
      obtain rfl := Option.some.inj (stored.symm.trans present)
      exact ⟨_, found, plain, labelled⟩
    · rw [(apart other alike).1] at present
      obtain ⟨tokens, kept, bare, pairs⟩ := coherent.paired other others present
      refine ⟨tokens, (apart other alike).2.trans kept, bare, pairs.imp fun row occ old => ?_⟩
      rw [longer]
      exact List.mem_append_left _ old
  · obtain rfl := inside
    exact shown.trans same.symm
  · obtain ⟨here, life, row⟩ := fresh issue inside
    exact ⟨here, _, here ▸ shown, life.symm, row⟩

/-- A closed subscription shows nothing, and the others show the same. -/
theorem Coherent.close (coherent : state.Coherent keys minter) {sub : Sub} {own : SubState String Value}
    (found : state.session.subs[sub]? = some own)
    (sessions : next.session.subs = state.session.subs.insert sub { own with closed := true })
    (tokens : next.tokens = state.tokens) (same : after sub (state.face sub) = none) :
    Steps keys minter after (· = sub) state next := by
  have stored : next.session.subs[sub]? = some { own with closed := true } := by
    rw [sessions, Std.ExtTreeMap.getElem?_insert_self]
  have apart (other : Sub) (different : other ≠ sub) : next.session.subs[other]? = state.session.subs[other]? := by
    rw [sessions, getElem?_insert_of_ne different]
  refine ⟨⟨tokens ▸ coherent.sound, fun other others present => ?_⟩, fun other inside => ?_,
    fun other different => face_congr (apart other different) (by rw [tokens]), [], ?_, nofun⟩
  · rw [tokens]
    by_cases alike : other = sub
    · obtain rfl := alike
      obtain rfl := Option.some.inj (stored.symm.trans present)
      exact coherent.paired other own found
    · rw [apart other alike] at present
      exact coherent.paired other others present
  · obtain rfl := inside
    obtain ⟨known, kept, _⟩ := coherent.paired other own found
    rw [same, face_of stored (tokens ▸ kept)]
    rfl
  · rw [tokens, List.append_nil]

omit [Std.LawfulEqOrd Sub] in
/-- A fold over different subscriptions has the effect of each step on its own subscription. -/
theorem Steps.foldl {op : TokenSession Sub RowId Value → Sub → TokenSession Sub RowId Value}
    (each : ∀ (state : TokenSession Sub RowId Value) (sub : Sub), state.Coherent keys minter →
      Steps keys minter after (· = sub) state (op state sub))
    (subs : List Sub) (distinct : subs.Nodup) {state : TokenSession Sub RowId Value}
    (coherent : state.Coherent keys minter) : Steps keys minter after (· ∈ subs) state (subs.foldl op state) := by
  induction subs generalizing state with
  | nil => exact coherent.still rfl rfl nofun
  | cons sub rest ih =>
    obtain ⟨fresh, apart⟩ := List.nodup_cons.mp distinct
    have first := each state sub coherent
    have last := ih apart first.coherent
    have here : (rest.foldl op (op state sub)).face sub = (op state sub).face sub := last.outside sub fresh
    refine ⟨last.coherent, fun other inside => ?_, fun other absent => ?_, ?_⟩
    · rcases List.mem_cons.mp inside with same | later
      · obtain rfl := same
        exact here.trans (first.inside other rfl)
      · have different : ¬ other = sub := fun same => fresh (same ▸ later)
        exact (last.inside other later).trans (congrArg _ (first.outside other different))
    · have different : ¬ other = sub := fun same => absent (same ▸ List.mem_cons_self)
      exact (last.outside other fun later => absent (List.mem_cons_of_mem _ later)).trans
        (first.outside other different)
    · obtain ⟨one, grown, ofOne⟩ := first.grows
      obtain ⟨more, longer, ofMore⟩ := last.grows
      refine ⟨one ++ more, ?_, fun issue inside => ?_⟩
      · rw [List.foldl_cons, longer, grown, List.append_assoc]
      · rcases List.mem_append.mp inside with early | late
        · obtain ⟨same, face, shown, parts⟩ := ofOne issue early
          refine ⟨List.mem_cons.mpr (.inl same), face, ?_, parts⟩
          rw [same] at shown
          rw [List.foldl_cons, same, here]
          exact shown
        · obtain ⟨member, shown⟩ := ofMore issue late
          exact ⟨List.mem_cons_of_mem _ member, shown⟩

end Changes

section Requests

variable {keys : ConnKeys} {minter : TokenMinter} {state : TokenSession Sub RowId Value}

omit [Std.TransOrd Sub] [Std.TransOrd RowId] [DecidableEq Value] [Ord Sub] [Ord RowId] in
/-- What a subscription shows after a sweep. -/
def sweptFace (host : Observation Sub RowId Value) (caller : Bool) (sub : Sub) (before : Option (Face RowId)) :
    Option (Face RowId) :=
  before.bind fun face =>
    if host.closed sub then none
    else if !caller || face.scalar then some face
    else some { face with shown := host.shown sub face.windowed }

omit [Std.TransOrd Sub] [Std.TransOrd RowId] [DecidableEq Value] [Ord Sub] [Ord RowId] in
/-- What a subscription shows after it starts again. -/
def startedFace (host : Observation Sub RowId Value) (sub : Sub) (before : Option (Face RowId)) :
    Option (Face RowId) :=
  before.map fun face => if face.scalar then face else { face with shown := host.shown sub face.windowed }

variable [Std.LawfulEqOrd Sub]

omit [Std.LawfulEqOrd Sub] [Std.TransOrd RowId] in
/-- A step without a projection labels what it showed. -/
theorem labels_self {tokens : Tokens Sub RowId} {sub : Sub} {known : SubTokens RowId}
    (found : tokens.subs[sub]? = some known) {occs : List String}
    (labelled : List.Forall₂ (fun row occ => ⟨sub, known.life, row, occ⟩ ∈ tokens.issued) known.shown occs) :
    tokens.Labels tokens sub known known.shown occs :=
  ⟨⟨[], (List.append_nil _).symm, nofun⟩, rfl, ⟨known.occOf, found⟩, fun _ _ => rfl, labelled⟩

/-- A scalar advance shows the same. -/
theorem Coherent.advanceScalar (coherent : state.Coherent keys minter) {sub : Sub} {own : SubState String Value}
    (stored : state.session.subs[sub]? = some own) (opened : own.closed = false) (host : Observation Sub String Value)
    (seq : Nat) {after : Sub → Option (Face RowId) → Option (Face RowId)}
    (same : after sub (state.face sub) = state.face sub) :
    Steps keys minter after (· = sub) state { state with session := state.session.advanceScalar host sub own seq } := by
  have still : Steps keys minter after (· = sub) state state :=
    coherent.still rfl rfl fun other inside => by rw [inside, same]
  unfold Session.advanceScalar
  split
  · exact still
  · next value _ =>
      split
      · obtain ⟨known, found, plain, labelled⟩ := coherent.paired sub own stored
        refine coherent.change coherent.sound rfl opened plain rfl (fun _ _ => rfl) (labels_self found labelled) ?_
        rw [same, face_of stored found, opened]
        rfl
      · exact still

omit [Std.LawfulEqOrd Sub] [DecidableEq Value] in
theorem observe_rows {sub : Sub} {own : SubState String Value} (stored : state.session.subs[sub]? = some own)
    (opened : own.closed = false) (rowed : own.scalar = false) (host : Observation Sub RowId Value) :
    state.observe keys minter host sub =
      ((state.tokens.project keys minter sub (host.rows sub own.windowed)).1,
        host.under (state.tokens.project keys minter sub (host.rows sub own.windowed)).2) := by
  rw [observe, stored]
  exact if_neg (by rw [opened, rowed]; exact Bool.false_ne_true)

omit [Std.LawfulEqOrd Sub] [DecidableEq Value] in
theorem observe_still {sub : Sub} {own : SubState String Value} (stored : state.session.subs[sub]? = some own)
    (still : own.closed = true ∨ own.scalar = true) (host : Observation Sub RowId Value) :
    state.observe keys minter host sub = (state.tokens, host.under []) := by
  rw [observe, stored]
  exact if_pos ((Bool.or_eq_true ..).mpr still)

omit [Std.LawfulEqOrd Sub] [DecidableEq Value] in
theorem observe_absent {sub : Sub} (absent : state.session.subs[sub]? = none) (host : Observation Sub RowId Value) :
    state.observe keys minter host sub = (state.tokens, host.under []) := by
  rw [observe, absent]

variable [Std.LawfulEqOrd RowId]

omit [DecidableEq Value] in
/-- A projection shows the rows of the host. -/
theorem Coherent.projected (coherent : state.Coherent keys minter) {sub : Sub} {own : SubState String Value}
    (stored : state.session.subs[sub]? = some own) (opened : own.closed = false) (rowed : own.scalar = false)
    (host : Observation Sub RowId Value) {session : Session Sub String Value}
    (sessions : session.subs = state.session.subs.insert sub
      { own with snapshot := (state.tokens.project keys minter sub (host.rows sub own.windowed)).2 })
    {after : Sub → Option (Face RowId) → Option (Face RowId)}
    (same : ∀ face : Face RowId, state.face sub = some face → face.scalar = false →
      after sub (some face) = some { face with shown := host.shown sub face.windowed }) :
    Steps keys minter after (· = sub) state
      ⟨(state.tokens.project keys minter sub (host.rows sub own.windowed)).1, session⟩ := by
  obtain ⟨known, found, plain, labelled⟩ := coherent.paired sub own stored
  have before : state.face sub = some ⟨own.windowed, own.scalar, known.life, known.shown⟩ := by
    rw [face_of stored found, opened]
    rfl
  obtain ⟨sound, labels⟩ := coherent.sound.project found (host.rows sub own.windowed)
  refine coherent.change sound sessions opened (fun scalar => ?_) rfl (fun _ _ => rfl) labels ?_
  · exact absurd (rowed.symm.trans scalar) Bool.false_ne_true
  · rw [before, same _ before rowed]
    rfl

omit [Ord RowId] [Std.TransOrd RowId] [Std.LawfulEqOrd Sub] [Std.LawfulEqOrd RowId] in
theorem advanceRows_subs (session : Session Sub String Value) (host : Observation Sub RowId Value)
    (rows : List (WireRow String Value)) (sub : Sub) (own : SubState String Value) (seq : Nat) :
    (session.advanceRows (host.under rows) sub own seq).subs =
      session.subs.insert sub { own with snapshot := rows } := by
  unfold Session.advanceRows
  dsimp only
  split
  · rfl
  · rfl

/-- The sweep of one subscription shows what the host lets it show. -/
theorem Coherent.sweepOne (coherent : state.Coherent keys minter) (host : Observation Sub RowId Value) (seq : Nat)
    (caller : Bool) (sub : Sub) :
    Steps keys minter (sweptFace host caller) (· = sub) state (sweepOne keys minter host seq caller state sub) := by
  have unread (unseen : (host.closed sub || !caller) = true) :
      TokenSession.sweepOne keys minter host seq caller state sub =
        { state with session := Session.sweepOne (host.under []) seq caller state.session sub } := if_pos unseen
  have read (seen : (host.closed sub || !caller) = false) :
      TokenSession.sweepOne keys minter host seq caller state sub =
        ⟨(state.observe keys minter host sub).1,
          Session.sweepOne (state.observe keys minter host sub).2 seq caller state.session sub⟩ :=
    if_neg (ne_true_of_eq_false seen)
  -- A subscription that shows nothing is not read, and its session stays.
  have idle (nothing : state.face sub = none)
      (unobserved : state.observe keys minter host sub = (state.tokens, host.under []))
      (kept : Session.sweepOne (host.under []) seq caller state.session sub = state.session) :
      Steps keys minter (sweptFace host caller) (· = sub) state
        (TokenSession.sweepOne keys minter host seq caller state sub) := by
    have whole : TokenSession.sweepOne keys minter host seq caller state sub = state := by
      cases seen : host.closed sub || !caller with
      | true => rw [unread seen, kept]
      | false => rw [read seen, unobserved, kept]
    rw [whole]
    refine coherent.still rfl rfl fun other inside => ?_
    rw [inside, nothing]
    rfl
  cases stored : state.session.subs[sub]? with
  | none => exact idle (face_absent stored) (observe_absent stored host) (by rw [Session.sweepOne, stored])
  | some own =>
    obtain ⟨known, found, plain, labelled⟩ := coherent.paired sub own stored
    have swept (seen : Observation Sub String Value) : Session.sweepOne seen seq caller state.session sub =
        if own.closed then state.session
        else if seen.closed sub then state.session.emitClose sub own seq .unauthorized
        else if !caller then state.session
        else if own.scalar then state.session.advanceScalar seen sub own seq
        else state.session.advanceRows seen sub own seq := by
      rw [Session.sweepOne, stored]
    cases opened : own.closed with
    | true =>
      refine idle ?_ (observe_still stored (.inl opened) host) ?_
      · rw [face_of stored found, opened]
        rfl
      · rw [swept, opened]
        rfl
    | false =>
      have before : state.face sub = some ⟨own.windowed, own.scalar, known.life, known.shown⟩ := by
        rw [face_of stored found, opened]
        rfl
      cases revoked : host.closed sub with
      | true =>
        have emitted : Session.sweepOne (host.under []) seq caller state.session sub =
            state.session.emitClose sub own seq .unauthorized := by
          rw [swept, opened]
          exact if_pos revoked
        rw [unread (by rw [revoked]; rfl), emitted]
        refine coherent.close stored rfl rfl ?_
        rw [sweptFace, before, Option.bind_some, revoked]
        rfl
      | false =>
        cases caller with
        | false =>
          have kept : Session.sweepOne (host.under []) seq false state.session sub = state.session := by
            rw [swept, opened]
            exact if_neg (ne_true_of_eq_false revoked)
          rw [unread (by rw [revoked]; rfl), kept]
          refine coherent.still rfl rfl fun other inside => ?_
          rw [inside, sweptFace, before, Option.bind_some, revoked]
          rfl
        | true =>
          rw [read (by rw [revoked]; rfl)]
          cases rowed : own.scalar with
          | true =>
            have advanced : Session.sweepOne (host.under []) seq true state.session sub =
                state.session.advanceScalar (host.under []) sub own seq := by
              rw [swept, opened, rowed]
              exact if_neg (ne_true_of_eq_false revoked)
            rw [observe_still stored (.inr rowed), advanced]
            refine coherent.advanceScalar stored opened _ seq ?_
            rw [sweptFace, before, Option.bind_some, revoked, rowed]
            rfl
          | false =>
            have advanced (rows : List (WireRow String Value)) :
                Session.sweepOne (host.under rows) seq true state.session sub =
                  state.session.advanceRows (host.under rows) sub own seq := by
              rw [swept, opened, rowed]
              exact if_neg (ne_true_of_eq_false revoked)
            rw [observe_rows stored opened rowed, advanced]
            refine coherent.projected stored opened rowed host (advanceRows_subs ..) fun face _ plain => ?_
            rw [sweptFace, Option.bind_some, revoked, plain]
            rfl

omit [DecidableEq Value] in
/-- A subscription that starts again shows what the host shows. -/
theorem Coherent.reprojectInit (coherent : state.Coherent keys minter) (host : Observation Sub RowId Value)
    (seq : Nat) (sub : Sub) :
    Steps keys minter (startedFace host) (· = sub) state (reprojectInit keys minter host seq state sub) := by
  have still (same : startedFace host sub (state.face sub) = state.face sub) :
      Steps keys minter (startedFace host) (· = sub) state state :=
    coherent.still rfl rfl fun other inside => by rw [inside, same]
  cases stored : state.session.subs[sub]? with
  | none =>
    have kept : Session.reprojectInit (host.under []) seq state.session sub = state.session := by
      rw [Session.reprojectInit, stored]
    rw [TokenSession.reprojectInit, observe_absent stored, kept]
    refine still ?_
    rw [face_absent stored]
    rfl
  | some own =>
    obtain ⟨known, found, plain, labelled⟩ := coherent.paired sub own stored
    cases opened : own.closed with
    | true =>
      have kept : Session.reprojectInit (host.under []) seq state.session sub = state.session := by
        rw [Session.reprojectInit, stored]
        exact if_pos opened
      rw [TokenSession.reprojectInit, observe_still stored (.inl opened), kept]
      refine still ?_
      rw [face_of stored found, opened]
      rfl
    | false =>
      have before : state.face sub = some ⟨own.windowed, own.scalar, known.life, known.shown⟩ := by
        rw [face_of stored found, opened]
        rfl
      cases rowed : own.scalar with
      | true =>
        have same : startedFace host sub (state.face sub) = state.face sub := by
          rw [startedFace, before, Option.map_some, rowed]
          rfl
        rw [TokenSession.reprojectInit, observe_still stored (.inr rowed)]
        cases given : host.scalar sub with
        | none =>
          have kept : Session.reprojectInit (host.under []) seq state.session sub = state.session := by
            rw [Session.reprojectInit, stored, Observation.under, given]
            dsimp only
            rw [opened, rowed]
            rfl
          rw [kept]
          exact still same
        | some value =>
          have kept : (Session.reprojectInit (host.under []) seq state.session sub).subs =
              state.session.subs.insert sub { own with scalarValue := some value } := by
            rw [Session.reprojectInit, stored, Observation.under, given]
            dsimp only
            rw [if_neg (ne_true_of_eq_false opened), if_pos rowed]
            rfl
          refine coherent.change coherent.sound kept opened plain rfl (fun _ _ => rfl)
            (labels_self found labelled) ?_
          rw [same, before]
      | false =>
        have started (rows : List (WireRow String Value)) :
            (Session.reprojectInit (host.under rows) seq state.session sub).subs =
              state.session.subs.insert sub { own with snapshot := rows } := by
          rw [Session.reprojectInit, stored]
          dsimp only
          rw [if_neg (ne_true_of_eq_false opened), if_neg (ne_true_of_eq_false rowed)]
          rfl
        rw [TokenSession.reprojectInit, observe_rows stored opened rowed]
        refine coherent.projected stored opened rowed host (started _) fun face _ bare => ?_
        rw [startedFace, Option.map_some, bare]
        rfl

end Requests

end TokenSession

end Liasse.Live
