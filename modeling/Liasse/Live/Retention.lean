/-
This file tells in which runs of a connection each token that it minted names its row exactly while the client holds
it: those whose requests retain the rows that the client holds.
-/

import Liasse.Live.Occurrences

namespace Liasse.Live

open Codes

namespace TokenSession

variable {Sub RowId Value : Type} [Ord Sub] [Std.TransOrd Sub] [Ord RowId] [Std.TransOrd RowId] [DecidableEq Value]

section Retention

variable {keys : ConnKeys} {minter : TokenMinter} {state next : TokenSession Sub RowId Value}
  {after : Sub → Option (Face RowId) → Option (Face RowId)} {among : Sub → Prop}

omit [Ord Sub] [Std.TransOrd Sub] [Ord RowId] [Std.TransOrd RowId] [DecidableEq Value] in
/-- The rows that a subscription shows stay in its life. -/
def Kept (before later : Option (Face RowId)) : Prop :=
  ∀ face, before = some face → ∀ row ∈ face.shown, ∃ now, later = some now ∧ now.life = face.life ∧ row ∈ now.shown

omit [DecidableEq Value] in
/-- The host still shows the rows of each live subscription. -/
def Current (state : TokenSession Sub RowId Value) (host : Observation Sub RowId Value) : Prop :=
  ∀ (sub : Sub) (face : Face RowId), state.face sub = some face → ∀ row ∈ face.shown,
    row ∈ host.shown sub face.windowed

omit [DecidableEq Value] in
/-- A resume replays when it names a retained event. -/
def Replays (state : TokenSession Sub RowId Value) (lastEventId : Option (Option Nat)) : Prop :=
  state.session.outbound.overflow = false ∧
    ∃ seq, lastEventId = some (some seq) ∧ state.session.outbound.replayable seq = true

omit [DecidableEq Value] in
/-- No row that the client holds leaves its subscription: a subscription with rows is not replaced and does not close,
and its rows stay in what it reads. -/
def Retains (state : TokenSession Sub RowId Value) (host : Observation Sub RowId Value) :
    Request Sub RowId Value → Prop
  | .openRows sub _ _ | .openScalar sub _ | .unsubscribe sub =>
    ∀ face : Face RowId, state.face sub = some face → face.shown = []
  | .commit => state.Current host ∧ ∀ (sub : Sub) (face : Face RowId), state.face sub = some face →
      face.shown ≠ [] → host.closed sub = false
  | .peerCommit _ => ∀ (sub : Sub) (face : Face RowId), state.face sub = some face →
      face.shown ≠ [] → host.closed sub = false
  | .poll => state.session.outbound.overflow = true → state.Current host
  | .resume lastEventId => ¬ state.Replays lastEventId → state.Current host

omit [Ord Sub] [Std.TransOrd Sub] [Ord RowId] [Std.TransOrd RowId] [DecidableEq Value] in
theorem kept_self (face : Option (Face RowId)) : Kept face face :=
  fun face found _ inside => ⟨face, found, rfl, inside⟩

omit [DecidableEq Value] in
/-- A step keeps all rows when it keeps those of its own subscriptions. -/
theorem Steps.kept_iff (steps : Steps keys minter after among state next) :
    (∀ sub, Kept (state.face sub) (next.face sub)) ↔
      ∀ sub, among sub → Kept (state.face sub) (after sub (state.face sub)) := by
  constructor
  · intro kept sub inside
    rw [← steps.inside sub inside]
    exact kept sub
  · intro kept sub
    by_cases inside : among sub
    · rw [steps.inside sub inside]
      exact kept sub inside
    · rw [steps.outside sub inside]
      exact kept_self _

omit [DecidableEq Value] in
/-- Only the subscriptions and the tokens matter to a step. -/
theorem Steps.transport (steps : Steps keys minter after among state next) {first last : TokenSession Sub RowId Value}
    (sessions : first.session.subs = state.session.subs) (tokens : first.tokens = state.tokens)
    (others : last.session.subs = next.session.subs) (records : last.tokens = next.tokens) :
    Steps keys minter after among first last := by
  obtain ⟨_, _, _⟩ := state
  obtain ⟨_, _, _⟩ := next
  obtain ⟨_, _, _⟩ := first
  obtain ⟨_, _, _⟩ := last
  subst sessions tokens others records
  exact ⟨⟨steps.coherent.sound, steps.coherent.paired⟩, steps.inside, steps.outside, steps.grows⟩

omit [DecidableEq Value] in
theorem Coherent.plain (coherent : state.Coherent keys minter) {sub : Sub} {face : Face RowId}
    (found : state.face sub = some face) : (face.scalar = true → face.shown = []) ∧ face.life < state.tokens.lives := by
  cases stored : state.session.subs[sub]? with
  | none =>
    rw [face_absent stored] at found
    cases found
  | some own =>
    obtain ⟨known, kept, plain, _⟩ := coherent.paired sub own stored
    rw [face_of stored kept] at found
    split at found
    · cases found
    · obtain rfl := Option.some.inj found
      exact ⟨plain, (coherent.sound.held sub known kept).1⟩

omit [DecidableEq Value] in
/-- A fresh life keeps no row. -/
theorem Coherent.kept_fresh (coherent : state.Coherent keys minter) (sub : Sub) {fresh : Option (Face RowId)}
    (renewed : ∀ face : Face RowId, fresh = some face → face.life = state.tokens.lives) :
    Kept (state.face sub) fresh ↔ ∀ face : Face RowId, state.face sub = some face → face.shown = [] := by
  constructor
  · intro kept face found
    refine List.eq_nil_iff_forall_not_mem.mpr fun row inside => ?_
    obtain ⟨now, new, same, _⟩ := kept face found row inside
    exact Nat.ne_of_lt (coherent.plain found).2 (same.symm.trans (renewed now new))
  · intro bare face found row inside
    rw [bare face found] at inside
    cases inside

omit [DecidableEq Value] in
/-- A sweep keeps the rows of a subscription that stays open and that the host still shows to the caller. -/
theorem Coherent.kept_swept (coherent : state.Coherent keys minter) (host : Observation Sub RowId Value)
    (caller : Bool) (sub : Sub) : Kept (state.face sub) (sweptFace host caller sub (state.face sub)) ↔
      ∀ face : Face RowId, state.face sub = some face → (face.shown ≠ [] → host.closed sub = false) ∧
        (caller = true → ∀ row ∈ face.shown, row ∈ host.shown sub face.windowed) := by
  constructor
  · intro kept face found
    have open_ (row : RowId) (inside : row ∈ face.shown) : host.closed sub = false ∧
        (caller = true → row ∈ host.shown sub face.windowed) := by
      obtain ⟨now, swept, _, still⟩ := kept face found row inside
      rw [found, sweptFace, Option.bind_some] at swept
      cases revoked : host.closed sub with
      | true =>
        rw [revoked] at swept
        cases swept
      | false =>
        refine ⟨rfl, fun called => ?_⟩
        rw [revoked, called] at swept
        cases rowed : face.scalar with
        | true =>
          rw [(coherent.plain found).1 rowed] at inside
          cases inside
        | false =>
          rw [rowed] at swept
          obtain rfl := Option.some.inj swept
          exact still
    refine ⟨fun shown => ?_, fun called row inside => (open_ row inside).2 called⟩
    obtain ⟨row, inside⟩ := List.exists_mem_of_ne_nil _ shown
    exact (open_ row inside).1
  · intro rule face found row inside
    obtain ⟨opened, current⟩ := rule face found
    rw [found, sweptFace, Option.bind_some, opened (List.ne_nil_of_mem inside)]
    by_cases idle : (!caller || face.scalar) = true
    · exact ⟨face, if_pos idle, rfl, inside⟩
    · refine ⟨{ face with shown := host.shown sub face.windowed }, if_neg idle, rfl, current ?_ row inside⟩
      cases caller with
      | true => rfl
      | false => exact absurd rfl idle

omit [DecidableEq Value] in
/-- A fresh start keeps the rows that the host still shows. -/
theorem Coherent.kept_started (coherent : state.Coherent keys minter) (host : Observation Sub RowId Value)
    (sub : Sub) : Kept (state.face sub) (startedFace host sub (state.face sub)) ↔
      ∀ face : Face RowId, state.face sub = some face → ∀ row ∈ face.shown, row ∈ host.shown sub face.windowed := by
  constructor
  · intro kept face found row inside
    obtain ⟨now, started, _, still⟩ := kept face found row inside
    rw [found, startedFace, Option.map_some] at started
    cases rowed : face.scalar with
    | true =>
      rw [(coherent.plain found).1 rowed] at inside
      cases inside
    | false =>
      rw [rowed] at started
      obtain rfl := Option.some.inj started
      exact still
  · intro current face found row inside
    rw [found, startedFace, Option.map_some]
    cases rowed : face.scalar with
    | true => exact ⟨face, rfl, rfl, inside⟩
    | false => exact ⟨_, rfl, rfl, current face found row inside⟩

variable [Std.LawfulEqOrd Sub] [Std.LawfulEqOrd RowId]

omit [DecidableEq Value] in
theorem Coherent.installRows (coherent : state.Coherent keys minter) (host : Observation Sub RowId Value) (sub : Sub)
    (rows : List (WireRow RowId Value)) (windowed : Bool) :
    Steps keys minter (fun _ _ => some ⟨windowed, false, state.tokens.lives, rows.map WireRow.occ⟩) (· = sub) state
      (state.installRows keys minter host sub rows windowed) := by
  have found : (state.tokens.renew sub).subs[sub]? = some ⟨∅, state.tokens.lives, []⟩ :=
    Std.ExtTreeMap.getElem?_insert_self
  have others (other : Sub) (different : other ≠ sub) :
      (state.tokens.renew sub).subs[other]? = state.tokens.subs[other]? := getElem?_insert_of_ne different
  have issued : (state.tokens.renew sub).issued = state.tokens.issued := rfl
  obtain ⟨sound, labels⟩ := (coherent.sound.renew sub).project found rows
  exact coherent.change sound rfl rfl nofun issued others labels rfl

omit [DecidableEq Value] [Std.LawfulEqOrd RowId] in
theorem Coherent.installScalar (coherent : state.Coherent keys minter) (host : Observation Sub RowId Value)
    (sub : Sub) (value : Value) :
    Steps keys minter (fun _ _ => some ⟨false, true, state.tokens.lives, []⟩) (· = sub) state
      (state.installScalar host sub value) := by
  have found : (state.tokens.renew sub).subs[sub]? = some ⟨∅, state.tokens.lives, []⟩ :=
    Std.ExtTreeMap.getElem?_insert_self
  have others (other : Sub) (different : other ≠ sub) :
      (state.tokens.renew sub).subs[other]? = state.tokens.subs[other]? := getElem?_insert_of_ne different
  have issued : (state.tokens.renew sub).issued = state.tokens.issued := rfl
  exact coherent.change (coherent.sound.renew sub) rfl rfl (fun _ => rfl) issued others (labels_self found .nil) rfl

omit [DecidableEq Value] [Std.LawfulEqOrd RowId] in
theorem Coherent.unsubscribe (coherent : state.Coherent keys minter) (host : Observation Sub RowId Value)
    (sub : Sub) : Steps keys minter (fun _ _ => none) (· = sub) state (state.unsubscribe host sub) := by
  have idle (nothing : state.face sub = none) (kept : state.session.unsubscribe (host.under []) sub = state.session) :
      Steps keys minter (fun _ _ => none) (· = sub) state (state.unsubscribe host sub) :=
    coherent.still (congrArg Session.subs kept) rfl fun other inside => by rw [inside, nothing]
  cases stored : state.session.subs[sub]? with
  | none =>
    refine idle (face_absent stored) ?_
    rw [Session.unsubscribe, stored]
  | some own =>
    cases opened : own.closed with
    | true =>
      obtain ⟨known, found, _⟩ := coherent.paired sub own stored
      refine idle ?_ ?_
      · rw [face_of stored found, opened]
        rfl
      · rw [Session.unsubscribe, stored]
        exact if_pos opened
    | false =>
      have closed : state.session.unsubscribe (host.under []) sub =
          state.session.emitClose sub own host.frontier .unsubscribed := by
        rw [Session.unsubscribe, stored]
        exact if_neg (ne_true_of_eq_false opened)
      exact coherent.close stored (congrArg Session.subs closed) rfl rfl

omit [Std.TransOrd RowId] [DecidableEq Value] [Std.LawfulEqOrd RowId] in
theorem mem_keys_of_face {sub : Sub} {face : Face RowId} (found : state.face sub = some face) :
    sub ∈ state.session.subs.keys := by
  cases stored : state.session.subs[sub]? with
  | none =>
    rw [face_absent stored] at found
    cases found
  | some own => exact Std.ExtTreeMap.mem_keys.mpr (Std.ExtTreeMap.mem_iff_isSome_getElem?.mpr (by rw [stored]; rfl))

omit [Std.TransOrd RowId] [DecidableEq Value] [Std.LawfulEqOrd RowId] in
/-- A subscription without a face keeps its rows. -/
theorem kept_keys : (∀ sub ∈ state.session.subs.keys, Kept (state.face sub) (after sub (state.face sub))) ↔
    ∀ sub, Kept (state.face sub) (after sub (state.face sub)) :=
  ⟨fun kept sub face found => kept sub (mem_keys_of_face found) face found, fun kept sub _ => kept sub⟩

/-- The requests of a sweep or a fresh start: each subscription is visited once. -/
theorem Coherent.sweep (coherent : state.Coherent keys minter) (host : Observation Sub RowId Value) (seq : Nat)
    (caller : Bool) : Steps keys minter (sweptFace host caller) (· ∈ state.session.subs.keys) state
      (state.sweep keys minter host seq caller) :=
  Steps.foldl (fun _ sub steady => Coherent.sweepOne steady host seq caller sub) _ Std.ExtTreeMap.nodup_keys coherent

omit [DecidableEq Value] in
theorem Coherent.reinit (coherent : state.Coherent keys minter) (host : Observation Sub RowId Value)
    (reset : Option ResetReason) : Steps keys minter (startedFace host) (· ∈ state.session.subs.keys) state
      (state.reinit keys minter host reset).1 := by
  have steady : (state.announce host reset).Coherent keys minter := by
    have still : Steps keys minter (fun _ face => face) (fun _ => True) state (state.announce host reset) := by
      cases reset with
      | none => exact coherent.still rfl rfl fun _ _ => rfl
      | some reason => exact coherent.still rfl rfl fun _ _ => rfl
    exact still.coherent
  have folded := Steps.foldl (fun _ sub steady => Coherent.reprojectInit steady host host.frontier sub)
    state.session.subs.keys Std.ExtTreeMap.nodup_keys steady
  cases reset with
  | none => exact folded.transport rfl rfl rfl rfl
  | some reason => exact folded.transport rfl rfl rfl rfl

omit [DecidableEq Value] [Std.LawfulEqOrd Sub] [Std.LawfulEqOrd RowId] in
theorem resume_replays (keys : ConnKeys) (minter : TokenMinter) {lastEventId : Option (Option Nat)}
    (replays : state.Replays lastEventId) (host : Observation Sub RowId Value) :
    (state.resume keys minter host lastEventId).1.session.subs = state.session.subs ∧
      (state.resume keys minter host lastEventId).1.tokens = state.tokens := by
  obtain ⟨calm, seq, rfl, retained⟩ := replays
  have whole : (state.resume keys minter host (some (some seq))).1 =
      { state with session := { state.session.cleared with
        outbound := (state.session.cleared.outbound.replayAfter seq).1 } } := by
    rw [resume, calm, Session.cleared_calm calm]
    change (if state.session.outbound.replayable seq then _ else _ : Delivery Sub RowId Value).1 = _
    rw [if_pos retained]
  rw [whole]
  exact ⟨rfl, rfl⟩

omit [DecidableEq Value] [Std.LawfulEqOrd Sub] [Std.LawfulEqOrd RowId] in
theorem resume_restarts (keys : ConnKeys) (minter : TokenMinter) {lastEventId : Option (Option Nat)}
    (restarts : ¬ state.Replays lastEventId) (host : Observation Sub RowId Value) :
    ∃ reset, state.resume keys minter host lastEventId =
      ({ state with session := state.session.cleared } : TokenSession Sub RowId Value).reinit keys minter host reset := by
  cases latch : state.session.outbound.overflow with
  | true => exact ⟨some .overflow, if_pos latch⟩
  | false =>
    have calm : ¬ state.session.outbound.overflow = true := ne_true_of_eq_false latch
    match lastEventId with
    | none => exact ⟨none, if_neg calm⟩
    | some none => exact ⟨some .serverReset, if_neg calm⟩
    | some (some seq) =>
      have gone : ¬ state.session.cleared.outbound.replayable seq = true := by
        intro retained
        exact restarts ⟨latch, seq, rfl, retained⟩
      exact ⟨some .serverReset, (if_neg calm).trans (if_neg gone)⟩

/-- A request keeps the connection coherent, and it keeps the rows of each subscription exactly when it retains. -/
theorem Coherent.step (coherent : state.Coherent keys minter) (host : Observation Sub RowId Value)
    (request : Request Sub RowId Value) : ∃ after among,
      Steps keys minter after among state (state.step keys minter host request).1 ∧
        ((∀ sub, among sub → Kept (state.face sub) (after sub (state.face sub))) ↔ state.Retains host request) := by
  have still {next : TokenSession Sub RowId Value} (sessions : next.session.subs = state.session.subs)
      (tokens : next.tokens = state.tokens) :
      Steps keys minter (fun _ face => face) (fun _ => True) state next ∧
        ∀ sub, True → Kept (state.face sub) (state.face sub) :=
    ⟨coherent.still sessions tokens fun _ _ => rfl, fun _ _ => kept_self _⟩
  have restart (reset : Option ResetReason) : Steps keys minter (startedFace host) (· ∈ state.session.subs.keys) state
      (({ state with session := state.session.cleared } : TokenSession Sub RowId Value).reinit keys minter host reset).1 ∧
      ((∀ sub ∈ state.session.subs.keys, Kept (state.face sub) (startedFace host sub (state.face sub))) ↔
        state.Current host) := by
    have cleared : Steps keys minter (fun _ face => face) (fun _ => True) state
        { state with session := state.session.cleared } := coherent.still rfl rfl fun _ _ => rfl
    exact ⟨(cleared.coherent.reinit host reset).transport rfl rfl rfl rfl,
      kept_keys.trans (forall_congr' (coherent.kept_started host))⟩
  cases request with
  | openRows sub rows windowed =>
    refine ⟨_, _, coherent.installRows host sub rows windowed, forall_eq.trans (coherent.kept_fresh sub ?_)⟩
    intro face fresh
    rw [← Option.some.inj fresh]
  | openScalar sub value =>
    refine ⟨_, _, coherent.installScalar host sub value, forall_eq.trans (coherent.kept_fresh sub ?_)⟩
    intro face fresh
    rw [← Option.some.inj fresh]
  | unsubscribe sub =>
    exact ⟨_, _, coherent.unsubscribe host sub, forall_eq.trans (coherent.kept_fresh sub nofun)⟩
  | commit =>
    refine ⟨_, _, coherent.sweep host host.frontier true,
      (kept_keys.trans (forall_congr' (coherent.kept_swept host true))).trans ?_⟩
    exact ⟨fun all => ⟨fun sub face found => (all sub face found).2 rfl,
        fun sub face found => (all sub face found).1⟩,
      fun both sub face found => ⟨both.2 sub face found, fun _ => both.1 sub face found⟩⟩
  | peerCommit seq =>
    refine ⟨_, _, coherent.sweep host seq false,
      (kept_keys.trans (forall_congr' (coherent.kept_swept host false))).trans ?_⟩
    exact ⟨fun all sub face found => (all sub face found).1,
      fun opened sub face found => ⟨opened sub face found, nofun⟩⟩
  | poll =>
    cases latch : state.session.outbound.overflow with
    | true =>
      obtain ⟨steps, current⟩ := restart (some .overflow)
      refine ⟨_, _, ?_, current.trans ⟨fun current _ => current, fun current => current latch⟩⟩
      rw [TokenSession.step, poll, latch]
      exact steps
    | false =>
      have drained : state.poll keys minter host =
          ({ state with session := state.session.cleared } : TokenSession Sub RowId Value).drainPending :=
        if_neg (ne_true_of_eq_false latch)
      have sessions : (state.poll keys minter host).1.session.subs = state.session.subs := by
        rw [drained]
        rfl
      have tokens : (state.poll keys minter host).1.tokens = state.tokens := by
        rw [drained]
        rfl
      obtain ⟨steps, kept⟩ := still sessions tokens
      exact ⟨_, _, steps, iff_of_true kept fun latched => absurd (latch.symm.trans latched) Bool.false_ne_true⟩
  | resume lastEventId =>
    by_cases replays : state.Replays lastEventId
    · obtain ⟨sessions, tokens⟩ := resume_replays keys minter replays host
      obtain ⟨steps, kept⟩ := still sessions tokens
      exact ⟨_, _, steps, iff_of_true kept fun restarts => absurd replays restarts⟩
    · obtain ⟨reset, whole⟩ := resume_restarts keys minter replays host
      obtain ⟨steps, current⟩ := restart reset
      refine ⟨_, _, ?_, current.trans ⟨fun current _ => current, fun current => current replays⟩⟩
      rw [TokenSession.step, whole]
      exact steps

end Retention

section Meeting

variable {keys : ConnKeys} {minter : TokenMinter} {state next : TokenSession Sub RowId Value}

omit [DecidableEq Value] in
/-- Two tokens are equal exactly when they are minted for one row in one life of a subscription. The rows that a
subscription shows have tokens of its life. A token names its row while the client holds it, and otherwise none. -/
structure Meets (keys : ConnKeys) (minter : TokenMinter) (state : TokenSession Sub RowId Value) : Prop where
  identified : state.tokens.Identified
  labelled : ∀ (sub : Sub) (own : SubState String Value), state.session.subs[sub]? = some own →
    ∃ known, state.tokens.subs[sub]? = some known ∧
      List.Forall₂ (fun row occ => ⟨sub, known.life, row, occ⟩ ∈ state.tokens.issued) known.shown (occs own.snapshot)
  held : ∀ issue ∈ state.tokens.issued, state.Holds issue.token →
    state.tokens.resolveOcc keys minter issue.token = .row issue.row
  gone : ∀ issue ∈ state.tokens.issued, ¬ state.Holds issue.token →
    state.tokens.resolveOcc keys minter issue.token = .absent

omit [DecidableEq Value] in
/-- The subscription of a token shows its row in the life of the token. -/
def Shows (state : TokenSession Sub RowId Value) (issue : Issue Sub RowId) : Prop :=
  ∃ face, state.face issue.sub = some face ∧ face.life = issue.life ∧ issue.row ∈ face.shown

omit [DecidableEq Value] in
/-- Each token that was minted belongs to a row that its subscription shows. -/
def Complete (state : TokenSession Sub RowId Value) : Prop :=
  ∀ issue ∈ state.tokens.issued, state.Shows issue

omit [Std.TransOrd RowId] [DecidableEq Value] in
theorem face_some {sub : Sub} {face : Face RowId} (found : state.face sub = some face) :
    ∃ own known, state.session.subs[sub]? = some own ∧ own.closed = false ∧ state.tokens.subs[sub]? = some known ∧
      face.life = known.life ∧ face.shown = known.shown := by
  rw [TokenSession.face, Option.bind_eq_some_iff] at found
  obtain ⟨own, stored, found⟩ := found
  obtain ⟨known, kept, found⟩ := Option.bind_eq_some_iff.mp found
  cases opened : own.closed with
  | true =>
    rw [opened] at found
    cases found
  | false =>
    rw [opened] at found
    obtain rfl := Option.some.inj found
    exact ⟨own, known, stored, opened, kept, rfl, rfl⟩

omit [DecidableEq Value] in
/-- The client holds a token exactly when the subscription of the token shows its row. -/
theorem Coherent.holds_iff (coherent : state.Coherent keys minter) (identified : state.tokens.Identified)
    {issue : Issue Sub RowId} (inside : issue ∈ state.tokens.issued) :
    state.Holds issue.token ↔ state.Shows issue := by
  constructor
  · rintro ⟨sub, own, stored, opened, held⟩
    obtain ⟨known, kept, _, labelled⟩ := coherent.paired sub own stored
    obtain ⟨row, shown, issued⟩ := exists_related labelled.flip held
    obtain ⟨life, same⟩ := (identified _ issued issue inside).mp rfl
    obtain rfl := (coherent.sound.past issue inside).2 sub known kept life
    have member : issue.row ∈ known.shown := (show row = issue.row from same) ▸ shown
    refine ⟨⟨own.windowed, own.scalar, known.life, known.shown⟩, ?_, life, member⟩
    rw [face_of stored kept, opened]
    rfl
  · rintro ⟨face, found, life, shown⟩
    obtain ⟨own, known, stored, opened, kept, lives, rows⟩ := face_some found
    obtain ⟨tokens, same, _, labelled⟩ := coherent.paired issue.sub own stored
    obtain rfl := Option.some.inj (kept.symm.trans same)
    obtain ⟨occ, held, issued⟩ := exists_related labelled (rows ▸ shown)
    have token : issue.token = occ := (identified issue inside _ issued).mpr ⟨life.symm.trans lives, rfl⟩
    exact ⟨issue.sub, own, stored, opened, token ▸ held⟩

omit [DecidableEq Value] in
/-- Each row that a subscription shows has a token of its life. -/
theorem Coherent.issued (coherent : state.Coherent keys minter) {sub : Sub} {face : Face RowId}
    (found : state.face sub = some face) {row : RowId} (shown : row ∈ face.shown) :
    ∃ occ, ⟨sub, face.life, row, occ⟩ ∈ state.tokens.issued := by
  obtain ⟨own, known, stored, _, kept, lives, rows⟩ := face_some found
  obtain ⟨tokens, same, _, labelled⟩ := coherent.paired sub own stored
  obtain rfl := Option.some.inj (kept.symm.trans same)
  obtain ⟨occ, _, issued⟩ := exists_related labelled (rows ▸ shown)
  exact ⟨occ, lives ▸ issued⟩

omit [DecidableEq Value] in
/-- The connection meets its rules exactly when its tokens identify their rows and each of them is held. -/
theorem Coherent.meets_iff (coherent : state.Coherent keys minter) :
    state.Meets keys minter ↔ state.tokens.issued.length ≤ 2 ^ 64 ∧ state.Complete := by
  constructor
  · intro meets
    refine ⟨coherent.sound.identified_iff.mp meets.identified, fun issue inside => ?_⟩
    refine (coherent.holds_iff meets.identified inside).mp (not_not.mp fun unheld => ?_)
    have named := coherent.sound.resolves meets.identified inside
    rw [meets.gone issue inside unheld] at named
    cases named
  · rintro ⟨bounded, complete⟩
    have identified := coherent.sound.identified_iff.mpr bounded
    refine ⟨identified, fun sub own stored => ?_, fun issue inside _ => coherent.sound.resolves identified inside,
      fun issue inside unheld => ?_⟩
    · obtain ⟨known, kept, _, labelled⟩ := coherent.paired sub own stored
      exact ⟨known, kept, labelled⟩
    · exact absurd ((coherent.holds_iff identified inside).mpr (complete issue inside)) unheld

variable [Std.LawfulEqOrd Sub] [Std.LawfulEqOrd RowId]

/-- The effect of a request: it keeps the connection coherent and the earlier tokens, and where each token was held,
each is held after it exactly when it retains the rows. -/
theorem Coherent.step_complete (coherent : state.Coherent keys minter) (host : Observation Sub RowId Value)
    (request : Request Sub RowId Value) : (state.step keys minter host request).1.Coherent keys minter ∧
      state.tokens.issued <+: (state.step keys minter host request).1.tokens.issued ∧
      (state.Complete → ((state.step keys minter host request).1.Complete ↔ state.Retains host request)) := by
  obtain ⟨after, among, steps, retains⟩ := coherent.step host request
  obtain ⟨more, longer, shown⟩ := steps.grows
  refine ⟨steps.coherent, ⟨more, longer.symm⟩, fun complete => (Iff.trans ?_ steps.kept_iff).trans retains⟩
  constructor
  · intro later sub face found row inside
    obtain ⟨occ, issued⟩ := coherent.issued found inside
    exact later _ (longer ▸ List.mem_append_left more issued)
  · intro kept issue inside
    rw [longer] at inside
    rcases List.mem_append.mp inside with old | new
    · obtain ⟨face, found, life, row⟩ := complete issue old
      obtain ⟨now, showing, same, still⟩ := kept issue.sub face found issue.row row
      exact ⟨now, showing, same.trans life, still⟩
    · exact (shown issue new).2

omit [Std.LawfulEqOrd Sub] [Std.LawfulEqOrd RowId] in
theorem run_append (keys : ConnKeys) (minter : TokenMinter) (capacity : Nat)
    (events : List (Observation Sub RowId Value × Request Sub RowId Value)) (host : Observation Sub RowId Value)
    (request : Request Sub RowId Value) : run keys minter capacity (events ++ [(host, request)]) =
      ((run keys minter capacity events).step keys minter host request).1 := by
  rw [run, List.foldl_append]
  rfl

omit [Std.LawfulEqOrd Sub] [Std.LawfulEqOrd RowId] [DecidableEq Value] in
/-- A new connection has no subscriptions. -/
theorem new_coherent (keys : ConnKeys) (minter : TokenMinter) (capacity : Nat) :
    (new capacity : TokenSession Sub RowId Value).Coherent keys minter where
  sound := Tokens.sound_new
  paired sub own stored := by
    rw [new, Session.new, Std.ExtTreeMap.getElem?_empty] at stored
    cases stored

theorem run_coherent (capacity : Nat) (events : List (Observation Sub RowId Value × Request Sub RowId Value)) :
    (run keys minter capacity events).Coherent keys minter := by
  induction events using List.reverseRecOn with
  | nil => exact new_coherent keys minter capacity
  | append_singleton earlier event ih =>
    obtain ⟨host, request⟩ := event
    rw [run_append]
    exact (ih.step_complete host request).1

/-- A longer run keeps the tokens of a shorter one. -/
theorem run_issued (keys : ConnKeys) (minter : TokenMinter) (capacity : Nat)
    (done rest : List (Observation Sub RowId Value × Request Sub RowId Value)) :
    (run keys minter capacity done).tokens.issued <+: (run keys minter capacity (done ++ rest)).tokens.issued := by
  induction rest using List.reverseRecOn with
  | nil => rw [List.append_nil]
  | append_singleton earlier event ih =>
    obtain ⟨host, request⟩ := event
    rw [← List.append_assoc, run_append]
    exact ih.trans ((run_coherent capacity (done ++ earlier)).step_complete host request).2.1

/-- In a run whose requests retain the rows, each token is held. -/
theorem run_complete (capacity : Nat) {events : List (Observation Sub RowId Value × Request Sub RowId Value)}
    (retains : ∀ done host request rest, events = done ++ (host, request) :: rest →
      (run keys minter capacity done).Retains host request) : (run keys minter capacity events).Complete := by
  induction events using List.reverseRecOn with
  | nil => exact nofun
  | append_singleton earlier event ih =>
    obtain ⟨host, request⟩ := event
    rw [run_append]
    refine (((run_coherent capacity earlier).step_complete host request).2.2 (ih ?_)).mpr (retains earlier _ _ [] rfl)
    intro done other answer rest split
    refine retains done other answer (rest ++ [(host, request)]) ?_
    rw [split, List.append_assoc]
    rfl

/-- A connection meets its rules in each state of a run, and its tokens stay, exactly when its counter does not wrap
and each request retains the rows that the client holds. -/
theorem occurrences_meet_iff (keys : ConnKeys) (minter : TokenMinter) (capacity : Nat)
    (events : List (Observation Sub RowId Value × Request Sub RowId Value)) :
    (∀ done rest, events = done ++ rest → (run keys minter capacity done).Meets keys minter ∧
      (run keys minter capacity done).tokens.issued <+: (run keys minter capacity events).tokens.issued) ↔
    (run keys minter capacity events).tokens.issued.length ≤ 2 ^ 64 ∧
      ∀ done host request rest, events = done ++ (host, request) :: rest →
        (run keys minter capacity done).Retains host request := by
  constructor
  · intro meets
    refine ⟨((run_coherent capacity events).meets_iff.mp (meets events [] (List.append_nil _).symm).1).1, ?_⟩
    intro done host request rest split
    have before := (run_coherent capacity done).meets_iff.mp (meets done _ split).1
    have whole : events = (done ++ [(host, request)]) ++ rest := by
      rw [split, List.append_assoc]
      rfl
    have after := (run_coherent capacity _).meets_iff.mp (meets _ rest whole).1
    rw [run_append] at after
    exact (((run_coherent capacity done).step_complete host request).2.2 before.2).mp after.2
  · rintro ⟨bounded, retains⟩ done rest rfl
    have longer := run_issued keys minter capacity done rest
    refine ⟨(run_coherent capacity done).meets_iff.mpr ⟨longer.length_le.trans bounded, ?_⟩, longer⟩
    refine run_complete capacity ?_
    intro earlier host request later split
    refine retains earlier host request (later ++ rest) ?_
    rw [split, List.append_assoc]
    rfl

end Meeting

end TokenSession

section Samples

/-- The minter that seals a payload as itself. -/
def unsignedMinter : TokenMinter :=
  ⟨fun payload => payload, some, fun _ => rfl⟩

def sampleKeys : ConnKeys :=
  ⟨"p", by decide⟩

/-- A host that shows the same rows to each subscription. -/
def steadyHost (rows : List Nat) : Observation Nat Nat Nat :=
  ⟨0, fun _ => false, fun _ _ => rows.map fun row => ⟨row, row⟩, fun _ => none⟩

/-- A view opens with a row. -/
def openedEvent : Observation Nat Nat Nat × Request Nat Nat Nat :=
  (steadyHost [5], .openRows 1 [⟨5, 5⟩] false)

def sampleRun (rows : List Nat) : TokenSession Nat Nat Nat :=
  .run sampleKeys unsignedMinter 8 [openedEvent, (steadyHost rows, .commit)]

/-- The opening event shows its row. -/
theorem opened_face {sub : Nat} {face : TokenSession.Face Nat}
    (found : (TokenSession.run sampleKeys unsignedMinter 8 [openedEvent]).face sub = some face) :
    face.windowed = false ∧ face.shown = [5] := by
  have installed := (TokenSession.new_coherent sampleKeys unsignedMinter 8).installRows
    openedEvent.1 1 [⟨5, 5⟩] false
  change (TokenSession.installRows sampleKeys unsignedMinter (.new 8) openedEvent.1 1 [⟨5, 5⟩]
    false).face sub = _ at found
  by_cases same : sub = 1
  · rw [installed.inside sub same] at found
    obtain rfl := Option.some.inj found
    exact ⟨rfl, rfl⟩
  · rw [installed.outside sub same] at found
    have absent : (TokenSession.new 8 : TokenSession Nat Nat Nat).face sub = none :=
      TokenSession.face_absent Std.ExtTreeMap.getElem?_empty
    rw [absent] at found
    cases found

/-- A row that stays keeps its token, and the token names it. -/
theorem occurrences_meet_sample : (sampleRun [5]).Meets sampleKeys unsignedMinter := by
  refine ((TokenSession.occurrences_meet_iff sampleKeys unsignedMinter 8 _).mpr ⟨by decide +kernel, ?_⟩ _ []
    (List.append_nil _).symm).1
  intro done host request rest split
  cases done with
  | nil =>
    obtain ⟨equal, _⟩ := List.cons.inj split
    cases equal
    intro face found
    rw [TokenSession.face_absent Std.ExtTreeMap.getElem?_empty] at found
    cases found
  | cons first done =>
    obtain ⟨same, split⟩ := List.cons.inj split
    rw [← same]
    cases done with
    | nil =>
      obtain ⟨equal, _⟩ := List.cons.inj split
      cases equal
      refine ⟨fun sub face found row inside => ?_, fun sub face _ _ => rfl⟩
      rw [(opened_face found).2] at inside
      exact inside
    | cons second done =>
      obtain ⟨_, split⟩ := List.cons.inj split
      exact absurd split.symm (List.append_ne_nil_of_right_ne_nil _ (List.cons_ne_nil _ _))

/-- A row that left still has a token that names it. -/
theorem departed_resolves : (sampleRun []).tokens.resolveOcc sampleKeys unsignedMinter "o.p.0" = .row 5 ∧
    ¬ (sampleRun []).Holds "o.p.0" := by
  refine ⟨by decide +kernel, ?_⟩
  rintro ⟨sub, own, stored, _, held⟩
  have bare : ((sampleRun []).session.subs.toList.all fun pair => pair.2.snapshot.isEmpty) = true := by decide +kernel
  have listed := Std.ExtTreeMap.mem_toList_iff_getElem?_eq_some.mpr stored
  have none := List.isEmpty_iff.mp (List.all_eq_true.mp bare _ listed)
  rw [none] at held
  cases held

end Samples

end Liasse.Live
