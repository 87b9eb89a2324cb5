/-
This file offers the frames of one subscription to its store.
-/

import Liasse.Connect.Session

namespace Liasse.Connect

open Liasse.Live (WireRow PatchOp Distinct diffRows apply_diffRows)

section Acceptance

/-- A frame of one subscription with the frontier token of its event. -/
inductive Offer (Occ Value : Type)
  | init (rows : List (WireRow Occ Value)) (frontier : String)
  | scalar (value : Value) (frontier : String)
  | patch (ops : List (PatchOp Occ Value)) (frontier : String)
  | advanceFrontier (frontier : String)
  | close (reason : CloseReason)
  | reset (reason : ResetReason)

/-- The frontier token that a frame carries. -/
def Offer.token {Occ Value : Type} : Offer Occ Value → Option String
  | .init _ frontier | .scalar _ frontier | .patch _ frontier | .advanceFrontier frontier => some frontier
  | .close _ | .reset _ => none

namespace WireStore

variable {Occ Value : Type}

/-- A method of a store answers with success or an error, and it may change the store either way. -/
abbrev Method (Occ Value : Type) : Type → Type :=
  ExceptT (StoreError Occ) (StateM (WireStore Occ Value))

/-- The phase changes before the frontier does. -/
def settlePhase (phase : Phase Occ Value) (frontier : String) : Method Occ Value Unit := do
  modify fun store => { store with phase := phase }
  modify fun store => { store with frontier := some frontier }

/-- The store takes one frame. A patch applies to a copy of the rows. -/
def accept [DecidableEq Occ] : Offer Occ Value → Method Occ Value Unit
  | .init rows frontier => do
      (← get).ensureLive
      settlePhase (.rows rows) frontier
  | .scalar value frontier => do
      (← get).ensureLive
      settlePhase (.scalar value) frontier
  | .patch ops frontier => do
      (← get).ensureLive
      match (← get).phase with
      | .rows held =>
        let next ← (Live.apply held ops).mapError StoreError.apply
        settlePhase (.rows next) frontier
      | .scalar _ => throw .shapeMismatch
      | .pending => throw .notInitialized
      | .closed _ => throw .notLive
      | .reset _ => throw .notLive
  | .advanceFrontier frontier => do
      (← get).ensureLive
      modify fun store => { store with frontier := some frontier }
  | .close reason => modify fun store => store.close reason
  | .reset reason => modify fun store => store.reset reason

/-- The effect of a frame on the store when the store accepts it. -/
def accepted [DecidableEq Occ] (store : WireStore Occ Value) :
    Offer Occ Value → Except (StoreError Occ) (WireStore Occ Value)
  | .init rows frontier => store.init rows frontier
  | .scalar value frontier => store.scalar value frontier
  | .patch ops frontier => store.patch ops frontier
  | .advanceFrontier frontier => store.advanceFrontier frontier
  | .close reason => .ok (store.close reason)
  | .reset reason => .ok (store.reset reason)

/-- A method changes the store when it succeeds, and it leaves the store unchanged when it fails. -/
theorem accept_run [DecidableEq Occ] (store : WireStore Occ Value) (offer : Offer Occ Value) :
    (accept offer).run.run store =
      match store.accepted offer with
      | .ok next => (.ok (), next)
      | .error error => (.error error, store) := by
  obtain ⟨phase, frontier⟩ := store
  cases offer with
  | patch ops token =>
    cases phase with
    | rows held =>
      -- The live check succeeds, so only the copy of the rows can fail.
      have applying : (accept (.patch ops token)).run.run (⟨.rows held, frontier⟩ : WireStore Occ Value) =
          (do settlePhase (.rows (← (Live.apply held ops).mapError StoreError.apply)) token :
            Method Occ Value Unit).run.run ⟨.rows held, frontier⟩ := rfl
      rw [applying]
      simp only [accepted, patch]
      cases Live.apply held ops <;> rfl
    | _ => rfl
  | init rows token => cases phase <;> rfl
  | scalar value token => cases phase <;> rfl
  | advanceFrontier token => cases phase <;> rfl
  | close reason => rfl
  | reset reason => rfl

/-- The current rows of a row stream. Each other subscription shows none. -/
def rows (store : WireStore Occ Value) : List (WireRow Occ Value) :=
  match store.phase with
  | .rows held => held
  | _ => []

end WireStore

end Acceptance

section Runs

namespace WireStore

variable {Occ Value : Type} [DecidableEq Occ]

/-- The store after a frame was offered to it. -/
def take (store : WireStore Occ Value) (offer : Offer Occ Value) : WireStore Occ Value :=
  ((accept offer).run.run store).2

def after (store : WireStore Occ Value) (offers : List (Offer Occ Value)) : WireStore Occ Value :=
  offers.foldl take store

/-- The answers of a store to the frames that are offered to it. -/
def answers (store : WireStore Occ Value) : List (Offer Occ Value) → List (Except (StoreError Occ) Unit)
  | [] => []
  | offer :: rest => ((accept offer).run.run store).1 :: (store.take offer).answers rest

variable {store next : WireStore Occ Value} {offer : Offer Occ Value}

theorem after_append (store : WireStore Occ Value) (first second : List (Offer Occ Value)) :
    store.after (first ++ second) = (store.after first).after second :=
  List.foldl_append

theorem answers_append (store : WireStore Occ Value) (first second : List (Offer Occ Value)) :
    store.answers (first ++ second) = store.answers first ++ (store.after first).answers second := by
  induction first generalizing store with
  | nil => rfl
  | cons offer rest ih =>
    rw [List.cons_append, answers, answers, ih]
    rfl

theorem accept_of_accepted (accepts : store.accepted offer = .ok next) :
    (accept offer).run.run store = (.ok (), next) := by
  rw [accept_run, accepts]

theorem take_of_accepted (accepts : store.accepted offer = .ok next) : store.take offer = next := by
  rw [take, accept_of_accepted accepts]

/-- A refused frame changes nothing. -/
theorem take_of_refused {error : StoreError Occ} (refused : store.accepted offer = .error error) :
    store.take offer = store := by
  rw [take, accept_run, refused]

/-- A frame that the store refuses leaves it as it was. -/
theorem eq_of_rejected {error : StoreError Occ} (rejected : (accept offer).run.run store = (.error error, next)) :
    next = store := by
  rw [accept_run] at rejected
  cases accepts : store.accepted offer with
  | ok other => rw [accepts] at rejected; cases rejected
  | error other => rw [accepts] at rejected; exact (Prod.mk.inj rejected).2.symm

section Terminal

/-- A store that is not live refuses each frame with a result or a frontier. -/
theorem accepted_of_dead (dead : store.isLive = false) (carries : offer.token.isSome = true) :
    store.accepted offer = .error .notLive := by
  obtain ⟨phase, frontier⟩ := store
  cases phase with
  | closed reason | reset reason =>
    cases offer with
    | close other | reset other => cases carries
    | _ => rfl
  | _ => cases dead

/-- A terminated subscription stays terminated at its frontier. -/
theorem dead_take (dead : store.isLive = false) (offer : Offer Occ Value) :
    (store.take offer).isLive = false ∧ (store.take offer).frontier = store.frontier := by
  cases carries : offer.token.isSome with
  | true =>
    rw [take_of_refused (accepted_of_dead dead carries)]
    exact ⟨dead, rfl⟩
  | false =>
    cases offer with
    | close reason => exact ⟨rfl, rfl⟩
    | reset reason => exact ⟨rfl, rfl⟩
    | _ => cases carries

theorem dead_after (dead : store.isLive = false) (offers : List (Offer Occ Value)) :
    (store.after offers).isLive = false ∧ (store.after offers).frontier = store.frontier := by
  induction offers generalizing store with
  | nil => exact ⟨dead, rfl⟩
  | cons offer rest ih =>
    obtain ⟨still, kept⟩ := dead_take dead offer
    obtain ⟨ends, last⟩ := ih still
    exact ⟨ends, last.trans kept⟩

omit [DecidableEq Occ] in
theorem rows_of_dead (dead : store.isLive = false) : store.rows = [] := by
  obtain ⟨phase, frontier⟩ := store
  cases phase with
  | rows held => cases dead
  | _ => rfl

end Terminal

section Frontiers

/-- An accepted frame leaves its own frontier token, if it has one. -/
theorem frontier_of_accepted (accepts : store.accepted offer = .ok next) :
    next.frontier = offer.token.or store.frontier := by
  obtain ⟨phase, frontier⟩ := store
  cases offer with
  | patch ops token =>
    cases phase with
    | rows held =>
      simp only [accepted, patch] at accepts
      split at accepts
      · cases accepts
        rfl
      · cases accepts
    | _ => cases accepts
  | init rows token | scalar value token | advanceFrontier token =>
    cases phase <;> cases accepts <;> rfl
  | close reason | reset reason =>
    cases accepts
    rfl

theorem frontier_take (store : WireStore Occ Value) (offer : Offer Occ Value) :
    (store.take offer).frontier = store.frontier ∨ (store.take offer).frontier = offer.token.or store.frontier := by
  cases accepts : store.accepted offer with
  | error error => exact .inl (congrArg frontier (take_of_refused accepts))
  | ok next => exact .inr ((congrArg frontier (take_of_accepted accepts)).trans (frontier_of_accepted accepts))

/-- The frontier of a store and the tokens that are still offered come from the frontier and the tokens before. -/
theorem frontier_sublist (store : WireStore Occ Value) (first second : List (Offer Occ Value)) :
    ((store.after first).frontier.toList ++ second.filterMap Offer.token).Sublist
      (store.frontier.toList ++ (first ++ second).filterMap Offer.token) := by
  induction first generalizing store with
  | nil => exact List.Sublist.refl _
  | cons offer rest ih =>
    refine (ih (store.take offer)).trans ?_
    have tokens : (offer :: rest ++ second).filterMap Offer.token =
        offer.token.toList ++ (rest ++ second).filterMap Offer.token := by
      rw [List.cons_append, List.filterMap_cons]
      cases offer.token <;> rfl
    rw [tokens, ← List.append_assoc]
    refine List.Sublist.append ?_ (List.Sublist.refl _)
    rcases frontier_take store offer with same | moved
    · rw [same]
      exact List.sublist_append_left _ _
    · rw [moved]
      cases offer.token <;> simp

/-- The frontier of a store after some frames is its own or the token of one of them. -/
theorem frontier_after (store : WireStore Occ Value) (offers : List (Offer Occ Value)) :
    (store.after offers).frontier = store.frontier ∨
      ∃ token ∈ offers.filterMap Offer.token, (store.after offers).frontier = some token := by
  have listed := frontier_sublist store offers []
  rw [List.append_nil, List.filterMap_nil, List.append_nil] at listed
  cases last : (store.after offers).frontier with
  | none =>
    cases first : store.frontier with
    | none => exact .inl rfl
    | some early =>
      -- A store never loses its frontier.
      have kept : ∀ (offers : List (Offer Occ Value)) (store : WireStore Occ Value), store.frontier.isSome →
          (store.after offers).frontier.isSome := by
        intro offers
        induction offers with
        | nil => exact fun _ => id
        | cons offer rest ih =>
          intro store held
          refine ih (store.take offer) ?_
          rcases frontier_take store offer with same | moved
          · rwa [same]
          · rw [moved]
            cases offer.token with
            | none => exact held
            | some token => rfl
      have some := kept offers store (by rw [first]; rfl)
      rw [last] at some
      cases some
  | some token =>
    rw [last] at listed
    have inside := listed.subset List.mem_cons_self
    rcases List.mem_append.mp inside with own | offered
    · exact .inl (Option.mem_toList.mp own).symm
    · exact .inr ⟨token, offered, rfl⟩

/-- A frontier is not after another one when it is absent or before it. -/
def NotAfter (before : String → String → Prop) (first second : Option String) : Prop :=
  ∀ early ∈ first, ∃ late ∈ second, before early late

/-- The frontier never decreases while the offered tokens come in order. -/
theorem frontier_ordered {before : String → String → Prop} (reflexive : ∀ token, before token token)
    {offers : List (Offer Occ Value)}
    (ordered : (store.frontier.toList ++ offers.filterMap Offer.token).Pairwise before) :
    NotAfter before store.frontier (store.after offers).frontier := by
  intro early held
  rcases frontier_after store offers with same | ⟨token, offered, moved⟩
  · exact ⟨early, by rw [same]; exact held, reflexive early⟩
  · refine ⟨token, moved, ?_⟩
    rw [Option.mem_def.mp held] at ordered
    exact (List.pairwise_cons.mp ordered).1 token offered

end Frontiers

end WireStore

end Runs

section Servers

variable {Occ Value : Type} [DecidableEq Occ] [DecidableEq Value]

/-- The frames of a server for one row stream, with the snapshot that they lead to. The server starts the stream or starts
it anew, sends the difference to its next snapshot, or sends its frontier alone. -/
inductive Served : List (Offer Occ Value) → List (WireRow Occ Value) → Prop
  | init {rows : List (WireRow Occ Value)} (distinct : Distinct rows) (frontier : String) :
      Served [.init rows frontier] rows
  | patch {offers : List (Offer Occ Value)} {rows next : List (WireRow Occ Value)} (served : Served offers rows)
      (distinct : Distinct next) (frontier : String) :
      Served (offers ++ [.patch (diffRows rows next) frontier]) next
  | frontier {offers : List (Offer Occ Value)} {rows : List (WireRow Occ Value)} (served : Served offers rows)
      (frontier : String) : Served (offers ++ [.advanceFrontier frontier]) rows
  | anew {offers : List (Offer Occ Value)} {rows next : List (WireRow Occ Value)} (served : Served offers rows)
      (distinct : Distinct next) (frontier : String) : Served (offers ++ [.init next frontier]) next

/-- A client that takes the frames of a server accepts each frame and holds the snapshot of the server. -/
theorem Served.reflected {store : WireStore Occ Value} (live : store.isLive = true)
    {offers : List (Offer Occ Value)} {rows : List (WireRow Occ Value)} (served : Served offers rows) :
    Distinct rows ∧ (store.after offers).phase = .rows rows ∧ ∀ answer ∈ store.answers offers, answer = .ok () := by
  -- One more accepted frame adds one more good answer.
  have extend {earlier : List (Offer Occ Value)} {offer : Offer Occ Value} {next : WireStore Occ Value}
      (good : ∀ answer ∈ store.answers earlier, answer = .ok ())
      (accepts : (store.after earlier).accepted offer = .ok next) :
      store.after (earlier ++ [offer]) = next ∧ ∀ answer ∈ store.answers (earlier ++ [offer]), answer = .ok () := by
    constructor
    · rw [WireStore.after_append]
      exact WireStore.take_of_accepted accepts
    · intro answer listed
      rw [WireStore.answers_append] at listed
      rcases List.mem_append.mp listed with before | last
      · exact good answer before
      · rw [WireStore.answers, WireStore.accept_of_accepted accepts] at last
        exact List.mem_singleton.mp last
  induction served with
  | @init first distinct frontier =>
    have accepts : store.accepted (.init first frontier) = .ok ⟨.rows first, some frontier⟩ := by
      simp only [WireStore.accepted, WireStore.init, WireStore.ensureLive, live]
      rfl
    have unasked : ∀ answer ∈ store.answers [], answer = .ok () := by simp [WireStore.answers]
    obtain ⟨reached, answered⟩ := extend unasked accepts
    exact ⟨distinct, congrArg WireStore.phase reached, answered⟩
  | @patch offers rows next _ distinct frontier ih =>
    obtain ⟨before, held, good⟩ := ih
    have accepts : (store.after offers).accepted (.patch (diffRows rows next) frontier) =
        .ok ⟨.rows next, some frontier⟩ := by
      simp only [WireStore.accepted, WireStore.patch, held, apply_diffRows before distinct]
    obtain ⟨reached, answered⟩ := extend good accepts
    exact ⟨distinct, congrArg WireStore.phase reached, answered⟩
  | @frontier offers rows _ frontier ih =>
    obtain ⟨before, held, good⟩ := ih
    have accepts : (store.after offers).accepted (.advanceFrontier frontier) =
        .ok { store.after offers with frontier := some frontier } := by
      simp only [WireStore.accepted, WireStore.advanceFrontier, WireStore.ensureLive, WireStore.isLive, held]
      rfl
    obtain ⟨reached, answered⟩ := extend good accepts
    exact ⟨before, (congrArg WireStore.phase reached).trans held, answered⟩
  | @anew offers rows next _ distinct frontier ih =>
    obtain ⟨_, held, good⟩ := ih
    have accepts : (store.after offers).accepted (.init next frontier) = .ok ⟨.rows next, some frontier⟩ := by
      simp only [WireStore.accepted, WireStore.init, WireStore.ensureLive, WireStore.isLive, held]
      rfl
    obtain ⟨reached, answered⟩ := extend good accepts
    exact ⟨distinct, congrArg WireStore.phase reached, answered⟩

/-- A refused frame changes nothing, and a terminated subscription stays terminated. The frontier keeps the order of the
offered tokens. A client of a server holds the snapshot of the server after each frame. -/
theorem store_laws :
    (∀ (store next : WireStore Occ Value) (offer : Offer Occ Value) (error : StoreError Occ),
      (WireStore.accept offer).run.run store = (.error error, next) → next = store) ∧
    (∀ store : WireStore Occ Value, store.isLive = false →
      (∀ offer : Offer Occ Value, offer.token.isSome = true →
        (WireStore.accept offer).run.run store = (.error .notLive, store)) ∧
      ∀ offers : List (Offer Occ Value), (store.after offers).isLive = false ∧
        (store.after offers).frontier = store.frontier ∧ (store.after offers).rows = []) ∧
    (∀ before : String → String → Prop, (∀ token, before token token) →
      ∀ (store : WireStore Occ Value) (first second : List (Offer Occ Value)),
        (store.frontier.toList ++ (first ++ second).filterMap Offer.token).Pairwise before →
        WireStore.NotAfter before (store.after first).frontier (store.after (first ++ second)).frontier) ∧
    ∀ (store : WireStore Occ Value) (offers : List (Offer Occ Value)) (rows : List (WireRow Occ Value)),
      store.isLive = true → Served offers rows →
      (store.after offers).rows = rows ∧ ∀ answer ∈ store.answers offers, answer = .ok () := by
  refine ⟨fun _ _ _ _ => WireStore.eq_of_rejected, fun store dead => ⟨fun offer carries => ?_, fun offers => ?_⟩,
    fun before reflexive store first second ordered => ?_, fun store offers rows live served => ?_⟩
  · rw [WireStore.accept_run, WireStore.accepted_of_dead dead carries]
  · obtain ⟨still, kept⟩ := WireStore.dead_after dead offers
    exact ⟨still, kept, WireStore.rows_of_dead still⟩
  · rw [WireStore.after_append]
    exact WireStore.frontier_ordered reflexive (ordered.sublist (WireStore.frontier_sublist store first second))
  · obtain ⟨-, held, good⟩ := served.reflected live
    refine ⟨?_, good⟩
    rw [WireStore.rows, held]

/-- A client takes the rows of a server, then the change of one value. -/
theorem store_laws_sample :
    ((WireStore.new : WireStore Nat Nat).after
      [.init [⟨0, 1⟩, ⟨1, 2⟩] "1", .patch (diffRows [⟨0, 1⟩, ⟨1, 2⟩] [⟨1, 2⟩, ⟨0, 3⟩]) "2"]).rows = [⟨1, 2⟩, ⟨0, 3⟩] :=
  (store_laws.2.2.2 .new _ _ rfl (.patch (.init (by decide) "1") (by decide) "2")).1

/-- A reset after the close of a subscription replaces the reason of the close. A frontier token that is offered out of
order replaces a later one. -/
theorem closed_then_reset :
    (¬ ∀ (store : WireStore Nat Nat) (offer : Offer Nat Nat), store.isLive = false → store.take offer = store) ∧
    ¬ ∀ (store : WireStore Nat Nat) (offers : List (Offer Nat Nat)),
      WireStore.NotAfter (· ≤ ·) store.frontier (store.after offers).frontier := by
  constructor
  · intro absorbs
    have same := absorbs ⟨.closed .unauthorized, none⟩ (.reset .unknownConnection) rfl
    have phases : Phase.reset ResetReason.unknownConnection = (Phase.closed CloseReason.unauthorized : Phase Nat Nat) :=
      congrArg WireStore.phase same
    cases phases
  · intro monotone
    obtain ⟨late, kept, order⟩ := monotone ⟨.rows [], some "2"⟩ [.advanceFrontier "1"] "2" rfl
    obtain rfl : late = "1" := (Option.some.inj kept).symm
    exact absurd order (by decide)

end Servers

end Liasse.Connect
