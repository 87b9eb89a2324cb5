/-
This file proves the completion barrier of a commit.
-/

import Liasse.Codes.Related
import Liasse.Surface.Execution

namespace Liasse.Surface

open Codes Live

section Meaning

variable {rt : Runtime} [DecidableEq rt.RowId]

/-- A subscription that closes drops its rows. -/
def OpenWatch.released (watch : OpenWatch rt) (reason : String) : OpenWatch rt :=
  { watch with
    live := { watch.live with last := none, windowed := none }
    closed := some reason }

/-- A commit closes the open subscription of a peer that has no authority, and it leaves every other. -/
inductive PeerWatch (barrier : Barrier rt) (connection : Connection rt) :
    Option (OpenWatch rt) → Option (OpenWatch rt) → Prop
  | absent : PeerWatch barrier connection none none
  | kept {watch : OpenWatch rt} : (watch.closed = none → ∃ known,
      barrier.authorized watch.authz watch.scope connection = .ok (some known)) →
      PeerWatch barrier connection (some watch) (some watch)
  | released {watch : OpenWatch rt} : watch.closed = none →
      barrier.authorized watch.authz watch.scope connection = .ok none →
      PeerWatch barrier connection (some watch) (some (watch.released "authority removed at frontier"))

/-- An open subscription of a caller is current when it has the authorized view at a frontier. -/
def Current (barrier : Barrier rt) (connection : Connection rt) (frontier : Nat) (watch : OpenWatch rt) : Prop :=
  watch.live.frontier = frontier ∧ ∃ context hydrated result,
    barrier.authorized watch.authz watch.scope connection = .ok (some context) ∧
    rt.hydrate barrier.engine frontier = .ok hydrated ∧
    rt.viewWithHydrated barrier.engine watch.view hydrated (viewQuery watch.args context watch.scope) =
      .ok (some result) ∧ watch.live.last = some result

/-- What a commit leaves of one connection. -/
inductive Settled (barrier : Barrier rt) (id : String) (seq : Nat) (other : String) :
    Option (Connection rt) → Option (Connection rt) → Prop
  | absent : Settled barrier id seq other none none
  | caller {connection next : Connection rt} : other = id → next.frontier = max connection.frontier seq →
      next.contexts = connection.contexts →
      (∀ (name : String) (watch : OpenWatch rt), next.watches[name]? = some watch → watch.closed = none →
        Current barrier next next.frontier watch) →
      Settled barrier id seq other (some connection) (some next)
  | peer {connection next : Connection rt} : other ≠ id → next.frontier = connection.frontier →
      next.contexts = connection.contexts →
      (∀ name : String, PeerWatch barrier connection connection.watches[name]? next.watches[name]?) →
      Settled barrier id seq other (some connection) (some next)

/-- No connection is lost, and no frontier moves back. -/
def Advances (before after : Std.ExtTreeMap String (Connection rt)) : Prop :=
  ∀ (other : String) (connection : Connection rt), before[other]? = some connection →
    ∃ next, after[other]? = some next ∧ connection.frontier ≤ next.frontier

/-- A commit is complete for its caller when the frontier of the caller covers it, the open subscriptions of the
caller are current there, no frontier is behind, and a peer lost exactly the open subscriptions without authority. -/
structure Completed (before after : SurfaceHost rt) (id : String) (seq : Nat) : Prop where
  caller : ∃ connection, after.connections[id]? = some connection ∧ seq ≤ connection.frontier ∧
    ∀ (name : String) (watch : OpenWatch rt), connection.watches[name]? = some watch → watch.closed = none →
      Current after.barrier connection connection.frontier watch
  frontiers : Advances before.connections after.connections
  peers : ∀ (other : String) (connection : Connection rt), other ≠ id → before.connections[other]? = some connection →
    ∃ next, after.connections[other]? = some next ∧
      ∀ name : String, PeerWatch after.barrier connection connection.watches[name]? next.watches[name]?

end Meaning

section Watches

variable {rt : Runtime} [DecidableEq rt.RowId]

namespace Barrier

/-- A peer keeps a subscription, or it closes one without authority. -/
theorem closeOne_watch {barrier : Barrier rt} {connection : Connection rt} {name : String}
    (visited : (barrier.closeOne connection name).2 = .ok ()) :
    PeerWatch barrier connection connection.watches[name]? (barrier.closeOne connection name).1.watches[name]? := by
  unfold closeOne at visited ⊢
  cases found : connection.watches[name]? with
  | none =>
    dsimp only
    rw [found]
    exact .absent
  | some watch =>
    rw [found] at visited
    dsimp only at visited ⊢
    cases closed : watch.closed with
    | some reason =>
      simp only [Option.isSome_some, ↓reduceIte, found]
      exact .kept fun still => by cases closed.symm.trans still
    | none =>
      simp only [closed, Option.isSome_none, Bool.false_eq_true, ↓reduceIte] at visited ⊢
      cases known : barrier.authorized watch.authz watch.scope connection with
      | error fault =>
        rw [known] at visited
        cases visited
      | ok held =>
        cases held with
        | none =>
          simp only [Connection.closeWatch, Std.ExtTreeMap.getElem?_insert_self]
          exact .released closed known
        | some context =>
          simp only [found]
          exact .kept fun _ => ⟨context, known⟩

/-- The peers of a commit lose exactly the open subscriptions without authority. -/
theorem closeLostAuthority_watches {barrier : Barrier rt} {connection : Connection rt}
    (visited : (barrier.closeLostAuthority connection).2 = .ok ()) :
    (barrier.closeLostAuthority connection).1.frontier = connection.frontier ∧
      (barrier.closeLostAuthority connection).1.contexts = connection.contexts ∧
      ∀ name : String, PeerWatch barrier connection connection.watches[name]?
        (barrier.closeLostAuthority connection).1.watches[name]? := by
  have same {current : Connection rt} (contexts : current.contexts = connection.contexts)
      {before after : Option (OpenWatch rt)} (settled : PeerWatch barrier current before after) :
      PeerWatch barrier connection before after := by
    cases settled with
    | absent => exact .absent
    | kept known => exact .kept fun still => (authorized_congr contexts _ _) ▸ known still
    | released still lost => exact .released still ((authorized_congr contexts _ _) ▸ lost)
  have each := visitAll_each (fun current name => current.watches[name]?)
    (fun current : Connection rt =>
      current.frontier = connection.frontier ∧ current.contexts = connection.contexts)
    (fun _ => PeerWatch barrier connection)
    (fun current name other different => (closeOne_changes barrier current name).2.2 other different)
    (fun current name kept => ⟨(closeOne_changes barrier current name).1.trans kept.1,
      (closeOne_changes barrier current name).2.1.trans kept.2⟩)
    (fun current name kept done => same kept.2 (closeOne_watch done)) ⟨rfl, rfl⟩
    (Std.ExtTreeMap.nodup_keys (t := connection.watches)) visited
  obtain ⟨⟨frontier, contexts⟩, frames, each⟩ := each
  refine ⟨frontier, contexts, fun name => ?_⟩
  by_cases present : name ∈ connection.watches.keys
  · exact each name present
  · have absent : connection.watches[name]? = none := by
      rw [Std.ExtTreeMap.mem_keys] at present
      exact Std.ExtTreeMap.getElem?_eq_none present
    rw [closeLostAuthority, frames name present, absent]
    exact .absent

variable [Ord rt.RowId] [DecidableEq Value]

omit [DecidableEq rt.RowId] [Ord rt.RowId] in
/-- A later result is the last one of its subscription, at the frontier of the result. -/
theorem advance_current [DecidableEq rt.RowId] [Ord rt.RowId] (watch : Watch rt.RowId Value)
    (result : ViewResult rt.RowId Value) (frontier : Nat) :
    (watch.advance result frontier).1.frontier = frontier ∧ (watch.advance result frontier).1.last = some result := by
  unfold Watch.advance
  split
  · exact ⟨rfl, rfl⟩
  · split <;> exact ⟨rfl, rfl⟩

/-- A subscription of a caller that stays open is current. -/
theorem advanceOne_watch {barrier : Barrier rt} {frontier : Nat} {connection : Connection rt} {name : String}
    (visited : (barrier.advanceOne frontier connection name).2 = .ok ()) {watch : OpenWatch rt}
    (left : (barrier.advanceOne frontier connection name).1.watches[name]? = some watch)
    (still : watch.closed = none) : Current barrier connection frontier watch := by
  unfold advanceOne at visited left
  cases found : connection.watches[name]? with
  | none =>
    rw [found] at left
    dsimp only at left
    cases found.symm.trans left
  | some earlier =>
    rw [found] at visited left
    dsimp only at visited left
    cases closed : earlier.closed with
    | some reason =>
      simp only [closed, Option.isSome_some, ↓reduceIte] at left
      obtain rfl := Option.some.inj (found.symm.trans left)
      cases closed.symm.trans still
    | none =>
      simp only [closed, Option.isSome_none, Bool.false_eq_true, ↓reduceIte] at visited left
      have shut (reason : String) (gone : (connection.closeWatch name earlier reason).watches[name]? = some watch) :
          Current barrier connection frontier watch := by
        rw [Connection.closeWatch, Std.ExtTreeMap.getElem?_insert_self] at gone
        obtain rfl := Option.some.inj gone
        cases still
      cases known : barrier.authorized earlier.authz earlier.scope connection with
      | error fault =>
        rw [known] at visited
        cases visited
      | ok held =>
        rw [known] at visited left
        cases held with
        | none => exact shut _ left
        | some context =>
          dsimp only at visited left
          cases hydration : rt.hydrate barrier.engine frontier with
          | error fault =>
            rw [hydration] at visited
            cases visited
          | ok hydrated =>
            rw [hydration] at visited left
            dsimp only at visited left
            cases rows : rt.viewWithHydrated barrier.engine earlier.view hydrated
                (viewQuery earlier.args context earlier.scope) with
            | error fault =>
              rw [rows] at visited
              cases visited
            | ok shown =>
              rw [rows] at left
              cases shown with
              | none => exact shut _ left
              | some result =>
                simp only [Std.ExtTreeMap.getElem?_insert_self] at left
                obtain rfl := Option.some.inj left
                obtain ⟨here, last⟩ := advance_current earlier.live result frontier
                exact ⟨here, context, hydrated, result, known, hydration, rows, last⟩

/-- The subscriptions of a caller that stay open are current. -/
theorem sweep_watches {barrier : Barrier rt} {frontier : Nat} {connection : Connection rt}
    (visited : (barrier.sweep connection frontier).2 = .ok ()) :
    (barrier.sweep connection frontier).1.frontier = connection.frontier ∧
      (barrier.sweep connection frontier).1.contexts = connection.contexts ∧
      ∀ (name : String) (watch : OpenWatch rt), (barrier.sweep connection frontier).1.watches[name]? = some watch →
        watch.closed = none → Current barrier connection frontier watch := by
  have each := visitAll_each (fun current name => current.watches[name]?)
    (fun current : Connection rt =>
      current.frontier = connection.frontier ∧ current.contexts = connection.contexts)
    (fun _ _ after => ∀ watch, after = some watch → watch.closed = none →
      Current barrier connection frontier watch)
    (fun current name other different => (advanceOne_changes barrier frontier current name).2.2 other different)
    (fun current name kept => ⟨(advanceOne_changes barrier frontier current name).1.trans kept.1,
      (advanceOne_changes barrier frontier current name).2.1.trans kept.2⟩)
    (fun current name kept done watch left still => by
      obtain ⟨here, context, hydrated, result, known, rest⟩ := advanceOne_watch done left still
      exact ⟨here, context, hydrated, result, (authorized_congr kept.2 _ _) ▸ known, rest⟩) ⟨rfl, rfl⟩
    (Std.ExtTreeMap.nodup_keys (t := connection.watches)) visited
  obtain ⟨⟨here, contexts⟩, frames, each⟩ := each
  refine ⟨here, contexts, fun name watch left still => ?_⟩
  by_cases present : name ∈ connection.watches.keys
  · exact each name present watch left still
  · have absent : connection.watches[name]? = none := by
      rw [Std.ExtTreeMap.mem_keys] at present
      exact Std.ExtTreeMap.getElem?_eq_none present
    rw [sweep, frames name present, absent] at left
    cases left

end Barrier

end Watches

section Commits

variable {rt : Runtime} [DecidableEq rt.RowId] [Ord rt.RowId] [DecidableEq Value]

omit [DecidableEq rt.RowId] [Ord rt.RowId] [DecidableEq Value] in
theorem advanceFrontier_eq (connection : Connection rt) (seq : Nat) :
    connection.advanceFrontier seq = { connection with frontier := max connection.frontier seq } := by
  rw [Connection.advanceFrontier]
  split
  · next later => rw [Nat.max_eq_right (Nat.le_of_lt later)]
  · next earlier => rw [Nat.max_eq_left (Nat.le_of_not_lt earlier)]

omit [Ord rt.RowId] [DecidableEq Value] in
/-- A current subscription stays so on a connection with the same contexts. -/
theorem Current.congr {barrier : Barrier rt} {connection next : Connection rt} {frontier : Nat}
    {watch : OpenWatch rt} (current : Current barrier connection frontier watch)
    (contexts : next.contexts = connection.contexts) : Current barrier next frontier watch := by
  obtain ⟨here, context, hydrated, result, known, rest⟩ := current
  exact ⟨here, context, hydrated, result, (Barrier.authorized_congr contexts _ _).trans known, rest⟩

omit [DecidableEq rt.RowId] [Ord rt.RowId] [DecidableEq Value] in
theorem advances_refl (connections : Std.ExtTreeMap String (Connection rt)) : Advances connections connections :=
  fun _ connection found => ⟨connection, found, le_rfl⟩

omit [DecidableEq rt.RowId] [Ord rt.RowId] [DecidableEq Value] in
theorem Advances.trans {first second third : Std.ExtTreeMap String (Connection rt)} (one : Advances first second)
    (two : Advances second third) : Advances first third := by
  intro other connection found
  obtain ⟨next, held, ahead⟩ := one other connection found
  obtain ⟨last, present, further⟩ := two other next held
  exact ⟨last, present, ahead.trans further⟩

omit [DecidableEq rt.RowId] [Ord rt.RowId] [DecidableEq Value] in
theorem advances_insert {connections : Std.ExtTreeMap String (Connection rt)} {id : String}
    {connection next : Connection rt} (found : connections[id]? = some connection)
    (ahead : connection.frontier ≤ next.frontier) : Advances connections (connections.insert id next) := by
  intro other held present
  by_cases same : other = id
  · obtain rfl := same
    obtain rfl := Option.some.inj (found.symm.trans present)
    exact ⟨next, Std.ExtTreeMap.getElem?_insert_self, ahead⟩
  · exact ⟨held, (getElem?_insert_of_ne same).trans present, le_rfl⟩

namespace SurfaceHost

/-- A commit that reaches a connection settles there. -/
theorem settleOne_settled {barrier : Barrier rt} {id : String} {seq : Nat}
    {state : Std.ExtTreeMap String (Connection rt) × Nat} {other : String}
    (visited : (settleOne barrier id seq state other).2 = .ok ()) :
    Settled barrier id seq other state.1[other]? (settleOne barrier id seq state other).1.1[other]? := by
  unfold settleOne at visited ⊢
  cases found : state.1[other]? with
  | none =>
    dsimp only
    rw [found]
    exact .absent
  | some connection =>
    rw [found] at visited
    dsimp only at visited ⊢
    by_cases caller : other = id
    · simp only [caller, ↓reduceIte, advanceFrontier_eq, Std.ExtTreeMap.getElem?_insert_self] at visited ⊢
      obtain ⟨frontier, contexts, current⟩ := Barrier.sweep_watches visited
      refine .caller rfl frontier contexts fun name watch left still => ?_
      rw [frontier]
      exact (current name watch left still).congr contexts
    · simp only [caller, ↓reduceIte, Std.ExtTreeMap.getElem?_insert_self] at visited ⊢
      obtain ⟨frontier, contexts, watches⟩ := Barrier.closeLostAuthority_watches visited
      exact .peer caller frontier contexts watches

/-- A commit reaches one connection at a time. -/
theorem settleOne_frame (barrier : Barrier rt) (id : String) (seq : Nat)
    (state : Std.ExtTreeMap String (Connection rt) × Nat) {item other : String} (different : other ≠ item) :
    (settleOne barrier id seq state item).1.1[other]? = state.1[other]? := by
  unfold settleOne
  split
  · rfl
  · split
    · exact getElem?_insert_of_ne different
    · exact getElem?_insert_of_ne different

/-- A commit settles on each connection. -/
theorem settleCommit_settled {host : SurfaceHost rt} {id : String} {seq frontier : Nat}
    (settled : (host.settleCommit id seq).2 = .ok frontier) (other : String) :
    Settled host.barrier id seq other host.connections[other]?
      (host.settleCommit id seq).1.connections[other]? := by
  have visited : (visitAll (settleOne host.barrier id seq) (host.connections, seq) host.connections.keys).2 =
      .ok () := by
    rw [settleCommit] at settled
    obtain ⟨_, done, _⟩ := map_ok.mp settled
    exact done
  obtain ⟨_, frames, each⟩ := visitAll_each
    (fun (state : Std.ExtTreeMap String (Connection rt) × Nat) other => state.1[other]?) (fun _ => True)
    (Settled host.barrier id seq)
    (fun state item other different => settleOne_frame host.barrier id seq state different)
    (fun _ _ _ => trivial) (fun _ _ _ done => settleOne_settled done) trivial
    (Std.ExtTreeMap.nodup_keys (t := host.connections)) visited
  by_cases present : other ∈ host.connections.keys
  · exact each other present
  · have absent : host.connections[other]? = none := by
      rw [Std.ExtTreeMap.mem_keys] at present
      exact Std.ExtTreeMap.getElem?_eq_none present
    rw [settleCommit, frames other present, absent]
    exact .absent

omit [Ord rt.RowId] [DecidableEq Value] in
/-- A host whose connections are settled is complete for the caller. -/
theorem completed_of_settled {before after : SurfaceHost rt} {id : String} {seq : Nat}
    (present : (before.connections[id]?).isSome)
    (settled : ∀ other : String, Settled after.barrier id seq other before.connections[other]?
      after.connections[other]?) : Completed before after id seq where
  caller := by
    obtain ⟨connection, found⟩ := Option.isSome_iff_exists.mp present
    have here := settled id
    rw [found] at here
    generalize left : after.connections[id]? = next at here
    cases here with
    | caller _ frontier _ current => exact ⟨_, rfl, frontier ▸ Nat.le_max_right _ _, current⟩
    | peer different => exact absurd rfl different
  frontiers := by
    intro other connection found
    have here := settled other
    rw [found] at here
    generalize left : after.connections[other]? = next at here
    cases here with
    | caller _ frontier => exact ⟨_, rfl, frontier ▸ Nat.le_max_left _ _⟩
    | peer _ frontier => exact ⟨_, rfl, Nat.le_of_eq frontier.symm⟩
  peers := by
    intro other connection different found
    have here := settled other
    rw [found] at here
    generalize left : after.connections[other]? = next at here
    cases here with
    | caller same => exact absurd same different
    | peer _ _ _ watches => exact ⟨_, rfl, watches⟩

omit [DecidableEq rt.RowId] [Ord rt.RowId] [DecidableEq Value] in
theorem retain_barrier (host : SurfaceHost rt) (key : Option OperationKey) (model : RequestModel)
    (outcome : SurfaceOutcome rt.Response) :
    (host.retain key model outcome).barrier = host.barrier ∧
      (host.retain key model outcome).connections = host.connections := by
  unfold retain
  split <;> exact ⟨rfl, rfl⟩

omit [Ord rt.RowId] [DecidableEq Value] in
/-- A request that is refused before it runs reports no commit. -/
theorem prepare_refusal {host : SurfaceHost rt} {id : String} {request : SurfaceCall}
    {outcome : SurfaceOutcome rt.Response} (refused : host.prepare id request = .error outcome) :
    outcome.commit = none := by
  have denied {A : Type} {first : Except Denial A}
      (same : first.mapError SurfaceOutcome.denied = .error outcome) : outcome.commit = none := by
    obtain ⟨_, _, rfl⟩ := mapError_error.mp same
    rfl
  have rejected {A : Type} {first : Except Rejection A}
      (same : first.mapError SurfaceOutcome.rejected = .error outcome) : outcome.commit = none := by
    obtain ⟨_, _, rfl⟩ := mapError_error.mp same
    rfl
  rcases bind_error.mp refused with unresolved | ⟨resolved, _, refused⟩
  · unfold resolveCall at unresolved
    split at unresolved
    · rcases bind_error.mp unresolved with lost | ⟨binding, _, last⟩
      · exact denied lost
      · split at last
        · obtain rfl := Except.error.inj last
          rfl
        · cases last
    · rcases bind_error.mp unresolved with lost | ⟨context, _, next⟩
      · exact denied lost
      · rcases bind_error.mp next with lost | ⟨binding, _, last⟩
        · exact denied lost
        · rcases bind_error.mp last with lost | ⟨receiver, _, done⟩
          · exact denied lost
          · cases done
  · rcases bind_error.mp refused with open_args | ⟨_, _, next⟩
    · exact rejected open_args
    · rcases bind_error.mp next with unbuilt | ⟨_, _, done⟩
      · exact rejected unbuilt
      · cases done

/-- The replay of a commit settles it again. -/
theorem replay_committed {host : SurfaceHost rt} {id : String} {retained outcome : SurfaceOutcome rt.Response}
    {seq : Nat} (reply : (host.replay id retained).2 = .ok outcome) (commits : outcome.commit = some seq) :
    ∃ frontier, (host.settleCommit id seq).2 = .ok frontier ∧
      (host.replay id retained).1 = (host.settleCommit id seq).1 := by
  unfold replay at reply ⊢
  split at reply
  · next none =>
      obtain rfl := Except.ok.inj reply
      cases none.symm.trans commits
  · next commit known =>
      obtain ⟨frontier, settled, rfl⟩ := map_ok.mp reply
      obtain rfl := Option.some.inj (known.symm.trans commits)
      exact ⟨frontier, mapError_ok.mp settled, rfl⟩

/-- The execution of a request that commits settles the commit over the engine that the request leaves. -/
theorem execute_committed {host : SurfaceHost rt} {id : String} {request : CallRequest}
    {outcome : SurfaceOutcome rt.Response} {seq : Nat} (reply : (host.execute id request).2 = .ok outcome)
    (commits : outcome.commit = some seq) : ∃ frontier,
      ((host.admitCall request).1.settleCommit id seq).2 = .ok frontier ∧
        (host.execute id request).1 = ((host.admitCall request).1.settleCommit id seq).1 := by
  unfold execute at reply ⊢
  rcases ran : host.admitCall request with ⟨next, fault | (⟨position, response⟩ | response | rejection)⟩ <;>
    rw [ran] at reply
  · cases reply
  · obtain ⟨frontier, settled, rfl⟩ := map_ok.mp reply
    obtain rfl := Option.some.inj commits
    exact ⟨frontier, mapError_ok.mp settled, rfl⟩
  · dsimp only at reply
    split at reply
    · obtain rfl := Except.ok.inj reply
      cases commits
    · obtain ⟨_, _, rfl⟩ := map_ok.mp reply
      cases commits
  · obtain rfl := Except.ok.inj reply
    cases commits

/-- A call that reports a commit settled it over the engine that it leaves. -/
theorem call_committed {host : SurfaceHost rt} {id : String} {request : SurfaceCall}
    {outcome : SurfaceOutcome rt.Response} {seq : Nat} (reply : (host.call id request).2 = .ok outcome)
    (commits : outcome.commit = some seq) : host.connections.contains id ∧
      ∃ (next : SurfaceHost rt) (frontier : Nat), next.connections = host.connections ∧
        (next.settleCommit id seq).2 = .ok frontier ∧
        (host.call id request).1.barrier = (next.settleCommit id seq).1.barrier ∧
        (host.call id request).1.connections = (next.settleCommit id seq).1.connections := by
  unfold call at reply ⊢
  cases present : host.connections.contains id with
  | false =>
    rw [present] at reply
    cases reply
  | true =>
    simp only [present, Bool.not_true, Bool.false_eq_true, ↓reduceIte] at reply ⊢
    cases known : host.prepare id request with
    | error refusal =>
      rw [known] at reply
      obtain rfl := Except.ok.inj reply
      cases (prepare_refusal known).symm.trans commits
    | ok prepared =>
      simp only [known] at reply ⊢
      cases decided : host.decision prepared with
      | conflict =>
        rw [decided] at reply
        obtain rfl := Except.ok.inj reply
        cases commits
      | replay retained =>
        simp only [decided] at reply ⊢
        obtain ⟨frontier, settled, same⟩ := replay_committed reply commits
        exact ⟨trivial, host, frontier, rfl, settled, congrArg barrier same, congrArg connections same⟩
      | fresh =>
        simp only [decided] at reply ⊢
        rcases ran : host.execute id prepared.request with ⟨next, fault | reported⟩
        · rw [ran] at reply
          cases reply
        · rw [ran] at reply
          obtain rfl := Except.ok.inj reply
          obtain ⟨frontier, settled, same⟩ := execute_committed (congrArg Prod.snd ran) commits
          rw [ran] at same
          obtain ⟨parts, connections⟩ := retain_barrier next prepared.key prepared.model reported
          exact ⟨trivial, (host.admitCall prepared.request).1, frontier, rfl, settled, parts.trans (congrArg barrier same),
            connections.trans (congrArg SurfaceHost.connections same)⟩

/-- A call that reports a commit is complete for its caller. -/
theorem call_completed {host : SurfaceHost rt} {id : String} {request : SurfaceCall}
    {outcome : SurfaceOutcome rt.Response} {seq : Nat} (reply : (host.call id request).2 = .ok outcome)
    (commits : outcome.commit = some seq) : Completed host (host.call id request).1 id seq := by
  obtain ⟨present, next, frontier, same, settled, parts, connections⟩ := call_committed reply commits
  refine completed_of_settled (by rwa [Std.ExtTreeMap.isSome_getElem?_eq_contains]) fun other => ?_
  rw [parts, connections, ← same]
  exact settleCommit_settled settled other

/-- A commit moves no frontier back, also when a read fails on the way. -/
theorem settleOne_advances (barrier : Barrier rt) (id : String) (seq : Nat)
    (state : Std.ExtTreeMap String (Connection rt) × Nat) (other : String) :
    Advances state.1 (settleOne barrier id seq state other).1.1 := by
  unfold settleOne
  cases found : state.1[other]? with
  | none => exact advances_refl _
  | some connection =>
    dsimp only
    split
    · have swept : (visitAll (barrier.advanceOne (connection.advanceFrontier seq).frontier)
          (connection.advanceFrontier seq) (connection.advanceFrontier seq).watches.keys).1.frontier =
            (connection.advanceFrontier seq).frontier :=
        visitAll_keeps (fun current : Connection rt => current.frontier = (connection.advanceFrontier seq).frontier)
          (fun current name kept => (Barrier.advanceOne_changes barrier _ current name).1.trans kept) rfl _
      refine advances_insert found (Nat.le_trans ?_ (Nat.le_of_eq swept.symm))
      rw [advanceFrontier_eq]
      exact Nat.le_max_left _ _
    · have swept : (barrier.closeLostAuthority connection).1.frontier = connection.frontier :=
        visitAll_keeps (fun current : Connection rt => current.frontier = connection.frontier)
          (fun current name kept => (Barrier.closeOne_changes barrier current name).1.trans kept) rfl _
      exact advances_insert found (Nat.le_of_eq swept.symm)

theorem settleCommit_advances (host : SurfaceHost rt) (id : String) (seq : Nat) :
    Advances host.connections (host.settleCommit id seq).1.connections :=
  visitAll_keeps
    (fun state : Std.ExtTreeMap String (Connection rt) × Nat => Advances host.connections state.1)
    (fun state other ahead => ahead.trans (settleOne_advances host.barrier id seq state other))
    (advances_refl _) host.connections.keys

/-- A call moves no frontier back, whatever it reports. -/
theorem call_advances (host : SurfaceHost rt) (id : String) (request : SurfaceCall) :
    Advances host.connections (host.call id request).1.connections := by
  have replayed (outcome : SurfaceOutcome rt.Response) :
      Advances host.connections (host.replay id outcome).1.connections := by
    unfold replay
    split
    · exact advances_refl _
    · exact settleCommit_advances _ _ _
  have executed (request : CallRequest) : Advances host.connections (host.execute id request).1.connections := by
    have admitted : (host.admitCall request).1.connections = host.connections := rfl
    unfold execute
    rcases ran : host.admitCall request with ⟨next, fault | (⟨position, response⟩ | response | rejection)⟩ <;>
      rw [ran] at admitted <;> dsimp only at admitted ⊢ <;> rw [← admitted]
    · exact advances_refl _
    · exact settleCommit_advances _ _ _
    · split <;> exact advances_refl _
    · exact advances_refl _
  unfold call
  split
  · exact advances_refl _
  · split
    · exact advances_refl _
    · next prepared _ =>
        split
        · exact replayed _
        · exact advances_refl _
        · have ahead := executed prepared.request
          rcases ran : host.execute id prepared.request with ⟨next, fault | reported⟩ <;> rw [ran] at ahead
          · exact ahead
          · rw [(retain_barrier next prepared.key prepared.model reported).2]
            exact ahead

/-- A run of calls moves no frontier back. -/
theorem run_advances (host : SurfaceHost rt) (calls : List (String × SurfaceCall)) :
    Advances host.connections (host.run (calls.map fun call => .call call.1 call.2)).connections := by
  induction calls generalizing host with
  | nil => exact advances_refl _
  | cons first rest later => exact (call_advances host first.1 first.2).trans (later _)

/-- A call that reports a commit is complete for its caller on every host, and no run of calls moves a frontier
back. -/
theorem completion_barrier (host : SurfaceHost rt) :
    (∀ (id : String) (request : SurfaceCall) (outcome : SurfaceOutcome rt.Response) (seq : Nat),
      (host.call id request).2 = .ok outcome → outcome.commit = some seq →
        Completed host (host.call id request).1 id seq) ∧
    ∀ calls : List (String × SurfaceCall),
      Advances host.connections (host.run (calls.map fun call => .call call.1 call.2)).connections :=
  ⟨fun _ _ _ _ reply commits => call_completed reply commits, run_advances host⟩

end SurfaceHost

end Commits

section Samples

/-- An engine that counts its commits and whose committed views have one row. -/
abbrev clubRuntime : Runtime where
  Engine := Nat
  Hydrated := Unit
  Entropy := Unit
  Fault := Unit
  Response := Unit
  RowId := Nat
  head engine := .ok engine
  call engine _ _ _ := (engine + 1, (), .ok (.committed (engine + 1) none))
  viewAtHead _ _ := .ok (some (.rows [⟨0, [("id", .bool true)], []⟩] ⟨[]⟩))
  viewWith _ _ _ _ := .ok (some (.rows [] ⟨[]⟩))
  hydrate _ _ := .ok ()
  viewWithHydrated _ _ _ _ := .ok (some (.rows [] ⟨[]⟩))
  scopedReceiver _ _ _ _ _ _ := .ok .unscoped
  surfaceViewParams _ _ := []
  rowIdentity _ := none

def notesSurface : SurfaceBinding :=
  ⟨some "notes", (∅ : Std.ExtTreeMap String CallBinding).insert "add" ⟨"addNote", [], [], []⟩⟩

/-- An authenticator that takes each credential for the account of the row. -/
def openAuthenticator (name : String) : SessionAuthenticator :=
  ⟨name, fun _ => .ok ⟨name, none, some (.bool true)⟩, none, ⟨"accounts", "id"⟩⟩

/-- A role that accepts one authenticator. -/
def roleOf (name auth : String) : RoleGrant :=
  ⟨⟨name, [auth], ⟨"members", "id"⟩, none⟩,
    (∅ : Std.ExtTreeMap String SurfaceBinding).insert "notes" notesSurface⟩

/-- A host with two roles and one connection. -/
def clubHost : SurfaceHost clubRuntime where
  engine := 0
  router :=
    { publicSurfaces := (∅ : Std.ExtTreeMap String SurfaceBinding).insert "notes" notesSurface
      roles := ((∅ : Std.ExtTreeMap String RoleGrant).insert "reader" (roleOf "reader" "badge")).insert
        "writer" (roleOf "writer" "pass")
      authenticators := ((∅ : Std.ExtTreeMap String SessionAuthenticator).insert "badge"
        (openAuthenticator "badge")).insert "pass" (openAuthenticator "pass") }
  clock := Store.defaultNow
  entropy := ()
  connections := (∅ : Std.ExtTreeMap String (Connection clubRuntime)).insert "c" ⟨0, ∅, ∅⟩
  operations _ := none

/-- A second connection authenticates as a reader and opens a subscription. -/
def watchingHost [DecidableEq Value] : SurfaceHost clubRuntime :=
  let connected := (clubHost.connect "p").1
  let reader := (connected.authenticate "p" "reader" "default" ⟨"badge", .none⟩).1
  (reader.watch "p" ⟨⟨.role "reader", "notes", none⟩, "w", ∅, none, none, [], none⟩).1

/-- The second connection binds its context again as a writer. -/
def reboundHost [DecidableEq Value] : SurfaceHost clubRuntime :=
  (watchingHost.authenticate "p" "writer" "default" ⟨"pass", .none⟩).1

def callNote : SurfaceCall :=
  ⟨⟨.publicSurface, "notes", some "add"⟩, ∅, some "op-1", none, none, [], []⟩

open Classical in
/-- The commit of a connection with an open subscription is complete for it. -/
theorem completion_barrier_sample :
    @Completed clubRuntime instDecidableEqNat watchingHost (watchingHost.call "p" callNote).1 "p" 1 :=
  (SurfaceHost.completion_barrier watchingHost).1 "p" callNote (.committed 1 1 none) 1 rfl rfl

open Classical in
/-- The commit of one connection closes a subscription of another that had no authority before it. -/
theorem released_without_removal :
    ∃ (peer : Connection clubRuntime) (watch : OpenWatch clubRuntime),
      reboundHost.connections["p"]? = some peer ∧ peer.watches["w"]? = some watch ∧ watch.closed = none ∧
        reboundHost.barrier.authorized watch.authz watch.scope peer = .ok none ∧
        (reboundHost.call "c" callNote).2 = .ok (.committed 1 1 none) ∧
        ∃ next, (reboundHost.call "c" callNote).1.connections["p"]? = some next ∧
          next.watches["w"]? = some (watch.released "authority removed at frontier") :=
  ⟨_, _, rfl, rfl, rfl, rfl, rfl, _, rfl, rfl⟩

end Samples

end Liasse.Surface
