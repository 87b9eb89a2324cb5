/-
This file proves when a commit settles: exactly when every read of the barrier succeeds.
-/

import Liasse.Codes.Listing
import Liasse.Codes.Table
import Liasse.Surface.Pipeline

namespace Liasse.Surface

open Codes Live

section Visits

variable {σ α ε : Type} {step : σ → α → σ × Except ε Unit}

/-- A visit succeeds exactly when each item is good, where the states along the way agree on the items
that remain. -/
theorem visitAll_ok {agrees : σ → List α → Prop} {good : α → Prop}
    (decides : ∀ {state item rest}, agrees state (item :: rest) →
      ((step state item).2 = .ok () ↔ good item))
    (keeps : ∀ {state item rest}, agrees state (item :: rest) → (step state item).2 = .ok () →
      agrees (step state item).1 rest)
    {state : σ} {items : List α} (agreed : agrees state items) :
    (visitAll step state items).2 = .ok () ↔ ∀ item ∈ items, good item := by
  induction items generalizing state with
  | nil => simp [visitAll]
  | cons item rest ih =>
    rw [visitAll, List.forall_mem_cons, ← decides agreed]
    have later := keeps agreed
    rcases outcome : step state item with ⟨next, fault | done⟩
    · simp
    · rw [outcome] at later
      simpa using ih (later rfl)

/-- A visit that succeeds does its work at each item once. A step changes its own item only, and it keeps an
invariant. -/
theorem visitAll_each {γ : Type} (look : σ → α → γ) (invariant : σ → Prop) (outcome : α → γ → γ → Prop)
    (frame : ∀ state item other, other ≠ item → look (step state item).1 other = look state other)
    (keeps : ∀ state item, invariant state → invariant (step state item).1)
    (does : ∀ state item, invariant state → (step state item).2 = .ok () →
      outcome item (look state item) (look (step state item).1 item))
    {state : σ} {items : List α} (start : invariant state) (distinct : items.Nodup)
    (visited : (visitAll step state items).2 = .ok ()) :
    invariant (visitAll step state items).1 ∧
      (∀ other ∉ items, look (visitAll step state items).1 other = look state other) ∧
      ∀ item ∈ items, outcome item (look state item) (look (visitAll step state items).1 item) := by
  induction items generalizing state with
  | nil => exact ⟨start, fun _ _ => rfl, nofun⟩
  | cons item rest ih =>
    have here := does state item start
    have others := frame state item
    have kept := keeps state item start
    obtain ⟨absent, distinct⟩ := List.nodup_cons.mp distinct
    rw [visitAll] at visited ⊢
    rcases result : step state item with ⟨next, fault | done⟩
    · rw [result] at visited
      cases visited
    · rw [result] at visited here others kept
      obtain ⟨invariant, frames, each⟩ := ih kept distinct visited
      refine ⟨invariant, fun other outside => ?_, fun other inside => ?_⟩
      · exact (frames other (List.not_mem_of_not_mem_cons outside)).trans
          (others other (List.ne_of_not_mem_cons outside))
      · rcases List.mem_cons.mp inside with rfl | later
        · dsimp only at frames ⊢
          rw [frames other absent]
          exact here rfl
        · have different : other ≠ item := by
            rintro rfl
            exact absent later
          have done := each other later
          rwa [others other different] at done

/-- A visit keeps an invariant of its steps, also when it fails. -/
theorem visitAll_keeps (invariant : σ → Prop)
    (keeps : ∀ state item, invariant state → invariant (step state item).1) {state : σ} (start : invariant state)
    (items : List α) : invariant (visitAll step state items).1 := by
  induction items generalizing state with
  | nil => exact start
  | cons item rest ih =>
    have kept := keeps state item start
    rw [visitAll]
    rcases result : step state item with ⟨next, fault | done⟩
    · rw [result] at kept
      exact kept
    · rw [result] at kept
      exact ih kept

end Visits

section Reads

variable {rt : Runtime} [DecidableEq rt.RowId]

namespace Barrier

/-- The authority of an open subscription can be read. -/
def ReadsAuthority (barrier : Barrier rt) (connection : Connection rt) (watch : OpenWatch rt) : Prop :=
  ∃ known, barrier.authorized watch.authz watch.scope connection = .ok known

/-- The rows of an authorized subscription can be read at a frontier. -/
def ReadsRows (barrier : Barrier rt) (connection : Connection rt) (frontier : Nat)
    (watch : OpenWatch rt) : Prop :=
  ∀ context, barrier.authorized watch.authz watch.scope connection = .ok (some context) →
    ∃ hydrated, rt.hydrate barrier.engine frontier = .ok hydrated ∧
      ∃ result, rt.viewWithHydrated barrier.engine watch.view hydrated
        (viewQuery watch.args context watch.scope) = .ok result

/-- Every read that a commit causes on a connection succeeds. Each open subscription reads its authority,
and a subscription of the caller reads its rows too. -/
def Readable (barrier : Barrier rt) (caller : Bool) (connection : Connection rt) (frontier : Nat) :
    Prop :=
  ∀ (name : String) (watch : OpenWatch rt), connection.watches[name]? = some watch →
    watch.closed = none → barrier.ReadsAuthority connection watch ∧
      (caller → barrier.ReadsRows connection frontier watch)

end Barrier

/-- Every read that a commit causes on the connections of a host succeeds. -/
def SurfaceHost.Readable (host : SurfaceHost rt) (id : String) (seq : Nat) : Prop :=
  ∀ (other : String) (connection : Connection rt), host.connections[other]? = some connection →
    host.barrier.Readable (other = id) connection (connection.advanceFrontier seq).frontier

end Reads

section Sweeps

variable {rt : Runtime} [DecidableEq rt.RowId]

namespace Barrier

/-- The authority of a subscription depends on the contexts of its connection only. -/
theorem authorized_congr {barrier : Barrier rt} {first second : Connection rt}
    (contexts : first.contexts = second.contexts) (authz : WatchAuthz) (scope : List Value) :
    barrier.authorized authz scope first = barrier.authorized authz scope second := by
  rw [authorized, authorized, contexts]

/-- A connection along a visit has its contexts and the subscriptions that remain. -/
def Agrees (connection current : Connection rt) (names : List String) : Prop :=
  names.Nodup ∧ current.contexts = connection.contexts ∧
    ∀ name ∈ names, current.watches[name]? = connection.watches[name]?

/-- A step at one subscription leaves the others, the frontier and the contexts. -/
def Changes (connection next : Connection rt) (name : String) : Prop :=
  next.frontier = connection.frontier ∧ next.contexts = connection.contexts ∧
    ∀ other, other ≠ name → next.watches[other]? = connection.watches[other]?

omit [DecidableEq rt.RowId] in
theorem changes_self (connection : Connection rt) (name : String) : Changes connection connection name :=
  ⟨rfl, rfl, fun _ _ => rfl⟩

omit [DecidableEq rt.RowId] in
theorem changes_insert (connection : Connection rt) (name : String) (watch : OpenWatch rt) :
    Changes connection { connection with watches := connection.watches.insert name watch } name :=
  ⟨rfl, rfl, fun _ different => getElem?_insert_of_ne different⟩

omit [DecidableEq rt.RowId] in
/-- A change of one subscription leaves the subscriptions that remain. -/
theorem Agrees.change {connection current next : Connection rt} {name : String} {rest : List String}
    (agreed : Agrees connection current (name :: rest)) (changes : Changes current next name) :
    Agrees connection next rest := by
  obtain ⟨distinct, contexts, watches⟩ := agreed
  obtain ⟨_, same, others⟩ := changes
  refine ⟨distinct.of_cons, same.trans contexts, fun other inside => ?_⟩
  have different : other ≠ name := by
    rintro rfl
    exact (List.nodup_cons.mp distinct).1 inside
  exact (others other different).trans (watches other (List.mem_cons_of_mem _ inside))

/-- A peer reads the authority of one subscription. -/
theorem closeOne_ok {barrier : Barrier rt} {connection current : Connection rt} {name : String}
    {rest : List String} (agreed : Agrees connection current (name :: rest)) :
    (barrier.closeOne current name).2 = .ok () ↔
      ∀ watch, connection.watches[name]? = some watch → watch.closed = none →
        barrier.ReadsAuthority connection watch := by
  rw [closeOne, agreed.2.2 name List.mem_cons_self]
  cases found : connection.watches[name]? with
  | none => simp
  | some watch =>
    simp only [authorized_congr agreed.2.1, Option.some.injEq, forall_eq', ReadsAuthority]
    cases closed : watch.closed with
    | some reason => simp
    | none =>
      cases known : barrier.authorized watch.authz watch.scope connection with
      | error fault => simp
      | ok held => cases held <;> simp

/-- A peer changes one subscription at a time. -/
theorem closeOne_changes (barrier : Barrier rt) (connection : Connection rt) (name : String) :
    Changes connection (barrier.closeOne connection name).1 name := by
  unfold closeOne
  split
  · exact changes_self _ _
  · split
    · exact changes_self _ _
    · split
      · exact changes_self _ _
      · exact changes_insert _ _ _
      · exact changes_self _ _

/-- The peers of a commit settle exactly when their reads succeed. -/
theorem closeLostAuthority_ok {barrier : Barrier rt} {connection : Connection rt} {frontier : Nat} :
    (barrier.closeLostAuthority connection).2 = .ok () ↔ barrier.Readable false connection frontier := by
  have start : Agrees connection connection connection.watches.keys :=
    ⟨Std.ExtTreeMap.nodup_keys, rfl, fun _ _ => rfl⟩
  rw [closeLostAuthority, visitAll_ok closeOne_ok (fun agreed _ => agreed.change (closeOne_changes _ _ _)) start]
  constructor
  · intro good name watch found still
    have present : name ∈ connection.watches.keys :=
      Std.ExtTreeMap.mem_keys.mpr (Std.ExtTreeMap.mem_iff_isSome_getElem?.mpr (by rw [found]; rfl))
    exact ⟨good name present watch found still, fun absurdity => Bool.noConfusion absurdity⟩
  · intro readable name _ watch found still
    exact (readable name watch found still).1

variable [Ord rt.RowId] [DecidableEq Value]

/-- The caller reads the authority and the rows of one subscription. -/
theorem advanceOne_ok {barrier : Barrier rt} {frontier : Nat} {connection current : Connection rt}
    {name : String} {rest : List String} (agreed : Agrees connection current (name :: rest)) :
    (barrier.advanceOne frontier current name).2 = .ok () ↔
      ∀ watch, connection.watches[name]? = some watch → watch.closed = none →
        barrier.ReadsAuthority connection watch ∧ barrier.ReadsRows connection frontier watch := by
  rw [advanceOne, agreed.2.2 name List.mem_cons_self]
  cases found : connection.watches[name]? with
  | none => simp
  | some watch =>
    simp only [authorized_congr agreed.2.1, Option.some.injEq, forall_eq', ReadsAuthority, ReadsRows]
    cases closed : watch.closed with
    | some reason => simp
    | none =>
      cases known : barrier.authorized watch.authz watch.scope connection with
      | error fault => simp
      | ok held =>
        cases held with
        | none => simp
        | some context =>
          cases hydration : rt.hydrate barrier.engine frontier with
          | error fault => simp
          | ok hydrated =>
            cases rows : rt.viewWithHydrated barrier.engine watch.view hydrated
                (viewQuery watch.args context watch.scope) with
            | error fault => simp [rows]
            | ok result => cases result <;> simp [rows]

/-- The caller changes one subscription at a time. -/
theorem advanceOne_changes (barrier : Barrier rt) (frontier : Nat) (connection : Connection rt) (name : String) :
    Changes connection (barrier.advanceOne frontier connection name).1 name := by
  unfold advanceOne
  split
  · exact changes_self _ _
  · split
    · exact changes_self _ _
    · split
      · exact changes_self _ _
      · exact changes_insert _ _ _
      · dsimp only
        split
        · exact changes_self _ _
        · split
          · exact changes_self _ _
          · exact changes_insert _ _ _
          · exact changes_insert _ _ _

/-- The caller of a commit settles exactly when its reads succeed. -/
theorem sweep_ok {barrier : Barrier rt} {connection : Connection rt} {frontier : Nat} :
    (barrier.sweep connection frontier).2 = .ok () ↔ barrier.Readable true connection frontier := by
  have start : Agrees connection connection connection.watches.keys :=
    ⟨Std.ExtTreeMap.nodup_keys, rfl, fun _ _ => rfl⟩
  rw [sweep, visitAll_ok advanceOne_ok (fun agreed _ => agreed.change (advanceOne_changes _ _ _ _)) start]
  constructor
  · intro good name watch found still
    have present : name ∈ connection.watches.keys :=
      Std.ExtTreeMap.mem_keys.mpr (Std.ExtTreeMap.mem_iff_isSome_getElem?.mpr (by rw [found]; rfl))
    have reads := good name present watch found still
    exact ⟨reads.1, fun _ => reads.2⟩
  · intro readable name _ watch found still
    have reads := readable name watch found still
    exact ⟨reads.1, reads.2 rfl⟩

end Barrier

end Sweeps

section Commits

variable {rt : Runtime} [DecidableEq rt.RowId] [Ord rt.RowId] [DecidableEq Value]

namespace SurfaceHost

/-- The connections along a visit are those of the host where they remain. -/
def Remains (host : SurfaceHost rt) (state : Std.ExtTreeMap String (Connection rt) × Nat)
    (ids : List String) : Prop :=
  ids.Nodup ∧ ∀ id ∈ ids, state.1[id]? = host.connections[id]?

/-- A commit reaches one connection exactly when the reads on it succeed. -/
theorem settleOne_ok {host : SurfaceHost rt} {id : String} {seq : Nat}
    {state : Std.ExtTreeMap String (Connection rt) × Nat} {other : String} {rest : List String}
    (remains : host.Remains state (other :: rest)) :
    (settleOne host.barrier id seq state other).2 = .ok () ↔
      ∀ connection, host.connections[other]? = some connection →
        host.barrier.Readable (other = id) connection (connection.advanceFrontier seq).frontier := by
  rw [settleOne, remains.2 other List.mem_cons_self]
  cases host.connections[other]? with
  | none => simp
  | some connection =>
    simp only [Option.some.injEq, forall_eq']
    by_cases caller : other = id
    · simp only [caller, ↓reduceIte, decide_true]
      refine Barrier.sweep_ok.trans ?_
      rw [Connection.advanceFrontier]
      split <;> rfl
    · simp only [caller, ↓reduceIte, decide_false]
      exact Barrier.closeLostAuthority_ok

/-- A commit leaves the connections that remain. -/
theorem settleOne_remains {host : SurfaceHost rt} {id : String} {seq : Nat}
    {state : Std.ExtTreeMap String (Connection rt) × Nat} {other : String} {rest : List String}
    (remains : host.Remains state (other :: rest)) :
    host.Remains (settleOne host.barrier id seq state other).1 rest := by
  obtain ⟨distinct, connections⟩ := remains
  have kept : ∀ later ∈ rest, state.1[later]? = host.connections[later]? :=
    fun later inside => connections later (List.mem_cons_of_mem _ inside)
  have inserted (connection : Connection rt) :
      ∀ later ∈ rest, (state.1.insert other connection)[later]? = host.connections[later]? := by
    intro later inside
    have different : later ≠ other := by
      rintro rfl
      exact (List.nodup_cons.mp distinct).1 inside
    exact (getElem?_insert_of_ne different).trans (kept later inside)
  refine ⟨distinct.of_cons, ?_⟩
  unfold settleOne
  split
  · exact kept
  · split
    · exact inserted _
    · exact inserted _

/-- A commit settles exactly when every read that it causes succeeds. -/
theorem settleCommit_ok {host : SurfaceHost rt} {id : String} {seq : Nat} :
    (∃ frontier, (host.settleCommit id seq).2 = .ok frontier) ↔ host.Readable id seq := by
  have start : host.Remains (host.connections, seq) host.connections.keys :=
    ⟨Std.ExtTreeMap.nodup_keys, fun _ _ => rfl⟩
  have visited :
      (visitAll (settleOne host.barrier id seq) (host.connections, seq) host.connections.keys).2 =
          .ok () ↔ ∀ other ∈ host.connections.keys, ∀ connection,
        host.connections[other]? = some connection → host.barrier.Readable (other = id) connection
          (connection.advanceFrontier seq).frontier :=
    visitAll_ok settleOne_ok (fun remains _ => settleOne_remains remains) start
  have settled : (∃ frontier, (host.settleCommit id seq).2 = .ok frontier) ↔
      (visitAll (settleOne host.barrier id seq) (host.connections, seq) host.connections.keys).2 =
        .ok () := by
    simp only [settleCommit]
    cases (visitAll (settleOne host.barrier id seq) (host.connections, seq)
      host.connections.keys).2 <;> simp [Except.map]
  rw [settled, visited]
  constructor
  · intro good other connection found
    have present : other ∈ host.connections.keys :=
      Std.ExtTreeMap.mem_keys.mpr (Std.ExtTreeMap.mem_iff_isSome_getElem?.mpr (by rw [found]; rfl))
    exact good other present connection found
  · intro readable other _ connection found
    exact readable other connection found

end SurfaceHost

end Commits

end Liasse.Surface
