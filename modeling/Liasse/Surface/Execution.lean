/-
This file proves when the operations of a surface host run at most once over a whole run of calls.
-/

import Liasse.Store.Memory
import Liasse.Surface.Settlement

namespace Liasse.Surface

open Codes Live

section Runs

variable {rt : Runtime} [DecidableEq rt.RowId] [Ord rt.RowId] [DecidableEq Value]

namespace SurfaceHost

omit [Ord rt.RowId] [DecidableEq Value] in
/-- The call for which a host asks its engine, if it does. -/
def executed (host : SurfaceHost rt) (id : String) (call : SurfaceCall) : Option Prepared :=
  if !host.connections.contains id then
    none
  else
    match host.prepare id call with
    | .error _ => none
    | .ok prepared =>
      match host.decision prepared with
      | .fresh => some prepared
      | _ => none

/-- The events of a run are calls, and changes between them that leave the retained operations. -/
inductive Event (rt : Runtime)
  | call (id : String) (call : SurfaceCall)
  | change (next : SurfaceHost rt → SurfaceHost rt)

/-- The host after an event. -/
def after (host : SurfaceHost rt) : Event rt → SurfaceHost rt
  | .call id request => (host.call id request).1
  | .change next => { next host with operations := host.operations }

/-- The host after a run. -/
def run (host : SurfaceHost rt) (events : List (Event rt)) : SurfaceHost rt :=
  events.foldl after host

omit [Ord rt.RowId] [DecidableEq Value] in
/-- The operation for which the engine commits in an event. -/
def committedKey (host : SurfaceHost rt) : Event rt → Option OperationKey
  | .change _ => none
  | .call id request =>
    match host.executed id request with
    | none => none
    | some prepared =>
      match (host.admitCall prepared.request).2 with
      | .ok (.committed _ _) => prepared.key
      | _ => none

/-- The count of the commits of an operation in a run. -/
def commits (key : OperationKey) (host : SurfaceHost rt) : List (Event rt) → Nat
  | [] => 0
  | event :: rest =>
    (if host.committedKey event = some key then 1 else 0) + commits key (host.after event) rest

/-- The events of a run with the host before each. -/
def steps (host : SurfaceHost rt) : List (Event rt) → List (SurfaceHost rt × Event rt)
  | [] => []
  | event :: rest => (host, event) :: steps (host.after event) rest

/-- The reads that a call causes after a commit of an operation succeed: those for the commit of a fresh
operation over the engine that it leaves, and those for the commit that a retry observes again. -/
def Settles (host : SurfaceHost rt) : Event rt → Prop
  | .change _ => True
  | .call id request =>
    (∀ prepared seq response, host.executed id request = some prepared → prepared.key.isSome →
      (host.admitCall prepared.request).2 = .ok (.committed seq response) →
        (host.admitCall prepared.request).1.Readable id seq) ∧
    ∀ prepared outcome commit, host.prepare id request = .ok prepared →
      host.decision prepared = .replay outcome → outcome.commit = some commit →
        host.Readable id commit

/-- The refusal of an identifier that was used for another request. -/
def conflictRejection : Rejection :=
  .new .malformed "operation identifier reused with different request metadata"

/-- A call with a retained operation does not run: an equivalent request gets the retained outcome, and
another request is refused. -/
def Deduplicates (host : SurfaceHost rt) : Event rt → Prop
  | .change _ => True
  | .call id request =>
    ∀ prepared key record, host.connections.contains id → host.prepare id request = .ok prepared →
      prepared.key = some key → host.operations key = some record →
        (host.call id request).1.engine = host.engine ∧
          (host.call id request).2 =
            .ok (if record.request.same prepared.model then record.outcome
              else .rejected conflictRejection)

end SurfaceHost

end Runs

section Calls

variable {rt : Runtime} [DecidableEq rt.RowId] [Ord rt.RowId] [DecidableEq Value]

namespace SurfaceHost

/-- A replay runs nothing and retains nothing. -/
theorem replay_keeps (host : SurfaceHost rt) (id : String) (outcome : SurfaceOutcome rt.Response) :
    (host.replay id outcome).1.engine = host.engine ∧
      (host.replay id outcome).1.operations = host.operations := by
  unfold replay
  split <;> exact ⟨rfl, rfl⟩

/-- A replay reports the retained outcome when its reads succeed. -/
theorem replay_ok {host : SurfaceHost rt} {id : String} {outcome : SurfaceOutcome rt.Response}
    (readable : ∀ commit, outcome.commit = some commit → host.Readable id commit) :
    (host.replay id outcome).2 = .ok outcome := by
  unfold replay
  split
  · rfl
  · next commit known =>
      obtain ⟨frontier, settled⟩ := settleCommit_ok.mpr (readable commit known)
      dsimp only
      rw [settled]
      rfl

/-- An execution leaves the engine that the request leaves, and retains nothing. -/
theorem execute_keeps (host : SurfaceHost rt) (id : String) (request : CallRequest) :
    (host.execute id request).1.engine = (host.admitCall request).1.engine ∧
      (host.execute id request).1.operations = host.operations := by
  have admitted : (host.admitCall request).1.operations = host.operations := rfl
  unfold execute
  split
  · next same => rw [same] at admitted ⊢; exact ⟨rfl, admitted⟩
  · next same => rw [same] at admitted ⊢; exact ⟨rfl, admitted⟩
  · next same =>
      rw [same] at admitted ⊢
      split <;> exact ⟨rfl, admitted⟩
  · next same => rw [same] at admitted ⊢; exact ⟨rfl, admitted⟩

/-- A call that runs retains its outcome when its execution reports one. -/
theorem call_executed {host : SurfaceHost rt} {id : String} {request : SurfaceCall}
    {prepared : Prepared} (runs : host.executed id request = some prepared) :
    host.call id request =
      match host.execute id prepared.request with
      | (next, .error fault) => (next, .error fault)
      | (next, .ok outcome) => (next.retain prepared.key prepared.model outcome, .ok outcome) := by
  revert runs
  unfold executed call
  cases host.connections.contains id with
  | false => simp
  | true =>
    cases host.prepare id request with
    | error outcome => simp
    | ok known =>
      cases decided : host.decision known with
      | fresh =>
        simp only [Bool.not_true, Bool.false_eq_true, ↓reduceIte, decided, Option.some.injEq]
        rintro rfl
        rfl
      | replay outcome => simp [decided]
      | conflict => simp [decided]

/-- A call that does not run leaves the engine and the retained operations. -/
theorem call_unexecuted {host : SurfaceHost rt} {id : String} {request : SurfaceCall}
    (idle : host.executed id request = none) :
    (host.call id request).1.engine = host.engine ∧
      (host.call id request).1.operations = host.operations := by
  revert idle
  unfold executed call
  cases host.connections.contains id with
  | false => exact fun _ => ⟨rfl, rfl⟩
  | true =>
    cases host.prepare id request with
    | error outcome => exact fun _ => ⟨rfl, rfl⟩
    | ok known =>
      cases decided : host.decision known with
      | fresh => simp [decided]
      | replay outcome =>
        simp only [Bool.not_true, Bool.false_eq_true, ↓reduceIte, decided]
        exact fun _ => replay_keeps host id outcome
      | conflict => simp [decided]

omit [Ord rt.RowId] [DecidableEq Value] in
/-- A call with a key runs only when no operation is retained under the key. -/
theorem executed_fresh {host : SurfaceHost rt} {id : String} {request : SurfaceCall}
    {prepared : Prepared} {key : OperationKey} (runs : host.executed id request = some prepared)
    (keyed : prepared.key = some key) : host.operations key = none := by
  unfold executed at runs
  split at runs
  · cases runs
  · split at runs
    · cases runs
    · split at runs
      · next known _ _ decided =>
          cases runs
          simp only [decision, keyed, OperationLog.decide] at decided
          split at decided
          · assumption
          · split at decided <;> cases decided
      · cases runs

end SurfaceHost

end Calls

section Records

variable {rt : Runtime} [DecidableEq rt.RowId] [Ord rt.RowId] [DecidableEq Value]

namespace SurfaceHost

/-- A retained operation stays retained. -/
theorem retained_after {host : SurfaceHost rt} {key : OperationKey}
    {record : OperationRecord rt.Response} (retained : host.operations key = some record)
    (event : Event rt) : (host.after event).operations key = some record := by
  cases event with
  | change next => exact retained
  | call id request =>
    change (host.call id request).1.operations key = some record
    cases runs : host.executed id request with
    | none => rw [(call_unexecuted runs).2, retained]
    | some prepared =>
      have kept := (execute_keeps host id prepared.request).2
      rw [call_executed runs]
      rcases outcome : host.execute id prepared.request with ⟨next, fault | reported⟩
      · rw [outcome] at kept
        exact (congrFun kept key).trans retained
      · rw [outcome] at kept
        have before : next.operations key = some record := (congrFun kept key).trans retained
        unfold retain
        dsimp only
        split
        · next other keyed =>
            have different : key ≠ other := by
              rintro rfl
              rw [executed_fresh runs keyed] at retained
              cases retained
            change next.operations.record other prepared.model reported key = some record
            unfold OperationLog.record
            split
            · exact before
            · rw [Function.update_of_ne different, before]
        · exact before

omit [Ord rt.RowId] [DecidableEq Value] in
/-- A retained operation does not run again. -/
theorem committedKey_retained {host : SurfaceHost rt} {key : OperationKey}
    {record : OperationRecord rt.Response} (retained : host.operations key = some record)
    (event : Event rt) : host.committedKey event ≠ some key := by
  intro committed
  cases event with
  | change next => cases committed
  | call id request =>
    simp only [committedKey] at committed
    split at committed
    · cases committed
    · next prepared runs =>
        split at committed
        · rw [executed_fresh runs committed] at retained
          cases retained
        · cases committed

/-- A commit of an operation that settles is retained. -/
theorem committedKey_settled {host : SurfaceHost rt} {event : Event rt} (settles : host.Settles event)
    {key : OperationKey} (committed : host.committedKey event = some key) :
    ∃ record, (host.after event).operations key = some record := by
  cases event with
  | change next => cases committed
  | call id request =>
    simp only [committedKey] at committed
    split at committed
    · cases committed
    · next prepared runs =>
        split at committed
        · next seq response admitted =>
            have readable := settles.1 prepared seq response runs (by rw [committed]; rfl) admitted
            obtain ⟨frontier, settled⟩ := settleCommit_ok.mpr readable
            have executed : (host.execute id prepared.request).2 =
                .ok (.committed frontier seq response) := by
              unfold execute
              rw [← Prod.eta (host.admitCall prepared.request), admitted]
              simp only [settled]
              rfl
            refine ⟨⟨prepared.model, .committed frontier seq response⟩, ?_⟩
            change (host.call id request).1.operations key = _
            rw [call_executed runs]
            rcases outcome : host.execute id prepared.request with ⟨next, fault | reported⟩
            · rw [outcome] at executed
              cases executed
            · rw [outcome] at executed
              cases executed
              simp only [retain, committed, OperationLog.record, Function.update_self]
        · cases committed

/-- An operation commits at most once from any host, and not at all when it is retained. -/
theorem commits_le_one {host : SurfaceHost rt} {events : List (Event rt)}
    (settles : ∀ step ∈ host.steps events, step.1.Settles step.2) (key : OperationKey) :
    commits key host events ≤ if (host.operations key).isSome then 0 else 1 := by
  induction events generalizing host with
  | nil => exact Nat.zero_le _
  | cons event rest ih =>
    have first : host.Settles event := settles (host, event) List.mem_cons_self
    have later := ih fun step inside => settles step (List.mem_cons_of_mem _ inside)
    rw [commits]
    cases retained : host.operations key with
    | some record =>
      rw [retained_after retained event] at later
      rw [if_neg (committedKey_retained retained event)]
      simpa using later
    | none =>
      by_cases committed : host.committedKey event = some key
      · obtain ⟨record, known⟩ := committedKey_settled first committed
        rw [known] at later
        rw [if_pos committed]
        simpa using later
      · rw [if_neg committed, Nat.zero_add]
        exact later.trans (by split <;> simp)

/-- A call with a retained operation is not executed again. -/
theorem deduplicates {host : SurfaceHost rt} {event : Event rt} (settles : host.Settles event) :
    host.Deduplicates event := by
  cases event with
  | change next => trivial
  | call id request =>
    intro prepared key record connected ready keyed retained
    have decided : host.decision prepared =
        if record.request.same prepared.model then .replay record.outcome else .conflict := by
      simp only [decision, keyed, OperationLog.decide, retained]
    have idle : host.executed id request = none := by
      simp only [executed, connected, ready, decided, Bool.not_true, Bool.false_eq_true, ↓reduceIte]
      cases record.request.same prepared.model <;> rfl
    refine ⟨(call_unexecuted idle).1, ?_⟩
    simp only [call, connected, ready, Bool.not_true, Bool.false_eq_true, ↓reduceIte]
    by_cases same : record.request.same prepared.model
    · rw [if_pos same] at decided
      rw [if_pos same, decided]
      exact replay_ok fun commit known =>
        settles.2 prepared record.outcome commit ready decided known
    · rw [if_neg same] at decided
      rw [if_neg same, decided]
      rfl

/-- In a run whose calls can all read what their commits cause, each operation commits at most once, an
equivalent retry gets the retained outcome without running, and a conflicting reuse of an identifier is
refused without running. -/
theorem at_most_once {host : SurfaceHost rt} {events : List (Event rt)}
    (settles : ∀ step ∈ host.steps events, step.1.Settles step.2) :
    (∀ key, commits key host events ≤ 1) ∧ ∀ step ∈ host.steps events, step.1.Deduplicates step.2 := by
  constructor
  · intro key
    exact (commits_le_one settles key).trans (by split <;> simp)
  · intro step inside
    exact deduplicates (settles step inside)

end SurfaceHost

end Records

section Samples

/-- An engine that counts its commits and whose reads for a live subscription fail. -/
abbrev faultyRuntime : Runtime where
  Engine := Nat
  Hydrated := Unit
  Entropy := Unit
  Fault := Unit
  Response := Unit
  RowId := Nat
  head engine := .ok engine
  call engine _ _ _ := (engine + 1, (), .ok (.committed (engine + 1) none))
  viewAtHead _ _ := .ok none
  viewWith _ _ _ _ := .ok (some (.rows [] ⟨[]⟩))
  hydrate _ _ := .ok ()
  viewWithHydrated _ _ _ _ := .error ()
  scopedReceiver _ _ _ _ _ _ := .ok .unscoped
  surfaceViewParams _ _ := []
  rowIdentity _ := none

/-- A host with one public call, and one connection with some subscriptions. -/
def publicHost (watches : Std.ExtTreeMap String (OpenWatch faultyRuntime)) :
    SurfaceHost faultyRuntime where
  engine := 0
  router :=
    { publicSurfaces := (∅ : Std.ExtTreeMap String SurfaceBinding).insert "notes"
        ⟨some "notes", (∅ : Std.ExtTreeMap String CallBinding).insert "add" ⟨"addNote", [], [], []⟩⟩
      roles := ∅
      authenticators := ∅ }
  clock := Store.defaultNow
  entropy := ()
  connections := (∅ : Std.ExtTreeMap String (Connection faultyRuntime)).insert "c" ⟨0, ∅, watches⟩
  operations _ := none

/-- A public subscription. -/
def openNotes : OpenWatch faultyRuntime :=
  ⟨"notes", ⟨none, none, none⟩, ∅, [], Watch.opened none 0, none⟩

/-- A call with an operation identifier. -/
def addNote : SurfaceHost.Event faultyRuntime :=
  .call "c" ⟨⟨.publicSurface, "notes", some "add"⟩, ∅, some "op-1", none, none, [], []⟩

/-- Connections without subscriptions stay so when another joins them. -/
theorem quiet_insert {connections : Std.ExtTreeMap String (Connection faultyRuntime)}
    (quiet : ∀ (other : String) (connection : Connection faultyRuntime),
      connections[other]? = some connection → connection.watches = ∅)
    {id : String} {joined : Connection faultyRuntime} (alone : joined.watches = ∅)
    (other : String) (connection : Connection faultyRuntime)
    (found : (connections.insert id joined)[other]? = some connection) : connection.watches = ∅ := by
  rw [Std.ExtTreeMap.getElem?_insert] at found
  split at found
  · cases found
    exact alone
  · exact quiet other connection found

/-- A host without subscriptions reads nothing for a commit. -/
theorem readable_quiet {host : SurfaceHost faultyRuntime}
    (quiet : ∀ (other : String) (connection : Connection faultyRuntime),
      host.connections[other]? = some connection → connection.watches = ∅)
    (id : String) (seq : Nat) : host.Readable id seq := by
  intro other connection found name watch present
  rw [quiet other connection found] at present
  simp at present

open Classical in
/-- Two equal calls commit once on a connection without subscriptions. -/
theorem at_most_once_quiet :
    SurfaceHost.commits ⟨"public.notes", none, "op-1"⟩ (publicHost ∅) [addNote, addNote] ≤ 1 := by
  have before : ∀ (other : String) (connection : Connection faultyRuntime),
      (publicHost ∅).connections[other]? = some connection → connection.watches = ∅ :=
    quiet_insert (fun _ _ found => by simp at found) rfl
  have later : ∀ (other : String) (connection : Connection faultyRuntime),
      ((publicHost ∅).after addNote).connections[other]? = some connection →
        connection.watches = ∅ :=
    quiet_insert before rfl
  have settles : ∀ step ∈ (publicHost ∅).steps [addNote, addNote], step.1.Settles step.2 := by
    intro step inside
    rcases List.mem_pair.mp inside with rfl | rfl
    · exact ⟨fun _ seq _ _ _ _ => readable_quiet before "c" seq,
        fun _ _ commit _ _ _ => readable_quiet before "c" commit⟩
    · exact ⟨fun _ seq _ _ _ _ => readable_quiet later "c" seq,
        fun _ _ commit _ _ _ => readable_quiet later "c" commit⟩
  exact (SurfaceHost.at_most_once settles).1 _

open Classical in
/-- Two equal calls commit twice when the subscription of the caller cannot be read after the first
commit. -/
theorem retry_commits_twice :
    SurfaceHost.commits ⟨"public.notes", none, "op-1"⟩
      (publicHost ((∅ : Std.ExtTreeMap String (OpenWatch faultyRuntime)).insert "w" openNotes))
      [addNote, addNote] = 2 := by
  rfl

end Samples

end Liasse.Surface
