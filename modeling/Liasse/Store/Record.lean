/-
This file states what every run of the in-memory store records, and what a staging that is aborted
or rejected leaves unchanged.
-/

import Liasse.Store.Address
import Liasse.Store.Agreement

namespace Liasse.Store

variable {Address : Type} [Ord Address]

/-- What the log, the current rows and the incarnations of a run record. -/
structure Faithful (session : Session Address) (states : List (RowMap Address))
    (issued : List RowIncarnation) : Prop where
  /-- The positions of the log are one up to the head. -/
  gapless : session.store.log.map CommittedTransition.seq = List.range' 1 session.store.head
  /-- The replay of the whole log is the current state. -/
  replays : Snapshot.replay session.store.log session.store.head =
    .ok ⟨session.store.head, session.store.current⟩
  /-- There is one state for each commit, and the snapshot at a frontier is the state after it. -/
  frontiers : session.store.head = states.length ∧ ∀ frontier ≤ session.store.head,
    session.store.snapshot frontier = .ok ⟨frontier, stateAt states frontier⟩
  /-- No incarnation is returned twice, in committed or in aborted transitions. -/
  issuedOnce : issued.Nodup
  /-- Each committed insert starts its own issued incarnation. -/
  startedOnce : (startedBy session.store.log).Sublist issued
  /-- Two live rows of one incarnation have one address. -/
  liveOnce : ∀ (address other : Address) row another, session.store.current[address]? = some row →
    session.store.current[other]? = some another → row.incarnation = another.incarnation →
    compare address other = .eq
  /-- Each logged update, delete and rekey continues the incarnation of the row that it changes. -/
  continued : ∀ before transition after, session.store.log = before ++ transition :: after →
    ∀ ops op rest, transition.ops = ops ++ op :: rest →
    ∃ rows next, Snapshot.applyAll (stateAt states before.length) ops transition.created = .ok rows ∧
      Snapshot.apply rows op transition.created = .ok next ∧ Continues rows op
  /-- Each logged rekey keeps the incarnation and the instant of the row that it moves. -/
  moved : ∀ before transition after, session.store.log = before ++ transition :: after →
    ∀ ops source target incarnation value rest,
    transition.ops = ops ++ .rekey source target incarnation value :: rest →
    ∃ rows next row,
      Snapshot.applyAll (stateAt states before.length) ops transition.created = .ok rows ∧
      Snapshot.apply rows (.rekey source target incarnation value) transition.created = .ok next ∧
      rows[source]? = some row ∧ row.incarnation = incarnation ∧
      next[target]? = some ⟨row.incarnation, row.created, value⟩

/-- A session reaches another one by calls that admit no commit. -/
inductive Uncommitted : Session Address → Session Address → Prop
  | refl (session : Session Address) : Uncommitted session session
  | call {session middle next : Session Address} {answer : Answer Address} (asked : Call Address) :
      Uncommitted session middle → middle.step asked = some (answer, next) →
      (∀ seq, answer ≠ .outcome (.committed seq)) → Uncommitted session next

/-- The second store differs from the first one at most by a later incarnation counter. -/
structure Unchanged (first second : MemoryStore Address) : Prop where
  head : second.head = first.head
  current : second.current = first.current
  log : second.log = first.log
  definition : second.definition = first.definition
  composition : second.composition = first.composition
  counter : first.nextIncarnation ≤ second.nextIncarnation

theorem Unchanged.refl (store : MemoryStore Address) : Unchanged store store :=
  ⟨rfl, rfl, rfl, rfl, rfl, Nat.le_refl _⟩

theorem Unchanged.trans {first second third : MemoryStore Address}
    (before : Unchanged first second) (after : Unchanged second third) : Unchanged first third where
  head := after.head.trans before.head
  current := after.current.trans before.current
  log := after.log.trans before.log
  definition := after.definition.trans before.definition
  composition := after.composition.trans before.composition
  counter := Nat.le_trans before.counter after.counter

/-- A rejected call changes nothing at all. -/
theorem step_rejected {session next : Session Address} {asked : Call Address}
    {error : StoreError Address} (stepped : session.step asked = some (.rejected error, next)) :
    next = session := by
  have kept : ∀ (transition : MemoryTransition Address)
      (result : Except (StoreError Address) (MemoryTransition Address)),
      Session.staged transition result = (.rejected error, next) → next = .staging transition := by
    intro transition result answered
    cases result with
    | error other => exact (Prod.mk.inj answered).2.symm
    | ok after => cases (Prod.mk.inj answered).1
  cases session with
  | idle store => cases asked <;> cases stepped
  | staging transition =>
    cases asked with
    | insert address value =>
      simp only [Session.step] at stepped
      cases inserted : transition.insert address value with
      | error other =>
        rw [inserted] at stepped
        exact (Prod.mk.inj (Option.some.inj stepped)).2.symm
      | ok result => rw [inserted] at stepped; cases stepped
    | update address value => exact kept _ _ (Option.some.inj stepped)
    | delete address => exact kept _ _ (Option.some.inj stepped)
    | rekey source target value => exact kept _ _ (Option.some.inj stepped)
    | _ => cases stepped

theorem update_store {transition next : MemoryTransition Address} {address : Address} {value : Value}
    (updated : transition.update address value = .ok next) : next.store = transition.store := by
  simp only [MemoryTransition.update] at updated
  split at updated
  · cases updated
  · obtain rfl := Except.ok.inj updated
    rfl

theorem delete_store {transition next : MemoryTransition Address} {address : Address}
    (deleted : transition.delete address = .ok next) : next.store = transition.store := by
  simp only [MemoryTransition.delete] at deleted
  split at deleted
  · cases deleted
  · obtain rfl := Except.ok.inj deleted
    rfl

theorem rekey_store {transition next : MemoryTransition Address} {source target : Address}
    {value : Value} (rekeyed : transition.rekey source target value = .ok next) :
    next.store = transition.store := by
  simp only [MemoryTransition.rekey] at rekeyed
  split at rekeyed
  · cases rekeyed
  · split at rekeyed
    · cases rekeyed
    · obtain rfl := Except.ok.inj rekeyed
      rfl

theorem insert_store {transition next : MemoryTransition Address} {address : Address}
    {value : Value} {incarnation : RowIncarnation}
    (inserted : transition.insert address value = .ok (incarnation, next)) :
    next.store = { transition.store with
      nextIncarnation := transition.store.nextIncarnation + 1 } := by
  simp only [MemoryTransition.insert] at inserted
  split at inserted
  · cases inserted
  · obtain ⟨_, rfl⟩ := Prod.mk.inj (Except.ok.inj inserted)
    rfl

/-- A staged change that keeps the store is answered in the same store. -/
private theorem staged_store {transition : MemoryTransition Address} {answer : Answer Address}
    {after : Session Address} {result : Except (StoreError Address) (MemoryTransition Address)}
    (keeps : ∀ next, result = .ok next → next.store = transition.store)
    (answered : Session.staged transition result = (answer, after)) :
    Unchanged transition.store after.store := by
  cases result with
  | error error =>
    obtain ⟨_, rfl⟩ := Prod.mk.inj answered
    exact .refl _
  | ok next =>
    obtain ⟨_, rfl⟩ := Prod.mk.inj answered
    change Unchanged transition.store next.store
    rw [keeps next rfl]
    exact .refl _

/-- A call that admits no commit leaves the log, the current rows and the head. -/
theorem step_unchanged {session next : Session Address} {asked : Call Address}
    {answer : Answer Address} (stepped : session.step asked = some (answer, next))
    (uncommitted : ∀ seq, answer ≠ .outcome (.committed seq)) :
    Unchanged session.store next.store := by
  cases session with
  | idle store =>
    cases asked with
    | begin =>
      obtain ⟨_, rfl⟩ := Prod.mk.inj (Option.some.inj stepped)
      exact .refl _
    | _ => cases stepped
  | staging transition =>
    cases asked with
    | begin => cases stepped
    | insert address value =>
      simp only [Session.step] at stepped
      cases inserted : transition.insert address value with
      | error error =>
        rw [inserted] at stepped
        obtain ⟨_, rfl⟩ := Prod.mk.inj (Option.some.inj stepped)
        exact .refl _
      | ok result =>
        obtain ⟨incarnation, after⟩ := result
        rw [inserted] at stepped
        obtain ⟨_, rfl⟩ := Prod.mk.inj (Option.some.inj stepped)
        change Unchanged transition.store after.store
        rw [insert_store inserted]
        exact ⟨rfl, rfl, rfl, rfl, rfl, Nat.le_succ _⟩
    | update address value =>
      exact staged_store (fun _ => update_store) (Option.some.inj stepped)
    | delete address => exact staged_store (fun _ => delete_store) (Option.some.inj stepped)
    | rekey source target value =>
      exact staged_store (fun _ => rekey_store) (Option.some.inj stepped)
    | commit =>
      obtain ⟨outcome, rfl⟩ := Prod.mk.inj (Option.some.inj stepped)
      change Unchanged transition.store transition.commit.2
      have empty : transition.commit = (.unchanged, transition.store) := by
        revert outcome
        rw [MemoryTransition.commit, MemoryStore.commitTransition]
        split
        · exact fun _ => rfl
        · exact fun outcome => absurd outcome.symm (uncommitted _)
      rw [empty]
      exact .refl _
    | _ =>
      obtain ⟨_, rfl⟩ := Prod.mk.inj (Option.some.inj stepped)
      exact .refl _

/-- A staging that ends without a commit leaves the log, the current rows and the head. -/
theorem uncommitted_unchanged {session next : Session Address}
    (reached : Uncommitted session next) : Unchanged session.store next.store := by
  induction reached with
  | refl => exact .refl _
  | call asked _ stepped uncommitted ih => exact ih.trans (step_unchanged stepped uncommitted)

section Runs

/-- Each logged operation applies to the rows before it and continues the row that it records. -/
theorem continued_of_log {session : Session Address} {states : List (RowMap Address)}
    {issued : List RowIncarnation} (committed : Committed session.store states issued)
    {before after : List (CommittedTransition Address)} {transition : CommittedTransition Address}
    (position : session.store.log = before ++ transition :: after)
    {ops rest : List (CommittedRowOp Address)} {op : CommittedRowOp Address}
    (inside : transition.ops = ops ++ op :: rest) :
    ∃ rows next, Snapshot.applyAll (stateAt states before.length) ops transition.created = .ok rows ∧
      Snapshot.apply rows op transition.created = .ok next ∧ Continues rows op := by
  obtain ⟨final, replayed⟩ := committed.replayed.split position
  rw [inside] at replayed
  obtain ⟨rows, next, first, continues, applied, _⟩ := replayed.split
  exact ⟨rows, next, first.applyAll, applied, continues⟩

variable [Std.TransOrd Address]

/-- An applied rekey puts the moved row at its target. -/
theorem apply_rekey {rows next : RowMap Address} {source target : Address} {value : Value}
    {incarnation : RowIncarnation} {created : Timestamp} {row : StoredRow}
    (found : rows[source]? = some row)
    (applied : Snapshot.apply rows (.rekey source target incarnation value) created = .ok next) :
    next[target]? = some ⟨incarnation, row.created, value⟩ := by
  simp only [Snapshot.apply, found] at applied
  split at applied
  · cases applied
  · obtain rfl := Except.ok.inj applied
    rw [Std.TreeMap.getElem?_insert, if_pos Std.ReflOrd.compare_self]

/-- A run records its commits without a gap, replays to its current rows at every frontier, and gives
each incarnation to one row lifetime. A rejected call changes nothing, and a staging without a commit
leaves all but the incarnation counter. -/
theorem run_faithful {session : Session Address} {states : List (RowMap Address)}
    {issued : List RowIncarnation} (run : Run session states issued) :
    Faithful session states issued ∧
      (∀ asked error next, session.step asked = some (.rejected error, next) → next = session) ∧
      (∀ next, Uncommitted session next → Unchanged session.store next.store) := by
  have committed := (run_invariant run).1
  refine ⟨?_, fun _ _ _ => step_rejected, fun _ => uncommitted_unchanged⟩
  have frontiers : ∀ frontier ≤ session.store.head,
      Snapshot.replay session.store.log frontier = .ok ⟨frontier, stateAt states frontier⟩ := by
    intro frontier below
    rw [committed.head] at below
    rw [Snapshot.replay, committed.replayed.replayRows, Nat.min_eq_left below]
  constructor
  · rw [committed.head]
    exact committed.replayed.gapless
  · rw [frontiers _ (Nat.le_refl _), committed.current, committed.head]
  · refine ⟨committed.head, ?_⟩
    intro frontier below
    rw [MemoryStore.snapshot, if_neg (Nat.not_lt.mpr below)]
    exact frontiers frontier below
  · rw [committed.allocated]
    exact tokens_nodup _
  · exact committed.started
  · exact committed.identified.unique
  · intro before transition after position ops op rest inside
    exact continued_of_log committed position inside
  · intro before transition after position ops source target incarnation value rest inside
    obtain ⟨rows, next, first, applied, continues⟩ := continued_of_log committed position inside
    obtain ⟨row, found, same⟩ := continues source incarnation rfl
    refine ⟨rows, next, row, first, applied, found, same, ?_⟩
    rw [same]
    exact apply_rekey found applied

end Runs

/-- The address of a row of one collection with an integer key. -/
private def sampleAddress : RowAddress where
  first :=
    { name := "c"
      key := .composite (.bool true) [] }
  rest := []

/-- A run with one committed insert satisfies the statement. -/
theorem run_faithful_insert :
    ∃ (session : Session RowAddress) (states : List (RowMap RowAddress)),
      session.store.head = 1 ∧ Faithful session states [MemoryStore.token 0] := by
  have started : Run (.idle MemoryStore.new : Session RowAddress) [] [] := .fresh
  have begun := started.call .begin rfl
  have inserted := begun.call (.insert sampleAddress .none) rfl
  have committed := inserted.call .commit rfl
  exact ⟨_, _, rfl, (run_faithful committed).1⟩

/-- An aborted insert advances the incarnation counter of the store. -/
theorem aborted_insert_counter :
    ∃ begun staged aborted : Session RowAddress,
      (Session.idle MemoryStore.new).step .begin = some (.done, begun) ∧
      begun.step (.insert sampleAddress .none) = some (.inserted (MemoryStore.token 0), staged) ∧
      staged.step .abort = some (.done, aborted) ∧
      aborted.store.nextIncarnation ≠ (MemoryStore.new : MemoryStore RowAddress).nextIncarnation :=
  ⟨_, _, _, rfl, rfl, rfl, Nat.one_ne_zero⟩

end Liasse.Store
