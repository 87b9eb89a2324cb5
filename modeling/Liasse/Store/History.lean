/-
This file proves that the log and the current state of the in-memory store agree in every run.
-/

import Liasse.Store.Memory

namespace Liasse.Store

variable {Address : Type} [Ord Address]

/-- The row that an operation continues, with the incarnation that the operation records. -/
def CommittedRowOp.prior : CommittedRowOp Address → Option (Address × RowIncarnation)
  | .insert _ _ _ => none
  | .update address incarnation _ => some (address, incarnation)
  | .delete address incarnation => some (address, incarnation)
  | .rekey source _ incarnation _ => some (source, incarnation)

/-- The incarnation that an operation starts. -/
def CommittedRowOp.started : CommittedRowOp Address → List RowIncarnation
  | .insert _ incarnation _ => [incarnation]
  | _ => []

/-- The incarnations that the inserts of a log start. -/
def startedBy (log : List (CommittedTransition Address)) : List RowIncarnation :=
  log.flatMap fun transition => transition.ops.flatMap CommittedRowOp.started

/-- An operation continues the live row with its recorded incarnation. -/
def Continues (rows : RowMap Address) (op : CommittedRowOp Address) : Prop :=
  ∀ address incarnation, op.prior = some (address, incarnation) →
    ∃ row, rows[address]? = some row ∧ row.incarnation = incarnation

/-- The operations apply one after the other, and each one continues the row that it records. -/
inductive Replays (created : Timestamp) :
    RowMap Address → List (CommittedRowOp Address) → RowMap Address → Prop
  | nil (rows : RowMap Address) : Replays created rows [] rows
  | cons {rows next final : RowMap Address} {op : CommittedRowOp Address}
      {rest : List (CommittedRowOp Address)} : Continues rows op →
      Snapshot.apply rows op created = .ok next → Replays created next rest final →
      Replays created rows (op :: rest) final

namespace Replays

variable {created : Timestamp} {rows mid final : RowMap Address}
  {ops : List (CommittedRowOp Address)}

/-- One more operation extends a replay. -/
theorem snoc {op : CommittedRowOp Address} (replayed : Replays created rows ops mid)
    (continues : Continues mid op) (applied : Snapshot.apply mid op created = .ok final) :
    Replays created rows (ops ++ [op]) final := by
  induction replayed with
  | nil rows => exact .cons continues applied (.nil _)
  | cons first step _ ih => exact .cons first step (ih continues applied)

/-- A replay passes through the state before each operation. -/
theorem split {op : CommittedRowOp Address} {rest : List (CommittedRowOp Address)}
    (replayed : Replays created rows (ops ++ op :: rest) final) :
    ∃ before after, Replays created rows ops before ∧ Continues before op ∧
      Snapshot.apply before op created = .ok after ∧ Replays created after rest final := by
  induction ops generalizing rows with
  | nil =>
    cases replayed with
    | cons first step tail => exact ⟨rows, _, .nil _, first, step, tail⟩
  | cons head ops ih =>
    cases replayed with
    | cons first step tail =>
      obtain ⟨before, after, replayed, others⟩ := ih tail
      exact ⟨before, after, .cons first step replayed, others⟩

theorem applyAll (replayed : Replays created rows ops final) :
    Snapshot.applyAll rows ops created = .ok final := by
  induction replayed with
  | nil rows => rfl
  | cons first step _ ih =>
    rw [Snapshot.applyAll, step]
    exact ih

end Replays

/-- The current rows change as the replayed rows when the operation applies. -/
theorem applyCurrent_eq {rows next : RowMap Address} {op : CommittedRowOp Address}
    {created : Timestamp} (applied : Snapshot.apply rows op created = .ok next) :
    MemoryStore.applyCurrent rows op created = next := by
  cases op with
  | insert address incarnation value =>
    simp only [Snapshot.apply] at applied
    split at applied
    · cases applied
    · exact Except.ok.inj applied
  | update address incarnation value =>
    simp only [Snapshot.apply] at applied
    split at applied
    · cases applied
    · rename_i prior found
      rw [MemoryStore.applyCurrent, found]
      exact Except.ok.inj applied
  | delete address incarnation =>
    simp only [Snapshot.apply] at applied
    split at applied
    · cases applied
    · exact Except.ok.inj applied
  | rekey source target incarnation value =>
    simp only [Snapshot.apply] at applied
    split at applied
    · cases applied
    · rename_i row found
      split at applied
      · cases applied
      · rw [MemoryStore.applyCurrent, found]
        exact Except.ok.inj applied

/-- The maintained state after some operations is the replayed state. -/
theorem Replays.current {created : Timestamp} {rows final : RowMap Address}
    {ops : List (CommittedRowOp Address)} (replayed : Replays created rows ops final) :
    ops.foldl (fun current op => MemoryStore.applyCurrent current op created) rows = final := by
  induction replayed with
  | nil rows => rfl
  | cons first step _ ih =>
    rw [List.foldl_cons, applyCurrent_eq step]
    exact ih

/-- The state at a position. The states list holds the state after each commit. -/
def stateAt (states : List (RowMap Address)) : Nat → RowMap Address
  | 0 => ∅
  | seq + 1 => states.getD seq ∅

/-- The log replays through the states, and its positions have no gap. -/
inductive LogReplays : List (CommittedTransition Address) → List (RowMap Address) → Prop
  | nil : LogReplays [] []
  | snoc {log : List (CommittedTransition Address)} {states : List (RowMap Address)}
      {transition : CommittedTransition Address} {next : RowMap Address} : LogReplays log states →
      transition.seq = states.length + 1 →
      Replays transition.created (stateAt states states.length) transition.ops next →
      LogReplays (log ++ [transition]) (states ++ [next])

/-- A later state does not change an earlier one. -/
theorem stateAt_append {states : List (RowMap Address)} {seq : Nat} (next : RowMap Address)
    (early : seq ≤ states.length) : stateAt (states ++ [next]) seq = stateAt states seq := by
  cases seq with
  | zero => rfl
  | succ seq =>
    simp only [stateAt, List.getD_eq_getElem?_getD]
    rw [List.getElem?_append_left early]

theorem stateAt_last (states : List (RowMap Address)) (next : RowMap Address) :
    stateAt (states ++ [next]) (states.length + 1) = next := by
  simp only [stateAt, List.getD_eq_getElem?_getD, List.getElem?_concat_length, Option.getD_some]

namespace LogReplays

variable {log : List (CommittedTransition Address)} {states : List (RowMap Address)}

theorem length (replayed : LogReplays log states) : log.length = states.length := by
  induction replayed with
  | nil => rfl
  | snoc _ _ _ ih => rw [List.length_append, List.length_append, ih]; rfl

/-- The positions of the log are one up to its length. -/
theorem gapless (replayed : LogReplays log states) :
    log.map CommittedTransition.seq = List.range' 1 states.length := by
  induction replayed with
  | nil => rfl
  | snoc _ position _ ih =>
    rw [List.map_append, ih, List.length_append, List.length_singleton, List.range'_concat,
      List.map_singleton, position, Nat.one_mul, Nat.add_comm 1]

end LogReplays

theorem replayRows_append (rows : RowMap Address)
    (first second : List (CommittedTransition Address)) (frontier : Nat) :
    Snapshot.replayRows rows (first ++ second) frontier =
      match Snapshot.replayRows rows first frontier with
      | .error error => .error error
      | .ok next => Snapshot.replayRows next second frontier := by
  induction first generalizing rows with
  | nil => rfl
  | cons transition first ih =>
    rw [List.cons_append, Snapshot.replayRows, Snapshot.replayRows]
    split
    · exact ih rows
    · split
      · rfl
      · exact ih _

/-- The replay up to any frontier gives the state at that frontier. -/
theorem LogReplays.replayRows {log : List (CommittedTransition Address)}
    {states : List (RowMap Address)} (replayed : LogReplays log states) (frontier : Nat) :
    Snapshot.replayRows ∅ log frontier = .ok (stateAt states (min frontier states.length)) := by
  induction replayed with
  | nil => rw [List.length_nil, Nat.min_zero]; rfl
  | @snoc log states transition next replayed position step ih =>
    rw [replayRows_append, ih]
    simp only [Snapshot.replayRows, position, List.length_append, List.length_singleton]
    by_cases past : frontier < states.length + 1
    · rw [if_pos past, Nat.min_eq_left (by omega), Nat.min_eq_left (by omega),
        stateAt_append next (by omega)]
    · rw [if_neg past, Nat.min_eq_right (by omega), step.applyAll, Nat.min_eq_right (by omega),
        stateAt_last]

/-- The replay passes through the state before each transition and each operation. -/
theorem LogReplays.split {log before after : List (CommittedTransition Address)}
    {states : List (RowMap Address)} {transition : CommittedTransition Address}
    (replayed : LogReplays log states) (position : log = before ++ transition :: after) :
    ∃ next, Replays transition.created (stateAt states before.length) transition.ops next := by
  induction replayed generalizing after with
  | nil => exact absurd position.symm (List.append_ne_nil_of_right_ne_nil _ (List.cons_ne_nil _ _))
  | @snoc log states last next replayed _ step ih =>
    rcases List.eq_nil_or_concat' after with rfl | ⟨rest, final, rfl⟩
    · obtain ⟨same, rfl⟩ := List.append_inj' position rfl |>.imp id List.singleton_inj.mp
      refine ⟨next, ?_⟩
      rw [← same, stateAt_append next (by rw [replayed.length]), replayed.length]
      exact step
    · rw [← List.cons_append, ← List.append_assoc] at position
      obtain ⟨same, _⟩ := List.append_inj' position rfl
      obtain ⟨found, inner⟩ := ih same
      refine ⟨found, ?_⟩
      rw [stateAt_append next]
      · exact inner
      · rw [← replayed.length, same, List.length_append]
        exact Nat.le_add_right _ _

end Liasse.Store
