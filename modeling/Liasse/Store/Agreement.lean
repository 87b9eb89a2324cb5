/-
This file proves what holds in every run of the in-memory store: the log replays to the current
state, the positions have no gap and each incarnation belongs to one row lifetime.
-/

import Liasse.Store.History

namespace Liasse.Store

variable {Address : Type}

/-- The part of a row that a later instant does not change. -/
def StoredRow.face (row : StoredRow) : RowIncarnation × Value :=
  (row.incarnation, row.value)

/-- Two lookups show the same rows up to the instants of admission. -/
def SameFaces (first second : Address → Option StoredRow) : Prop :=
  ∀ address, (first address).map StoredRow.face = (second address).map StoredRow.face

/-- The faces of one lookup are the faces of the other one. -/
theorem SameFaces.present {first second : Address → Option StoredRow}
    (same : SameFaces first second) {address : Address} {row : StoredRow}
    (found : second address = some row) :
    ∃ other, first address = some other ∧ other.incarnation = row.incarnation := by
  have faces := same address
  rw [found] at faces
  cases shown : first address with
  | none => rw [shown] at faces; cases faces
  | some other =>
    rw [shown] at faces
    exact ⟨other, rfl, congrArg Prod.fst (Option.some.inj faces)⟩

theorem SameFaces.absent {first second : Address → Option StoredRow}
    (same : SameFaces first second) {address : Address} (found : second address = none) :
    first address = none := by
  have faces := same address
  rw [found] at faces
  exact Option.map_eq_none_iff.mp faces

variable [Ord Address]

/-- Each live row has an issued incarnation, and two live rows of one incarnation have one address. -/
structure Identified (lookup : Address → Option StoredRow) (issued : List RowIncarnation) : Prop where
  known : ∀ address row, lookup address = some row → row.incarnation ∈ issued
  unique : ∀ address other row another, lookup address = some row → lookup other = some another →
    row.incarnation = another.incarnation → compare address other = .eq

theorem Identified.ofSameFaces {first second : Address → Option StoredRow}
    {issued : List RowIncarnation} (identified : Identified second issued)
    (same : SameFaces first second) : Identified first issued := by
  have seen : ∀ address row, first address = some row →
      ∃ other, second address = some other ∧ other.incarnation = row.incarnation := by
    intro address row found
    exact SameFaces.present (fun other => (same other).symm) found
  constructor
  · intro address row found
    obtain ⟨other, shown, equal⟩ := seen address row found
    rw [← equal]
    exact identified.known address other shown
  · intro address other row another found present equal
    obtain ⟨shown, first, firstEqual⟩ := seen address row found
    obtain ⟨visible, second, secondEqual⟩ := seen other another present
    apply identified.unique address other shown visible first second
    rw [firstEqual, secondEqual, equal]

/-- More issued incarnations keep the rows identified. -/
theorem Identified.mono {lookup : Address → Option StoredRow} {issued more : List RowIncarnation}
    (identified : Identified lookup issued) : Identified lookup (issued ++ more) where
  known := fun address row found => List.mem_append_left _ (identified.known address row found)
  unique := identified.unique

/-- The tokens of the first allocations. -/
def tokens (count : Nat) : List RowIncarnation :=
  (List.range count).map MemoryStore.token

theorem token_injective {first second : Nat}
    (same : MemoryStore.token first = MemoryStore.token second) : first = second := by
  apply Nat.repr_inj.mp
  apply String.ext
  have lists := congrArg String.toList same
  simpa only [MemoryStore.token, String.toList_append, List.append_cancel_left_eq] using lists

theorem tokens_nodup (count : Nat) : (tokens count).Nodup :=
  List.nodup_range.map fun _ _ => token_injective

theorem tokens_succ (count : Nat) : tokens (count + 1) = tokens count ++ [MemoryStore.token count] := by
  rw [tokens, List.range_succ, List.map_append]
  rfl

theorem token_fresh (count : Nat) : MemoryStore.token count ∉ tokens count := by
  intro inside
  obtain ⟨other, below, same⟩ := List.mem_map.mp inside
  have equal := token_injective same
  have bound := List.mem_range.mp below
  omega

/-- The committed part of a store agrees with the states and the issued incarnations. -/
structure Committed (store : MemoryStore Address) (states : List (RowMap Address))
    (issued : List RowIncarnation) : Prop where
  replayed : LogReplays store.log states
  head : store.head = states.length
  current : store.current = stateAt states states.length
  allocated : issued = tokens store.nextIncarnation
  identified : Identified (fun address : Address => store.current[address]?) issued
  started : (startedBy store.log).Sublist issued

/-- The staged operations replay from the current state at any instant, and they show the rows that
the transition resolves. -/
structure Staged (transition : MemoryTransition Address) (issued : List RowIncarnation) : Prop where
  replayed : ∀ created, ∃ rows, Replays created transition.store.current transition.ops rows ∧
    SameFaces (fun address : Address => rows[address]?) transition.resolve
  identified : Identified transition.resolve issued
  started : (startedBy transition.store.log ++
    transition.ops.flatMap CommittedRowOp.started).Sublist issued

/-- The invariant of a session. -/
def Invariant (session : Session Address) (states : List (RowMap Address))
    (issued : List RowIncarnation) : Prop :=
  Committed session.store states issued ∧
    match session with
    | .idle _ => True
    | .staging transition => Staged transition issued

section Staging

variable [Std.TransOrd Address]

/-- A staged change shows at its address and nowhere else. -/
theorem resolve_stage (transition : MemoryTransition Address) (address : Address)
    (staged : Option StoredRow) (ops : List (CommittedRowOp Address)) (other : Address) :
    (transition.stage address staged ops).resolve other =
      if compare address other = .eq then staged else transition.resolve other := by
  simp only [MemoryTransition.resolve, MemoryTransition.stage, Std.TreeMap.getElem?_insert]
  by_cases same : compare address other = .eq
  · simp only [if_pos same]
  · simp only [if_neg same]

theorem resolve_congr (transition : MemoryTransition Address) {address other : Address}
    (same : compare address other = .eq) :
    transition.resolve address = transition.resolve other := by
  rw [MemoryTransition.resolve, MemoryTransition.resolve, Std.TreeMap.getElem?_congr same,
    Std.TreeMap.getElem?_congr same]

/-- A begun transition resolves the current rows. -/
theorem resolve_new (store : MemoryStore Address) (address : Address) :
    (MemoryTransition.new store).resolve address = store.current[address]? := by
  simp only [MemoryTransition.resolve, MemoryTransition.new, Std.TreeMap.getElem?_emptyc]

theorem staged_new {store : MemoryStore Address} {states : List (RowMap Address)}
    {issued : List RowIncarnation} (committed : Committed store states issued) :
    Staged (.new store) issued where
  replayed := by
    intro created
    refine ⟨store.current, .nil _, ?_⟩
    exact fun address => congrArg _ (resolve_new store address).symm
  identified := by
    apply committed.identified.ofSameFaces
    exact fun address => congrArg _ (resolve_new store address)
  started := by
    rw [MemoryTransition.new, List.flatMap_nil, List.append_nil]
    exact committed.started

/-- A staged row with a live incarnation, or a new one, keeps the rows identified. -/
theorem Identified.put {lookup : Address → Option StoredRow} {issued : List RowIncarnation}
    (identified : Identified lookup issued) (address : Address) (row : StoredRow)
    (known : row.incarnation ∈ issued)
    (only : ∀ other another, lookup other = some another →
      another.incarnation = row.incarnation → compare address other = .eq) :
    Identified (fun other => if compare address other = .eq then some row else lookup other)
      issued where
  known := by
    intro other another found
    by_cases same : compare address other = .eq
    · simp only [if_pos same, Option.some.injEq] at found
      rw [← found]
      exact known
    · simp only [if_neg same] at found
      exact identified.known other another found
  unique := by
    intro first second row' another firstFound secondFound equal
    by_cases atFirst : compare address first = .eq <;> by_cases atSecond : compare address second = .eq
    · exact Std.TransCmp.eq_trans (Std.OrientedCmp.eq_symm atFirst) atSecond
    · simp only [if_pos atFirst, Option.some.injEq] at firstFound
      simp only [if_neg atSecond] at secondFound
      rw [← firstFound] at equal
      exact absurd (only second another secondFound equal.symm) atSecond
    · simp only [if_neg atFirst] at firstFound
      simp only [if_pos atSecond, Option.some.injEq] at secondFound
      rw [← secondFound] at equal
      exact absurd (only first row' firstFound equal) atFirst
    · simp only [if_neg atFirst] at firstFound
      simp only [if_neg atSecond] at secondFound
      exact identified.unique first second row' another firstFound secondFound equal

omit [Std.TransOrd Address] in
/-- The removal of one row keeps the others identified. -/
theorem Identified.remove {lookup : Address → Option StoredRow} {issued : List RowIncarnation}
    (identified : Identified lookup issued) (address : Address) :
    Identified (fun other => if compare address other = .eq then none else lookup other)
      issued where
  known := by
    intro other row found
    by_cases same : compare address other = .eq
    · simp only [if_pos same] at found
      cases found
    · simp only [if_neg same] at found
      exact identified.known other row found
  unique := by
    intro first second row another firstFound secondFound equal
    by_cases atFirst : compare address first = .eq
    · simp only [if_pos atFirst] at firstFound
      cases firstFound
    · by_cases atSecond : compare address second = .eq
      · simp only [if_pos atSecond] at secondFound
        cases secondFound
      · simp only [if_neg atFirst] at firstFound
        simp only [if_neg atSecond] at secondFound
        exact identified.unique first second row another firstFound secondFound equal

omit [Std.TransOrd Address] in
/-- An operation that applies wherever the faces are the resolved ones extends the staged ones. -/
theorem Staged.extend {transition next : MemoryTransition Address}
    {issued more : List RowIncarnation} (staged : Staged transition issued)
    (op : CommittedRowOp Address) (current : next.store.current = transition.store.current)
    (log : next.store.log = transition.store.log) (ops : next.ops = transition.ops ++ [op])
    (step : ∀ (created : Timestamp) (rows : RowMap Address),
      SameFaces (fun address : Address => rows[address]?) transition.resolve →
      Continues rows op ∧ ∃ after, Snapshot.apply rows op created = .ok after ∧
        SameFaces (fun address : Address => after[address]?) next.resolve)
    (identified : Identified next.resolve (issued ++ more)) (starts : op.started = more) :
    Staged next (issued ++ more) where
  replayed := by
    intro created
    obtain ⟨rows, replayed, same⟩ := staged.replayed created
    obtain ⟨continues, after, applied, faces⟩ := step created rows same
    rw [current, ops]
    exact ⟨after, replayed.snoc continues applied, faces⟩
  identified := identified
  started := by
    rw [log, ops, List.flatMap_append, List.flatMap_singleton, starts, ← List.append_assoc]
    exact staged.started.append (List.Sublist.refl _)

/-- The faces stay the same under one put of one face. -/
theorem sameFaces_insert {rows : RowMap Address} {lookup : Address → Option StoredRow}
    (same : SameFaces (fun address : Address => rows[address]?) lookup) (address : Address)
    {row staged : StoredRow} (face : row.face = staged.face) :
    SameFaces (fun other : Address => (rows.insert address row)[other]?)
      (fun other => if compare address other = .eq then some staged else lookup other) := by
  intro other
  simp only [Std.TreeMap.getElem?_insert]
  by_cases here : compare address other = .eq
  · simp only [if_pos here, Option.map_some, face]
  · simp only [if_neg here]
    exact same other

/-- The faces stay the same under one removal. -/
theorem sameFaces_erase {rows : RowMap Address} {lookup : Address → Option StoredRow}
    (same : SameFaces (fun address : Address => rows[address]?) lookup) (address : Address) :
    SameFaces (fun other : Address => (rows.erase address)[other]?)
      (fun other => if compare address other = .eq then none else lookup other) := by
  intro other
  simp only [Std.TreeMap.getElem?_erase]
  by_cases here : compare address other = .eq
  · simp only [if_pos here]
  · simp only [if_neg here]
    exact same other

theorem staged_insert {transition next : MemoryTransition Address} {issued : List RowIncarnation}
    {address : Address} {value : Value} {incarnation : RowIncarnation}
    (staged : Staged transition issued)
    (allocated : issued = tokens transition.store.nextIncarnation)
    (inserted : transition.insert address value = .ok (incarnation, next)) :
    Staged next (issued ++ [incarnation]) ∧
      incarnation = MemoryStore.token transition.store.nextIncarnation ∧
      next.store = { transition.store with
        nextIncarnation := transition.store.nextIncarnation + 1 } := by
  simp only [MemoryTransition.insert] at inserted
  cases absent : transition.resolve address with
  | some row => rw [absent] at inserted; cases inserted
  | none =>
    rw [absent] at inserted
    simp only [MemoryStore.allocIncarnation, Except.ok.injEq, Prod.mk.injEq] at inserted
    obtain ⟨rfl, rfl⟩ := inserted
    refine ⟨?_, rfl, rfl⟩
    have shown := resolve_stage
      { transition with store := { transition.store with
          nextIncarnation := transition.store.nextIncarnation + 1 } } address
      (some ⟨MemoryStore.token transition.store.nextIncarnation, transition.now, value⟩)
      [.insert address (MemoryStore.token transition.store.nextIncarnation) value]
    refine Staged.extend staged
      (.insert address (MemoryStore.token transition.store.nextIncarnation) value) ?_ ?_ ?_ ?_ ?_ ?_
    · rfl
    · rfl
    · rfl
    · intro created rows same
      have empty : rows[address]? = none := same.absent absent
      refine ⟨?_, _, by simp only [Snapshot.apply, empty]; rfl, ?_⟩
      · rintro _ _ ⟨⟩
      rw [funext shown]
      exact sameFaces_insert same address rfl
    · rw [funext shown]
      apply staged.identified.mono.put
      · exact List.mem_append_right _ List.mem_cons_self
      · intro other another found equal
        have old := staged.identified.known other another found
        rw [equal, allocated] at old
        exact absurd old (token_fresh _)
    · rfl

theorem staged_update {transition next : MemoryTransition Address} {issued : List RowIncarnation}
    {address : Address} {value : Value} (staged : Staged transition issued)
    (updated : transition.update address value = .ok next) :
    Staged next issued ∧ next.store = transition.store := by
  simp only [MemoryTransition.update] at updated
  cases found : transition.resolve address with
  | none => rw [found] at updated; cases updated
  | some row =>
    rw [found] at updated
    obtain rfl := Except.ok.inj updated
    refine ⟨?_, rfl⟩
    have shown := resolve_stage transition address (some ⟨row.incarnation, row.created, value⟩)
      [.update address row.incarnation value]
    rw [← List.append_nil issued]
    refine Staged.extend staged (.update address row.incarnation value) ?_ ?_ ?_ ?_ ?_ ?_
    · rfl
    · rfl
    · rfl
    · intro created rows same
      obtain ⟨prior, present, equal⟩ := same.present found
      refine ⟨?_, _, by simp only [Snapshot.apply, present]; rfl, ?_⟩
      · rintro _ _ ⟨⟩
        exact ⟨prior, present, equal⟩
      · rw [funext shown]
        exact sameFaces_insert same address rfl
    · rw [List.append_nil, funext shown]
      apply staged.identified.put
      · exact staged.identified.known address row found
      · intro other another present equal
        exact Std.OrientedCmp.eq_symm
          (staged.identified.unique other address another row present found equal)
    · rfl

theorem staged_delete {transition next : MemoryTransition Address} {issued : List RowIncarnation}
    {address : Address} (staged : Staged transition issued)
    (deleted : transition.delete address = .ok next) :
    Staged next issued ∧ next.store = transition.store := by
  simp only [MemoryTransition.delete] at deleted
  cases found : transition.resolve address with
  | none => rw [found] at deleted; cases deleted
  | some row =>
    rw [found] at deleted
    obtain rfl := Except.ok.inj deleted
    refine ⟨?_, rfl⟩
    have shown := resolve_stage transition address none [.delete address row.incarnation]
    rw [← List.append_nil issued]
    refine Staged.extend staged (.delete address row.incarnation) ?_ ?_ ?_ ?_ ?_ ?_
    · rfl
    · rfl
    · rfl
    · intro created rows same
      obtain ⟨prior, present, equal⟩ := same.present found
      refine ⟨?_, _, by simp only [Snapshot.apply, present]; rfl, ?_⟩
      · rintro _ _ ⟨⟩
        exact ⟨prior, present, equal⟩
      · rw [funext shown]
        exact sameFaces_erase same address
    · rw [List.append_nil, funext shown]
      exact staged.identified.remove address
    · rfl

theorem staged_rekey {transition next : MemoryTransition Address} {issued : List RowIncarnation}
    {source target : Address} {value : Value} (staged : Staged transition issued)
    (rekeyed : transition.rekey source target value = .ok next) :
    Staged next issued ∧ next.store = transition.store := by
  simp only [MemoryTransition.rekey] at rekeyed
  cases found : transition.resolve source with
  | none => rw [found] at rekeyed; cases rekeyed
  | some row =>
    cases free : transition.resolve target with
    | some other => rw [found, free] at rekeyed; cases rekeyed
    | none =>
      rw [found, free] at rekeyed
      obtain rfl := Except.ok.inj rekeyed
      refine ⟨?_, rfl⟩
      have shown := resolve_stage (transition.stage source none []) target
        (some ⟨row.incarnation, row.created, value⟩)
        [.rekey source target row.incarnation value]
      have removed := resolve_stage transition source none []
      rw [funext removed] at shown
      have gone : (if compare source target = .eq then none else transition.resolve target) =
          none := by
        split
        · rfl
        · exact free
      rw [← List.append_nil issued]
      refine Staged.extend staged (.rekey source target row.incarnation value) ?_ ?_ ?_ ?_ ?_ ?_
      · rfl
      · rfl
      · simp only [MemoryTransition.stage, List.append_nil]
      · intro created rows same
        obtain ⟨prior, present, equal⟩ := same.present found
        have sameErased := sameFaces_erase same source
        have empty : (rows.erase source)[target]? = none := sameErased.absent gone
        refine ⟨?_, _, by simp only [Snapshot.apply, present, empty]; rfl, ?_⟩
        · rintro _ _ ⟨⟩
          exact ⟨prior, present, equal⟩
        · rw [funext shown]
          exact sameFaces_insert sameErased target rfl
      · rw [List.append_nil, funext shown]
        apply (staged.identified.remove source).put
        · exact staged.identified.known source row found
        · intro other another present equal
          by_cases here : compare source other = .eq
          · simp only [if_pos here] at present
            cases present
          · simp only [if_neg here] at present
            have same := staged.identified.unique other source another row present found equal
            exact absurd (Std.OrientedCmp.eq_symm same) here
      · rfl

end Staging

section Runs

/-- The admission of the staged operations appends the state that they replay to. -/
theorem committed_commit {transition : MemoryTransition Address} {states : List (RowMap Address)}
    {issued : List RowIncarnation} (committed : Committed transition.store states issued)
    (staged : Staged transition issued) :
    (∃ seq, transition.commit.1 = .committed seq ∧
      Committed transition.commit.2 (states ++ [transition.commit.2.current]) issued) ∨
    (transition.commit.1 = .unchanged ∧ transition.commit.2 = transition.store) := by
  rw [MemoryTransition.commit, MemoryStore.commitTransition]
  split
  · exact .inr ⟨rfl, rfl⟩
  · refine .inl ⟨transition.store.head + 1, rfl, ?_⟩
    obtain ⟨rows, replayed, same⟩ := staged.replayed transition.now
    have current := replayed.current
    have length : (states ++ [rows]).length = states.length + 1 := List.length_append
    constructor
    · apply committed.replayed.snoc
      · exact congrArg (· + 1) committed.head
      · rw [← committed.current]
        simp only [current]
        exact replayed
    · rw [current, length]
      exact congrArg (· + 1) committed.head
    · rw [current, length, stateAt_last]
    · exact committed.allocated
    · simp only [current]
      exact staged.identified.ofSameFaces same
    · rw [startedBy, List.flatMap_append, List.flatMap_singleton]
      exact staged.started

variable [Std.TransOrd Address]

/-- One call keeps the invariant. -/
theorem invariant_step {session next : Session Address} {states : List (RowMap Address)}
    {issued : List RowIncarnation} {answer : Answer Address} {asked : Call Address}
    (invariant : Invariant session states issued)
    (stepped : session.step asked = some (answer, next)) :
    Invariant next (answer.states next.store.current states) (answer.issued issued) := by
  obtain ⟨committed, staged⟩ := invariant
  cases session with
  | idle store =>
    cases asked with
    | begin =>
      obtain ⟨rfl, rfl⟩ := Prod.mk.inj (Option.some.inj stepped)
      exact ⟨committed, staged_new committed⟩
    | _ => cases stepped
  | staging transition =>
    -- A rejected call keeps the whole transition, and an admitted one keeps its store.
    have kept : ∀ result : Except (StoreError Address) (MemoryTransition Address),
        (∀ next, result = .ok next → Staged next issued ∧ next.store = transition.store) →
        Session.staged transition result = (answer, next) →
        Invariant next (answer.states next.store.current states) (answer.issued issued) := by
      intro result keeps answered
      cases result with
      | error error =>
        obtain ⟨rfl, rfl⟩ := Prod.mk.inj answered
        exact ⟨committed, staged⟩
      | ok after =>
        obtain ⟨rfl, rfl⟩ := Prod.mk.inj answered
        obtain ⟨stagedAfter, same⟩ := keeps after rfl
        refine ⟨?_, stagedAfter⟩
        change Committed after.store states issued
        rw [same]
        exact committed
    cases asked with
    | begin => cases stepped
    | insert address value =>
      simp only [Session.step] at stepped
      cases inserted : transition.insert address value with
      | error error =>
        rw [inserted] at stepped
        obtain ⟨rfl, rfl⟩ := Prod.mk.inj (Option.some.inj stepped)
        exact ⟨committed, staged⟩
      | ok result =>
        obtain ⟨incarnation, after⟩ := result
        rw [inserted] at stepped
        obtain ⟨rfl, rfl⟩ := Prod.mk.inj (Option.some.inj stepped)
        obtain ⟨stagedAfter, rfl, same⟩ := staged_insert staged committed.allocated inserted
        refine ⟨?_, stagedAfter⟩
        change Committed after.store states _
        rw [same]
        refine ⟨committed.replayed, committed.head, committed.current, ?_,
          committed.identified.mono, ?_⟩
        · have more := tokens_succ transition.store.nextIncarnation
          have allocated : issued = tokens transition.store.nextIncarnation :=
            committed.allocated
          rw [← allocated] at more
          exact more.symm
        · exact committed.started.trans (List.sublist_append_left _ _)
    | update address value =>
      exact kept _ (fun _ => staged_update staged) (Option.some.inj stepped)
    | delete address => exact kept _ (fun _ => staged_delete staged) (Option.some.inj stepped)
    | rekey source target value =>
      exact kept _ (fun _ => staged_rekey staged) (Option.some.inj stepped)
    | setNow now =>
      obtain ⟨rfl, rfl⟩ := Prod.mk.inj (Option.some.inj stepped)
      exact ⟨committed, staged.replayed, staged.identified, staged.started⟩
    | setDefinition definition =>
      obtain ⟨rfl, rfl⟩ := Prod.mk.inj (Option.some.inj stepped)
      exact ⟨committed, staged.replayed, staged.identified, staged.started⟩
    | setComposition composition =>
      obtain ⟨rfl, rfl⟩ := Prod.mk.inj (Option.some.inj stepped)
      exact ⟨committed, staged.replayed, staged.identified, staged.started⟩
    | setTransaction identity =>
      obtain ⟨rfl, rfl⟩ := Prod.mk.inj (Option.some.inj stepped)
      exact ⟨committed, staged.replayed, staged.identified, staged.started⟩
    | commit =>
      have parts := Prod.mk.inj (Option.some.inj stepped)
      rw [← parts.1, ← parts.2]
      rcases committed_commit committed staged with ⟨seq, outcome, after⟩ | ⟨outcome, same⟩
      · rw [outcome]
        exact ⟨after, trivial⟩
      · rw [outcome]
        refine ⟨?_, trivial⟩
        change Committed transition.commit.2 states issued
        rw [same]
        exact committed
    | abort =>
      obtain ⟨rfl, rfl⟩ := Prod.mk.inj (Option.some.inj stepped)
      exact ⟨committed, trivial⟩

/-- Every run keeps the invariant. -/
theorem run_invariant {session : Session Address} {states : List (RowMap Address)}
    {issued : List RowIncarnation} (run : Run session states issued) :
    Invariant session states issued := by
  induction run with
  | fresh =>
    refine ⟨⟨.nil, rfl, rfl, rfl, ⟨?_, ?_⟩, List.Sublist.refl _⟩, trivial⟩
    · intro address row found
      simp only [Session.store, MemoryStore.new, Std.TreeMap.getElem?_emptyc] at found
      cases found
    · intro address other row another found
      simp only [Session.store, MemoryStore.new, Std.TreeMap.getElem?_emptyc] at found
      cases found
  | call asked _ stepped ih => exact invariant_step ih stepped

end Runs

end Liasse.Store
