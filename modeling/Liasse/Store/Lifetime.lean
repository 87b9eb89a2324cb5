/-
This file proves that each row has one lifetime: its incarnation is live in consecutive snapshots, with one instant of
creation, and it does not return after its end.
-/

import Liasse.Store.Address
import Liasse.Store.Agreement

namespace Liasse.Store

variable {Address : Type}

/-- A live row has an incarnation and an instant of creation. -/
def Lives [Ord Address] (rows : RowMap Address) (incarnation : RowIncarnation) (created : Timestamp) : Prop :=
  ∃ (address : Address) (row : StoredRow), rows[address]? = some row ∧ row.incarnation = incarnation ∧
    row.created = created

/-- The incarnations that the inserts of a log start, with the instants of their transitions. -/
def births (log : List (CommittedTransition Address)) : List (RowIncarnation × Timestamp) :=
  log.flatMap fun transition =>
    (transition.ops.flatMap CommittedRowOp.started).map fun incarnation => (incarnation, transition.created)

theorem births_fst (log : List (CommittedTransition Address)) : (births log).map Prod.fst = startedBy log := by
  simp [births, startedBy, List.map_flatMap, Function.comp_def]

theorem births_append (first second : List (CommittedTransition Address)) :
    births (first ++ second) = births first ++ births second :=
  List.flatMap_append

theorem births_mono {first second : List (CommittedTransition Address)} (part : first ⊆ second) :
    births first ⊆ births second := by
  intro birth known
  obtain ⟨transition, inside, started⟩ := List.mem_flatMap.mp known
  exact List.mem_flatMap.mpr ⟨transition, part inside, started⟩

section Steps

variable [Ord Address] [Std.TransOrd Address] {rows next : RowMap Address} {incarnation : RowIncarnation} {created born : Timestamp}

theorem Lives.of_erase {address : Address} (lives : Lives (rows.erase address) incarnation born) :
    Lives rows incarnation born := by
  obtain ⟨other, row, found, named⟩ := lives
  rw [Std.TreeMap.getElem?_erase] at found
  split at found
  · cases found
  · exact ⟨other, row, found, named⟩

theorem Lives.of_insert {address : Address} {row : StoredRow}
    (lives : Lives (rows.insert address row) incarnation born) :
    Lives rows incarnation born ∨ (row.incarnation = incarnation ∧ row.created = born) := by
  obtain ⟨other, stored, found, named⟩ := lives
  rw [Std.TreeMap.getElem?_insert] at found
  split at found
  · exact .inr (Option.some.inj found ▸ named)
  · exact .inl ⟨other, stored, found, named⟩

/-- An incarnation that lives after an operation lived before it, or the operation starts it. -/
theorem Lives.of_apply {op : CommittedRowOp Address} (continues : Continues rows op)
    (applied : Snapshot.apply rows op created = .ok next) (lives : Lives next incarnation born) :
    Lives rows incarnation born ∨ (incarnation ∈ op.started ∧ born = created) := by
  cases op with
  | insert address started value =>
    simp only [Snapshot.apply] at applied
    split at applied
    · cases applied
    · obtain rfl := Except.ok.inj applied
      rcases lives.of_insert with old | ⟨rfl, rfl⟩
      · exact .inl old
      · exact .inr ⟨List.mem_cons_self, rfl⟩
  | update address continued value =>
    obtain ⟨row, found, named⟩ := continues address continued rfl
    simp only [Snapshot.apply, found] at applied
    obtain rfl := Except.ok.inj applied
    rcases lives.of_insert with old | ⟨rfl, rfl⟩
    · exact .inl old
    · exact .inl ⟨address, row, found, named, rfl⟩
  | delete address continued =>
    simp only [Snapshot.apply] at applied
    split at applied
    · cases applied
    · obtain rfl := Except.ok.inj applied
      exact .inl lives.of_erase
  | rekey source target continued value =>
    obtain ⟨row, found, named⟩ := continues source continued rfl
    simp only [Snapshot.apply, found] at applied
    split at applied
    · cases applied
    · obtain rfl := Except.ok.inj applied
      rcases lives.of_insert with old | ⟨rfl, rfl⟩
      · exact .inl old.of_erase
      · exact .inl ⟨source, row, found, named, rfl⟩

theorem Lives.of_replays {ops : List (CommittedRowOp Address)} (replayed : Replays created rows ops next)
    (lives : Lives next incarnation born) :
    Lives rows incarnation born ∨ (incarnation ∈ ops.flatMap CommittedRowOp.started ∧ born = created) := by
  induction replayed with
  | nil => exact .inl lives
  | cons continues applied _ ih =>
    rw [List.flatMap_cons, List.mem_append]
    rcases ih lives with earlier | ⟨started, at_⟩
    · rcases earlier.of_apply continues applied with old | ⟨here, now⟩
      · exact .inl old
      · exact .inr ⟨.inl here, now⟩
    · exact .inr ⟨.inr started, at_⟩

/-- An incarnation that lives in a state lived in each earlier one, or it was started in between. -/
theorem LogReplays.lives {log : List (CommittedTransition Address)} {states : List (RowMap Address)}
    (replayed : LogReplays log states) {early late : Nat} (ordered : early ≤ late) (within : late ≤ states.length)
    (lives : Lives (stateAt states late) incarnation born) :
    Lives (stateAt states early) incarnation born ∨ (incarnation, born) ∈ births ((log.take late).drop early) := by
  induction replayed generalizing late with
  | nil =>
    obtain rfl := Nat.le_zero.mp within
    obtain rfl := Nat.le_zero.mp ordered
    exact .inl lives
  | @snoc log states transition next replayed _ step ih =>
    have length := replayed.length
    have earlier {late : Nat} (ordered : early ≤ late) (within : late ≤ states.length)
        (lives : Lives (stateAt states late) incarnation born) :
        Lives (stateAt (states ++ [next]) early) incarnation born ∨
          (incarnation, born) ∈ births (((log ++ [transition]).take late).drop early) := by
      rw [stateAt_append next (ordered.trans within), List.take_append_of_le_length (length ▸ within)]
      exact ih ordered within lives
    rw [List.length_append, List.length_singleton] at within
    by_cases old : late ≤ states.length
    · rw [stateAt_append next old] at lives
      exact earlier ordered old lives
    · obtain rfl : late = states.length + 1 := by omega
      by_cases last : early = states.length + 1
      · exact .inl (last ▸ lives)
      · rw [stateAt_last] at lives
        have before : early ≤ states.length := by omega
        have whole : ((log ++ [transition]).take (states.length + 1)).drop early = log.drop early ++ [transition] := by
          rw [List.take_of_length_le (by simp [length]), List.drop_append_of_le_length (length ▸ before)]
        rw [whole, births_append, List.mem_append]
        rcases lives.of_replays step with kept | ⟨started, rfl⟩
        · rcases earlier before le_rfl kept with here | there
          · exact .inl here
          · rw [List.take_append_of_le_length length.ge, ← length, List.take_length] at there
            exact .inr (.inl there)
        · exact .inr (.inr (by simpa [births] using started))

end Steps

section Runs

variable [Ord Address] {session : Session Address} {states : List (RowMap Address)}
  {issued : List RowIncarnation}

/-- A snapshot that is taken holds the state after the commit at its frontier. -/
theorem Committed.snapshot_eq {store : MemoryStore Address} (committed : Committed store states issued)
    {frontier : Nat} {taken : Snapshot Address} (snapshot : store.snapshot frontier = .ok taken) :
    frontier ≤ states.length ∧ taken.rows = stateAt states frontier := by
  have head := committed.head
  by_cases within : frontier ≤ states.length
  · rw [MemoryStore.snapshot, if_neg (by omega), Snapshot.replay, committed.replayed.replayRows,
      Nat.min_eq_left within] at snapshot
    obtain rfl := Except.ok.inj snapshot
    exact ⟨within, rfl⟩
  · rw [MemoryStore.snapshot, if_pos (by omega)] at snapshot
    cases snapshot

variable [Std.TransOrd Address]

/-- An incarnation that is live in two snapshots of a run is live in each snapshot between them, and its instant of
creation is the same in all. -/
theorem lifetime_consecutive (run : Run session states issued) {first middle last : Nat} (early : first ≤ middle)
    (late : middle ≤ last) {before between after : Snapshot Address}
    (start : session.store.snapshot first = .ok before) (inside : session.store.snapshot middle = .ok between)
    (stop : session.store.snapshot last = .ok after) {incarnation : RowIncarnation} {born created : Timestamp}
    (starts : Lives before.rows incarnation born) (stops : Lives after.rows incarnation created) :
    born = created ∧ Lives between.rows incarnation created := by
  have committed := (run_invariant run).1
  rw [(committed.snapshot_eq start).2] at starts
  obtain ⟨within, final⟩ := committed.snapshot_eq stop
  rw [final] at stops
  rw [(committed.snapshot_eq inside).2]
  have replayed := committed.replayed
  have once : ((births session.store.log).map Prod.fst).Nodup := by
    rw [births_fst]
    exact committed.started.nodup (committed.allocated ▸ tokens_nodup _)
  have nothing {incarnation : RowIncarnation} {instant : Timestamp} :
      ¬ Lives (stateAt states 0) incarnation instant := by
    rintro ⟨_, _, found, _⟩
    simp only [stateAt, Std.TreeMap.getElem?_emptyc] at found
    cases found
  -- Both instants are the one of the insert that started the incarnation.
  have bornOf {seq : Nat} {instant : Timestamp} (bounded : seq ≤ states.length)
      (lives : Lives (stateAt states seq) incarnation instant) :
      (incarnation, instant) ∈ births (session.store.log.take seq) :=
    (replayed.lives (Nat.zero_le _) bounded lives).resolve_left nothing
  have bounded := (early.trans late).trans within
  have same : born = created := congrArg Prod.snd
    (List.inj_on_of_nodup_map once (births_mono (List.take_subset _ _) (bornOf bounded starts))
      (births_mono (List.take_subset _ _) (bornOf within stops)) rfl)
  refine ⟨same, ?_⟩
  rcases replayed.lives late within stops with lives | again
  · exact lives
  · -- A second start after the middle would repeat the incarnation.
    rw [← List.take_append_drop middle session.store.log, births_append, List.map_append] at once
    have first := births_mono (List.take_subset_take_left _ early) (bornOf bounded starts)
    have second : (incarnation, created) ∈ births (session.store.log.drop middle) := by
      rw [List.drop_take] at again
      exact births_mono (List.take_subset _ _) again
    have apart := (List.pairwise_append.mp once).2.2
    exact absurd rfl (apart incarnation (List.mem_map_of_mem (f := Prod.fst) first) incarnation
      (List.mem_map_of_mem (f := Prod.fst) second))

end Runs

section Sample

/-- The address of a row with a key. -/
private def boxAddress : RowAddress where
  first := ⟨"boxes", .composite (.bool true) []⟩
  rest := []

/-- An inserted row is live before and after it is updated. -/
theorem lifetime_consecutive_updated : ∃ (session : Session RowAddress) (states : List (RowMap RowAddress))
    (between : Snapshot RowAddress), Run session states [MemoryStore.token 0] ∧
      session.store.snapshot 1 = .ok between ∧ Lives between.rows (MemoryStore.token 0) defaultNow := by
  have started : Run (.idle MemoryStore.new : Session RowAddress) [] [] := .fresh
  have inserted := ((started.call .begin rfl).call (.insert boxAddress .none) rfl).call .commit rfl
  have updated := ((inserted.call .begin rfl).call (.update boxAddress (.bool true)) rfl).call .commit rfl
  have first : Lives ((∅ : RowMap RowAddress).insert boxAddress ⟨MemoryStore.token 0, defaultNow, .none⟩)
      (MemoryStore.token 0) defaultNow :=
    ⟨boxAddress, _, Std.TreeMap.getElem?_insert_self, rfl, rfl⟩
  have last : Lives (((∅ : RowMap RowAddress).insert boxAddress ⟨MemoryStore.token 0, defaultNow, .none⟩).insert
      boxAddress ⟨MemoryStore.token 0, defaultNow, .bool true⟩) (MemoryStore.token 0) defaultNow :=
    ⟨boxAddress, _, Std.TreeMap.getElem?_insert_self, rfl, rfl⟩
  have lives := lifetime_consecutive updated le_rfl one_le_two rfl rfl rfl first last
  exact ⟨_, _, _, updated, rfl, lives.2⟩

end Sample

end Liasse.Store
