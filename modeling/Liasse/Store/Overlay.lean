/-
This file proves when the reads through a staged transition are the reads after its commit.
-/

import Liasse.Codes.Listing
import Liasse.Store.Record
import Liasse.Store.Memory
import Liasse.Value.Normal

namespace Liasse.Store

variable {Address : Type} [Ord Address]

section Maps

variable {Entry : Type}

/-- The entry of an address is put, or it is removed. -/
def assign (entries : Std.TreeMap Address Entry compare) (address : Address) :
    Option Entry → Std.TreeMap Address Entry compare
  | some entry => entries.insert address entry
  | none => entries.erase address

@[simp] theorem getElem?_assign [Std.TransOrd Address] (entries : Std.TreeMap Address Entry compare)
    (address : Address) (entry : Option Entry) (other : Address) :
    (assign entries address entry)[other]? = if compare address other = .eq then entry else entries[other]? := by
  cases entry with
  | none => exact Std.TreeMap.getElem?_erase
  | some entry => exact Std.TreeMap.getElem?_insert

end Maps

section Scans

/-- The staged changes of a collection shadow its rows. -/
def overlaid (overlay : Std.TreeMap RowAddress (Option StoredRow) compare) (collection : CollectionPath)
    (base : List (RowAddress × StoredRow)) : RowMap RowAddress :=
  overlay.foldl (fun rows address staged =>
    if collection.contains address then assign rows address staged else rows) (.ofList base compare)

/-- The rows of a collection under the committed state and the staged changes. -/
def MemoryTransition.scan (transition : MemoryTransition RowAddress) (collection : CollectionPath) :
    List (RowAddress × StoredRow) :=
  (overlaid transition.overlay collection (MemoryStore.scan transition.store.current collection)).toList

/-- One staged change comes into the rows of its collection. -/
def overlayStep (collection : CollectionPath) (rows : RowMap RowAddress) (change : RowAddress × Option StoredRow) :
    RowMap RowAddress :=
  if collection.contains change.1 then assign rows change.1 change.2 else rows

theorem getElem?_overlayStep_of_ne {collection : CollectionPath} {rows : RowMap RowAddress}
    {change : RowAddress × Option StoredRow} {address : RowAddress}
    (apart : change.1 = address → collection.contains address = false) :
    (overlayStep collection rows change)[address]? = rows[address]? := by
  rw [overlayStep]
  split
  · next inside =>
      rw [getElem?_assign, if_neg]
      intro same
      have equal := Std.LawfulEqOrd.eq_of_compare same
      rw [equal, apart equal] at inside
      cases inside
  · rfl

/-- An address that no change of the collection has keeps its row. -/
theorem foldl_overlayStep_of_notMem {collection : CollectionPath} {changes : List (RowAddress × Option StoredRow)}
    {address : RowAddress} (apart : ∀ change ∈ changes, change.1 = address → collection.contains address = false)
    (rows : RowMap RowAddress) : (changes.foldl (overlayStep collection) rows)[address]? = rows[address]? := by
  induction changes generalizing rows with
  | nil => rfl
  | cons change rest ih =>
    rw [List.foldl_cons, ih fun other inside => apart other (List.mem_cons_of_mem _ inside)]
    exact getElem?_overlayStep_of_ne (apart change List.mem_cons_self)

/-- The one change of an address decides its row. -/
theorem foldl_overlayStep_of_mem {collection : CollectionPath} {changes : List (RowAddress × Option StoredRow)}
    (distinct : changes.Pairwise fun first second => compare first.1 second.1 = .lt) {address : RowAddress}
    {staged : Option StoredRow} (inside : (address, staged) ∈ changes)
    (contained : collection.contains address = true) (rows : RowMap RowAddress) :
    (changes.foldl (overlayStep collection) rows)[address]? = staged := by
  obtain ⟨before, after, rfl⟩ := List.append_of_mem inside
  have later := (List.pairwise_cons.mp (List.pairwise_append.mp distinct).2.1).1
  rw [List.foldl_append, List.foldl_cons, foldl_overlayStep_of_notMem]
  · rw [overlayStep, if_pos contained, getElem?_assign, if_pos Std.ReflOrd.compare_self]
  · intro change listed same
    have below := later change listed
    rw [same, Std.ReflOrd.compare_self] at below
    cases below

theorem overlaid_eq (overlay : Std.TreeMap RowAddress (Option StoredRow) compare) (collection : CollectionPath)
    (base : List (RowAddress × StoredRow)) :
    overlaid overlay collection base = overlay.toList.foldl (overlayStep collection) (.ofList base compare) :=
  Std.TreeMap.foldl_eq_foldl_toList

/-- The rows of a scan are those of the current rows that are in the collection. -/
theorem getElem?_ofList_scan (current : RowMap RowAddress) (collection : CollectionPath) (address : RowAddress) :
    (Std.TreeMap.ofList (MemoryStore.scan current collection) compare)[address]? =
      if collection.contains address then current[address]? else none := by
  have listed : ∀ row, (address, row) ∈ MemoryStore.scan current collection ↔
      current[address]? = some row ∧ collection.contains address = true := by
    intro row
    rw [MemoryStore.mem_scan, CollectionPath.contains, decide_eq_true_iff]
  have absent : (∀ row, (address, row) ∉ MemoryStore.scan current collection) →
      (Std.TreeMap.ofList (MemoryStore.scan current collection) compare)[address]? = none := by
    intro none
    refine Std.TreeMap.getElem?_ofList_of_contains_eq_false (Bool.eq_false_iff.mpr fun held => ?_)
    obtain ⟨entry, inside, rfl⟩ := List.mem_map.mp (List.contains_iff_mem.mp held)
    exact none entry.2 inside
  split
  · next contained =>
      cases found : current[address]? with
      | none => exact absent fun row inside => by cases found.symm.trans ((listed row).mp inside).1
      | some row =>
        refine Std.TreeMap.getElem?_ofList_of_mem Std.ReflOrd.compare_self ?_ ((listed row).mpr ⟨found, contained⟩)
        exact Std.TreeMap.distinct_keys_toList.filter _
  · next apart => exact absent fun row inside => apart ((listed row).mp inside).2

/-- The rows of a collection are those that the transition resolves. -/
theorem getElem?_overlaid (transition : MemoryTransition RowAddress) (collection : CollectionPath)
    (address : RowAddress) :
    (overlaid transition.overlay collection (MemoryStore.scan transition.store.current collection))[address]? =
      if collection.contains address then transition.resolve address else none := by
  have listed : ∀ staged, (address, staged) ∈ transition.overlay.toList ↔
      transition.overlay[address]? = some staged := fun _ => Std.TreeMap.mem_toList_iff_getElem?_eq_some
  rw [overlaid_eq]
  cases contained : collection.contains address with
  | false =>
    rw [foldl_overlayStep_of_notMem fun change _ same => same ▸ contained, getElem?_ofList_scan, contained]
    rfl
  | true =>
    rw [if_pos rfl, MemoryTransition.resolve]
    cases staged : transition.overlay[address]? with
    | some change =>
      exact foldl_overlayStep_of_mem Std.TreeMap.ordered_keys_toList ((listed change).mpr staged) contained _
    | none =>
      rw [foldl_overlayStep_of_notMem, getElem?_ofList_scan, if_pos contained]
      rintro ⟨other, change⟩ inside rfl
      cases staged.symm.trans ((listed change).mp inside)

end Scans

section Stamps

/-- The instants under which the live rows were staged that the transition inserted. -/
abbrev Stamps (Address : Type) [Ord Address] :=
  Std.TreeMap Address Timestamp compare

/-- An insert stamps its address with the instant in force, and a rekey moves the stamp of its row. -/
def CommittedRowOp.stamp (stamps : Stamps Address) (op : CommittedRowOp Address) (now : Timestamp) :
    Stamps Address :=
  match op with
  | .insert address _ _ => assign stamps address (some now)
  | .update _ _ _ => stamps
  | .delete address _ => assign stamps address none
  | .rekey source target _ _ => assign (assign stamps source none) target stamps[source]?

/-- The stamps after some operations, each with the instant that was in force when it was staged. -/
def stampsOf (staged : List (CommittedRowOp Address × Timestamp)) : Stamps Address :=
  staged.foldl (fun stamps entry => entry.1.stamp stamps entry.2) ∅

/-- The transitions that the calls on a store stage, with the instant of each staged operation. -/
inductive StagingRun (store : MemoryStore Address) :
    MemoryTransition Address → List (CommittedRowOp Address × Timestamp) → Prop
  | begun : StagingRun store (.new store) []
  | call {transition next : MemoryTransition Address} {staged : List (CommittedRowOp Address × Timestamp)}
      {answer : Answer Address} (asked : Call Address) : StagingRun store transition staged →
      (Session.staging transition).step asked = some (answer, .staging next) →
      StagingRun store next
        (staged ++ (next.ops.drop transition.ops.length).map fun op => (op, transition.now))

/-- A stamped row has the instant of the commit. -/
def StoredRow.restamp (stamp : Option Timestamp) (created : Timestamp) (row : StoredRow) : StoredRow :=
  { row with created := stamp.elim row.created fun _ => created }

/-- The operations replay from the current rows at any instant. They show the rows that the transition resolves, where
the stamped ones have that instant. -/
structure Mirrored (transition : MemoryTransition Address) (stamps : Stamps Address) : Prop where
  replays : ∀ created, ∃ rows, Replays created transition.store.current transition.ops rows ∧
    ∀ address : Address, rows[address]? = (transition.resolve address).map (StoredRow.restamp stamps[address]? created)
  stamped : ∀ (address : Address) instant, stamps[address]? = some instant →
    ∃ row, transition.resolve address = some row ∧ row.created = instant

variable [Std.TransOrd Address]

theorem mirrored_new (store : MemoryStore Address) : Mirrored (.new store) ∅ where
  replays created := by
    refine ⟨store.current, .nil _, fun address => ?_⟩
    rw [resolve_new, Std.TreeMap.getElem?_emptyc]
    exact Option.map_id'.symm
  stamped address instant found := by
    rw [Std.TreeMap.getElem?_emptyc] at found
    cases found

omit [Std.TransOrd Address] in
/-- One more operation keeps the mirror. -/
theorem Mirrored.extend {transition next : MemoryTransition Address} {stamps : Stamps Address}
    (mirrored : Mirrored transition stamps) (op : CommittedRowOp Address)
    (current : next.store.current = transition.store.current) (ops : next.ops = transition.ops ++ [op])
    (step : ∀ (created : Timestamp) (rows : RowMap Address),
      (∀ address : Address, rows[address]? =
        (transition.resolve address).map (StoredRow.restamp stamps[address]? created)) →
      Continues rows op ∧ ∃ after, Snapshot.apply rows op created = .ok after ∧
        ∀ address : Address, after[address]? = (next.resolve address).map
          (StoredRow.restamp (op.stamp stamps transition.now)[address]? created))
    (stamped : ∀ (address : Address) instant, (op.stamp stamps transition.now)[address]? = some instant →
      ∃ row, next.resolve address = some row ∧ row.created = instant) :
    Mirrored next (op.stamp stamps transition.now) where
  replays created := by
    obtain ⟨rows, replayed, same⟩ := mirrored.replays created
    obtain ⟨continues, after, applied, faces⟩ := step created rows same
    rw [current, ops]
    exact ⟨after, replayed.snoc continues applied, faces⟩
  stamped := stamped

theorem mirrored_insert {transition next : MemoryTransition Address} {stamps : Stamps Address} {address : Address}
    {value : Value} {incarnation : RowIncarnation} (mirrored : Mirrored transition stamps)
    (inserted : transition.insert address value = .ok (incarnation, next)) :
    ∃ op, next.ops = transition.ops ++ [op] ∧ Mirrored next (op.stamp stamps transition.now) := by
  simp only [MemoryTransition.insert] at inserted
  cases absent : transition.resolve address with
  | some row => rw [absent] at inserted; cases inserted
  | none =>
    rw [absent] at inserted
    simp only [MemoryStore.allocIncarnation, Except.ok.injEq, Prod.mk.injEq] at inserted
    obtain ⟨rfl, rfl⟩ := inserted
    refine ⟨.insert address (MemoryStore.token transition.store.nextIncarnation) value, rfl, ?_⟩
    refine mirrored.extend _ rfl rfl (fun created rows same => ?_) fun other instant found => ?_
    · have empty : rows[address]? = none := by rw [same, absent]; rfl
      refine ⟨?_, _, by simp only [Snapshot.apply, empty]; rfl, fun other => ?_⟩
      · rintro _ _ ⟨⟩
      rw [resolve_stage, Std.TreeMap.getElem?_insert, CommittedRowOp.stamp, getElem?_assign]
      split
      · rfl
      · exact same other
    · rw [resolve_stage]
      rw [CommittedRowOp.stamp, getElem?_assign] at found
      split
      · next here =>
          rw [if_pos here] at found
          exact ⟨_, rfl, Option.some.inj found⟩
      · next apart =>
          rw [if_neg apart] at found
          exact mirrored.stamped other instant found

theorem mirrored_update {transition next : MemoryTransition Address} {stamps : Stamps Address} {address : Address}
    {value : Value} (mirrored : Mirrored transition stamps) (updated : transition.update address value = .ok next) :
    ∃ op, next.ops = transition.ops ++ [op] ∧ Mirrored next (op.stamp stamps transition.now) := by
  simp only [MemoryTransition.update] at updated
  cases found : transition.resolve address with
  | none => rw [found] at updated; cases updated
  | some row =>
    rw [found] at updated
    obtain rfl := Except.ok.inj updated
    refine ⟨.update address row.incarnation value, rfl, ?_⟩
    refine mirrored.extend _ rfl rfl (fun created rows same => ?_) fun other instant stamp => ?_
    · have present : rows[address]? = some (row.restamp stamps[address]? created) := by rw [same, found]; rfl
      refine ⟨?_, _, by simp only [Snapshot.apply, present]; rfl, fun other => ?_⟩
      · rintro _ _ ⟨⟩
        exact ⟨_, present, rfl⟩
      · rw [resolve_stage, Std.TreeMap.getElem?_insert]
        split
        · next here =>
            rw [CommittedRowOp.stamp, ← Std.TreeMap.getElem?_congr here]
            rfl
        · exact same other
    · rw [resolve_stage]
      obtain ⟨held, shown, created⟩ := mirrored.stamped other instant stamp
      split
      · next here =>
          rw [← resolve_congr transition here, found] at shown
          exact ⟨_, rfl, by rw [← created, ← Option.some.inj shown]⟩
      · exact ⟨held, shown, created⟩

theorem mirrored_delete {transition next : MemoryTransition Address} {stamps : Stamps Address} {address : Address}
    (mirrored : Mirrored transition stamps) (deleted : transition.delete address = .ok next) :
    ∃ op, next.ops = transition.ops ++ [op] ∧ Mirrored next (op.stamp stamps transition.now) := by
  simp only [MemoryTransition.delete] at deleted
  cases found : transition.resolve address with
  | none => rw [found] at deleted; cases deleted
  | some row =>
    rw [found] at deleted
    obtain rfl := Except.ok.inj deleted
    refine ⟨.delete address row.incarnation, rfl, ?_⟩
    refine mirrored.extend _ rfl rfl (fun created rows same => ?_) fun other instant stamp => ?_
    · have present : rows[address]? = some (row.restamp stamps[address]? created) := by rw [same, found]; rfl
      refine ⟨?_, _, by simp only [Snapshot.apply, present]; rfl, fun other => ?_⟩
      · rintro _ _ ⟨⟩
        exact ⟨_, present, rfl⟩
      · rw [resolve_stage, Std.TreeMap.getElem?_erase, CommittedRowOp.stamp, getElem?_assign]
        split
        · rfl
        · exact same other
    · rw [resolve_stage]
      rw [CommittedRowOp.stamp, getElem?_assign] at stamp
      split
      · next here => rw [if_pos here] at stamp; cases stamp
      · next apart =>
          rw [if_neg apart] at stamp
          exact mirrored.stamped other instant stamp

theorem mirrored_rekey {transition next : MemoryTransition Address} {stamps : Stamps Address}
    {source target : Address} {value : Value} (mirrored : Mirrored transition stamps)
    (rekeyed : transition.rekey source target value = .ok next) :
    ∃ op, next.ops = transition.ops ++ [op] ∧ Mirrored next (op.stamp stamps transition.now) := by
  simp only [MemoryTransition.rekey] at rekeyed
  cases found : transition.resolve source with
  | none => rw [found] at rekeyed; cases rekeyed
  | some row =>
    cases free : transition.resolve target with
    | some other => rw [found, free] at rekeyed; cases rekeyed
    | none =>
      rw [found, free] at rekeyed
      obtain rfl := Except.ok.inj rekeyed
      refine ⟨.rekey source target row.incarnation value, by simp [MemoryTransition.stage], ?_⟩
      have ops : ((transition.stage source none []).stage target (some ⟨row.incarnation, row.created, value⟩)
          [.rekey source target row.incarnation value]).ops =
            transition.ops ++ [.rekey source target row.incarnation value] := by
        simp [MemoryTransition.stage]
      refine mirrored.extend _ rfl ops (fun created rows same => ?_) fun other instant stamp => ?_
      · have present : rows[source]? = some (row.restamp stamps[source]? created) := by rw [same, found]; rfl
        have empty : (rows.erase source)[target]? = none := by
          rw [Std.TreeMap.getElem?_erase]
          split
          · rfl
          · rw [same, free]; rfl
        refine ⟨?_, _, by simp only [Snapshot.apply, present, empty]; rfl, fun other => ?_⟩
        · rintro _ _ ⟨⟩
          exact ⟨_, present, rfl⟩
        · rw [resolve_stage, resolve_stage, Std.TreeMap.getElem?_insert, Std.TreeMap.getElem?_erase,
            CommittedRowOp.stamp, getElem?_assign, getElem?_assign]
          split
          · rfl
          · split
            · rfl
            · exact same other
      · rw [resolve_stage, resolve_stage]
        rw [CommittedRowOp.stamp, getElem?_assign, getElem?_assign] at stamp
        split
        · next here =>
            rw [if_pos here] at stamp
            obtain ⟨held, shown, created⟩ := mirrored.stamped source instant stamp
            rw [found] at shown
            exact ⟨_, rfl, by rw [← created, ← Option.some.inj shown]⟩
        · next apart =>
            rw [if_neg apart] at stamp
            split
            · next gone => rw [if_pos gone] at stamp; cases stamp
            · next kept =>
                rw [if_neg kept] at stamp
                exact mirrored.stamped other instant stamp

omit [Std.TransOrd Address] in
theorem stampsOf_snoc (staged : List (CommittedRowOp Address × Timestamp)) (op : CommittedRowOp Address)
    (now : Timestamp) : stampsOf (staged ++ [(op, now)]) = op.stamp (stampsOf staged) now := by
  rw [stampsOf, List.foldl_append]
  rfl

/-- Each staging mirrors its commit at any instant. -/
theorem StagingRun.mirrored {store : MemoryStore Address} {transition : MemoryTransition Address}
    {staged : List (CommittedRowOp Address × Timestamp)} (run : StagingRun store transition staged) :
    Mirrored transition (stampsOf staged) := by
  induction run with
  | begun => exact mirrored_new store
  | @call transition next staged answer asked _ stepped ih =>
    -- A call leaves the operations, or it appends one.
    have one : (∃ op, next.ops = transition.ops ++ [op] ∧
        Mirrored next (op.stamp (stampsOf staged) transition.now)) → Mirrored next (stampsOf
          (staged ++ (next.ops.drop transition.ops.length).map fun op => (op, transition.now))) := by
      rintro ⟨op, ops, mirrored⟩
      rw [ops, List.drop_left, List.map_singleton, stampsOf_snoc]
      exact mirrored
    have none : Mirrored next (stampsOf staged) → next.ops = transition.ops → Mirrored next (stampsOf
        (staged ++ (next.ops.drop transition.ops.length).map fun op => (op, transition.now))) := by
      intro mirrored ops
      rw [ops, List.drop_length, List.map_nil, List.append_nil]
      exact mirrored
    have kept : ∀ result, (∀ after, result = .ok after → ∃ op, after.ops = transition.ops ++ [op] ∧
        Mirrored after (op.stamp (stampsOf staged) transition.now)) →
          Session.staged transition result = (answer, .staging next) → Mirrored next (stampsOf
            (staged ++ (next.ops.drop transition.ops.length).map fun op => (op, transition.now))) := by
      intro result each answered
      cases result with
      | error error =>
        obtain rfl := Session.staging.inj (Prod.mk.inj answered).2
        exact none ih rfl
      | ok after =>
        obtain rfl := Session.staging.inj (Prod.mk.inj answered).2
        exact one (each after rfl)
    cases asked with
    | begin => cases stepped
    | insert address value =>
      simp only [Session.step] at stepped
      cases inserted : transition.insert address value with
      | error error =>
        rw [inserted] at stepped
        obtain rfl := Session.staging.inj (Prod.mk.inj (Option.some.inj stepped)).2
        exact none ih rfl
      | ok result =>
        rw [inserted] at stepped
        obtain rfl := Session.staging.inj (Prod.mk.inj (Option.some.inj stepped)).2
        exact one (mirrored_insert ih inserted)
    | update address value =>
      exact kept _ (fun _ => mirrored_update ih) (Option.some.inj stepped)
    | delete address => exact kept _ (fun _ => mirrored_delete ih) (Option.some.inj stepped)
    | rekey source target value =>
      exact kept _ (fun _ => mirrored_rekey ih) (Option.some.inj stepped)
    | commit => cases (Prod.mk.inj (Option.some.inj stepped)).2
    | abort => cases (Prod.mk.inj (Option.some.inj stepped)).2
    | _ =>
      obtain rfl := Session.staging.inj (Prod.mk.inj (Option.some.inj stepped)).2
      exact none ⟨ih.replays, ih.stamped⟩ rfl

end Stamps

section Reads

/-- The current rows after a commit are those that the operations leave. -/
theorem commit_current (transition : MemoryTransition RowAddress) :
    transition.commit.2.current = transition.ops.foldl
      (fun current op => MemoryStore.applyCurrent current op transition.now) transition.store.current := by
  rw [MemoryTransition.commit, MemoryStore.commitTransition]
  split
  · next empty => rw [empty.1]; rfl
  · rfl

/-- The rows after a commit are the resolved ones, where the stamped ones have the instant of the commit. -/
theorem Mirrored.committed {transition : MemoryTransition RowAddress} {stamps : Stamps RowAddress}
    (mirrored : Mirrored transition stamps) (address : RowAddress) :
    transition.commit.2.current[address]? =
      (transition.resolve address).map (StoredRow.restamp stamps[address]? transition.now) := by
  obtain ⟨rows, replayed, shown⟩ := mirrored.replays transition.now
  rw [commit_current, replayed.current, shown]

/-- A row of a scan through a transition is a resolved row of the collection. -/
theorem mem_scan_transition {transition : MemoryTransition RowAddress} {collection : CollectionPath}
    {address : RowAddress} {row : StoredRow} : (address, row) ∈ transition.scan collection ↔
      collection.contains address = true ∧ transition.resolve address = some row := by
  rw [MemoryTransition.scan, Std.TreeMap.mem_toList_iff_getElem?_eq_some, getElem?_overlaid]
  split
  · next inside => exact ⟨fun found => ⟨inside, found⟩, And.right⟩
  · next outside => exact iff_of_false nofun fun both => outside both.1

/-- The scan after a commit is that of the transition, where the stamped rows have the instant of the commit. -/
theorem Mirrored.scan {transition : MemoryTransition RowAddress} {stamps : Stamps RowAddress}
    (mirrored : Mirrored transition stamps) (collection : CollectionPath) :
    MemoryStore.scan transition.commit.2.current collection = (transition.scan collection).map fun entry =>
      (entry.1, entry.2.restamp stamps[entry.1]? transition.now) := by
  refine Codes.eq_of_strict (MemoryStore.ordered_scan ..) ?_ fun entry => ?_
  · rw [List.pairwise_map]
    exact Std.TreeMap.ordered_keys_toList
  · obtain ⟨address, row⟩ := entry
    rw [MemoryStore.mem_scan, ← decide_eq_true_iff (p := address.collection = collection), mirrored.committed,
      Option.map_eq_some_iff, List.mem_map]
    constructor
    · rintro ⟨⟨found, resolved, rfl⟩, inside⟩
      exact ⟨(address, found), mem_scan_transition.mpr ⟨inside, resolved⟩, rfl⟩
    · rintro ⟨⟨other, found⟩, listed, same⟩
      obtain ⟨rfl, rfl⟩ := Prod.mk.inj same
      obtain ⟨inside, resolved⟩ := mem_scan_transition.mp listed
      exact ⟨⟨found, resolved, rfl⟩, inside⟩

end Reads

end Liasse.Store
