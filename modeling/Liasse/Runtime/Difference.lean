/-
This file proves what the difference of a working copy does.
-/

import Liasse.Codes.Related
import Liasse.Runtime.State
import Liasse.Store.Agreement

namespace Liasse.Runtime

open Liasse.Codes Liasse.Store

section Application

namespace Change

/-- The address of a change. -/
def address : Change → RowAddress
  | .insert address _ => address
  | .update address _ => address
  | .delete address => address

/-- The value that a change leaves at its address. -/
def written : Change → Option Value
  | .insert _ value => some value
  | .update _ value => some value
  | .delete _ => none

/-- The rows after a change. -/
def apply (rows : Std.ExtTreeMap RowAddress Value compare) : Change → Std.ExtTreeMap RowAddress Value compare
  | .insert address value => rows.insert address value
  | .update address value => rows.insert address value
  | .delete address => rows.erase address

theorem getElem?_apply (rows : Std.ExtTreeMap RowAddress Value compare) (change : Change) (address : RowAddress) :
    (change.apply rows)[address]? = if change.address = address then change.written else rows[address]? := by
  split
  next same =>
    subst same
    cases change with
    | insert address value | update address value => exact Std.ExtTreeMap.getElem?_insert_self
    | delete address => exact Std.ExtTreeMap.getElem?_erase_self
  next other =>
    cases change with
    | insert address value | update address value => exact getElem?_insert_of_ne (Ne.symm other)
    | delete address => exact getElem?_erase_of_ne (Ne.symm other)

/-- Changes of other addresses leave a row. -/
theorem getElem?_foldl_of_absent {changes : List Change} {address : RowAddress}
    (absent : ∀ change ∈ changes, change.address ≠ address) (rows : Std.ExtTreeMap RowAddress Value compare) :
    (changes.foldl Change.apply rows)[address]? = rows[address]? := by
  induction changes generalizing rows with
  | nil => rfl
  | cons change changes ih =>
    rw [List.foldl_cons, ih fun other listed => absent other (List.mem_cons_of_mem _ listed),
      getElem?_apply, if_neg (absent change List.mem_cons_self)]

/-- The one change of an address decides its row. -/
theorem getElem?_foldl_of_mem {changes : List Change} (distinct : (changes.map address).Nodup) {change : Change}
    (listed : change ∈ changes) (rows : Std.ExtTreeMap RowAddress Value compare) :
    (changes.foldl Change.apply rows)[change.address]? = change.written := by
  induction changes generalizing rows with
  | nil => cases listed
  | cons first changes ih =>
    rw [List.map_cons, List.nodup_cons] at distinct
    rw [List.foldl_cons]
    rcases List.mem_cons.mp listed with rfl | later
    · rw [getElem?_foldl_of_absent fun other inside same => distinct.1 (List.mem_map.mpr ⟨other, inside, same⟩),
        getElem?_apply, if_pos rfl]
    · exact ih distinct.2 later _

end Change

end Application

section Differences

namespace Prospective

variable (prospective : Prospective)

/-- The change of a working row. -/
def changed (row : RowAddress × FieldMap) : Option Change :=
  match prospective.committed[row.1]? with
  | some prior =>
    if (prior == structOf row.2) = true then none else some (.update row.1 (structOf row.2))
  | none => some (.insert row.1 (structOf row.2))

theorem diff_eq :
    prospective.diff = prospective.working.toList.filterMap prospective.changed ++
      (prospective.committed.keys.filter fun address => address ∉ prospective.working).map Change.delete :=
  rfl

variable {prospective}

theorem address_of_changed {row : RowAddress × FieldMap} {change : Change}
    (found : prospective.changed row = some change) : change.address = row.1 := by
  unfold changed at found
  split at found
  · split at found
    · cases found
    · rw [← Option.some.inj found]
      rfl
  · rw [← Option.some.inj found]
    rfl

theorem written_of_changed {row : RowAddress × FieldMap} {change : Change}
    (found : prospective.changed row = some change) : change.written = some (structOf row.2) := by
  unfold changed at found
  split at found
  · split at found
    · cases found
    · rw [← Option.some.inj found]
      rfl
  · rw [← Option.some.inj found]
    rfl

/-- A change is that of a working row, or the deletion of a committed row that is not one. -/
theorem mem_diff {change : Change} :
    change ∈ prospective.diff ↔
      (∃ address fields, prospective.working[address]? = some fields ∧
        prospective.changed (address, fields) = some change) ∨
      ∃ address, address ∈ prospective.committed ∧ address ∉ prospective.working ∧ change = .delete address := by
  rw [diff_eq, List.mem_append, List.mem_filterMap, List.mem_map]
  refine or_congr ?_ ?_
  · constructor
    · rintro ⟨⟨address, fields⟩, listed, found⟩
      exact ⟨address, fields, Std.ExtTreeMap.mem_toList_iff_getElem?_eq_some.mp listed, found⟩
    · rintro ⟨address, fields, stored, found⟩
      exact ⟨(address, fields), Std.ExtTreeMap.mem_toList_iff_getElem?_eq_some.mpr stored, found⟩
  · constructor
    · rintro ⟨address, listed, rfl⟩
      obtain ⟨kept, dropped⟩ := List.mem_filter.mp listed
      exact ⟨address, Std.ExtTreeMap.mem_keys.mp kept, of_decide_eq_true dropped, rfl⟩
    · rintro ⟨address, kept, dropped, rfl⟩
      exact ⟨address, List.mem_filter.mpr ⟨Std.ExtTreeMap.mem_keys.mpr kept, decide_eq_true dropped⟩, rfl⟩

theorem address_sublist (rows : List (RowAddress × FieldMap)) :
    ((rows.filterMap prospective.changed).map Change.address).Sublist (rows.map Prod.fst) := by
  induction rows with
  | nil => exact .slnil
  | cons row rows ih =>
    cases found : prospective.changed row with
    | none =>
      rw [List.filterMap_cons_none found]
      exact ih.cons _
    | some change =>
      rw [List.filterMap_cons_some found, List.map_cons, List.map_cons, address_of_changed found]
      exact ih.cons_cons _

/-- The difference has at most one change of each address. -/
theorem distinct_diff : (prospective.diff.map Change.address).Nodup := by
  rw [diff_eq, List.map_append, List.nodup_append']
  refine ⟨?_, ?_, ?_⟩
  · refine (address_sublist _).nodup ?_
    rw [Std.ExtTreeMap.map_fst_toList_eq_keys]
    exact Std.ExtTreeMap.nodup_keys
  · rw [List.map_map]
    have same : Change.address ∘ Change.delete = id := rfl
    rw [same, List.map_id]
    exact Std.ExtTreeMap.nodup_keys.filter _
  · intro address changed deleted
    have listed := (address_sublist _).subset changed
    rw [Std.ExtTreeMap.map_fst_toList_eq_keys, Std.ExtTreeMap.mem_keys] at listed
    obtain ⟨change, inside, rfl⟩ := List.mem_map.mp deleted
    obtain ⟨address, kept, rfl⟩ := List.mem_map.mp inside
    exact of_decide_eq_true (List.mem_filter.mp kept).2 listed

/-- A working row that is equal to its committed row has no change. -/
theorem still_of_equal {address : RowAddress} {fields : FieldMap} {prior : Value}
    (stored : prospective.working[address]? = some fields) (known : prospective.committed[address]? = some prior)
    (equal : (prior == structOf fields) = true) {change : Change} (listed : change ∈ prospective.diff) :
    change.address ≠ address := by
  rcases mem_diff.mp listed with ⟨other, held, found, made⟩ | ⟨other, -, absent, rfl⟩
  · rw [address_of_changed made]
    rintro rfl
    obtain rfl := Option.some.inj (stored.symm.trans found)
    rw [changed, known] at made
    dsimp only at made
    rw [if_pos equal] at made
    cases made
  · rintro rfl
    have present := congrArg Option.isSome stored
    exact absent (Std.ExtTreeMap.mem_iff_isSome_getElem?.mpr present)

/-- A stored value is the row with some fields. -/
def Shows (stored : Option Value) (fields : Option FieldMap) : Prop :=
  match stored, fields with
  | some value, some fields => (value == structOf fields) = true
  | none, none => True
  | _, _ => False

/-- The changes turn the committed rows into the working rows. -/
theorem shows_diff (address : RowAddress) :
    Shows (prospective.diff.foldl Change.apply prospective.committed)[address]? prospective.working[address]? := by
  have equalSelf : ∀ value : Value, (value == value) = true := fun value => BEq.rfl
  cases stored : prospective.working[address]? with
  | some fields =>
    cases made : prospective.changed (address, fields) with
    | some change =>
      have listed := mem_diff.mpr (.inl ⟨address, fields, stored, made⟩)
      have here : change.address = address := address_of_changed made
      have result := Change.getElem?_foldl_of_mem distinct_diff listed prospective.committed
      rw [here, written_of_changed made] at result
      rw [result]
      exact equalSelf _
    | none =>
      unfold changed at made
      split at made
      · next prior known =>
          split at made
          · next equal =>
              rw [Change.getElem?_foldl_of_absent (fun change => still_of_equal stored known equal), known]
              exact equal
          · cases made
      · cases made
  | none =>
    have absent : address ∉ prospective.working := fun present => by
      rw [Std.ExtTreeMap.mem_iff_isSome_getElem?, stored] at present
      cases present
    by_cases kept : address ∈ prospective.committed
    · have listed := mem_diff.mpr (.inr ⟨address, kept, absent, rfl⟩)
      have result := Change.getElem?_foldl_of_mem distinct_diff listed prospective.committed
      have erased : (prospective.diff.foldl Change.apply prospective.committed)[address]? = none := result
      rw [erased]
      trivial
    · rw [Change.getElem?_foldl_of_absent]
      · have none : prospective.committed[address]? = none := by
          rw [Std.ExtTreeMap.mem_iff_isSome_getElem?, Bool.not_eq_true, Option.isSome_eq_false_iff] at kept
          exact Option.isNone_iff_eq_none.mp kept
        rw [none]
        trivial
      · intro change listed same
        rcases mem_diff.mp listed with ⟨other, held, found, made⟩ | ⟨other, present, -, rfl⟩
        · obtain rfl := (address_of_changed made).symm.trans same
          rw [stored] at found
          cases found
        · exact kept (same ▸ present)

end Prospective

end Differences

section Staging

/-- The staging of a change. -/
def Change.stage (transition : MemoryTransition RowAddress) :
    Change → Except (StoreError RowAddress) (MemoryTransition RowAddress)
  | .insert address value => (transition.insert address value).map Prod.snd
  | .update address value => transition.update address value
  | .delete address => transition.delete address

/-- The staging of some changes in their order. -/
def stage (transition : MemoryTransition RowAddress) (changes : List Change) :
    Except (StoreError RowAddress) (MemoryTransition RowAddress) :=
  changes.foldlM Change.stage transition

/-- An insertion needs an absent row, and an update or a deletion needs a live one. -/
def Change.Admitted (row : Option StoredRow) : Change → Prop
  | .insert _ _ => row = none
  | .update _ _ => row ≠ none
  | .delete _ => row ≠ none

/-- The staging of a change succeeds exactly when the transition admits it. -/
theorem Change.stage_ok_iff (change : Change) (transition : MemoryTransition RowAddress) :
    (∃ next, change.stage transition = .ok next) ↔ change.Admitted (transition.resolve change.address) := by
  cases change with
  | insert address value =>
    rw [Change.stage, MemoryTransition.insert, Change.Admitted, Change.address]
    cases transition.resolve address with
    | none => exact iff_of_true ⟨_, rfl⟩ rfl
    | some row => exact iff_of_false (by rintro ⟨_, ⟨⟩⟩) (Option.some_ne_none row)
  | update address value =>
    rw [Change.stage, MemoryTransition.update, Change.Admitted, Change.address]
    cases transition.resolve address with
    | none => exact iff_of_false (by rintro ⟨_, ⟨⟩⟩) (not_not_intro rfl)
    | some row => exact iff_of_true ⟨_, rfl⟩ (Option.some_ne_none row)
  | delete address =>
    rw [Change.stage, MemoryTransition.delete, Change.Admitted, Change.address]
    cases transition.resolve address with
    | none => exact iff_of_false (by rintro ⟨_, ⟨⟩⟩) (not_not_intro rfl)
    | some row => exact iff_of_true ⟨_, rfl⟩ (Option.some_ne_none row)

/-- A staged change leaves the rows of other addresses. -/
theorem Change.resolve_of_stage {change : Change} {transition next : MemoryTransition RowAddress}
    (staged : change.stage transition = .ok next) {other : RowAddress} (apart : change.address ≠ other) :
    next.resolve other = transition.resolve other := by
  have different : ¬ compare change.address other = .eq := fun same => apart (Std.LawfulEqOrd.eq_of_compare same)
  cases change with
  | insert address value =>
    rw [Change.address] at different
    obtain ⟨⟨incarnation, made⟩, inserted, rfl⟩ := map_ok.mp staged
    rw [MemoryTransition.insert] at inserted
    split at inserted
    · cases inserted
    · obtain ⟨-, rfl⟩ := Prod.mk.inj (Except.ok.inj inserted)
      rw [resolve_stage, if_neg different]
      rfl
  | update address value =>
    rw [Change.address] at different
    rw [Change.stage, MemoryTransition.update] at staged
    split at staged
    · cases staged
    · rw [← Except.ok.inj staged, resolve_stage, if_neg different]
  | delete address =>
    rw [Change.address] at different
    rw [Change.stage, MemoryTransition.delete] at staged
    split at staged
    · cases staged
    · rw [← Except.ok.inj staged, resolve_stage, if_neg different]

/-- The staging of changes of different addresses succeeds exactly when the transition admits each. -/
theorem stage_ok_iff {changes : List Change} (distinct : (changes.map Change.address).Nodup)
    (transition : MemoryTransition RowAddress) :
    (∃ staged, stage transition changes = .ok staged) ↔
      ∀ change ∈ changes, change.Admitted (transition.resolve change.address) := by
  induction changes generalizing transition with
  | nil => exact iff_of_true ⟨transition, rfl⟩ (by rintro _ ⟨⟩)
  | cons change changes ih =>
    rw [List.map_cons, List.nodup_cons] at distinct
    rw [List.forall_mem_cons, ← change.stage_ok_iff transition]
    have later : ∀ next, change.stage transition = .ok next →
        ((∃ staged, stage next changes = .ok staged) ↔
          ∀ other ∈ changes, other.Admitted (transition.resolve other.address)) := by
      intro next staged
      rw [ih distinct.2 next]
      refine forall₂_congr fun other listed => ?_
      rw [Change.resolve_of_stage staged fun same =>
        distinct.1 (List.mem_map.mpr ⟨other, listed, same.symm⟩)]
    constructor
    · rintro ⟨staged, done⟩
      rw [stage, List.foldlM_cons] at done
      obtain ⟨next, first, rest⟩ := bind_ok.mp done
      exact ⟨⟨next, first⟩, (later next first).mp ⟨staged, rest⟩⟩
    · rintro ⟨⟨next, first⟩, others⟩
      obtain ⟨staged, rest⟩ := (later next first).mpr others
      refine ⟨staged, ?_⟩
      rw [stage, List.foldlM_cons]
      exact bind_ok.mpr ⟨next, first, rest⟩

end Staging

section Editing

/-- Whether a row is there after some edits. -/
def kept (address : RowAddress) (requested : List Edit) (before : Bool) : Bool :=
  requested.foldl (fun held change =>
    match change with
    | .insert other _ => held || other = address
    | .replace other _ => held || other = address
    | .remove other => held && other ≠ address
    | .nextGeneration => held) before

namespace Prospective

/-- Edits leave the committed rows. -/
theorem committed_edits (prospective : Prospective) (requested : List Edit) :
    (prospective.edits requested).committed = prospective.committed := by
  induction requested generalizing prospective with
  | nil => rfl
  | cons change later ih =>
    rw [edits, List.foldl_cons]
    exact (ih _).trans (by cases change <;> rfl)

/-- A row is there after some edits exactly when the last edit of its address leaves it there. -/
theorem mem_working_edits (prospective : Prospective) (requested : List Edit) (address : RowAddress) :
    address ∈ (prospective.edits requested).working ↔
      kept address requested (decide (address ∈ prospective.working)) = true := by
  induction requested generalizing prospective with
  | nil => exact decide_eq_true_iff.symm
  | cons change later ih =>
    rw [edits, List.foldl_cons]
    refine (ih _).trans ?_
    rw [kept, kept, List.foldl_cons]
    cases change with
    | insert other fields | replace other fields =>
      have here : (address ∈ (prospective.working.insert other fields)) ↔
          address ∈ prospective.working ∨ other = address := by
        rw [Std.ExtTreeMap.mem_insert, Std.LawfulEqOrd.compare_eq_iff_eq, or_comm]
      have same : decide (address ∈ (prospective.working.insert other fields)) =
          (decide (address ∈ prospective.working) || decide (other = address)) := by
        rw [← Bool.decide_or]
        exact decide_eq_decide.mpr here
      exact iff_of_eq (congrArg (fun start => List.foldl _ start later = true) same)
    | remove other =>
      have here : (address ∈ prospective.working.erase other) ↔
          address ∈ prospective.working ∧ other ≠ address := by
        rw [Std.ExtTreeMap.mem_erase, ne_eq, Std.LawfulEqOrd.compare_eq_iff_eq, and_comm]
      have same : decide (address ∈ prospective.working.erase other) =
          (decide (address ∈ prospective.working) && decide (other ≠ address)) := by
        rw [← Bool.decide_and]
        exact decide_eq_decide.mpr here
      exact iff_of_eq (congrArg (fun start => List.foldl _ start later = true) same)
    | nextGeneration => exact Iff.rfl

end Prospective

end Editing

section Gathering

variable {compiled : Compiled} {rows : RowMap RowAddress}

theorem mem_ofList_scan {γ : Type} (shown : RowAddress × StoredRow → γ) (address : RowAddress) :
    address ∈ Std.ExtTreeMap.ofList
        ((Prospective.scan compiled rows).map fun row => (row.1, shown row)) compare ↔
      address ∈ rows ∧ compiled.gathers rows address = true := by
  rw [Std.ExtTreeMap.mem_ofList, List.contains_iff_mem, List.map_map, List.mem_map]
  constructor
  · rintro ⟨row, listed, rfl⟩
    obtain ⟨inside, gathered⟩ := List.mem_filter.mp listed
    have stored := congrArg Option.isSome (Std.TreeMap.mem_toList_iff_getElem?_eq_some.mp inside)
    exact ⟨Std.TreeMap.mem_iff_isSome_getElem?.mpr stored, gathered⟩
  · rintro ⟨present, gathered⟩
    obtain ⟨row, stored⟩ := Option.isSome_iff_exists.mp (Std.TreeMap.mem_iff_isSome_getElem?.mp present)
    exact ⟨(address, row), List.mem_filter.mpr ⟨Std.TreeMap.mem_toList_iff_getElem?_eq_some.mpr stored, gathered⟩, rfl⟩

/-- The gathering copies the live rows that it visits. -/
theorem mem_committed_gather (address : RowAddress) :
    address ∈ (Prospective.gather compiled rows).committed ↔
      address ∈ rows ∧ compiled.gathers rows address = true :=
  mem_ofList_scan (fun row => row.2.value) address

theorem mem_working_gather (address : RowAddress) :
    address ∈ (Prospective.gather compiled rows).working ↔
      address ∈ rows ∧ compiled.gathers rows address = true :=
  mem_ofList_scan (fun row => fieldsOf row.2.value) address

/-- A begun transition that is given an instant. -/
def begun (store : MemoryStore RowAddress) (now : Timestamp) : MemoryTransition RowAddress :=
  { MemoryTransition.new store with now := now }

/-- The store stages the difference of a working copy exactly when each inserted row is absent from it. -/
theorem stage_diff_iff {store : MemoryStore RowAddress} {now : Timestamp} {prospective : Prospective}
    (committed : ∀ address, address ∈ prospective.committed → address ∈ store.current) :
    (∃ staged, stage (begun store now) prospective.diff = .ok staged) ↔
      ∀ address, address ∈ prospective.working → address ∉ prospective.committed → address ∉ store.current := by
  have resolved : ∀ address, (begun store now).resolve address = store.current[address]? := resolve_new store
  have live : ∀ address, (begun store now).resolve address ≠ none ↔ address ∈ store.current := by
    intro address
    rw [resolved, Std.TreeMap.mem_iff_isSome_getElem?, Option.isSome_iff_ne_none]
  rw [stage_ok_iff Prospective.distinct_diff]
  constructor
  · intro admitted address present fresh
    obtain ⟨fields, stored⟩ := Option.isSome_iff_exists.mp (Std.ExtTreeMap.mem_iff_isSome_getElem?.mp present)
    have none : prospective.committed[address]? = none := by
      rw [Std.ExtTreeMap.mem_iff_isSome_getElem?, Bool.not_eq_true, Option.isSome_eq_false_iff] at fresh
      exact Option.isNone_iff_eq_none.mp fresh
    have made : prospective.changed (address, fields) = some (.insert address (structOf fields)) := by
      rw [Prospective.changed, none]
    have free := admitted _ (Prospective.mem_diff.mpr (.inl ⟨address, fields, stored, made⟩))
    exact fun inside => (live address).mpr inside free
  · intro fresh change listed
    rcases Prospective.mem_diff.mp listed with ⟨address, fields, stored, made⟩ | ⟨address, present, -, rfl⟩
    · unfold Prospective.changed at made
      split at made
      · next prior known =>
          split at made
          · cases made
          · obtain rfl := Option.some.inj made
            exact (live address).mpr (committed address (Std.ExtTreeMap.mem_iff_isSome_getElem?.mpr (by rw [known]; rfl)))
      · next unknown =>
          obtain rfl := Option.some.inj made
          have present : address ∈ prospective.working :=
            Std.ExtTreeMap.mem_iff_isSome_getElem?.mpr (by rw [stored]; rfl)
          have absent : address ∉ prospective.committed := fun inside => by
            rw [Std.ExtTreeMap.mem_iff_isSome_getElem?, unknown] at inside
            cases inside
          exact not_not.mp fun held => fresh address present absent ((live address).mp held)
    · exact (live address).mpr (committed address present)

/-- The difference of a working copy turns the committed rows into the working rows, with at most one change of each
address and none of an equal row, and the store stages it. -/
structure FaithfulDiff (prospective : Prospective) (store : MemoryStore RowAddress) (now : Timestamp) : Prop where
  shows : ∀ address : RowAddress, Prospective.Shows
    (prospective.diff.foldl Change.apply prospective.committed)[address]? prospective.working[address]?
  distinct : (prospective.diff.map Change.address).Nodup
  still : ∀ (address : RowAddress) (fields : FieldMap) (prior : Value), prospective.working[address]? = some fields →
    prospective.committed[address]? = some prior → (prior == structOf fields) = true →
      ∀ change ∈ prospective.diff, change.address ≠ address
  staged : ∃ staged, stage (begun store now) prospective.diff = .ok staged

/-- The difference of an edited working copy is faithful exactly when the edits leave no row at a live address that the
gathering missed. -/
theorem faithful_iff (compiled : Compiled) (store : MemoryStore RowAddress) (now : Timestamp)
    (requested : List Edit) :
    FaithfulDiff ((Prospective.gather compiled store.current).edits requested) store now ↔
      ∀ address ∈ store.current, compiled.gathers store.current address = false →
        kept address requested false = false := by
  have base := Prospective.committed_edits (Prospective.gather compiled store.current) requested
  have committed : ∀ address,
      address ∈ ((Prospective.gather compiled store.current).edits requested).committed →
        address ∈ store.current := by
    intro address present
    rw [base] at present
    exact ((mem_committed_gather address).mp present).1
  have missed : (∃ staged,
      stage (begun store now) ((Prospective.gather compiled store.current).edits requested).diff = .ok staged) ↔
        ∀ address ∈ store.current, compiled.gathers store.current address = false →
          kept address requested false = false := by
    rw [stage_diff_iff committed]
    refine forall_congr' fun address => ?_
    have before : compiled.gathers store.current address = false →
        decide (address ∈ (Prospective.gather compiled store.current).working) = false := by
      intro missing
      rw [decide_eq_false_iff_not, mem_working_gather, missing]
      exact fun both => Bool.false_ne_true both.2
    rw [Prospective.mem_working_edits, base, mem_committed_gather]
    constructor
    · intro fresh live missing
      by_contra written
      rw [Bool.not_eq_false] at written
      refine fresh ?_ (fun both => Bool.false_ne_true (missing.symm.trans both.2)) live
      rw [before missing]
      exact written
    · intro unwritten written apart live
      have missing : compiled.gathers store.current address = false :=
        Bool.eq_false_iff.mpr fun gathered => apart ⟨live, gathered⟩
      rw [before missing, unwritten live missing] at written
      exact Bool.false_ne_true written
  rw [← missed]
  exact ⟨FaithfulDiff.staged, fun staged => ⟨Prospective.shows_diff, Prospective.distinct_diff,
    fun _ _ _ stored known equal _ listed => Prospective.still_of_equal stored known equal listed, staged⟩⟩

end Gathering

section Orphans

/-- The commit of the difference that some edits make. -/
def admitEdits (compiled : Compiled) (store : MemoryStore RowAddress) (now : Timestamp) (requested : List Edit) :
    Except (StoreError RowAddress) (MemoryStore RowAddress) := do
  let staged ← stage (begun store now) ((Prospective.gather compiled store.current).edits requested).diff
  pure staged.commit.2

/-- A collection of companies with their offices. -/
def companyCompiled : Compiled where
  collections := [⟨"companies", [], [], [], [], [], [⟨"offices", [], [], [], [], [], []⟩]⟩]
  rootSingleton := ⟨rootName, [], [], [], [], [], []⟩
  buckets := []
  spends := []
  poolQuantities := fun _ _ => .ok ⟨⟩
  mutations := []
  divisionRounding := .halfAwayFromZero

def acme : RowAddress :=
  .root ⟨"companies", .composite (.int 1) []⟩

def paris : RowAddress :=
  acme.child ⟨"offices", .composite (.int 2) []⟩

/-- A company and its office. -/
def founding : List Edit :=
  [.insert acme ∅, .insert paris ∅]

/-- The office of a company stays in the store when only the company is removed. The gathering misses it then, so the
store rejects the rows of the company and its office. -/
theorem orphan_conflicts :
    ∃ first second, admitEdits companyCompiled .new defaultNow founding = .ok first ∧
      admitEdits companyCompiled first defaultNow [.remove acme] = .ok second ∧ paris ∈ second.current ∧
        ¬ FaithfulDiff ((Prospective.gather companyCompiled second.current).edits founding) second defaultNow := by
  have orphaned : (((admitEdits companyCompiled .new defaultNow founding).bind fun first =>
      admitEdits companyCompiled first defaultNow [.remove acme]).toOption.map fun second =>
        second.current.contains paris) = some true := by decide +kernel
  have refused : (((admitEdits companyCompiled .new defaultNow founding).bind fun first =>
      admitEdits companyCompiled first defaultNow [.remove acme]).bind fun second =>
        admitEdits companyCompiled second defaultNow founding).toOption.isNone = true := by decide +kernel
  cases founded : admitEdits companyCompiled .new defaultNow founding with
  | error fault =>
    rw [founded] at orphaned
    cases orphaned
  | ok first =>
    rw [founded] at orphaned refused
    change (admitEdits companyCompiled first defaultNow [.remove acme]).toOption.map _ = _ at orphaned
    change ((admitEdits companyCompiled first defaultNow [.remove acme]).bind _).toOption.isNone = _ at refused
    cases removed : admitEdits companyCompiled first defaultNow [.remove acme] with
    | error fault =>
      rw [removed] at orphaned
      cases orphaned
    | ok second =>
      rw [removed] at orphaned refused
      refine ⟨first, second, rfl, removed, Option.some.inj orphaned, fun faithful => ?_⟩
      obtain ⟨staged, done⟩ := faithful.staged
      have admitted : admitEdits companyCompiled second defaultNow founding = .ok staged.commit.2 :=
        bind_ok.mpr ⟨staged, done, rfl⟩
      change (admitEdits companyCompiled second defaultNow founding).toOption.isNone = _ at refused
      rw [admitted] at refused
      cases refused

end Orphans

end Liasse.Runtime
