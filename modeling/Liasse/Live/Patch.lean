/-
This file models the ordered patch between two row lists and the application of a patch. It proves that
the patch from one list to another gives the second list exactly.
-/

import Liasse.Codes.Listing

namespace Liasse.Live

/-- A row on the wire has its occurrence token and its exposed value. -/
structure WireRow (Occ Value : Type) where
  occ : Occ
  value : Value
deriving DecidableEq

/-- The operations of a patch. A position is an index in the list as the operation finds it. -/
inductive PatchOp (Occ Value : Type)
  | insert (position : Nat) (occ : Occ) (value : Value)
  | remove (occ : Occ)
  | move (occ : Occ) (target : Nat)
  | update (occ : Occ) (value : Value)
  | rekey (occ : Occ) (key : Value)
deriving DecidableEq

/-- The reasons for which a patch does not apply. -/
inductive ApplyError (Occ : Type)
  | unknownOccurrence (occ : Occ)
  | positionOutOfRange (position length : Nat)
  | duplicateOccurrence (occ : Occ)
deriving DecidableEq

section Definitions

variable {Occ Value : Type} [DecidableEq Occ]

/-- The occurrences of a list of rows. -/
def occs (rows : List (WireRow Occ Value)) : List Occ :=
  rows.map WireRow.occ

/-- The index of the row of an occurrence. -/
def position (rows : List (WireRow Occ Value)) (occ : Occ) :
    Except (ApplyError Occ) (Fin rows.length) :=
  match rows.findFinIdx? fun row => row.occ = occ with
  | some index => .ok index
  | none => .error (.unknownOccurrence occ)

/-- An insertion index is at most the length of the list. -/
def bounds (position length : Nat) : Except (ApplyError Occ) Unit :=
  if position > length then .error (.positionOutOfRange position length) else .ok ()

/-- The effect of one operation on the rows of a client. -/
def applyOp (rows : List (WireRow Occ Value)) :
    PatchOp Occ Value → Except (ApplyError Occ) (List (WireRow Occ Value))
  | .remove occ => do
      let index ← position rows occ
      return rows.eraseIdx index
  | .update occ value => do
      let index ← position rows occ
      return rows.modify index fun row => { row with value }
  | .move occ target => do
      let index ← position rows occ
      let row := rows.get index
      let rest := rows.eraseIdx index
      bounds target rest.length
      return rest.insertIdx target row
  | .insert index occ value =>
    if rows.any fun row => row.occ = occ then
      .error (.duplicateOccurrence occ)
    else do
      bounds index rows.length
      return rows.insertIdx index ⟨occ, value⟩
  | .rekey occ _ => do
      let _ ← position rows occ
      return rows

/-- A patch applies its operations in order. -/
def apply (rows : List (WireRow Occ Value)) (ops : List (PatchOp Occ Value)) :
    Except (ApplyError Occ) (List (WireRow Occ Value)) :=
  ops.foldlM applyOp rows

/-- The row of an occurrence in the next list. -/
def rowOf (next : List (WireRow Occ Value)) (occ : Occ) : Option (WireRow Occ Value) :=
  next.find? fun candidate => candidate.occ = occ

variable [DecidableEq Value]

/-- The first pass removes the departed occurrences and updates the values that changed. It also lists
the surviving occurrences in their old order. -/
def settle (next : List (WireRow Occ Value)) :
    List (WireRow Occ Value) → List (PatchOp Occ Value) × List Occ
  | [] => ([], [])
  | row :: prev =>
    let (ops, working) := settle next prev
    match rowOf next row.occ with
    | none => (.remove row.occ :: ops, working)
    | some after =>
      (if after.value ≠ row.value then .update after.occ after.value :: ops else ops,
        row.occ :: working)

omit [DecidableEq Value] in
/-- The second pass puts each occurrence of the next list at its index, from left to right. -/
def place : Nat → List Occ → List (WireRow Occ Value) → List (PatchOp Occ Value)
  | _, _, [] => []
  | index, working, target :: next =>
    if working[index]? = some target.occ then
      place (index + 1) working next
    else
      match working.idxOf? target.occ with
      | some current =>
        .move target.occ index ::
          place (index + 1) ((working.eraseIdx current).insertIdx index target.occ) next
      | none =>
        .insert index target.occ target.value ::
          place (index + 1) (working.insertIdx index target.occ) next

/-- The ordered patch from one row list to the next. -/
def diffRows (prev next : List (WireRow Occ Value)) : List (PatchOp Occ Value) :=
  let (ops, working) := settle next prev
  ops ++ place 0 working next

end Definitions

section Splicing

variable {α : Type*}

theorem eraseIdx_middle (done rest : List α) (row : α) :
    (done ++ row :: rest).eraseIdx done.length = done ++ rest := by
  rw [List.eraseIdx_append_of_length_le (Nat.le_refl _), Nat.sub_self, List.eraseIdx_cons_zero]

theorem insertIdx_middle (done rest : List α) (row : α) :
    (done ++ rest).insertIdx done.length row = done ++ row :: rest := by
  induction done with
  | nil => rfl
  | cons first done ih =>
    rw [List.cons_append, List.length_cons, List.insertIdx_succ_cons, ih,
      List.cons_append]

theorem modify_middle (done rest : List α) (row : α) (change : α → α) :
    (done ++ row :: rest).modify done.length change = done ++ change row :: rest := by
  induction done with
  | nil => rfl
  | cons first done ih =>
    rw [List.cons_append, List.length_cons, List.modify_succ_cons, ih,
      List.cons_append]

theorem idxOf?_middle [DecidableEq α] (before after : List α) (row : α) (fresh : row ∉ before) :
    (before ++ row :: after).idxOf? row = some before.length := by
  rw [List.idxOf?, List.findIdx?_append, List.findIdx?_eq_none_iff.mpr fun other earlier => ?_,
    List.findIdx?_cons]
  · simp
  · simpa using fun same : other = row => fresh (same ▸ earlier)

end Splicing

section Application

variable {Occ Value : Type} [DecidableEq Occ]

theorem position_split (before after : List (WireRow Occ Value)) (row : WireRow Occ Value)
    (fresh : row.occ ∉ occs before) :
    position (before ++ row :: after) row.occ =
      .ok ⟨before.length, by simp⟩ := by
  have found : (before ++ row :: after).findFinIdx? (fun other => other.occ = row.occ) =
      some ⟨before.length, by simp⟩ := by
    rw [List.findFinIdx?_eq_some_iff]
    constructor
    · simp
    · intro index earlier
      have inside : (index : Nat) < before.length := earlier
      have other : (before ++ row :: after)[index].occ ∈ occs before := by
        simp only [Fin.getElem_fin, List.getElem_append_left inside]
        exact List.mem_map_of_mem (List.getElem_mem inside)
      simp only [decide_eq_true_eq]
      intro same
      exact fresh (same ▸ other)
  rw [position, found]

theorem applyOp_remove (before after : List (WireRow Occ Value)) (row : WireRow Occ Value)
    (fresh : row.occ ∉ occs before) :
    applyOp (before ++ row :: after) (.remove row.occ) = .ok (before ++ after) := by
  rw [applyOp, position_split before after row fresh]
  exact congrArg Except.ok (eraseIdx_middle before after row)

theorem applyOp_update (before after : List (WireRow Occ Value)) (row : WireRow Occ Value)
    (value : Value) (fresh : row.occ ∉ occs before) :
    applyOp (before ++ row :: after) (.update row.occ value) =
      .ok (before ++ ⟨row.occ, value⟩ :: after) := by
  rw [applyOp, position_split before after row fresh]
  exact congrArg Except.ok (modify_middle before after row _)

theorem applyOp_move (done before after : List (WireRow Occ Value)) (row : WireRow Occ Value)
    (fresh : row.occ ∉ occs (done ++ before)) :
    applyOp (done ++ (before ++ row :: after)) (.move row.occ done.length) =
      .ok (done ++ row :: (before ++ after)) := by
  rw [← List.append_assoc, applyOp, position_split (done ++ before) after row fresh]
  have taken : ((done ++ before) ++ row :: after).get ⟨(done ++ before).length, by simp⟩ = row := by
    simp
  have rest : ((done ++ before) ++ row :: after).eraseIdx (done ++ before).length =
      done ++ (before ++ after) := by
    rw [eraseIdx_middle, List.append_assoc]
  have inRange : (bounds done.length (done ++ (before ++ after)).length :
      Except (ApplyError Occ) Unit) = .ok () :=
    if_neg (by simp only [List.length_append]; omega)
  simp only [bind, Except.bind, taken, rest, inRange, pure, Except.pure, insertIdx_middle]

theorem applyOp_insert (done rest : List (WireRow Occ Value)) (row : WireRow Occ Value)
    (fresh : row.occ ∉ occs (done ++ rest)) :
    applyOp (done ++ rest) (.insert done.length row.occ row.value) =
      .ok (done ++ row :: rest) := by
  have absent : ¬((done ++ rest).any fun other => other.occ = row.occ) = true := by
    simpa [occs] using fresh
  have inRange : (bounds done.length (done ++ rest).length : Except (ApplyError Occ) Unit) = .ok () :=
    if_neg (by simp only [List.length_append]; omega)
  rw [applyOp, if_neg absent, inRange]
  exact congrArg Except.ok (insertIdx_middle done rest row)

/-- A list of rows holds each occurrence at most once. -/
def Distinct (rows : List (WireRow Occ Value)) : Prop :=
  (occs rows).Nodup

instance (rows : List (WireRow Occ Value)) : Decidable (Distinct rows) :=
  inferInstanceAs (Decidable (occs rows).Nodup)

omit [DecidableEq Occ] in
theorem occs_append (first second : List (WireRow Occ Value)) :
    occs (first ++ second) = occs first ++ occs second :=
  List.map_append

omit [DecidableEq Occ] in
theorem Distinct.right {done rest : List (WireRow Occ Value)} (distinct : Distinct (done ++ rest)) :
    Distinct rest := by
  rw [Distinct, occs_append] at distinct
  exact (List.nodup_append.mp distinct).2.1

omit [DecidableEq Occ] in
theorem Distinct.fresh {done rest : List (WireRow Occ Value)} {row : WireRow Occ Value}
    (distinct : Distinct (done ++ row :: rest)) : row.occ ∉ occs done := by
  rw [Distinct, occs_append] at distinct
  intro earlier
  exact (List.nodup_append.mp distinct).2.2 row.occ earlier row.occ List.mem_cons_self rfl

omit [DecidableEq Occ] in
theorem Distinct.perm {first second : List (WireRow Occ Value)} (same : first.Perm second)
    (distinct : Distinct first) : Distinct second :=
  (same.map WireRow.occ).nodup_iff.mp distinct

theorem rowOf_mem {next : List (WireRow Occ Value)} (distinct : Distinct next)
    {row : WireRow Occ Value} (inside : row ∈ next) : rowOf next row.occ = some row := by
  obtain ⟨before, after, rfl⟩ := List.append_of_mem inside
  refine List.find?_eq_some_iff_append.mpr ⟨by simp, before, after, rfl, fun other earlier => ?_⟩
  have apart := (List.nodup_append.mp (by simpa [Distinct, occs] using distinct)).2.2
    other.occ (List.mem_map_of_mem earlier) row.occ List.mem_cons_self
  simpa using apart

theorem rowOf_eq_some {next : List (WireRow Occ Value)} {occ : Occ} {row : WireRow Occ Value}
    (found : rowOf next occ = some row) : row ∈ next ∧ row.occ = occ :=
  ⟨List.mem_of_find?_eq_some found, by simpa using List.find?_some found⟩

theorem eq_of_occ {next : List (WireRow Occ Value)} (distinct : Distinct next)
    {first second : WireRow Occ Value} (inFirst : first ∈ next) (inSecond : second ∈ next)
    (same : first.occ = second.occ) : first = second :=
  Option.some.inj ((rowOf_mem distinct inFirst).symm.trans
    ((congrArg (rowOf next) same).trans (rowOf_mem distinct inSecond)))

/-- The surviving rows in their old order, each with its next value. -/
def survivors (next prev : List (WireRow Occ Value)) : List (WireRow Occ Value) :=
  prev.filterMap fun row => rowOf next row.occ

theorem apply_cons (rows : List (WireRow Occ Value)) (op : PatchOp Occ Value)
    (ops : List (PatchOp Occ Value)) :
    apply rows (op :: ops) = applyOp rows op >>= fun result => apply result ops :=
  List.foldlM_cons

theorem apply_append (rows : List (WireRow Occ Value)) (first second : List (PatchOp Occ Value)) :
    apply rows (first ++ second) = apply rows first >>= fun result => apply result second :=
  List.foldlM_append

end Application

section Exactness

variable {Occ Value : Type} [DecidableEq Occ] [DecidableEq Value]

theorem settle_working (next prev : List (WireRow Occ Value)) :
    (settle next prev).2 = occs (survivors next prev) := by
  induction prev with
  | nil => rfl
  | cons row prev ih =>
    rw [settle, survivors, List.filterMap_cons]
    cases found : rowOf next row.occ with
    | none => exact ih
    | some after =>
      have same := (rowOf_eq_some found).2
      change row.occ :: _ = after.occ :: _
      rw [same, ih, occs, survivors]

/-- The first pass carries the old rows to the survivors with their next values. -/
theorem apply_settle (next prev : List (WireRow Occ Value)) (ops : List (PatchOp Occ Value))
    (distinct : Distinct prev) (kept : List (WireRow Occ Value))
    (apart : ∀ row ∈ prev, row.occ ∉ occs kept) :
    apply (kept ++ prev) ((settle next prev).1 ++ ops) =
      apply (kept ++ survivors next prev) ops := by
  induction prev generalizing kept with
  | nil => rfl
  | cons row prev ih =>
    obtain ⟨fresh, distinct⟩ := List.nodup_cons.mp distinct
    have first := apart row List.mem_cons_self
    have others := fun other inside => apart other (List.mem_cons_of_mem row inside)
    rw [settle, survivors, List.filterMap_cons]
    cases found : rowOf next row.occ with
    | none =>
      rw [List.cons_append, apply_cons, applyOp_remove kept prev row first]
      exact ih distinct kept others
    | some after =>
      have same := (rowOf_eq_some found).2
      have extended : ∀ other ∈ prev, other.occ ∉ occs (kept ++ [after]) := by
        intro other inside
        simp only [occs, List.map_append, List.mem_append, List.map_cons, List.map_nil,
          List.mem_singleton, not_or]
        refine ⟨others other inside, fun equal => fresh ?_⟩
        rw [← same, ← equal]
        exact List.mem_map_of_mem inside
      have rest := ih distinct (kept ++ [after]) extended
      rw [List.append_assoc, List.append_assoc] at rest
      by_cases changed : after.value ≠ row.value
      · simp only [if_pos changed, List.cons_append, apply_cons]
        rw [same, applyOp_update kept prev row after.value first]
        have updated : (⟨row.occ, after.value⟩ : WireRow Occ Value) = after := by rw [← same]
        rw [updated]
        exact rest
      · have unchanged : row = after := by
          cases row
          cases after
          simp_all
        simp only [if_neg changed]
        rw [unchanged]
        exact rest

omit [DecidableEq Value] in
theorem survivors_distinct (next : List (WireRow Occ Value)) {prev : List (WireRow Occ Value)}
    (distinct : Distinct prev) : Distinct (survivors next prev) := by
  induction prev with
  | nil => exact List.nodup_nil
  | cons row prev ih =>
    obtain ⟨fresh, distinct⟩ := List.nodup_cons.mp distinct
    rw [survivors, List.filterMap_cons]
    cases found : rowOf next row.occ with
    | none => exact ih distinct
    | some after =>
      refine List.nodup_cons.mpr ⟨fun again => fresh ?_, ih distinct⟩
      obtain ⟨other, inside, same⟩ := List.mem_map.mp again
      obtain ⟨old, present, kept⟩ := List.mem_filterMap.mp inside
      rw [← (rowOf_eq_some found).2, ← same, (rowOf_eq_some kept).2]
      exact List.mem_map_of_mem present

/-- The second pass carries the survivors to the next list. -/
theorem apply_place (next done rest : List (WireRow Occ Value)) (distinct : Distinct (done ++ next))
    (unique : Distinct (done ++ rest)) (kept : ∀ row ∈ rest, row ∈ next) :
    apply (done ++ rest) (place done.length (occs (done ++ rest)) next) = .ok (done ++ next) := by
  induction next generalizing done rest with
  | nil =>
    obtain rfl := List.eq_nil_iff_forall_not_mem.mpr fun row inside =>
      List.not_mem_nil (kept row inside)
    rfl
  | cons target next ih =>
    have step : ∀ rest, Distinct (done ++ target :: rest) → (∀ row ∈ rest, row ∈ target :: next) →
        apply (done ++ target :: rest)
          (place (done.length + 1) (occs (done ++ target :: rest)) next) =
            .ok (done ++ target :: next) := by
      intro rest unique kept
      have split := ih (done ++ [target]) rest (by simpa using distinct)
        (by simpa using unique) fun row inside => (List.mem_cons.mp (kept row inside)).resolve_left
          fun same => by
            subst same
            exact (List.nodup_cons.mp unique.right).1 (List.mem_map_of_mem inside)
      simpa using split
    have targets : Distinct (target :: next) := distinct.right
    rw [place]
    by_cases here : (occs (done ++ rest))[done.length]? = some target.occ
    · rw [if_pos here]
      have settled : ∃ remaining, rest = target :: remaining := by
        cases rest with
        | nil => simp [occs] at here
        | cons row remaining =>
          have same : row.occ = target.occ := by simpa [occs] using here
          have equal := eq_of_occ targets (kept row List.mem_cons_self) List.mem_cons_self same
          exact ⟨remaining, equal ▸ rfl⟩
      obtain ⟨remaining, rfl⟩ := settled
      exact step remaining unique fun row inside => kept row (List.mem_cons_of_mem target inside)
    · rw [if_neg here]
      by_cases inside : target ∈ rest
      · -- The target survives behind its index, so it moves over the rows before it.
        obtain ⟨before, after, rfl⟩ := List.append_of_mem inside
        have fresh : target.occ ∉ occs (done ++ before) := by
          rw [← List.append_assoc] at unique
          exact unique.fresh
        have listed : occs (done ++ (before ++ target :: after)) =
            occs (done ++ before) ++ target.occ :: occs after := by
          simp [occs]
        have moved : ((occs (done ++ before) ++ occs after).insertIdx done.length target.occ) =
            occs (done ++ target :: (before ++ after)) := by
          have shape := insertIdx_middle (occs done) (occs before ++ occs after) target.occ
          rw [occs, List.length_map] at shape
          simpa [occs] using shape
        rw [listed, idxOf?_middle _ _ _ fresh]
        simp only [eraseIdx_middle, moved, apply_cons, applyOp_move done before after target fresh]
        refine step (before ++ after) (unique.perm ?_) fun row inside => kept row ?_
        · exact List.Perm.append_left done List.perm_middle
        · rcases List.mem_append.mp inside with earlier | later
          · exact List.mem_append_left _ earlier
          · exact List.mem_append_right _ (List.mem_cons_of_mem target later)
      · have fresh : target.occ ∉ occs (done ++ rest) := by
          rw [occs_append, List.mem_append, not_or]
          refine ⟨distinct.fresh, fun later => ?_⟩
          obtain ⟨row, present, same⟩ := List.mem_map.mp later
          exact inside (eq_of_occ targets (kept row present) List.mem_cons_self same ▸ present)
        have inserted : (occs (done ++ rest)).insertIdx done.length target.occ =
            occs (done ++ target :: rest) := by
          have shape := insertIdx_middle (occs done) (occs rest) target.occ
          rw [occs, List.length_map] at shape
          simpa [occs] using shape
        have missing : (occs (done ++ rest)).idxOf? target.occ = none :=
          List.idxOf?_eq_none_iff.mpr fresh
        rw [missing]
        simp only [inserted, apply_cons, applyOp_insert done rest target fresh]
        refine step rest ?_ kept
        have wider : Distinct (target :: (done ++ rest)) := List.nodup_cons.mpr ⟨fresh, unique⟩
        exact wider.perm List.perm_middle.symm

/-- The patch between two lists carries the first one to the second one. -/
theorem apply_diffRows {prev next : List (WireRow Occ Value)} (oldRows : Distinct prev)
    (newRows : Distinct next) : apply prev (diffRows prev next) = .ok next := by
  have settled := apply_settle next prev (place 0 (settle next prev).2 next) oldRows []
    fun row _ => List.not_mem_nil
  have kept : ∀ row ∈ survivors next prev, row ∈ next := by
    intro row inside
    obtain ⟨old, _, found⟩ := List.mem_filterMap.mp inside
    exact (rowOf_eq_some found).1
  have placed := apply_place next [] (survivors next prev) newRows
    (survivors_distinct next oldRows) kept
  rw [List.nil_append, List.nil_append] at settled
  rw [diffRows, settled, settle_working]
  exact placed

theorem settle_self {next : List (WireRow Occ Value)} (distinct : Distinct next)
    (prev : List (WireRow Occ Value)) (kept : ∀ row ∈ prev, row ∈ next) :
    settle next prev = ([], occs prev) := by
  induction prev with
  | nil => rfl
  | cons row prev ih =>
    have found := rowOf_mem distinct (kept row List.mem_cons_self)
    have rest := ih fun other inside => kept other (List.mem_cons_of_mem row inside)
    rw [settle, rest, found]
    simp [occs]

omit [DecidableEq Value] in
theorem place_self (done next : List (WireRow Occ Value)) :
    place done.length (occs (done ++ next)) next = [] := by
  induction next generalizing done with
  | nil => rfl
  | cons target next ih =>
    rw [place, if_pos (by simp [occs])]
    simpa using ih (done ++ [target])

theorem diffRows_eq_nil {prev next : List (WireRow Occ Value)} (oldRows : Distinct prev)
    (newRows : Distinct next) : diffRows prev next = [] ↔ prev = next := by
  constructor
  · intro quiet
    have exact := apply_diffRows oldRows newRows
    rw [quiet] at exact
    exact Except.ok.inj exact
  · rintro rfl
    rw [diffRows, settle_self newRows prev fun row inside => inside]
    exact place_self [] prev

end Exactness

section Legality

variable {Occ Value : Type} [DecidableEq Occ]

/-- An operation fits a list when its position is in range, its occurrence is there, and an inserted
occurrence is not. -/
def Fits (rows : List (WireRow Occ Value)) : PatchOp Occ Value → Prop
  | .insert index occ _ => index ≤ rows.length ∧ occ ∉ occs rows
  | .move occ target => occ ∈ occs rows ∧ target < rows.length
  | .remove occ | .update occ _ | .rekey occ _ => occ ∈ occs rows

theorem position_ok {rows : List (WireRow Occ Value)} {occ : Occ} {index : Fin rows.length}
    (found : position rows occ = .ok index) : occ ∈ occs rows := by
  unfold position at found
  split at found
  · next place here =>
      have same := (List.findFinIdx?_eq_some_iff.mp here).1
      exact List.mem_map.mpr ⟨rows[place], List.getElem_mem _, by simpa using same⟩
  · exact absurd found (by simp)

omit [DecidableEq Occ] in
theorem bounds_ok {position length : Nat}
    (inRange : (bounds position length : Except (ApplyError Occ) Unit) = .ok ()) :
    position ≤ length := by
  unfold bounds at inRange
  split at inRange
  · cases inRange
  · omega

/-- An operation that applies fits the rows it applies to. -/
theorem fits_of_applyOp {rows result : List (WireRow Occ Value)} {op : PatchOp Occ Value}
    (applied : applyOp rows op = .ok result) : Fits rows op := by
  cases op with
  | insert index occ value =>
    rw [applyOp] at applied
    split at applied
    · cases applied
    · next absent =>
        obtain ⟨_, inRange, _⟩ := Codes.bind_ok.mp applied
        refine ⟨bounds_ok inRange, fun present => absent ?_⟩
        obtain ⟨row, inside, same⟩ := List.mem_map.mp present
        exact List.any_eq_true.mpr ⟨row, inside, by simpa using same⟩
  | move occ target =>
    obtain ⟨index, found, rest⟩ := Codes.bind_ok.mp applied
    obtain ⟨_, inRange, _⟩ := Codes.bind_ok.mp rest
    have space := bounds_ok inRange
    rw [List.length_eraseIdx_of_lt index.isLt] at space
    refine ⟨position_ok found, ?_⟩
    have least := index.isLt
    omega
  | remove occ =>
    obtain ⟨_, found, _⟩ := Codes.bind_ok.mp applied
    exact position_ok found
  | update occ value =>
    obtain ⟨_, found, _⟩ := Codes.bind_ok.mp applied
    exact position_ok found
  | rekey occ key =>
    obtain ⟨_, found, _⟩ := Codes.bind_ok.mp applied
    exact position_ok found

/-- Each operation of a patch that applies fits the rows it meets. -/
theorem fits_of_apply {rows result : List (WireRow Occ Value)} {first rest : List (PatchOp Occ Value)}
    {op : PatchOp Occ Value} (applied : apply rows (first ++ op :: rest) = .ok result) :
    ∃ met, apply rows first = .ok met ∧ Fits met op := by
  rw [apply_append] at applied
  cases reached : apply rows first with
  | error error => rw [reached] at applied; cases applied
  | ok met =>
    rw [reached] at applied
    change apply met (op :: rest) = _ at applied
    rw [apply_cons] at applied
    cases stepped : applyOp met op with
    | error error => rw [stepped] at applied; cases applied
    | ok _ => exact ⟨met, rfl, fits_of_applyOp stepped⟩

end Legality

end Liasse.Live
