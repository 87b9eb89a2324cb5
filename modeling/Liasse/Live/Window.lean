/-
This file models the rows of a view result with their total order, the patch between two results and the bounded window
that a client keeps.
-/

import Liasse.Live.Patch

namespace Liasse.Live

/-- A row of a view result has its identity, its exposed fields in name order and the sort tuple that
placed it. -/
structure ViewRow (RowId Value : Type) where
  id : RowId
  fields : List (String × Value)
  sortTuple : List Value
deriving DecidableEq

/-- The operations of the runtime carry whole rows. -/
inductive ViewOp (RowId Value : Type)
  | insert (position : Nat) (row : ViewRow RowId Value)
  | remove (id : RowId)
  | move (id : RowId) (target : Nat)
  | update (row : ViewRow RowId Value)
  | rekey (id : RowId) (key : Value)
deriving DecidableEq

section Definitions

variable {RowId Value : Type} [DecidableEq RowId]

/-- The map of the next rows by identity. A later row replaces an earlier one of its identity. -/
def nextById (next : List (ViewRow RowId Value)) (id : RowId) : Option (ViewRow RowId Value) :=
  next.reverse.find? fun row => row.id = id

variable [DecidableEq Value]

/-- Two rows expose the same value. Their sort tuples do not count. -/
def ViewRow.sameValue (first second : ViewRow RowId Value) : Bool :=
  first.fields = second.fields

/-- The first pass of the runtime removes the departed rows and updates the rows that changed. -/
def settleView (next : List (ViewRow RowId Value)) :
    List (ViewRow RowId Value) → List (ViewOp RowId Value) × List RowId
  | [] => ([], [])
  | row :: prev =>
    let (ops, working) := settleView next prev
    match nextById next row.id with
    | none => (.remove row.id :: ops, working)
    | some after => (if row.sameValue after then ops else .update after :: ops, row.id :: working)

omit [DecidableEq Value] in
/-- The second pass of the runtime puts each next row at its index. -/
def placeView : Nat → List RowId → List (ViewRow RowId Value) → List (ViewOp RowId Value)
  | _, _, [] => []
  | index, working, target :: next =>
    if working[index]? = some target.id then
      placeView (index + 1) working next
    else
      match working.idxOf? target.id with
      | some current =>
        .move target.id index ::
          placeView (index + 1) ((working.eraseIdx current).insertIdx index target.id) next
      | none =>
        .insert index target ::
          placeView (index + 1) (working.insertIdx index target.id) next

/-- The runtime's ordered patch from one result to the next. -/
def diff (prev next : List (ViewRow RowId Value)) : List (ViewOp RowId Value) :=
  let (ops, working) := settleView next prev
  ops ++ placeView 0 working next

end Definitions

section Renaming

variable {RowId Value Occ Wire : Type}

/-- The wire row of a view row under a renaming of the identities and a rendering of the fields. -/
def wireRow (rename : RowId → Occ) (render : List (String × Value) → Wire)
    (row : ViewRow RowId Value) : WireRow Occ Wire :=
  ⟨rename row.id, render row.fields⟩

/-- The wire operation of an operation of the runtime. -/
def wireOp (rename : RowId → Occ) (render : List (String × Value) → Wire) (renderKey : Value → Wire) :
    ViewOp RowId Value → PatchOp Occ Wire
  | .insert index row => .insert index (rename row.id) (render row.fields)
  | .remove id => .remove (rename id)
  | .move id target => .move (rename id) target
  | .update row => .update (rename row.id) (render row.fields)
  | .rekey id key => .rekey (rename id) (renderKey key)

end Renaming

section Agreement

variable {RowId Value Occ Wire : Type} [DecidableEq RowId] [DecidableEq Value] [DecidableEq Occ]
  [DecidableEq Wire]

/-- The rows of a result have different identities. -/
def DistinctIds (rows : List (ViewRow RowId Value)) : Prop :=
  (rows.map ViewRow.id).Nodup

/-- A rendering is faithful between two results when it tells the fields of two rows of one identity
apart exactly when the fields differ. -/
def Faithful (render : List (String × Value) → Wire) (prev next : List (ViewRow RowId Value)) : Prop :=
  ∀ before ∈ prev, ∀ after ∈ next, before.id = after.id →
    (render after.fields = render before.fields ↔ before.fields = after.fields)

omit [DecidableEq RowId] [DecidableEq Value] [DecidableEq Occ] [DecidableEq Wire] in
theorem distinct_wireRows {rename : RowId → Occ} (injective : Function.Injective rename)
    (render : List (String × Value) → Wire) {rows : List (ViewRow RowId Value)}
    (distinct : DistinctIds rows) : Distinct (rows.map (wireRow rename render)) := by
  have renamed : occs (rows.map (wireRow rename render)) = (rows.map ViewRow.id).map rename := by
    simp [occs, wireRow, Function.comp_def]
  rw [Distinct, renamed]
  exact distinct.map injective

omit [DecidableEq Value] in
theorem nextById_eq_some {next : List (ViewRow RowId Value)} {id : RowId}
    {row : ViewRow RowId Value} (found : nextById next id = some row) : row ∈ next ∧ row.id = id :=
  ⟨List.mem_reverse.mp (List.mem_of_find?_eq_some found), by simpa using List.find?_some found⟩

omit [DecidableEq Value] [DecidableEq Wire] in
/-- Both implementations find the same next row of an identity. -/
theorem rowOf_wireRows {rename : RowId → Occ} (injective : Function.Injective rename)
    (render : List (String × Value) → Wire) {next : List (ViewRow RowId Value)}
    (distinct : DistinctIds next) (id : RowId) :
    rowOf (next.map (wireRow rename render)) (rename id) =
      (nextById next id).map (wireRow rename render) := by
  cases found : nextById next id with
  | none =>
    have absent := List.find?_eq_none.mp found
    refine List.find?_eq_none.mpr fun row inside => ?_
    obtain ⟨source, present, rfl⟩ := List.mem_map.mp inside
    have different := absent source (List.mem_reverse.mpr present)
    simpa [wireRow, injective.eq_iff] using different
  | some row =>
    obtain ⟨present, rfl⟩ := nextById_eq_some found
    exact rowOf_mem (distinct_wireRows injective render distinct) (List.mem_map_of_mem present)

/-- The first passes agree. -/
theorem settle_wireRows {rename : RowId → Occ} (injective : Function.Injective rename)
    (render : List (String × Value) → Wire) (renderKey : Value → Wire)
    {prev next : List (ViewRow RowId Value)} (distinct : DistinctIds next)
    (faithful : Faithful render prev next) :
    settle (next.map (wireRow rename render)) (prev.map (wireRow rename render)) =
      ((settleView next prev).1.map (wireOp rename render renderKey),
        (settleView next prev).2.map rename) := by
  induction prev with
  | nil => rfl
  | cons row prev ih =>
    have rest := ih fun before inside =>
      faithful before (List.mem_cons_of_mem row inside)
    have looked : rowOf (next.map (wireRow rename render)) (wireRow rename render row).occ = _ :=
      rowOf_wireRows injective render distinct row.id
    rw [List.map_cons, settle, rest, settleView, looked]
    cases found : nextById next row.id with
    | none => rfl
    | some after =>
      obtain ⟨present, same⟩ := nextById_eq_some found
      have told := faithful row List.mem_cons_self after present same.symm
      by_cases equal : row.fields = after.fields
      · simp [ViewRow.sameValue, wireRow, told.mpr equal, equal]
      · simp [ViewRow.sameValue, wireRow, mt told.mp equal, equal, wireOp]

omit [DecidableEq Value] [DecidableEq Wire] in
theorem idxOf?_map {rename : RowId → Occ} (injective : Function.Injective rename)
    (working : List RowId) (id : RowId) :
    (working.map rename).idxOf? (rename id) = working.idxOf? id := by
  rw [List.idxOf?, List.idxOf?, List.findIdx?_map]
  congr 1
  funext other
  simp [injective.eq_iff]

omit [DecidableEq Value] [DecidableEq Wire] in
/-- The second passes agree. -/
theorem place_wireRows {rename : RowId → Occ} (injective : Function.Injective rename)
    (render : List (String × Value) → Wire) (renderKey : Value → Wire)
    (next : List (ViewRow RowId Value)) (index : Nat) (working : List RowId) :
    place index (working.map rename) (next.map (wireRow rename render)) =
      (placeView index working next).map (wireOp rename render renderKey) := by
  induction next generalizing index working with
  | nil => rfl
  | cons target next ih =>
    have here : (working.map rename)[index]? = some (rename target.id) ↔
        working[index]? = some target.id := by
      rw [List.getElem?_map]
      exact (Option.map_injective injective).eq_iff' rfl
    rw [List.map_cons, place, placeView]
    change (if (working.map rename)[index]? = some (rename target.id) then _ else
      match (working.map rename).idxOf? (rename target.id) with
      | some current => _
      | none => _) = _
    rw [idxOf?_map injective]
    by_cases settled : working[index]? = some target.id
    · rw [if_pos (here.mpr settled), if_pos settled]
      exact ih (index + 1) working
    · rw [if_neg (mt here.mp settled), if_neg settled]
      cases working.idxOf? target.id with
      | some current =>
        have rest := ih (index + 1)
          ((working.eraseIdx current).insertIdx index target.id)
        rw [List.map_insertIdx, ← List.eraseIdx_map] at rest
        exact congrArg (List.cons _) rest
      | none =>
        have rest := ih (index + 1) (working.insertIdx index target.id)
        rw [List.map_insertIdx] at rest
        exact congrArg (List.cons _) rest

/-- The runtime's patch is the wire patch of the renamed rows. -/
theorem diffRows_wireRows {rename : RowId → Occ} (injective : Function.Injective rename)
    (render : List (String × Value) → Wire) (renderKey : Value → Wire)
    {prev next : List (ViewRow RowId Value)} (distinct : DistinctIds next)
    (faithful : Faithful render prev next) :
    diffRows (prev.map (wireRow rename render)) (next.map (wireRow rename render)) =
      (diff prev next).map (wireOp rename render renderKey) := by
  rw [diffRows, settle_wireRows injective render renderKey distinct faithful, diff, List.map_append,
    ← place_wireRows injective render renderKey]

/-- The patch between two row lists applies and gives the next list, each of its operations fits the
rows it meets, it is empty only between equal lists, and the runtime's patch is the same one. -/
theorem diff_exact (prev next : List (WireRow Occ Wire)) (oldRows : Distinct prev)
    (newRows : Distinct next) :
    apply prev (diffRows prev next) = .ok next ∧
      (∀ first op rest, diffRows prev next = first ++ op :: rest →
        ∃ met, apply prev first = .ok met ∧ Fits met op) ∧
      (diffRows prev next = [] ↔ prev = next) ∧
      ∀ (before after : List (ViewRow RowId Value)) (rename : RowId → Occ)
        (render : List (String × Value) → Wire) (renderKey : Value → Wire),
        Function.Injective rename → Faithful render before after →
          before.map (wireRow rename render) = prev → after.map (wireRow rename render) = next →
            (diff before after).map (wireOp rename render renderKey) = diffRows prev next := by
  have exact := apply_diffRows oldRows newRows
  refine ⟨exact, ?_, diffRows_eq_nil oldRows newRows, ?_⟩
  · intro first op rest listed
    rw [listed] at exact
    exact fits_of_apply exact
  · rintro before after rename render renderKey injective faithful rfl rfl
    have renamed : DistinctIds after := by
      refine List.Nodup.of_map rename ?_
      simpa [Distinct, occs, wireRow, Function.comp_def] using newRows
    exact (diffRows_wireRows injective render renderKey renamed faithful).symm

/-- Two rows swap, one of them changes, one row leaves and one row enters. -/
theorem diff_exact_swap :
    apply [⟨1, 10⟩, ⟨2, 20⟩, ⟨3, 30⟩] (diffRows [⟨1, 10⟩, ⟨2, 20⟩, ⟨3, 30⟩] [⟨4, 40⟩, ⟨3, 30⟩, ⟨1, 11⟩]) =
      (.ok [⟨4, 40⟩, ⟨3, 30⟩, ⟨1, 11⟩] : Except (ApplyError Nat) (List (WireRow Nat Nat))) :=
  (@diff_exact Nat Nat Nat Nat _ _ _ _ _ _ (by decide) (by decide)).1

end Agreement

/-- The directions of the sort keys of a view, by priority. -/
structure SortOrder where
  descending : List Bool
deriving DecidableEq

section Order

variable {RowId Value : Type} [Ord RowId] [Ord Value]

/-- The comparison of two sort tuples. A missing component compares equal. -/
def compareKeys : List Bool → List Value → List Value → Ordering
  | [], _, _ => .eq
  | descending :: rest, firstKeys, secondKeys =>
    let ordering := match firstKeys.head?, secondKeys.head? with
      | some first, some second => compare first second
      | _, _ => .eq
    (if descending then ordering.swap else ordering).then
      (compareKeys rest firstKeys.tail secondKeys.tail)

namespace SortOrder

/-- Rows compare by their sort keys, then by their identities. -/
def compare (order : SortOrder) (firstKeys : List Value) (firstId : RowId) (secondKeys : List Value)
    (secondId : RowId) : Ordering :=
  (compareKeys order.descending firstKeys secondKeys).then (Ord.compare firstId secondId)

/-- The first position sorts strictly before the second. -/
def isBefore (order : SortOrder) (firstKeys : List Value) (firstId : RowId) (secondKeys : List Value)
    (secondId : RowId) : Bool :=
  order.compare firstKeys firstId secondKeys secondId == .lt

end SortOrder

end Order

/-- A view delivers its rows in their order, or one value. -/
inductive ViewResult (RowId Value : Type)
  | rows (rows : List (ViewRow RowId Value)) (order : SortOrder)
  | scalar (value : Value)

namespace ViewResult

variable {RowId Value : Type}

/-- The rows of a result. A scalar result has none. -/
def viewRows : ViewResult RowId Value → List (ViewRow RowId Value)
  | .rows listed _ => listed
  | .scalar _ => []

/-- The order of a row result. -/
def order : ViewResult RowId Value → Option SortOrder
  | .rows _ directions => some directions
  | .scalar _ => none

end ViewResult

/-- A window sits at the first rows, at the last rows or at one occurrence. -/
inductive Anchor (RowId : Type)
  | first
  | last
  | row (occurrence : RowId)
deriving DecidableEq

/-- The last position of an anchor that left the view. -/
structure FrozenGap (RowId Value : Type) where
  coordinate : List Value
  occurrence : RowId

/-- What a client asks of its window. -/
structure WindowRequest (RowId : Type) where
  size : Nat
  anchor : Anchor RowId
  slide : Bool

/-- A window remembers the gap that its anchor left. -/
structure Window (RowId Value : Type) extends WindowRequest RowId where
  gap : Option (FrozenGap RowId Value)

/-- The reasons for which a window does not open. -/
inductive WindowError
  | absentAnchor
  | scalarView
deriving DecidableEq

section Selection

variable {RowId Value : Type} [Ord RowId] [Ord Value] [DecidableEq RowId]

/-- The start of the window while the anchor is away is the first row that is not before the gap. -/
def FrozenGap.resume (gap : FrozenGap RowId Value) (rows : List (ViewRow RowId Value))
    (order : SortOrder) : Nat :=
  rows.findIdx fun row => !order.isBefore row.sortTuple row.id gap.coordinate gap.occurrence

omit [Ord RowId] [Ord Value] in
/-- The index and the row of an identity. -/
def locate (rows : List (ViewRow RowId Value)) (id : RowId) : Option (Nat × ViewRow RowId Value) :=
  (rows.findFinIdx? fun row => row.id = id).map fun index => (index.val, rows.get index)

omit [Ord RowId] [Ord Value] [DecidableEq RowId] in
/-- The rows from a start, at most as many as the window holds. -/
def slice (rows : List (ViewRow RowId Value)) (start size : Nat) : List (ViewRow RowId Value) :=
  (rows.drop start).take size

/-- The start that centers the window on an index as far as the bounds of the view allow. -/
def center (index size length : Nat) : Nat :=
  min (index - size / 2) (length - size)

namespace Window

/-- The rows of the window over a result, and the window with its new gap. There are no rows when the
anchor is absent and has left no gap. -/
def select (window : Window RowId Value) (result : ViewResult RowId Value) :
    Window RowId Value × Option (List (ViewRow RowId Value)) :=
  let rows := result.viewRows
  match window.anchor with
  | .first => (window, some (slice rows 0 window.size))
  | .last => (window, some (slice rows (rows.length - window.size) window.size))
  | .row occurrence =>
    match locate rows occurrence with
    | some (index, row) =>
      let start := if window.slide then center index window.size rows.length else index
      ({ window with gap := some ⟨row.sortTuple, occurrence⟩ },
        some (slice rows start window.size))
    | none =>
      match window.gap with
      | some gap =>
        let order := result.order.getD ⟨[]⟩
        (window, some (slice rows (gap.resume rows order) window.size))
      | none => (window, none)

/-- A window opens when it has rows. -/
def openOver (window : Window RowId Value) (result : ViewResult RowId Value) :
    Except WindowError (Window RowId Value × List (ViewRow RowId Value)) :=
  match window.select result with
  | (window, some rows) => .ok (window, rows)
  | (_, none) => .error .absentAnchor

/-- An open window has rows over each later result. -/
def refresh (window : Window RowId Value) (result : ViewResult RowId Value) :
    Window RowId Value × List (ViewRow RowId Value) :=
  let (window, rows) := window.select result
  (window, rows.getD [])

end Window

end Selection

section Positions

variable {RowId Value : Type} [Ord RowId] [Ord Value] [Std.TransOrd RowId] [Std.TransOrd Value]

theorem transCmp_on {α β : Type*} {cmp : β → β → Ordering} (transitive : Std.TransCmp cmp)
    (view : α → β) : Std.TransCmp fun first second => cmp (view first) (view second) where
  eq_swap := transitive.eq_swap
  isLE_trans := transitive.isLE_trans

theorem transCmp_swap {α : Type*} {cmp : α → α → Ordering} (transitive : Std.TransCmp cmp) :
    Std.TransCmp fun first second => (cmp first second).swap where
  eq_swap := by
    intro first second
    rw [transitive.eq_swap (a := first)]
  isLE_trans := by
    intro first second third left right
    rw [← transitive.eq_swap] at left right ⊢
    exact transitive.isLE_trans right left

omit [Ord RowId] [Std.TransOrd RowId] in
/-- The comparison of complete sort tuples is transitive. -/
theorem transCmp_keys (descending : List Bool) :
    Std.TransCmp fun first second : { keys : List Value // descending.length ≤ keys.length } =>
      compareKeys descending first.1 second.1 := by
  induction descending with
  | nil => exact { eq_swap := rfl, isLE_trans := fun _ _ => rfl }
  | cons direction rest ih =>
    have present (keys : { keys : List Value // (direction :: rest).length ≤ keys.length }) :
        keys.1 ≠ [] := List.length_pos_iff.mp (Nat.lt_of_lt_of_le (Nat.succ_pos _) keys.2)
    let head (keys : { keys : List Value // (direction :: rest).length ≤ keys.length }) : Value :=
      keys.1.head (present keys)
    let tail (keys : { keys : List Value // (direction :: rest).length ≤ keys.length }) :
        { keys : List Value // rest.length ≤ keys.length } :=
      ⟨keys.1.tail, by have full := keys.2; simp only [List.length_cons, List.length_tail] at full ⊢; omega⟩
    have tails := transCmp_on ih tail
    have ascending := transCmp_on
      (inferInstance : Std.TransCmp (Ord.compare : Value → Value → Ordering)) head
    have heads : Std.TransCmp fun first second =>
        if direction then (compare (head first) (head second)).swap
        else compare (head first) (head second) := by
      cases direction with
      | true => exact transCmp_swap ascending
      | false => exact ascending
    have both : Std.TransCmp (compareLex
        (fun first second => if direction then (compare (head first) (head second)).swap
          else compare (head first) (head second))
        fun first second => compareKeys rest (tail first).1 (tail second).1) := inferInstance
    have shape : (fun first second : { keys : List Value // (direction :: rest).length ≤ keys.length } =>
        compareKeys (direction :: rest) first.1 second.1) = compareLex
          (fun first second => if direction then (compare (head first) (head second)).swap
            else compare (head first) (head second))
          fun first second => compareKeys rest (tail first).1 (tail second).1 := by
      funext first second
      rw [compareKeys, List.head?_eq_some_head (present first), List.head?_eq_some_head (present second)]
      rfl
    rw [shape]
    exact both

/-- The rows of a view have a component for each sort key. -/
def Complete (order : SortOrder) (keys : List Value) : Prop :=
  order.descending.length ≤ keys.length

/-- The order of rows with complete sort tuples is transitive. -/
theorem transCmp_compare (order : SortOrder) :
    Std.TransCmp fun first second : { keys : List Value // order.descending.length ≤ keys.length } × RowId =>
      order.compare first.1.1 first.2 second.1.1 second.2 := by
  have keys := transCmp_on (transCmp_keys order.descending : Std.TransCmp fun
      first second : { keys : List Value // order.descending.length ≤ keys.length } =>
        compareKeys order.descending first.1 second.1)
    (Prod.fst : { keys : List Value // order.descending.length ≤ keys.length } × RowId → _)
  have ids := transCmp_on (inferInstance : Std.TransCmp (Ord.compare : RowId → RowId → Ordering))
    (Prod.snd : { keys : List Value // order.descending.length ≤ keys.length } × RowId → _)
  exact (inferInstance : Std.TransCmp (compareLex
    (fun first second : { keys : List Value // order.descending.length ≤ keys.length } × RowId =>
      compareKeys order.descending first.1.1 second.1.1)
    fun first second => Ord.compare first.2 second.2))

theorem isBefore_trans {order : SortOrder} {first second third : List Value}
    {firstId secondId thirdId : RowId} (fullFirst : Complete order first)
    (fullSecond : Complete order second) (fullThird : Complete order third)
    (left : order.isBefore first firstId second secondId = true)
    (right : order.isBefore second secondId third thirdId = true) :
    order.isBefore first firstId third thirdId = true := by
  have chained := (transCmp_compare order).lt_trans (a := (⟨first, fullFirst⟩, firstId))
    (b := (⟨second, fullSecond⟩, secondId)) (c := (⟨third, fullThird⟩, thirdId))
    (beq_iff_eq.mp left) (beq_iff_eq.mp right)
  exact beq_iff_eq.mpr chained

end Positions

section Results

variable {RowId Value : Type} [Ord RowId] [Ord Value]

/-- The rows of a result have different identities and complete sort tuples, and they stand in the order
of the view. -/
structure Ordered (order : SortOrder) (rows : List (ViewRow RowId Value)) : Prop where
  distinct : DistinctIds rows
  complete : ∀ row ∈ rows, Complete order row.sortTuple
  sorted : rows.Pairwise fun first second =>
    order.isBefore first.sortTuple first.id second.sortTuple second.id = true

/-- A result of a view is a value, or its rows in the order of the view. -/
def ViewResult.WellFormed (order : SortOrder) : ViewResult RowId Value → Prop
  | .rows listed own => own = order ∧ Ordered order listed
  | .scalar _ => True

instance [DecidableEq RowId] (order : SortOrder) (rows : List (ViewRow RowId Value)) :
    Decidable (Ordered order rows) :=
  decidable_of_iff ((rows.map ViewRow.id).Nodup ∧
      (∀ row ∈ rows, order.descending.length ≤ row.sortTuple.length) ∧
      rows.Pairwise fun first second =>
        order.isBefore first.sortTuple first.id second.sortTuple second.id = true)
    ⟨fun parts => ⟨parts.1, parts.2.1, parts.2.2⟩,
      fun ordered => ⟨ordered.distinct, ordered.complete, ordered.sorted⟩⟩

instance [DecidableEq RowId] (order : SortOrder) :
    (result : ViewResult RowId Value) → Decidable (result.WellFormed order)
  | .rows listed own => inferInstanceAs (Decidable (own = order ∧ Ordered order listed))
  | .scalar _ => .isTrue trivial

end Results

section Specification

variable {RowId Value : Type} [Ord RowId] [Ord Value] [DecidableEq RowId]

omit [Ord RowId] [Ord Value] in
/-- The sort tuple of an occurrence in the latest result that has it. The latest result comes first. -/
def lastSeen (occurrence : RowId) (history : List (ViewResult RowId Value)) : Option (List Value) :=
  history.findSome? fun result =>
    (result.viewRows.find? fun row => row.id = occurrence).map ViewRow.sortTuple

/-- The rows of a window over the rows of a view, after the earlier results. While the anchor is away the
window begins at the rows that are not before its last position. -/
def windowRows (request : WindowRequest RowId) (rows : List (ViewRow RowId Value)) (order : SortOrder)
    (earlier : List (ViewResult RowId Value)) : List (ViewRow RowId Value) :=
  match request.anchor with
  | .first => rows.take request.size
  | .last => rows.drop (rows.length - request.size)
  | .row occurrence =>
    if occurrence ∈ rows.map ViewRow.id then
      let index := rows.findIdx fun row => row.id = occurrence
      let start := if request.slide then center index request.size rows.length else index
      (rows.drop start).take request.size
    else
      match lastSeen occurrence earlier with
      | some position =>
        (rows.filter fun row => !order.isBefore row.sortTuple row.id position occurrence).take
          request.size
      | none => []

/-- The gap of a window after some results. -/
def gapAfter (request : WindowRequest RowId) (history : List (ViewResult RowId Value)) :
    Option (FrozenGap RowId Value) :=
  match request.anchor with
  | .first | .last => none
  | .row occurrence => (lastSeen occurrence history).map fun position => ⟨position, occurrence⟩

theorem windowRows_length (request : WindowRequest RowId) (rows : List (ViewRow RowId Value)) (order : SortOrder)
    (earlier : List (ViewResult RowId Value)) :
    (windowRows request rows order earlier).length ≤ request.size := by
  unfold windowRows
  split
  · exact List.length_take_le _ _
  · rw [List.length_drop]
    omega
  · split
    · exact List.length_take_le _ _
    · split
      · exact List.length_take_le _ _
      · exact Nat.zero_le _

theorem windowRows_sublist (request : WindowRequest RowId) (rows : List (ViewRow RowId Value))
    (order : SortOrder) (earlier : List (ViewResult RowId Value)) :
    (windowRows request rows order earlier).Sublist rows := by
  unfold windowRows
  split
  · exact List.take_sublist _ _
  · exact List.drop_sublist _ _
  · split
    · exact (List.take_sublist _ _).trans (List.drop_sublist _ _)
    · split
      · exact (List.take_sublist _ _).trans List.filter_sublist
      · exact List.nil_sublist _

end Specification

section Agreement

variable {RowId Value : Type} [Ord RowId] [Ord Value] [DecidableEq RowId]

/-- The rows from the first one with a property that later rows keep are the rows with the property. -/
theorem drop_findIdx_eq_filter {α : Type*} {property : α → Bool} {members : List α}
    (kept : members.Pairwise fun first second => property first = true → property second = true) :
    members.drop (members.findIdx property) = members.filter property := by
  induction members with
  | nil => rfl
  | cons first members ih =>
    obtain ⟨later, kept⟩ := List.pairwise_cons.mp kept
    rw [List.findIdx_cons]
    cases holds : property first with
    | true =>
      have all := fun member inside => later member inside holds
      rw [cond_true, List.drop_zero, List.filter_cons_of_pos holds, List.filter_eq_self.mpr all]
    | false =>
      rw [cond_false, List.drop_succ_cons, ih kept,
        List.filter_cons_of_neg (by simp [holds])]

omit [Ord RowId] [Ord Value] in
theorem locate_present {rows : List (ViewRow RowId Value)} {occurrence : RowId}
    (inside : occurrence ∈ rows.map ViewRow.id) :
    ∃ row ∈ rows, row.id = occurrence ∧ rows.find? (fun row => row.id = occurrence) = some row ∧
      locate rows occurrence = some (rows.findIdx fun row => row.id = occurrence, row) := by
  obtain ⟨source, present, same⟩ := List.mem_map.mp inside
  have bound := List.findIdx_lt_length_of_exists (p := fun row => decide (row.id = occurrence))
    ⟨source, present, by simpa using same⟩
  have holds := List.findIdx_getElem (w := bound)
  refine ⟨rows[rows.findIdx fun row => row.id = occurrence], List.getElem_mem bound,
    by simpa using holds, ?_, ?_⟩
  · rw [List.find?_eq_getElem?_findIdx, List.getElem?_eq_getElem bound]
  · have found : rows.findFinIdx? (fun row => row.id = occurrence) =
        some ⟨rows.findIdx fun row => row.id = occurrence, bound⟩ := by
      refine List.findFinIdx?_eq_some_iff.mpr ⟨holds, fun earlier before => ?_⟩
      simpa using List.not_of_lt_findIdx before
    rw [locate, found]
    rfl

omit [Ord RowId] [Ord Value] in
theorem locate_absent {rows : List (ViewRow RowId Value)} {occurrence : RowId}
    (outside : occurrence ∉ rows.map ViewRow.id) :
    rows.find? (fun row => row.id = occurrence) = none ∧ locate rows occurrence = none := by
  have different : ∀ row ∈ rows, row.id ≠ occurrence := fun row inside same =>
    outside (List.mem_map.mpr ⟨row, inside, same⟩)
  constructor
  · exact List.find?_eq_none.mpr (by simpa using different)
  · rw [locate, List.findFinIdx?_eq_none_iff.mpr (by simpa using different)]
    rfl

/-- The position of an occurrence was complete when the occurrence was last seen. -/
theorem lastSeen_complete {order : SortOrder} {occurrence : RowId}
    {history : List (ViewResult RowId Value)}
    (wellFormed : ∀ result ∈ history, result.WellFormed order) {position : List Value}
    (seen : lastSeen occurrence history = some position) : Complete order position := by
  obtain ⟨result, inside, found⟩ := List.exists_of_findSome?_eq_some seen
  obtain ⟨row, located, rfl⟩ := Option.map_eq_some_iff.mp found
  have present := List.mem_of_find?_eq_some located
  cases result with
  | scalar => exact absurd present List.not_mem_nil
  | rows listed own => exact (wellFormed _ inside).2.complete row present

variable [Std.TransOrd RowId] [Std.TransOrd Value]

omit [DecidableEq RowId] in
/-- While its anchor is away, a window begins at the rows that are not before the last position. -/
theorem drop_resume {order : SortOrder} {rows : List (ViewRow RowId Value)} (ordered : Ordered order rows)
    (gap : FrozenGap RowId Value) (complete : Complete order gap.coordinate) :
    rows.drop (gap.resume rows order) =
      rows.filter fun row => !order.isBefore row.sortTuple row.id gap.coordinate gap.occurrence := by
  refine drop_findIdx_eq_filter ?_
  refine ordered.sorted.imp_of_mem fun {first second} inFirst inSecond before behind => ?_
  rw [Bool.not_eq_true'] at behind ⊢
  by_contra ahead
  have chained := isBefore_trans (ordered.complete first inFirst) (ordered.complete second inSecond)
    complete before (Bool.eq_true_of_not_eq_false ahead)
  exact absurd chained (by simp [behind])

/-- A window with the gap of the earlier results selects the rows that it should hold, and it keeps the
gap of all results. -/
theorem select_eq {order : SortOrder} {rows : List (ViewRow RowId Value)} (ordered : Ordered order rows)
    (request : WindowRequest RowId) {earlier : List (ViewResult RowId Value)}
    (wellFormed : ∀ result ∈ earlier, result.WellFormed order) :
    ((⟨request, gapAfter request earlier⟩ : Window RowId Value).select (.rows rows order)).1 =
        ⟨request, gapAfter request (.rows rows order :: earlier)⟩ ∧
      ((⟨request, gapAfter request earlier⟩ : Window RowId Value).select (.rows rows order)).2.getD [] =
        windowRows request rows order earlier := by
  obtain ⟨size, anchor, slide⟩ := request
  cases anchor with
  | first => exact ⟨rfl, rfl⟩
  | last =>
    refine ⟨rfl, List.take_of_length_le ?_⟩
    rw [List.length_drop]
    omega
  | row occurrence =>
    by_cases inside : occurrence ∈ rows.map ViewRow.id
    · obtain ⟨row, _, rfl, found, located⟩ := locate_present inside
      have seen : lastSeen row.id (.rows rows order :: earlier) = some row.sortTuple := by
        rw [lastSeen, List.findSome?_cons, ViewResult.viewRows, found]
        rfl
      constructor
      · simp only [Window.select, ViewResult.viewRows, located, gapAfter, seen, Option.map_some]
      · simp only [Window.select, ViewResult.viewRows, located, windowRows, if_pos inside,
          Option.getD_some, slice]
    · obtain ⟨missing, unlocated⟩ := locate_absent inside
      have seen : lastSeen occurrence (.rows rows order :: earlier) = lastSeen occurrence earlier := by
        rw [lastSeen, List.findSome?_cons, ViewResult.viewRows, missing]
        rfl
      cases known : lastSeen occurrence earlier with
      | none =>
        constructor
        · simp only [Window.select, ViewResult.viewRows, unlocated, gapAfter, seen, known,
            Option.map_none]
        · simp only [Window.select, ViewResult.viewRows, unlocated, gapAfter, known,
            Option.map_none, windowRows, if_neg inside, Option.getD_none]
      | some position =>
        have complete := lastSeen_complete wellFormed known
        constructor
        · simp only [Window.select, ViewResult.viewRows, unlocated, gapAfter, seen, known,
            Option.map_some]
        · simp only [Window.select, ViewResult.viewRows, ViewResult.order, unlocated, gapAfter,
            known, Option.map_some, windowRows, if_neg inside, Option.getD_some, slice]
          rw [drop_resume ordered ⟨position, occurrence⟩ complete]

end Agreement

end Liasse.Live
