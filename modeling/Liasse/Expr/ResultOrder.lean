/-
This file infers the order of the rows of a view from its expression, and it tells when rows stand in an
order.
-/

import Liasse.Expr.Identity
import Liasse.Live.Window

namespace Liasse.Expr

open Liasse.Runtime
open Liasse.Live (SortOrder)

section Inference

/-- The directions of sort keys. -/
def sortOrderOf {E : Type} (sort : List (E × Bool)) : SortOrder :=
  ⟨sort.map Prod.snd⟩

/-- The order of a view without sort keys. -/
def unordered : SortOrder :=
  ⟨[]⟩

/-- A named view is read off the current value or the root. -/
def isRootReceiver : TypedExpr → Bool
  | .mk _ .current => true
  | .mk _ .root => true
  | _ => false

def isEmptyView : TypedExpr → Bool
  | .mk _ .emptyView => true
  | _ => false

/-- The order of two branches: the one they share, or the one beside an empty view. -/
def branchOrder (first second : TypedExpr) (left right : SortOrder) : SortOrder :=
  if isEmptyView first then right
  else if isEmptyView second then left
  else if left = right then left
  else unordered

/-- The order that a view declares for its rows. A name of a view stands for the order of that view. -/
def resultOrder (views : String → Option SortOrder) : TypedExpr → SortOrder
  | .mk _ (.project _ projection) => sortOrderOf projection.sort
  | .mk _ (.combine _ lhs _) => resultOrder views lhs
  | .mk _ (.ternary _ yes otherwise) =>
    branchOrder yes otherwise (resultOrder views yes) (resultOrder views otherwise)
  | .mk _ (.fallback primary other) =>
    branchOrder primary other (resultOrder views primary) (resultOrder views other)
  | .mk _ (.field base name) =>
    if isRootReceiver base then (views name).getD unordered else unordered
  | .mk _ (.select base _) => resultOrder views base
  | _ => unordered

end Inference

section Positions

instance : Ord RowIdPart :=
  ⟨RowIdPart.cmp⟩

/-- Parts of one kind compare by what they hold, and a key is before each position. -/
instance : Std.TransOrd RowIdPart where
  eq_swap := by
    intro first second
    cases first <;> cases second
    · exact (inferInstance : Std.TransCmp Value.cmp).eq_swap
    · rfl
    · rfl
    · exact (inferInstance : Std.TransCmp (compare : Nat → Nat → Ordering)).eq_swap
  isLE_trans := by
    intro first second third lower upper
    cases first <;> cases second <;> cases third
    case key.key.key => exact (inferInstance : Std.TransCmp Value.cmp).isLE_trans lower upper
    case occurrence.occurrence.occurrence =>
      exact (inferInstance : Std.TransCmp (compare : Nat → Nat → Ordering)).isLE_trans lower upper
    all_goals first | rfl | exact absurd lower Bool.false_ne_true | exact absurd upper Bool.false_ne_true

/-- The sort tuple that placed a row. -/
def Row.sort : Row → List Value
  | .mk _ _ _ sort => sort

@[simp] theorem Row.withSort_sort (row : Row) (sort : List Value) : (row.withSort sort).sort = sort := by
  cases row
  rfl

@[simp] theorem Row.withSort_id (row : Row) (sort : List Value) : (row.withSort sort).id = row.id := by
  cases row
  rfl

/-- The evaluator and a window compare rows alike. -/
theorem compareSorted_eq (directions : List Bool) (keys others : List Value) (id other : RowId) :
    compareSorted directions keys id others other = SortOrder.compare ⟨directions⟩ keys id others other := by
  induction directions generalizing keys others with
  | nil => rfl
  | cons direction rest earlier =>
    have later (left right : List Value) := earlier left right
    simp only [SortOrder.compare] at later
    cases keys <;> cases others <;> cases direction <;>
      simp [compareSorted, SortOrder.compare, Live.compareKeys, later, Ordering.then_assoc]
    all_goals rfl

/-- A row stands before a position of its order. -/
def Row.before (order : SortOrder) (row : Row) (keys : List Value) (id : RowId) : Prop :=
  order.isBefore row.sort row.id keys id = true

/-- The rows increase in an order, and each position of the order parts them into the rows before it and the
rows behind it. -/
structure Increasing (order : SortOrder) (rows : List Row) : Prop where
  strict : rows.Pairwise fun first second => first.before order second.sort second.id
  parted : ∀ keys id, keys.length = order.descending.length →
    rows.Pairwise fun first second => second.before order keys id → first.before order keys id

/-- A row stands before another one, and before each position behind that one. -/
def Precedes (order : SortOrder) (first second : Row) : Prop :=
  first.before order second.sort second.id ∧
    ∀ keys id, keys.length = order.descending.length → second.before order keys id → first.before order keys id

theorem increasing_iff {order : SortOrder} {rows : List Row} :
    Increasing order rows ↔ rows.Pairwise (Precedes order) := by
  constructor
  · intro increasing
    refine List.pairwise_iff_forall_sublist.mpr fun pair => ⟨?_, fun keys id full => ?_⟩
    · exact List.pairwise_iff_forall_sublist.mp increasing.strict pair
    · exact List.pairwise_iff_forall_sublist.mp (increasing.parted keys id full) pair
  · intro precedes
    exact ⟨precedes.imp And.left, fun keys id full => precedes.imp fun both => both.2 keys id full⟩

/-- Between rows with full sort tuples the later row is behind each position behind the first one. -/
theorem precedes_iff {order : SortOrder} {first second : Row}
    (firstFull : first.sort.length = order.descending.length)
    (secondFull : second.sort.length = order.descending.length) :
    Precedes order first second ↔ first.before order second.sort second.id :=
  ⟨And.left, fun before => ⟨before, fun _ _ full behind =>
    Live.isBefore_trans (Nat.le_of_eq firstFull.symm) (Nat.le_of_eq secondFull.symm)
      (Nat.le_of_eq full.symm) before behind⟩⟩

theorem precedes_unordered_iff {first second : Row} :
    Precedes unordered first second ↔ cmpId first.id second.id = .lt := by
  have compared (keys others : List Value) (id other : RowId) :
      unordered.isBefore keys id others other = true ↔ cmpId id other = .lt := by
    rw [SortOrder.isBefore, unordered, ← compareSorted_eq, compareSorted, beq_iff_eq]
  constructor
  · exact fun precedes => (compared _ _ _ _).mp precedes.1
  · intro less
    refine ⟨(compared _ _ _ _).mpr less, fun keys id _ behind => (compared _ _ _ _).mpr ?_⟩
    exact (inferInstance : Std.TransCmp (compare : RowId → RowId → Ordering)).lt_trans less
      ((compared _ _ _ _).mp behind)

end Positions

section Sorting

/-- The sort tuple and the identity of a ranked row. -/
abbrev Ranked (directions : List Bool) :=
  {ranked : Row × List Value // ranked.2.length = directions.length}

def Ranked.cmp {directions : List Bool} (first second : Ranked directions) : Ordering :=
  compareSorted directions first.1.2 first.1.1.id second.1.2 second.1.1.id

instance (directions : List Bool) : Std.TransCmp (@Ranked.cmp directions) := by
  have positions := Live.transCmp_on (Live.transCmp_compare ⟨directions⟩)
    fun ranked : Ranked directions => (⟨ranked.1.2, Nat.le_of_eq ranked.2.symm⟩, ranked.1.1.id)
  have shape : @Ranked.cmp directions = fun first second =>
      SortOrder.compare ⟨directions⟩ first.1.2 first.1.1.id second.1.2 second.1.1.id := by
    funext first second
    exact compareSorted_eq _ _ _ _ _
  rw [shape]
  exact positions

/-- The ranked rows in the order of their positions. -/
def placed (directions : List Bool) (ranked : List (Row × List Value)) : List (Row × List Value) :=
  ranked.mergeSort fun first second =>
    compareSorted directions first.2 first.1.id second.2 second.1.id != .gt

theorem placed_pairwise {directions : List Bool} {ranked : List (Row × List Value)}
    (full : ∀ row ∈ ranked, row.2.length = directions.length) :
    (placed directions ranked).Pairwise fun first second =>
      compareSorted directions first.2 first.1.id second.2 second.1.id ≠ .gt :=
  Codes.ordered_mergeSort (inferInstance : Std.TransCmp (@Ranked.cmp directions)) full

variable {A B : Type}

/-- The items within the bounds of a projection. -/
def within (skip limit : Option Nat) (items : List A) : List A :=
  match limit with
  | some limit => (items.drop (skip.getD 0)).take limit
  | none => items.drop (skip.getD 0)

theorem bound_eq (rows : List Row) (skip limit : Option Nat) : bound rows skip limit = within skip limit rows := rfl

theorem within_sublist (skip limit : Option Nat) (items : List A) : (within skip limit items).Sublist items := by
  cases limit with
  | some limit => exact (List.take_sublist _ _).trans (List.drop_sublist _ _)
  | none => exact List.drop_sublist _ _

theorem within_map (skip limit : Option Nat) (change : A → B) (items : List A) :
    within skip limit (items.map change) = (within skip limit items).map change := by
  cases limit <;> simp [within]

/-- Sorted rows within bounds increase exactly when no two of them have one sort tuple and one identity. -/
theorem increasing_orderRows_iff {directions : List Bool} {ranked : List (Row × List Value)}
    (full : ∀ row ∈ ranked, row.2.length = directions.length) (skip limit : Option Nat) :
    Increasing ⟨directions⟩ (bound (orderRows directions ranked) skip limit) ↔
      (within skip limit (placed directions ranked)).Pairwise fun first second =>
        compareSorted directions first.2 first.1.id second.2 second.1.id ≠ .eq := by
  have inside {row : Row × List Value} (listed : row ∈ within skip limit (placed directions ranked)) :
      row.2.length = directions.length :=
    full row (List.mem_mergeSort.mp ((within_sublist _ _ _).subset listed))
  have sorted := (placed_pairwise full).sublist (within_sublist skip limit _)
  change Increasing _ (bound ((placed directions ranked).map fun row => row.1.withSort row.2) _ _) ↔ _
  rw [bound_eq, within_map, increasing_iff, List.pairwise_map]
  have before {first second : Row × List Value} (firstIn : first ∈ within skip limit (placed directions ranked))
      (secondIn : second ∈ within skip limit (placed directions ranked)) :
      Precedes ⟨directions⟩ (first.1.withSort first.2) (second.1.withSort second.2) ↔
        compareSorted directions first.2 first.1.id second.2 second.1.id = .lt := by
    rw [precedes_iff (by simpa using inside firstIn) (by simpa using inside secondIn), Row.before,
      SortOrder.isBefore, ← compareSorted_eq, beq_iff_eq]
    simp only [Row.withSort_sort, Row.withSort_id]
  constructor
  · intro precedes
    refine precedes.imp_of_mem fun firstIn secondIn ordered same => ?_
    rw [before firstIn secondIn, same] at ordered
    cases ordered
  · intro distinct
    refine (sorted.and distinct).imp_of_mem fun firstIn secondIn both => ?_
    rw [before firstIn secondIn]
    obtain ⟨ascends, differ⟩ := both
    cases compared : compareSorted directions _ _ _ _ with
    | lt => rfl
    | eq => exact absurd compared differ
    | gt => exact absurd compared ascends

theorem Increasing.sublist {order : SortOrder} {rows kept : List Row} (increasing : Increasing order rows)
    (fewer : kept.Sublist rows) : Increasing order kept :=
  ⟨increasing.strict.sublist fewer, fun keys id full => (increasing.parted keys id full).sublist fewer⟩

theorem increasing_singleton (order : SortOrder) (row : Row) : Increasing order [row] :=
  ⟨List.pairwise_singleton _ _, fun _ _ _ => List.pairwise_singleton _ _⟩

end Sorting

end Liasse.Expr
