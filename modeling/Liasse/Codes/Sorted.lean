/-
This file gives the facts about lexicographic comparison with a comparator and about lists that a
comparator keeps strictly sorted.
-/

import Mathlib

namespace Liasse.Codes

variable {α : Type*} {cmp : α → α → Ordering}

/-- The lexicographic comparison is oriented when the comparison of the members is. -/
theorem compareLex_swap {left right : List α}
    (members : ∀ first ∈ left, ∀ second ∈ right, cmp first second = (cmp second first).swap) :
    left.compareLex cmp right = (right.compareLex cmp left).swap := by
  induction left generalizing right with
  | nil => cases right <;> rfl
  | cons first left ih =>
    cases right with
    | nil => rfl
    | cons second right =>
      rw [List.compareLex_cons_cons, List.compareLex_cons_cons, Ordering.swap_then,
        members first List.mem_cons_self second List.mem_cons_self]
      congr 1
      apply ih
      intro other otherMember another anotherMember
      exact members other (List.mem_cons_of_mem _ otherMember)
        another (List.mem_cons_of_mem _ anotherMember)

/-- A map that keeps the comparison of the members keeps the lexicographic comparison. -/
theorem compareLex_map {f : α → α} {left right : List α}
    (members : ∀ first ∈ left, ∀ second ∈ right, cmp (f first) second = cmp first second) :
    (left.map f).compareLex cmp right = left.compareLex cmp right := by
  induction left generalizing right with
  | nil => rfl
  | cons first left ih =>
    cases right with
    | nil => rfl
    | cons second right =>
      rw [List.map_cons, List.compareLex_cons_cons, List.compareLex_cons_cons,
        members first List.mem_cons_self second List.mem_cons_self]
      congr 1
      apply ih
      intro other otherMember another anotherMember
      exact members other (List.mem_cons_of_mem _ otherMember)
        another (List.mem_cons_of_mem _ anotherMember)

/-- A list is strictly sorted when each member is below all later members. -/
def Sorted (cmp : α → α → Ordering) (members : List α) : Prop :=
  members.Pairwise fun first second => cmp first second = .lt

/-- The insertion puts a member at its place and replaces an equal member. -/
def insertSorted (cmp : α → α → Ordering) (added : α) : List α → List α
  | [] => [added]
  | member :: rest =>
    match cmp added member with
    | .lt => added :: member :: rest
    | .eq => added :: rest
    | .gt => member :: insertSorted cmp added rest

/-- The sorted list of some members, and of equal members the last one. -/
def collectSorted (cmp : α → α → Ordering) (members : List α) : List α :=
  members.foldl (fun sorted member => insertSorted cmp member sorted) []

/-- The insertion puts a member at its place and merges it into an equal member. -/
def insertMerged (cmp : α → α → Ordering) (merge : α → α → α) (added : α) : List α → List α
  | [] => [added]
  | member :: rest =>
    match cmp added member with
    | .lt => added :: member :: rest
    | .eq => merge member added :: rest
    | .gt => member :: insertMerged cmp merge added rest

/-- The sorted list of some members. Equal members are merged from the first one on. -/
def collectMerged (cmp : α → α → Ordering) (merge : α → α → α) (members : List α) : List α :=
  members.foldl (fun sorted member => insertMerged cmp merge member sorted) []

theorem insertMerged_last (added : α) (members : List α) :
    insertMerged cmp (fun _ added => added) added members = insertSorted cmp added members := by
  induction members with
  | nil => rfl
  | cons member rest ih => rw [insertMerged, insertSorted, ih]

theorem collectMerged_last (members : List α) :
    collectMerged cmp (fun _ added => added) members = collectSorted cmp members := by
  simp only [collectMerged, collectSorted, insertMerged_last]

variable {merge : α → α → α}

/-- The insertion of a member above all others appends it. -/
theorem insertMerged_above {added : α} {members : List α}
    (above : ∀ member ∈ members, cmp added member = .gt) :
    insertMerged cmp merge added members = members ++ [added] := by
  induction members with
  | nil => rfl
  | cons member rest ih =>
    rw [insertMerged, above member List.mem_cons_self]
    simp only [List.cons_append, List.cons.injEq, true_and]
    exact ih fun other inside => above other (List.mem_cons_of_mem _ inside)

/-- The collection of a strictly sorted list is the list. -/
theorem collectMerged_eq_self {members : List α}
    (oriented : ∀ first ∈ members, ∀ second ∈ members,
      cmp first second = .lt → cmp second first = .gt)
    (sorted : Sorted cmp members) : collectMerged cmp merge members = members := by
  have fold : ∀ before after : List α, before ++ after = members →
      after.foldl (fun sorted member => insertMerged cmp merge member sorted) before = members := by
    intro before after
    induction after generalizing before with
    | nil =>
      intro split
      rw [← split, List.append_nil, List.foldl_nil]
    | cons member rest ih =>
      intro split
      rw [List.foldl_cons]
      have above : ∀ other ∈ before, cmp member other = .gt := by
        intro other inside
        have pairs : Sorted cmp (before ++ member :: rest) := split ▸ sorted
        apply oriented other (split ▸ List.mem_append_left _ inside)
          member (split ▸ List.mem_append_right _ List.mem_cons_self)
        exact (List.pairwise_append.mp pairs).2.2 other inside member List.mem_cons_self
      rw [insertMerged_above above]
      apply ih
      rw [List.append_assoc]
      exact split
  exact fold [] members rfl

/-- The collection that keeps the last of equal members leaves a strictly sorted list as it is. -/
theorem collectSorted_eq_self {members : List α}
    (oriented : ∀ first ∈ members, ∀ second ∈ members,
      cmp first second = .lt → cmp second first = .gt)
    (sorted : Sorted cmp members) : collectSorted cmp members = members :=
  (collectMerged_last members).symm.trans (collectMerged_eq_self oriented sorted)

/-- A property of all members that each merge keeps is a property of the collection. -/
theorem forall_collectMerged {kept : α → Prop} (merges : ∀ first second, kept first → kept second →
      kept (merge first second)) {members : List α} (each : ∀ member ∈ members, kept member) :
    ∀ member ∈ collectMerged cmp merge members, kept member := by
  have insertion : ∀ (added : α) (before : List α), kept added → (∀ member ∈ before, kept member) →
      ∀ member ∈ insertMerged cmp merge added before, kept member := by
    intro added before addedKept beforeKept
    induction before with
    | nil =>
      intro member inside
      exact List.mem_singleton.mp inside ▸ addedKept
    | cons first rest ih =>
      obtain ⟨firstKept, restKept⟩ := List.forall_mem_cons.mp beforeKept
      rw [insertMerged]
      split
      · exact List.forall_mem_cons.mpr ⟨addedKept, beforeKept⟩
      · exact List.forall_mem_cons.mpr ⟨merges first added firstKept addedKept, restKept⟩
      · exact List.forall_mem_cons.mpr ⟨firstKept, ih restKept⟩
  have fold : ∀ before : List α, (∀ member ∈ before, kept member) → ∀ member ∈ members.foldl
      (fun sorted member => insertMerged cmp merge member sorted) before, kept member := by
    induction members with
    | nil => exact fun before beforeKept => beforeKept
    | cons first rest ih =>
      obtain ⟨firstKept, restKept⟩ := List.forall_mem_cons.mp each
      exact fun before beforeKept => ih restKept _ (insertion first before firstKept beforeKept)
  exact fold [] fun _ inside => absurd inside List.not_mem_nil

/-- A collection is strictly sorted when a merge keeps the place of its member. -/
theorem sorted_collectMerged [Std.TransCmp cmp]
    (places : ∀ kept added, cmp added kept = .eq → cmp (merge kept added) kept = .eq) (members : List α) :
    Sorted cmp (collectMerged cmp merge members) := by
  have insertion : ∀ (added : α) {before : List α}, Sorted cmp before →
      Sorted cmp (insertMerged cmp merge added before) ∧
        ∀ least, cmp least added = .lt → (∀ member ∈ before, cmp least member = .lt) →
          ∀ member ∈ insertMerged cmp merge added before, cmp least member = .lt := by
    intro added before sorted
    induction before with
    | nil =>
      refine ⟨List.pairwise_singleton _ _, fun least below _ member inside => ?_⟩
      exact List.mem_singleton.mp inside ▸ below
    | cons first rest ih =>
      obtain ⟨least, later⟩ := List.pairwise_cons.mp sorted
      rw [insertMerged]
      split
      · next below =>
          refine ⟨List.pairwise_cons.mpr ⟨List.forall_mem_cons.mpr ⟨below, fun member inside => ?_⟩, sorted⟩,
            fun lower belowAdded beforeBelow => List.forall_mem_cons.mpr ⟨belowAdded, beforeBelow⟩⟩
          exact Std.TransCmp.lt_trans below (least member inside)
      · next same =>
          have place := places first added same
          refine ⟨List.pairwise_cons.mpr ⟨fun member inside => ?_, later⟩, fun lower _ beforeBelow => ?_⟩
          · rw [Std.TransCmp.congr_left place]
            exact least member inside
          · obtain ⟨firstBelow, restBelow⟩ := List.forall_mem_cons.mp beforeBelow
            refine List.forall_mem_cons.mpr ⟨?_, restBelow⟩
            rw [Std.TransCmp.congr_right place]
            exact firstBelow
      · next above =>
          obtain ⟨restSorted, restBelow⟩ := ih later
          have below : cmp first added = .lt := Std.OrientedCmp.lt_of_gt above
          refine ⟨List.pairwise_cons.mpr ⟨restBelow first below least, restSorted⟩,
            fun lower belowAdded beforeBelow => ?_⟩
          obtain ⟨firstBelow, others⟩ := List.forall_mem_cons.mp beforeBelow
          exact List.forall_mem_cons.mpr ⟨firstBelow, restBelow lower belowAdded others⟩
  have fold : ∀ before : List α, Sorted cmp before → Sorted cmp (members.foldl
      (fun sorted member => insertMerged cmp merge member sorted) before) := by
    induction members with
    | nil => exact fun before sorted => sorted
    | cons first rest ih => exact fun before sorted => ih _ (insertion first sorted).1
  exact fold [] .nil

/-- The weight of a collection is at most the weight of the members when no merge adds weight. -/
theorem sum_collectMerged_le {weight : α → Nat}
    (light : ∀ kept added, weight (merge kept added) ≤ weight kept + weight added) (members : List α) :
    ((collectMerged cmp merge members).map weight).sum ≤ (members.map weight).sum := by
  have insertion : ∀ (added : α) (before : List α),
      ((insertMerged cmp merge added before).map weight).sum ≤ weight added + (before.map weight).sum := by
    intro added before
    induction before with
    | nil => exact le_rfl
    | cons member rest ih =>
      have merged : weight (merge member added) ≤ weight member + weight added := light member added
      rw [insertMerged]
      split <;> simp only [List.map_cons, List.sum_cons] <;> omega
  have fold : ∀ before : List α, ((members.foldl
      (fun sorted member => insertMerged cmp merge member sorted) before).map weight).sum ≤
        (before.map weight).sum + (members.map weight).sum := by
    induction members with
    | nil => exact fun before => le_rfl
    | cons member rest ih =>
      intro before
      rw [List.foldl_cons, List.map_cons, List.sum_cons]
      have inserted : ((insertMerged cmp merge member before).map weight).sum ≤
          weight member + (before.map weight).sum := insertion member before
      exact (ih _).trans (by omega)
  exact (fold []).trans_eq (Nat.zero_add _)

end Liasse.Codes
