/-
This file gives the facts that make a comparison of nested data a total preorder. The facts are
about one fixed value, so that an induction over the data can supply them.
-/

import Mathlib

namespace Liasse.Codes

variable {α β : Type*} {cmp next : α → α → Ordering}

/-- The comparisons with one value respect equal values and are transitive. -/
structure Ordered (cmp : α → α → Ordering) (first : α) : Prop where
  left : ∀ second third, cmp first second = .eq → cmp first third = cmp second third
  right : ∀ second third, cmp second third = .eq → cmp first second = cmp first third
  below : ∀ second third, cmp first second = .lt → cmp second third = .lt → cmp first third = .lt

namespace Ordered

/-- A transitive comparison is ordered at each value. -/
theorem ofTrans [Std.TransCmp cmp] (first : α) : Ordered cmp first where
  left _ _ same := Std.TransCmp.congr_left same
  right _ _ same := Std.TransCmp.congr_right same
  below _ _ lower higher := Std.TransCmp.lt_trans lower higher

/-- The comparison of an image is ordered. -/
theorem on {f : α → β} {order : β → β → Ordering} {first : α}
    (ordered : Ordered order (f first)) :
    Ordered (fun left right => order (f left) (f right)) first where
  left second third := ordered.left (f second) (f third)
  right second third := ordered.right (f second) (f third)
  below second third := ordered.below (f second) (f third)

/-- A comparison with a tie break is ordered. -/
theorem thenBy {first : α} (major : Ordered cmp first) (minor : Ordered next first) :
    Ordered (fun left right => (cmp left right).then (next left right)) first where
  left second third same := by
    obtain ⟨majorSame, minorSame⟩ := Ordering.then_eq_eq.mp same
    rw [major.left second third majorSame, minor.left second third minorSame]
  right second third same := by
    obtain ⟨majorSame, minorSame⟩ := Ordering.then_eq_eq.mp same
    rw [major.right second third majorSame, minor.right second third minorSame]
  below second third lower higher := by
    rw [Ordering.then_eq_lt] at lower higher ⊢
    rcases lower with lower | ⟨same, lower⟩
    · rcases higher with higher | ⟨same, _⟩
      · exact .inl (major.below second third lower higher)
      · exact .inl ((major.right second third same).symm.trans lower)
    · rcases higher with higher | ⟨equal, higher⟩
      · exact .inl ((major.left second third same).trans higher)
      · exact .inr ⟨(major.left second third same).trans equal, minor.below second third lower higher⟩

/-- The lexicographic comparison is ordered at a list when the comparison is ordered at its
members. -/
theorem list {first : List α} (members : ∀ member ∈ first, Ordered cmp member) :
    Ordered (List.compareLex cmp) first := by
  induction first with
  | nil =>
    refine ⟨?_, ?_, ?_⟩
    · intro second third same
      cases second with
      | nil => rfl
      | cons => cases same
    · intro second third same
      cases second with
      | nil =>
        cases third with
        | nil => rfl
        | cons => cases same
      | cons =>
        cases third with
        | nil => cases same
        | cons => rfl
    · intro second third lower higher
      cases third with
      | nil =>
        cases second with
        | nil => cases higher
        | cons => cases higher
      | cons => rfl
  | cons head rest ih =>
    have headOrdered := members head List.mem_cons_self
    have restOrdered := ih fun member inside => members member (List.mem_cons_of_mem _ inside)
    have pairs : Ordered (fun left right : α × List α =>
        (cmp left.1 right.1).then (left.2.compareLex cmp right.2)) (head, rest) :=
      thenBy (on (f := Prod.fst) headOrdered) (on (f := Prod.snd) restOrdered)
    refine ⟨?_, ?_, ?_⟩
    · intro second third same
      cases second with
      | nil => cases same
      | cons other left =>
        cases third with
        | nil => rfl
        | cons another right =>
          simp only [List.compareLex_cons_cons] at same ⊢
          exact pairs.left (other, left) (another, right) same
    · intro second third same
      cases second with
      | nil =>
        cases third with
        | nil => rfl
        | cons => cases same
      | cons other left =>
        cases third with
        | nil => cases same
        | cons another right =>
          simp only [List.compareLex_cons_cons] at same ⊢
          exact pairs.right (other, left) (another, right) same
    · intro second third lower higher
      cases second with
      | nil => cases lower
      | cons other left =>
        cases third with
        | nil => cases higher
        | cons another right =>
          simp only [List.compareLex_cons_cons] at lower higher ⊢
          exact pairs.below (other, left) (another, right) lower higher

/-- A comparison that a rank decides first is ordered when it is ordered inside one rank. -/
theorem ofRank (rank : α → UInt8) {first : α}
    (decided : ∀ left right, rank left ≠ rank right →
      cmp left right = compare (rank left) (rank right))
    (inside : ∀ second third, rank first = rank second → rank second = rank third →
      (cmp first second = .eq → cmp first third = cmp second third) ∧
      (cmp second third = .eq → cmp first second = cmp first third) ∧
      (cmp first second = .lt → cmp second third = .lt → cmp first third = .lt)) :
    Ordered cmp first := by
  have sameRank : ∀ left right, cmp left right = .eq → rank left = rank right := by
    intro left right same
    by_contra different
    rw [decided left right different] at same
    exact different (Std.LawfulEqOrd.eq_of_compare same)
  have lowerRank : ∀ left right, cmp left right = .lt →
      (compare (rank left) (rank right)).isLE := by
    intro left right lower
    by_cases different : rank left = rank right
    · rw [different, Std.ReflOrd.compare_self]
      rfl
    · rw [← decided left right different, lower]
      rfl
  refine ⟨?_, ?_, ?_⟩
  · intro second third same
    have ranks := sameRank first second same
    by_cases far : rank second = rank third
    · exact (inside second third ranks far).1 same
    · rw [decided second third far, decided first third (ranks ▸ far), ranks]
  · intro second third same
    have ranks := sameRank second third same
    by_cases near : rank first = rank second
    · exact (inside second third near ranks).2.1 same
    · rw [decided first second near, decided first third (ranks ▸ near), ranks]
  · intro second third lower higher
    by_cases near : rank first = rank second
    · by_cases far : rank second = rank third
      · exact (inside second third near far).2.2 lower higher
      · rw [decided second third far] at higher
        rw [decided first third (near ▸ far), near]
        exact higher
    · rw [decided first second near] at lower
      have ranks := Std.TransCmp.lt_of_lt_of_isLE lower (lowerRank second third higher)
      rw [decided first third, ranks]
      intro same
      rw [same, Std.ReflOrd.compare_self] at ranks
      cases ranks

end Ordered

/-- A comparison that is oriented and ordered at each value is transitive. -/
theorem transCmp_of_ordered (oriented : ∀ first second, cmp first second = (cmp second first).swap)
    (ordered : ∀ first, Ordered cmp first) : Std.TransCmp cmp where
  eq_swap {first second} := oriented first second
  isLE_trans {first second third} lower higher := by
    cases near : cmp first second with
    | lt =>
      cases far : cmp second third with
      | lt => rw [(ordered first).below second third near far]; rfl
      | eq => rw [← (ordered first).right second third far, near]; rfl
      | gt => rw [far] at higher; cases higher
    | eq => rw [(ordered first).left second third near]; exact higher
    | gt => rw [near] at lower; cases lower

end Liasse.Codes
