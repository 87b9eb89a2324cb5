/-
This file gives the three-way merge of one coordinate over any type with an equality test.
-/

import Mathlib

namespace Liasse.Codes

variable {α : Type*} [BEq α]

/-- A side of a merge. -/
inductive Side
  | left
  | right
deriving DecidableEq

namespace Side

/-- The other side. -/
def other : Side → Side
  | left => right
  | right => left

/-- The value of a side. -/
def pick (side : Side) (left right : α) : α :=
  match side with
  | .left => left
  | .right => right

end Side

/-- Equal values agree, a change on one side wins, and divergent changes have no merge. -/
def mergeValue (base left right : α) : Option α :=
  if left == right then some left
  else if left == base then some right
  else if right == base then some left
  else none

/-- The three values of a coordinate diverge when each side made a change of its own. -/
def Diverges (base left right : α) : Prop :=
  (left == right) = false ∧ (left == base) = false ∧ (right == base) = false

theorem mergeValue_eq_none {base left right : α} :
    mergeValue base left right = none ↔ Diverges base left right := by
  unfold mergeValue Diverges
  split
  case isTrue same => simp [same]
  case isFalse different =>
    split
    case isTrue same => simp [same]
    case isFalse changed =>
      split
      case isTrue same => simp [same]
      case isFalse moved => simp [different, changed, moved]

/-- The merge is the value of one side. -/
theorem mergeValue_side {base left right result : α} (merged : mergeValue base left right = some result) :
    ∃ side : Side, result = side.pick left right := by
  unfold mergeValue at merged
  split at merged
  case isTrue => exact ⟨.left, (Option.some.inj merged).symm⟩
  case isFalse =>
    split at merged
    case isTrue => exact ⟨.right, (Option.some.inj merged).symm⟩
    case isFalse =>
      split at merged
      case isTrue => exact ⟨.left, (Option.some.inj merged).symm⟩
      case isFalse => cases merged

/-- Equal changes are taken once. -/
theorem mergeValue_agree {base left right : α} (same : (left == right) = true) :
    mergeValue base left right = some left :=
  if_pos same

variable [EquivBEq α]

/-- A side that made no change gives way to the other side. -/
theorem mergeValue_left_unchanged {base left : α} (right : α) (unchanged : (left == base) = true) :
    ∃ result, mergeValue base left right = some result ∧ (result == right) = true := by
  unfold mergeValue
  split
  case isTrue same => exact ⟨left, rfl, same⟩
  case isFalse => exact ⟨right, rfl, BEq.rfl⟩

theorem mergeValue_right_unchanged {base right : α} (left : α) (unchanged : (right == base) = true) :
    ∃ result, mergeValue base left right = some result ∧ (result == left) = true := by
  unfold mergeValue
  split
  case isTrue => exact ⟨left, rfl, BEq.rfl⟩
  case isFalse different =>
    split
    case isTrue same => exact absurd (BEq.trans same (BEq.symm unchanged)) different
    case isFalse => exact ⟨left, rfl, BEq.rfl⟩

/-- A changed side gives the value of the merge. -/
theorem mergeValue_left_changed {base left right result : α} (changed : (left == base) = false)
    (merged : mergeValue base left right = some result) : (result == left) = true := by
  unfold mergeValue at merged
  split at merged
  case isTrue => exact Option.some.inj merged ▸ BEq.rfl
  case isFalse =>
    rw [changed, if_neg Bool.false_ne_true] at merged
    split at merged
    case isTrue => exact Option.some.inj merged ▸ BEq.rfl
    case isFalse => cases merged

theorem mergeValue_right_changed {base left right result : α} (changed : (right == base) = false)
    (merged : mergeValue base left right = some result) : (result == right) = true := by
  unfold mergeValue at merged
  split at merged
  case isTrue same => exact Option.some.inj merged ▸ same
  case isFalse =>
    split at merged
    case isTrue => exact Option.some.inj merged ▸ BEq.rfl
    case isFalse =>
      rw [changed, if_neg Bool.false_ne_true] at merged
      cases merged

theorem Diverges.swap {base left right : α} (diverges : Diverges base left right) :
    Diverges base right left :=
  ⟨BEq.comm.trans diverges.1, diverges.2.2, diverges.2.1⟩

end Liasse.Codes
