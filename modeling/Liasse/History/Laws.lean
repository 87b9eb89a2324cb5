/-
This file proves the laws of the merge at each coordinate.
-/

import Liasse.History.Coordinate

namespace Liasse.History

open Store Liasse.Runtime Codes

namespace ThreeWayMerge

variable (merge : ThreeWayMerge)

/-- The two sides make different changes at a coordinate. -/
def DivergesAt (coordinate : RowAddress × String) : Prop :=
  Diverges (observe merge.base coordinate) (observe merge.localRows coordinate)
    (observe merge.incoming coordinate)

/-- No field of a row diverges. -/
def Settled (address : RowAddress) : Prop :=
  ∀ name, ¬ merge.DivergesAt (address, name)

section Conflicts

/-- Each divergent change is a reported conflict at its field or at its row. -/
theorem reported {address : RowAddress} {name : String} (diverges : merge.DivergesAt (address, name)) :
    ∃ conflict ∈ merge.resolve.conflicts,
      conflict.coordinate = merge.coordinate address (some name) ∨
        conflict.coordinate = merge.coordinate address none := by
  obtain ⟨conflict, inside, place⟩ := merge.reported_of_diverges (mergeValue_eq_none.mpr diverges)
  refine ⟨conflict, ?_, place⟩
  rw [resolve_conflicts]
  apply List.mem_append_left
  refine List.mem_flatMap.mpr ⟨address, ?_, inside⟩
  rw [mem_addresses]
  by_contra absent
  rw [not_or, not_or] at absent
  obtain ⟨noBase, noLocal, noIncoming⟩ := absent
  have shown := diverges.1
  simp only [observe, Std.ExtTreeMap.getElem?_eq_none noLocal,
    Std.ExtTreeMap.getElem?_eq_none noIncoming] at shown
  cases shown

end Conflicts

section Symmetry

end Symmetry

section Degenerate

end Degenerate

end ThreeWayMerge

end Liasse.History
