/-
This file splits a text into its lines and puts the lines together again.
-/

import Mathlib.Data.List.Basic

namespace Liasse.Codes

variable {Letter : Type} [DecidableEq Letter] {mark : Letter}

/-- The text of some lines ends each line with the mark. -/
def unlines (mark : Letter) (lines : List (List Letter)) : List Letter :=
  lines.flatMap fun line => line ++ [mark]

omit [DecidableEq Letter] in
@[simp] theorem unlines_nil : unlines mark [] = [] := rfl

omit [DecidableEq Letter] in
@[simp] theorem unlines_cons (line : List Letter) (rest : List (List Letter)) :
    unlines mark (line :: rest) = line ++ mark :: unlines mark rest := by
  simp [unlines]

omit [DecidableEq Letter] in
theorem unlines_append (lines rest : List (List Letter)) :
    unlines mark (lines ++ rest) = unlines mark lines ++ unlines mark rest :=
  List.flatMap_append

/-- A text splits into the lines that it was made of and its rest. -/
theorem splitOn_unlines {lines : List (List Letter)} (plain : ∀ line ∈ lines, mark ∉ line) (rest : List Letter) :
    (unlines mark lines ++ rest).splitOn mark = lines ++ rest.splitOn mark := by
  induction lines with
  | nil => rfl
  | cons line lines ih =>
    have later := ih fun other inside => plain other (List.mem_cons_of_mem _ inside)
    rw [unlines_cons, List.append_assoc, List.cons_append,
      List.splitOn_append_cons_self_of_not_mem (plain line List.mem_cons_self), later, List.cons_append]

/-- The parts of a text, each ended with the mark, are the text ended with the mark. -/
theorem unlines_splitOn (text : List Letter) : unlines mark (text.splitOn mark) = text ++ [mark] := by
  induction text with
  | nil => rfl
  | cons letter rest ih =>
    rw [List.splitOn_cons_eq_if_modifyHead]
    split
    next same => rw [unlines_cons, ih, beq_iff_eq.mp same]; rfl
    next =>
      obtain ⟨head, tail, parts⟩ := List.exists_cons_of_ne_nil (List.splitOn_ne_nil mark rest)
      rw [parts, unlines_cons] at ih
      rw [parts, List.modifyHead_cons, unlines_cons, List.cons_append, ih, List.cons_append]

/-- The letters of a part are letters of the text, and none of them is the mark. -/
theorem mem_of_mem_splitOn {text part : List Letter} (listed : part ∈ text.splitOn mark) {letter : Letter}
    (inside : letter ∈ part) : letter ∈ text ∧ letter ≠ mark := by
  induction text generalizing part with
  | nil =>
    rw [List.splitOn_nil, List.mem_singleton] at listed
    rw [listed] at inside
    cases inside
  | cons first rest ih =>
    rw [List.splitOn_cons_eq_if_modifyHead] at listed
    split at listed
    next =>
      rcases List.mem_cons.mp listed with rfl | later
      · cases inside
      · obtain ⟨member, apart⟩ := ih later inside
        exact ⟨List.mem_cons_of_mem _ member, apart⟩
    next different =>
      obtain ⟨head, tail, parts⟩ := List.exists_cons_of_ne_nil (List.splitOn_ne_nil mark rest)
      rw [parts, List.modifyHead_cons] at listed
      rcases List.mem_cons.mp listed with rfl | later
      · rcases List.mem_cons.mp inside with rfl | behind
        · exact ⟨List.mem_cons_self, by simpa using different⟩
        · obtain ⟨member, apart⟩ := ih (parts ▸ List.mem_cons_self) behind
          exact ⟨List.mem_cons_of_mem _ member, apart⟩
      · obtain ⟨member, apart⟩ := ih (parts ▸ List.mem_cons_of_mem _ later) inside
        exact ⟨List.mem_cons_of_mem _ member, apart⟩

end Liasse.Codes
