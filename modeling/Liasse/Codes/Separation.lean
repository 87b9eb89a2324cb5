/-
This file defines the relation that holds between two codes when they agree up to the position
that decides their order. It proves the rules that compose such codes.
-/

import Mathlib

namespace Liasse.Codes

variable {β : Type*} [Ord β]

/-- Two codes separate with an ordering when they are equal, or when neither is a prefix of the other
and their first different position has this ordering. -/
inductive Separates : List β → List β → Ordering → Prop
  | nil : Separates [] [] .eq
  | cons (letter : β) {left right : List β} {order : Ordering} :
      Separates left right order → Separates (letter :: left) (letter :: right) order
  | head {first second : β} (different : compare first second ≠ .eq) (left right : List β) :
      Separates (first :: left) (second :: right) (compare first second)

/-- A strict ordering decides before the next one. -/
theorem thenOfStrict {order next : Ordering} (strict : order ≠ .eq) : order.then next = order := by
  cases order with
  | eq => exact absurd rfl strict
  | lt => rfl
  | gt => rfl

namespace Separates

/-- A code separates from itself with equality. -/
theorem refl (code : List β) : Separates code code .eq := by
  induction code with
  | nil => exact .nil
  | cons letter rest ih => exact .cons letter ih

/-- A shared prefix does not change the ordering. -/
theorem prepend (shared : List β) {left right : List β} {order : Ordering}
    (separated : Separates left right order) :
    Separates (shared ++ left) (shared ++ right) order := by
  induction shared with
  | nil => exact separated
  | cons letter rest ih => exact .cons letter ih

/-- Two letters of a given strict ordering decide the codes that they start. -/
theorem ofHead {first second : β} {order : Ordering} (decided : compare first second = order)
    (different : order ≠ .eq) (left right : List β) :
    Separates (first :: left) (second :: right) order := by
  subst decided
  exact .head different left right

/-- The first letters decide the codes, and the rest decides them when the first letters are equal. -/
theorem consThen [Std.LawfulEqOrd β] {first second : β} {left right : List β} {order : Ordering}
    (tail : compare first second = .eq → Separates left right order) :
    Separates (first :: left) (second :: right) ((compare first second).then order) := by
  by_cases same : compare first second = .eq
  · obtain rfl := Std.LawfulEqOrd.eq_of_compare same
    rw [same]
    exact .cons first (tail same)
  · rw [thenOfStrict same]
    exact .head same left right

/-- Single letters separate with their order. -/
theorem singleton [Std.LawfulEqOrd β] (first second : β) :
    Separates [first] [second] (compare first second) := by
  have decided := @consThen β _ _ first second _ _ _ fun _ => Separates.nil
  rwa [Ordering.then_eq] at decided

/-- A strict ordering is decided before anything that follows the codes. -/
theorem extend {left right : List β} {order : Ordering} (separated : Separates left right order)
    (strict : order ≠ .eq) (leftTail rightTail : List β) :
    Separates (left ++ leftTail) (right ++ rightTail) order := by
  induction separated with
  | nil => exact absurd rfl strict
  | cons letter _ ih => exact .cons letter (ih strict)
  | head different left right => exact .head different _ _

/-- Codes that separate with equality are equal. -/
theorem eq_of_eq {left right : List β} {order : Ordering} (separated : Separates left right order)
    (same : order = .eq) : left = right := by
  induction separated with
  | nil => rfl
  | cons letter _ ih => rw [ih same]
  | head different left right => exact absurd same different

/-- The concatenation of codes separates by the first pair and then by the second pair. -/
theorem append {left right leftTail rightTail : List β} {order tailOrder : Ordering}
    (separated : Separates left right order)
    (tail : Separates leftTail rightTail tailOrder) :
    Separates (left ++ leftTail) (right ++ rightTail) (order.then tailOrder) := by
  cases order with
  | lt => exact separated.extend (by decide) _ _
  | gt => exact separated.extend (by decide) _ _
  | eq =>
    rw [separated.eq_of_eq rfl]
    exact tail.prepend right

/-- The second pair matters only when the first pair is equal. -/
theorem appendOfEq {left right leftTail rightTail : List β} {order tailOrder : Ordering}
    (separated : Separates left right order)
    (tail : order = .eq → Separates leftTail rightTail tailOrder) :
    Separates (left ++ leftTail) (right ++ rightTail) (order.then tailOrder) := by
  cases order with
  | lt => exact separated.extend (by decide) _ _
  | gt => exact separated.extend (by decide) _ _
  | eq => exact separated.append (tail rfl)

/-- A letter map that reverses the order reverses the ordering of the codes. -/
theorem mapAntitone {complement : β → β}
    (antitone : ∀ first second,
      compare (complement first) (complement second) = (compare first second).swap)
    {left right : List β} {order : Ordering} (separated : Separates left right order) :
    Separates (left.map complement) (right.map complement) order.swap := by
  induction separated with
  | nil => exact .nil
  | cons letter _ ih => exact .cons _ ih
  | head different left right =>
    refine ofHead (antitone _ _) ?_ _ _
    intro same
    exact different (Ordering.swap_eq_eq.mp same)

/-- The exchanged codes separate with the exchanged ordering. -/
theorem swap [Std.OrientedOrd β] {left right : List β} {order : Ordering}
    (separated : Separates left right order) : Separates right left order.swap := by
  induction separated with
  | nil => exact .nil
  | cons letter _ ih => exact .cons letter ih
  | head different left right =>
    refine ofHead Std.OrientedOrd.eq_swap ?_ _ _
    exact fun same => different (Ordering.swap_eq_eq.mp same)

/-- The lexicographic order of codes that separate is the ordering, then the order of what follows. -/
theorem compareAppend [Std.ReflOrd β] {left right : List β} {order : Ordering}
    (separated : Separates left right order) (leftTail rightTail : List β) :
    compare (left ++ leftTail) (right ++ rightTail) = order.then (compare leftTail rightTail) := by
  induction separated with
  | nil => rfl
  | cons letter _ ih =>
    rw [List.cons_append, List.cons_append, List.compare_cons_cons, Std.ReflOrd.compare_self]
    exact ih
  | head different left right =>
    rw [List.cons_append, List.cons_append, List.compare_cons_cons, thenOfStrict different,
      thenOfStrict different]

/-- The lexicographic order of codes that separate is the ordering. -/
theorem compareEq [Std.ReflOrd β] {left right : List β} {order : Ordering}
    (separated : Separates left right order) : compare left right = order := by
  have whole := separated.compareAppend [] []
  rw [List.append_nil, List.append_nil] at whole
  rw [whole, Std.ReflOrd.compare_self, Ordering.then_eq]

/-- Codes that separate are equal exactly when the ordering is equality. -/
theorem eq_iff [Std.ReflOrd β] {left right : List β} {order : Ordering}
    (separated : Separates left right order) : left = right ↔ order = .eq := by
  constructor
  · intro same
    rw [← separated.compareEq, same]
    exact Std.ReflOrd.compare_self
  · exact separated.eq_of_eq

/-- A code that is a prefix of the other code is equal to it. -/
theorem eq_of_prefix [Std.ReflOrd β] {left right : List β} {order : Ordering}
    (separated : Separates left right order) (isPrefix : left <+: right) : left = right := by
  obtain ⟨tail, rfl⟩ := isPrefix
  apply separated.eq_of_eq
  have decided := separated.compareAppend tail []
  rw [List.append_nil, Std.ReflOrd.compare_self] at decided
  exact (Ordering.then_eq_eq.mp decided.symm).1

end Separates

/-- Codes of one length separate with their lexicographic order. -/
theorem separatesOfLength [Std.LawfulEqOrd β] {left right : List β}
    (length : left.length = right.length) : Separates left right (compare left right) := by
  induction left generalizing right with
  | nil =>
    cases right with
    | nil => exact .nil
    | cons letter rest => cases length
  | cons first left ih =>
    cases right with
    | nil => cases length
    | cons second right =>
      rw [List.compare_cons_cons]
      exact .consThen fun _ => ih (Nat.succ.inj length)

/-- A code with a stop letter after it. -/
def terminated (stop : β) (code : List β) : List β :=
  code ++ [stop]

/-- Terminated codes separate with the lexicographic order of what they terminate when the stop
letter is below their letters. -/
theorem terminated_separates [Std.LawfulEqOrd β] [Std.OrientedOrd β] (stop : β)
    {left right : List β}
    (leftAbove : ∀ letter ∈ left, compare stop letter = .lt)
    (rightAbove : ∀ letter ∈ right, compare stop letter = .lt) :
    Separates (terminated stop left) (terminated stop right) (compare left right) := by
  induction left generalizing right with
  | nil =>
    cases right with
    | nil => exact .refl _
    | cons letter rest =>
      exact .ofHead (rightAbove letter List.mem_cons_self) (by decide) _ _
  | cons first left ih =>
    cases right with
    | nil =>
      have higher := Std.OrientedCmp.gt_of_lt (leftAbove first List.mem_cons_self)
      exact .ofHead higher (by decide) _ _
    | cons second right =>
      rw [List.compare_cons_cons]
      apply Separates.consThen
      intro _
      apply ih
      · exact fun letter member => leftAbove letter (List.mem_cons_of_mem _ member)
      · exact fun letter member => rightAbove letter (List.mem_cons_of_mem _ member)

/-- A code in which a pad follows each escaped letter and two escaped letters stand at the end. -/
def escaped [DecidableEq β] (letter pad : β) (code : List β) : List β :=
  code.flatMap (fun other => if other = letter then [other, pad] else [other]) ++ [letter, letter]

/-- Escaped codes separate with the lexicographic order of what they escape when the escaped letter
is the lowest one. -/
theorem escaped_separates [DecidableEq β] [Std.LawfulEqOrd β] [Std.OrientedOrd β] (letter pad : β)
    (lowest : ∀ other, other ≠ letter → compare letter other = .lt)
    (padAbove : compare letter pad = .lt) (left right : List β) :
    Separates (escaped letter pad left) (escaped letter pad right) (compare left right) := by
  have nilBelow : ∀ (first : β) (rest : List β),
      Separates (escaped letter pad []) (escaped letter pad (first :: rest)) .lt := by
    intro first rest
    by_cases same : first = letter
    · subst same
      simp only [escaped, List.flatMap_nil, List.flatMap_cons, if_true, List.nil_append,
        List.cons_append]
      exact .cons first (.ofHead padAbove (by decide) _ _)
    · simp only [escaped, List.flatMap_nil, List.flatMap_cons, if_neg same, List.nil_append,
        List.cons_append]
      exact .ofHead (lowest first same) (by decide) _ _
  induction left generalizing right with
  | nil =>
    cases right with
    | nil => exact .refl _
    | cons first rest => exact nilBelow first rest
  | cons first left ih =>
    cases right with
    | nil => exact (nilBelow first left).swap
    | cons second right =>
      rw [List.compare_cons_cons]
      simp only [escaped, List.flatMap_cons, List.append_assoc]
      refine Separates.append ?_ (ih right)
      by_cases same : compare first second = .eq
      · obtain rfl := Std.LawfulEqOrd.eq_of_compare same
        rw [same]
        exact .refl _
      · split <;> split <;> exact .head same _ _

/-- A sequence in which an item letter stands before each code and a stop letter stands at the end. -/
def framed (item stop : β) (codes : List (List β)) : List β :=
  codes.flatMap (fun code => item :: code) ++ [stop]

omit [Ord β] in
@[simp] theorem framed_cons (item stop : β) (code : List β) (codes : List (List β)) :
    framed item stop (code :: codes) = item :: code ++ framed item stop codes := by
  simp only [framed, List.flatMap_cons, List.append_assoc]

/-- Framed sequences separate with the lexicographic order of their members when the stop letter is
below the item letter and the codes of the members separate. -/
theorem framed_separates [Std.OrientedOrd β] {α : Type*} (item stop : β)
    (stopBelow : compare stop item = .lt) (encode : α → List β) (cmp : α → α → Ordering)
    {left right : List α}
    (members : ∀ first ∈ left, ∀ second ∈ right,
      Separates (encode first) (encode second) (cmp first second)) :
    Separates (framed item stop (left.map encode)) (framed item stop (right.map encode))
      (left.compareLex cmp right) := by
  induction left generalizing right with
  | nil =>
    cases right with
    | nil => exact .refl _
    | cons second right => exact .ofHead stopBelow (by decide) _ _
  | cons first left ih =>
    cases right with
    | nil => exact .ofHead (Std.OrientedCmp.gt_of_lt stopBelow) (by decide) _ _
    | cons second right =>
      rw [List.compareLex_cons_cons]
      simp only [framed, List.map_cons, List.flatMap_cons, List.cons_append, List.append_assoc]
      apply Separates.cons
      apply Separates.append
      · exact members first List.mem_cons_self second List.mem_cons_self
      · apply ih
        intro other otherMember another anotherMember
        exact members other (List.mem_cons_of_mem _ otherMember)
          another (List.mem_cons_of_mem _ anotherMember)

/-- The concatenation of nonempty codes that separate has the lexicographic order of the members. -/
theorem compareConcatenated [Std.ReflOrd β] {α : Type*} (encode : α → List β)
    (cmp : α → α → Ordering) {left right : List α}
    (leftNonempty : ∀ member ∈ left, encode member ≠ [])
    (rightNonempty : ∀ member ∈ right, encode member ≠ [])
    (members : ∀ first ∈ left, ∀ second ∈ right,
      Separates (encode first) (encode second) (cmp first second)) :
    compare (left.flatMap encode) (right.flatMap encode) = left.compareLex cmp right := by
  induction left generalizing right with
  | nil =>
    cases right with
    | nil => rfl
    | cons second right =>
      rw [List.flatMap_nil, List.flatMap_cons, List.compareLex_nil_cons]
      obtain ⟨letter, rest, shape⟩ :=
        List.exists_cons_of_ne_nil (rightNonempty second List.mem_cons_self)
      rw [shape]
      rfl
  | cons first left ih =>
    cases right with
    | nil =>
      rw [List.flatMap_nil, List.flatMap_cons, List.compareLex_cons_nil]
      obtain ⟨letter, rest, shape⟩ :=
        List.exists_cons_of_ne_nil (leftNonempty first List.mem_cons_self)
      rw [shape]
      rfl
    | cons second right =>
      rw [List.flatMap_cons, List.flatMap_cons, List.compareLex_cons_cons,
        (members first List.mem_cons_self second List.mem_cons_self).compareAppend]
      congr 1
      apply ih
      · exact fun member inside => leftNonempty member (List.mem_cons_of_mem _ inside)
      · exact fun member inside => rightNonempty member (List.mem_cons_of_mem _ inside)
      · intro other otherMember another anotherMember
        exact members other (List.mem_cons_of_mem _ otherMember)
          another (List.mem_cons_of_mem _ anotherMember)

/-- Concatenations of codes, each closed by a stop letter, are equal exactly when the stop letter cuts the
codes into equal pieces. -/
theorem flatMap_closed_eq_iff {α γ : Type*} [DecidableEq γ] (stop : γ) (code : α → List γ)
    (first second : List α) :
    first.flatMap (fun member => code member ++ [stop]) = second.flatMap (fun member => code member ++ [stop]) ↔
      first.flatMap (fun member => (code member).splitOn stop) =
        second.flatMap (fun member => (code member).splitOn stop) := by
  have cut (members : List α) : (members.flatMap fun member => code member ++ [stop]).splitOn stop =
      members.flatMap (fun member => (code member).splitOn stop) ++ [[]] := by
    induction members with
    | nil => rfl
    | cons member rest earlier =>
      rw [List.flatMap_cons, List.append_assoc, List.singleton_append, List.splitOn_append_cons_self, earlier,
        List.flatMap_cons, List.append_assoc]
  constructor
  · intro same
    have pieces := congrArg (List.splitOn stop) same
    rw [cut, cut] at pieces
    exact List.append_cancel_right pieces
  · intro same
    have joined : [stop].intercalate ((first.flatMap fun member => code member ++ [stop]).splitOn stop) = _ :=
      List.intercalate_splitOn stop
    rw [← joined, cut, same, ← cut, List.intercalate_splitOn]

end Liasse.Codes
