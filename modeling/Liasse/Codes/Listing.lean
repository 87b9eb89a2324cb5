/-
This file gives the inversion facts of computations that can fail, and the facts about loops that answer each member of a
list and about lists that are in strict order.
-/

import Mathlib

namespace Liasse.Codes

section Outcomes

variable {ε : Type*} {α β : Type}

/-- The step after a success works on its value. -/
theorem ok_bind (value : α) (next : α → Except ε β) : (Except.ok value >>= next) = next value :=
  rfl

/-- A sequence of two steps succeeds when both steps do. -/
theorem bind_ok {first : Except ε α} {next : α → Except ε β} {result : β} :
    (first >>= next) = .ok result ↔ ∃ value, first = .ok value ∧ next value = .ok result := by
  cases first with
  | error =>
    constructor
    · intro same
      cases same
    · rintro ⟨_, same, _⟩
      cases same
  | ok value =>
    constructor
    · intro same
      exact ⟨value, rfl, same⟩
    · rintro ⟨_, same, last⟩
      cases same
      exact last

/-- A sequence of two steps fails when one of them does. -/
theorem bind_error {first : Except ε α} {next : α → Except ε β} {fault : ε} :
    (first >>= next) = .error fault ↔
      first = .error fault ∨ ∃ value, first = .ok value ∧ next value = .error fault := by
  cases first with
  | error other =>
    constructor
    · intro same
      cases same
      exact .inl rfl
    · rintro (same | ⟨_, same, _⟩)
      · cases same
        rfl
      · cases same
  | ok value =>
    constructor
    · intro same
      exact .inr ⟨value, rfl, same⟩
    · rintro (same | ⟨_, same, last⟩)
      · cases same
      · cases same
        exact last

/-- A step with a new fault fails when the step does. -/
theorem mapError_error {δ : Type*} {first : Except ε α} {rename : ε → δ} {fault : δ} :
    first.mapError rename = .error fault ↔ ∃ cause, first = .error cause ∧ rename cause = fault := by
  cases first with
  | error cause =>
    constructor
    · intro same
      cases same
      exact ⟨cause, rfl, rfl⟩
    · rintro ⟨_, same, renamed⟩
      cases same
      exact congrArg Except.error renamed
  | ok value =>
    constructor
    · intro same
      cases same
    · rintro ⟨_, same, _⟩
      cases same

/-- A loop of checks succeeds when each check does. -/
theorem forM_ok {members : List α} {check : α → Except ε Unit} :
    members.forM check = .ok ⟨⟩ ↔ ∀ member ∈ members, check member = .ok ⟨⟩ := by
  induction members with
  | nil => exact ⟨fun _ _ inside => absurd inside List.not_mem_nil, fun _ => rfl⟩
  | cons first rest ih =>
    rw [List.forM_eq_forM, List.forM_cons, bind_ok]
    constructor
    · rintro ⟨_, passed, others⟩ member inside
      rcases List.mem_cons.mp inside with rfl | inside
      · exact passed
      · exact ih.mp others member inside
    · intro all
      exact ⟨⟨⟩, all first List.mem_cons_self,
        ih.mpr fun member inside => all member (List.mem_cons_of_mem _ inside)⟩

end Outcomes

section Listings

section Loops

variable {ε : Type*} {α β : Type} {answer : α → Except ε β}

/-- A loop over a list succeeds with the answers to its members. -/
theorem mapM_ok {members : List α} {answers : List β} :
    members.mapM answer = .ok answers ↔ members.map answer = answers.map .ok := by
  induction members generalizing answers with
  | nil =>
    rw [List.mapM_nil, List.map_nil]
    constructor
    · intro same
      cases same
      rfl
    · exact fun same => congrArg Except.ok (List.map_eq_nil_iff.mp same.symm).symm
  | cons member members ih =>
    rw [List.mapM_cons, bind_ok]
    constructor
    · rintro ⟨first, answered, rest⟩
      obtain ⟨others, all, same⟩ := bind_ok.mp rest
      cases same
      rw [List.map_cons, answered, ih.mp all, List.map_cons]
    · intro same
      cases answers with
      | nil => cases same
      | cons first others =>
        obtain ⟨answered, all⟩ := List.cons.inj same
        exact ⟨first, answered, bind_ok.mpr ⟨others, ih.mpr all, rfl⟩⟩

/-- A loop succeeds when each member has an answer. -/
theorem exists_mapM {members : List α} (each : ∀ member ∈ members, ∃ result, answer member = .ok result) :
    ∃ answers, members.mapM answer = .ok answers := by
  induction members with
  | nil => exact ⟨[], rfl⟩
  | cons member members ih =>
    obtain ⟨first, answered⟩ := each member List.mem_cons_self
    obtain ⟨others, all⟩ := ih fun other inside => each other (List.mem_cons_of_mem _ inside)
    exact ⟨first :: others, by rw [mapM_ok, List.map_cons, answered, mapM_ok.mp all, List.map_cons]⟩

/-- The answers of a loop are those to its members. -/
theorem mem_of_mapM {members : List α} {answers : List β} (all : members.mapM answer = .ok answers)
    {result : β} : result ∈ answers ↔ ∃ member ∈ members, answer member = .ok result := by
  have listed : (.ok result : Except ε β) ∈ answers.map .ok ↔ result ∈ answers := by
    simp
  rw [← listed, ← mapM_ok.mp all, List.mem_map]

/-- The answers of a loop relate when the answers to its members do. -/
theorem pairwise_mapM_iff {members : List α} {answers : List β} (all : members.mapM answer = .ok answers)
    {after : β → β → Prop} : answers.Pairwise after ↔ members.Pairwise fun first second =>
      ∀ one, answer first = .ok one → ∀ other, answer second = .ok other → after one other := by
  have lifted : (members.map answer).Pairwise (fun first second =>
      ∀ one, first = .ok one → ∀ other, second = .ok other → after one other) ↔ answers.Pairwise after := by
    rw [mapM_ok.mp all, List.pairwise_map]
    exact ⟨fun related => related.imp fun each => each _ rfl _ rfl,
      fun related => related.imp fun each _ same _ other => Except.ok.inj same ▸ Except.ok.inj other ▸ each⟩
  rw [← lifted, List.pairwise_map]

/-- The answers of a loop relate as its members do. -/
theorem pairwise_of_mapM {members : List α} {answers : List β} (all : members.mapM answer = .ok answers)
    {before : α → α → Prop} {after : β → β → Prop}
    (carried : ∀ first ∈ members, ∀ second ∈ members, before first second →
      ∀ one, answer first = .ok one → ∀ other, answer second = .ok other → after one other)
    (ordered : members.Pairwise before) : answers.Pairwise after :=
  (pairwise_mapM_iff all).mpr (ordered.imp_of_mem fun one other => carried _ one _ other)

end Loops

section Order

variable {κ β : Type} [Ord κ] [Std.TransOrd κ] [Std.LawfulEqOrd κ] {key : β → κ}

/-- A list sorted by distinct keys is in the strict order of the keys. -/
theorem strict_mergeSort {members : List β} (distinct : (members.map key).Nodup) :
    (members.mergeSort fun first second => (compare (key first) (key second)).isLE).Pairwise
      fun first second => compare (key first) (key second) = .lt := by
  have apart : ((members.mergeSort fun first second =>
      (compare (key first) (key second)).isLE).map key).Nodup :=
    ((List.mergeSort_perm _ _).map key).nodup_iff.mpr distinct
  rw [List.Nodup, List.pairwise_map] at apart
  have sorted := List.pairwise_mergeSort
    (fun first second third : β => Std.TransOrd.isLE_trans (a := key first) (b := key second) (c := key third))
    (fun first second => by
      rw [Std.OrientedOrd.eq_swap (a := key second), Bool.or_eq_true]
      cases compare (key first) (key second) <;> simp) members
  refine (sorted.and apart).imp fun ⟨below, different⟩ => ?_
  cases order : compare (key _) (key _) with
  | lt => rfl
  | eq => exact absurd (Std.LawfulEqOrd.eq_of_compare order) different
  | gt => rw [order] at below; cases below

/-- Two lists in strict order of their keys are equal when they have the same members. -/
theorem eq_of_strict {first second : List β}
    (one : first.Pairwise fun left right => compare (key left) (key right) = .lt)
    (two : second.Pairwise fun left right => compare (key left) (key right) = .lt)
    (same : ∀ member, member ∈ first ↔ member ∈ second) : first = second := by
  have irreflexive : Std.Irrefl fun left right : β => compare (key left) (key right) = .lt :=
    ⟨fun member below => by simp at below⟩
  have antisymmetric : Std.Antisymm fun left right : β => compare (key left) (key right) = .lt :=
    ⟨fun left right below above => by
      rw [Std.OrientedOrd.eq_swap, above] at below
      cases below⟩
  exact List.Pairwise.eq_of_mem_iff one two same

end Order

section Sorting

variable {α : Type*} {cmp : α → α → Ordering} {kept : α → Prop}

/-- A list is sorted by a comparison that is transitive on its members. -/
theorem ordered_mergeSort
    (transitive : Std.TransCmp fun first second : {member // kept member} => cmp first.1 second.1) {members : List α}
    (each : ∀ member ∈ members, kept member) :
    (members.mergeSort fun first second => cmp first second != .gt).Pairwise
      fun first second => cmp first second ≠ .gt := by
  let before (first second : {member // kept member}) : Bool := cmp first.1 second.1 != .gt
  have transfers (first second third : {member // kept member}) (lower : before first second = true)
      (upper : before second third = true) : before first third = true := by
    have lower : (cmp first.1 second.1).isLE := by simpa [before, Ordering.isLE_iff_ne_gt] using lower
    have upper : (cmp second.1 third.1).isLE := by simpa [before, Ordering.isLE_iff_ne_gt] using upper
    simpa [before, Ordering.isLE_iff_ne_gt] using transitive.isLE_trans lower upper
  have total (first second : {member // kept member}) : (before first second || before second first) = true := by
    have swapped : cmp first.1 second.1 = (cmp second.1 first.1).swap := transitive.eq_swap
    simp only [before, swapped]
    cases cmp second.1 first.1 <;> rfl
  have sorted := List.pairwise_mergeSort transfers total (members.attachWith _ each)
  have same : ∀ first ∈ members.attachWith _ each, ∀ second ∈ members.attachWith _ each,
      before first second = (cmp first.1 second.1 != .gt) := fun _ _ _ _ => rfl
  rw [← List.attachWith_map_subtype_val each, ← List.map_mergeSort same, List.pairwise_map]
  exact sorted.imp fun ordered => by simpa [before] using ordered

end Sorting

section Folding

/-- What one step of a fold establishes and the other steps keep holds after the fold. -/
theorem foldl_establishes {α β : Type*} (holds : β → Prop) {step : β → α → β} {members : List α} {member : α}
    (inside : member ∈ members) (here : ∀ state, holds (step state member))
    (others : ∀ other ∈ members, other ≠ member → ∀ state, holds state → holds (step state other)) (state : β) :
    holds (members.foldl step state) := by
  induction members using List.reverseRecOn with
  | nil => cases inside
  | append_singleton members last ih =>
    rw [List.foldl_append, List.foldl_cons, List.foldl_nil]
    by_cases same : last = member
    · rw [same]
      exact here _
    · refine others last (by simp) same _ ?_
      have earlier : member ∈ members := by
        rcases List.mem_append.mp inside with earlier | now
        · exact earlier
        · exact absurd (List.mem_singleton.mp now).symm same
      exact ih earlier fun other member => others other (List.mem_append_left _ member)

end Folding

section Counting

/-- Sizes of at least one that add up to at most the number of members are all one. -/
theorem eq_one_of_sum_le {α : Type*} {members : List α} {size : α → Nat}
    (least : ∀ member ∈ members, 1 ≤ size member) (bound : (members.map size).sum ≤ members.length) :
    ∀ member ∈ members, size member = 1 := by
  induction members with
  | nil => exact fun _ inside => absurd inside List.not_mem_nil
  | cons first rest ih =>
    obtain ⟨here, others⟩ := List.forall_mem_cons.mp least
    have total : rest.length ≤ (rest.map size).sum := by
      have each := List.sum_le_sum others
      rwa [List.map_const', List.sum_replicate, nsmul_one] at each
    rw [List.map_cons, List.sum_cons, List.length_cons] at bound
    exact List.forall_mem_cons.mpr ⟨by omega, ih others (by omega)⟩

end Counting

section Fresh

variable {α : Type*} [DecidableEq α]

/-- The items that are not known yet, each one at its first place. -/
def fresh (known : List α) : List α → List α
  | [] => []
  | first :: rest => if first ∈ known then fresh known rest else first :: fresh (first :: known) rest

theorem mem_fresh {known items : List α} {item : α} :
    item ∈ fresh known items ↔ item ∈ items ∧ item ∉ known := by
  induction items generalizing known with
  | nil => simp [fresh]
  | cons first rest later =>
    rw [fresh]
    split
    · rename_i present
      rw [later, List.mem_cons]
      constructor
      · rintro ⟨inside, absent⟩
        exact ⟨.inr inside, absent⟩
      · rintro ⟨rfl | inside, absent⟩
        · exact absurd present absent
        · exact ⟨inside, absent⟩
    · rename_i absent
      rw [List.mem_cons, later, List.mem_cons, List.mem_cons]
      constructor
      · rintro (rfl | ⟨inside, outside⟩)
        · exact ⟨.inl rfl, absent⟩
        · exact ⟨.inr inside, outside ∘ .inr⟩
      · rintro ⟨inside, outside⟩
        by_cases same : item = first
        · exact .inl same
        · exact .inr ⟨inside.resolve_left same, fun listed => listed.elim same outside⟩

end Fresh

end Listings

end Liasse.Codes
