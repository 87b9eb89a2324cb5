/-
This file gives the facts about lists whose members are related one by one, and about the loops that answer
each member with a related result.
-/

import Liasse.Codes.Listing
import Liasse.Codes.Sorted

namespace Liasse.Codes

section Loops

variable {ε : Type*} {α β : Type} {answer : α → Except ε β} {related : α → β → Prop}

/-- A changed result is the change of a result. -/
theorem map_ok {first : Except ε α} {change : α → β} {result : β} :
    first.map change = .ok result ↔ ∃ value, first = .ok value ∧ change value = result := by
  cases first with
  | error fault =>
    constructor
    · intro same
      cases same
    · rintro ⟨_, same, _⟩
      cases same
  | ok value =>
    constructor
    · intro same
      exact ⟨value, rfl, Except.ok.inj same⟩
    · rintro ⟨_, same, last⟩
      cases same
      exact congrArg Except.ok last

/-- A step with a new fault succeeds when the step does. -/
theorem mapError_ok {δ : Type*} {first : Except ε α} {rename : ε → δ} {value : α} :
    first.mapError rename = .ok value ↔ first = .ok value := by
  cases first with
  | error => exact iff_of_false nofun nofun
  | ok => exact ⟨fun same => congrArg Except.ok (Except.ok.inj same), fun same => congrArg Except.ok (Except.ok.inj same)⟩

/-- A loop whose members have related answers succeeds with a related list. -/
theorem exists_mapM_related {members : List α}
    (each : ∀ member ∈ members, ∃ result, answer member = .ok result ∧ related member result) :
    ∃ answers, members.mapM answer = .ok answers ∧ List.Forall₂ related members answers := by
  induction members with
  | nil => exact ⟨[], rfl, .nil⟩
  | cons member members ih =>
    obtain ⟨first, answered, relates⟩ := each member List.mem_cons_self
    obtain ⟨others, all, rest⟩ := ih fun other inside =>
      each other (List.mem_cons_of_mem _ inside)
    refine ⟨first :: others, ?_, .cons relates rest⟩
    rw [mapM_ok, List.map_cons, answered, mapM_ok.mp all, List.map_cons]

/-- A loop over members that are related to others has answers that are related to the others. -/
theorem exists_mapM_of_forall₂ {γ : Type} {matched : γ → β → Prop} {members : List α} {others : List γ}
    (each : List.Forall₂ (fun member other => ∃ result, answer member = .ok result ∧ matched other result)
      members others) :
    ∃ answers, members.mapM answer = .ok answers ∧ List.Forall₂ matched others answers := by
  induction each with
  | nil => exact ⟨[], rfl, .nil⟩
  | cons here _ ih =>
    obtain ⟨first, answered, relates⟩ := here
    obtain ⟨answers, all, rest⟩ := ih
    refine ⟨first :: answers, ?_, .cons relates rest⟩
    rw [mapM_ok, List.map_cons, answered, mapM_ok.mp all, List.map_cons]

/-- A loop that succeeds answers each member. -/
theorem forall₂_of_mapM {members : List α} {answers : List β} (all : members.mapM answer = .ok answers) :
    List.Forall₂ (fun member result => answer member = .ok result) members answers := by
  have answered := mapM_ok.mp all
  induction members generalizing answers with
  | nil =>
    rw [List.map_nil] at answered
    rw [List.map_eq_nil_iff.mp answered.symm]
    exact .nil
  | cons member members ih =>
    cases answers with
    | nil => cases answered
    | cons first others =>
      obtain ⟨here, rest⟩ := List.cons.inj answered
      exact .cons here (ih (mapM_ok.mpr rest) rest)

/-- A loop over the answers of a loop is one loop. -/
theorem mapM_then {γ : Type} {following : β → Except ε γ} {members : List α} {answers : List β} {results : List γ}
    (all : members.mapM answer = .ok answers) (onward : answers.mapM following = .ok results) :
    members.mapM (fun member => answer member >>= following) = .ok results := by
  rw [mapM_ok] at all onward ⊢
  have bound : members.map (fun member => answer member >>= following) =
      (members.map answer).map fun answered => answered.bind following := by
    rw [List.map_map]
    rfl
  rw [bound, all, List.map_map, ← onward]
  rfl

/-- The members of a loop that succeeds have answers. -/
theorem exists_of_mapM {members : List α} {answers : List β} (all : members.mapM answer = .ok answers)
    {member : α} (inside : member ∈ members) : ∃ result ∈ answers, answer member = .ok result := by
  have listed : answer member ∈ answers.map Except.ok := by
    rw [← mapM_ok.mp all]
    exact List.mem_map_of_mem inside
  obtain ⟨result, present, same⟩ := List.mem_map.mp listed
  exact ⟨result, present, same.symm⟩

/-- Each answer of a loop that succeeds is the answer to a member. -/
theorem exists_source_of_mapM {members : List α} {answers : List β} (all : members.mapM answer = .ok answers)
    {result : β} (inside : result ∈ answers) : ∃ member ∈ members, answer member = .ok result := by
  have listed : Except.ok result ∈ members.map answer := by
    rw [mapM_ok.mp all]
    exact List.mem_map_of_mem inside
  exact List.mem_map.mp listed

/-- The members of related lists are related as members of the lists. -/
theorem forall₂_mem {left : List α} {right : List β} (relates : List.Forall₂ related left right) :
    List.Forall₂ (fun first second => first ∈ left ∧ second ∈ right ∧ related first second) left right := by
  refine (List.forall₂_and_left _ _).mpr ⟨fun _ inside => inside, List.Forall₂.flip ?_⟩
  exact (List.forall₂_and_left _ _).mpr ⟨fun _ inside => inside, relates.flip⟩

theorem forall₂_and {other : α → β → Prop} {left : List α} {right : List β}
    (relates : List.Forall₂ related left right) (others : List.Forall₂ other left right) :
    List.Forall₂ (fun first second => related first second ∧ other first second) left right := by
  induction relates with
  | nil => exact .nil
  | cons here _ ih =>
    obtain ⟨first, rest⟩ := List.forall₂_cons.mp others
    exact .cons ⟨here, first⟩ (ih rest)

/-- Each member of a list is related to a member of the related list. -/
theorem exists_related {left : List α} {right : List β} (relates : List.Forall₂ related left right) {member : α}
    (inside : member ∈ left) : ∃ other ∈ right, related member other := by
  induction relates with
  | nil => cases inside
  | @cons first other rest others here _ ih =>
    rcases List.mem_cons.mp inside with rfl | later
    · exact ⟨other, List.mem_cons_self, here⟩
    · obtain ⟨found, present, same⟩ := ih later
      exact ⟨found, List.mem_cons_of_mem _ present, same⟩

/-- Related members give parts of one length. Lists of one flattening then have one part at each place. -/
theorem forall₂_of_flatMap_eq {γ : Type*} {first : α → List γ} {second : β → List γ} {left : List α}
    {right : List β} (relates : List.Forall₂ related left right)
    (lengths : ∀ member other, related member other → (first member).length = (second other).length)
    (same : left.flatMap first = right.flatMap second) :
    List.Forall₂ (fun member other => related member other ∧ first member = second other) left right := by
  induction relates with
  | nil => exact .nil
  | cons here _ ih =>
    rw [List.flatMap_cons, List.flatMap_cons] at same
    obtain ⟨head, tail⟩ := List.append_inj same (lengths _ _ here)
    exact .cons ⟨here, head⟩ (ih tail)

/-- Related lists with parts of one length have related parts. -/
theorem forall₂_of_append {left rest : List α} {right others : List β} (lengths : left.length = right.length)
    (relates : List.Forall₂ related (left ++ rest) (right ++ others)) :
    List.Forall₂ related left right ∧ List.Forall₂ related rest others := by
  induction left generalizing right with
  | nil =>
    obtain rfl := List.length_eq_zero_iff.mp lengths.symm
    exact ⟨.nil, relates⟩
  | cons first left ih =>
    cases right with
    | nil => cases lengths
    | cons second right =>
      obtain ⟨here, below⟩ := List.forall₂_cons.mp relates
      obtain ⟨front, back⟩ := ih (Nat.succ.inj lengths) below
      exact ⟨.cons here front, back⟩

/-- Related members with one image give lists with one image. -/
theorem map_eq_of_forall₂ {γ : Type*} {first : α → γ} {second : β → γ} {left : List α} {right : List β}
    (relates : List.Forall₂ related left right)
    (same : ∀ member ∈ left, ∀ other, related member other → first member = second other) :
    left.map first = right.map second := by
  induction relates with
  | nil => rfl
  | cons here rest ih =>
    rw [List.map_cons, List.map_cons, same _ List.mem_cons_self _ here,
      ih fun member inside => same member (List.mem_cons_of_mem _ inside)]

/-- When no member grows, the sum does not grow, and it stays only when no member shrinks. -/
theorem sum_le_of_forall₂ {weight : α → Nat} {other : β → Nat} {kept : α → Prop} {left : List α}
    {right : List β} (relates : List.Forall₂ related left right)
    (each : ∀ member ∈ left, ∀ result, related member result →
      other result ≤ weight member ∧ (weight member ≤ other result → kept member)) :
    (right.map other).sum ≤ (left.map weight).sum ∧
      ((left.map weight).sum ≤ (right.map other).sum → ∀ member ∈ left, kept member) := by
  induction relates with
  | nil => exact ⟨le_rfl, fun _ _ inside => absurd inside List.not_mem_nil⟩
  | @cons first second left right here rest ih =>
    obtain ⟨low, keeps⟩ := each first List.mem_cons_self second here
    obtain ⟨lower, others⟩ := ih fun member inside =>
      each member (List.mem_cons_of_mem _ inside)
    rw [List.map_cons, List.map_cons, List.sum_cons, List.sum_cons]
    refine ⟨Nat.add_le_add low lower, fun high member inside => ?_⟩
    rcases List.mem_cons.mp inside with rfl | later
    · exact keeps (by omega)
    · exact others (by omega) member later

/-- The values of a loop that keeps each entry. -/
theorem reduceOption_of_forall₂ {left : List α} {right : List (Option β)}
    (relates : List.Forall₂ (fun first second => ∃ found, second = some found ∧ related first found) left right) :
    List.Forall₂ related left right.reduceOption := by
  induction relates with
  | nil => exact .nil
  | cons here _ ih =>
    obtain ⟨found, rfl, relates⟩ := here
    rw [List.reduceOption_cons_of_some]
    exact .cons relates ih

end Loops

section Sorting

variable {α : Type*} {cmp : α → α → Ordering}

/-- Lists whose members are equal one by one are equal. -/
theorem compareLex_of_forall₂ {left right : List α}
    (same : List.Forall₂ (fun first second => cmp first second = .eq) left right) :
    left.compareLex cmp right = .eq := by
  induction same with
  | nil => rfl
  | cons here _ ih =>
    rw [List.compareLex_cons_cons, here, ih]
    rfl

/-- The members of equal lists are equal one by one. -/
theorem forall₂_of_compareLex {left right : List α} (same : left.compareLex cmp right = .eq) :
    List.Forall₂ (fun first second => cmp first second = .eq) left right := by
  induction left generalizing right with
  | nil =>
    cases right with
    | nil => exact .nil
    | cons => cases same
  | cons first left ih =>
    cases right with
    | nil => cases same
    | cons second right =>
      rw [List.compareLex_cons_cons, Ordering.then_eq_eq] at same
      exact .cons same.1 (ih same.2)

/-- Lists with one image are equal when members with one image are equal. -/
theorem compareLex_of_map_eq {γ : Type*} {image : α → γ} {left right : List α}
    (equal : ∀ first ∈ left, ∀ second ∈ right, image first = image second → cmp first second = .eq)
    (same : left.map image = right.map image) : left.compareLex cmp right = .eq := by
  induction left generalizing right with
  | nil => rw [List.map_eq_nil_iff.mp same.symm]; rfl
  | cons first left ih =>
    cases right with
    | nil => cases same
    | cons second right =>
      obtain ⟨here, rest⟩ := List.cons.inj same
      rw [List.compareLex_cons_cons, Ordering.then_eq_eq]
      refine ⟨equal first List.mem_cons_self second List.mem_cons_self here, ih ?_ rest⟩
      exact fun member inside other present =>
        equal member (List.mem_cons_of_mem _ inside) other (List.mem_cons_of_mem _ present)

/-- A list that is equal member by member to a strictly sorted list is strictly sorted. -/
theorem Sorted.of_forall₂ [Std.TransCmp cmp] {left right : List α}
    (same : List.Forall₂ (fun first second => cmp first second = .eq) left right)
    (sorted : Sorted cmp left) : Sorted cmp right := by
  induction same with
  | nil => exact .nil
  | @cons first second left right here rest ih =>
    obtain ⟨least, later⟩ := List.pairwise_cons.mp sorted
    refine List.pairwise_cons.mpr ⟨fun other inside => ?_, ih later⟩
    obtain ⟨member, listed, equal⟩ : ∃ member ∈ left, cmp member other = .eq := by
      obtain ⟨index, bound, rfl⟩ := List.mem_iff_getElem.mp inside
      have short : index < left.length := rest.length_eq ▸ bound
      exact ⟨left[index], List.getElem_mem short, rest.get short bound⟩
    rw [← Std.TransCmp.congr_left here, ← Std.TransCmp.congr_right equal]
    exact least member listed

end Sorting

section Collected

variable {α : Type*} {cmp : α → α → Ordering}

/-- A collection has members of the list only. -/
theorem mem_of_mem_collectSorted {members : List α} {member : α} (inside : member ∈ collectSorted cmp members) :
    member ∈ members := by
  rw [← collectMerged_last] at inside
  exact forall_collectMerged (fun _ _ _ kept => kept) (fun _ => id) member inside

/-- An insertion adds the member, and it keeps or replaces an equal one. -/
theorem exists_insertSorted [Std.TransCmp cmp] {added member : α} {members : List α}
    (present : member = added ∨ member ∈ members) :
    ∃ kept ∈ insertSorted cmp added members, cmp member kept = .eq := by
  induction members with
  | nil =>
    obtain rfl := present.resolve_right List.not_mem_nil
    exact ⟨member, List.mem_singleton_self member, Std.ReflCmp.compare_self⟩
  | cons first rest ih =>
    rw [insertSorted]
    split
    · next before =>
        refine ⟨member, ?_, Std.ReflCmp.compare_self⟩
        rcases present with rfl | inside
        · exact List.mem_cons_self
        · exact List.mem_cons_of_mem _ inside
    · next same =>
        rcases present with rfl | inside
        · exact ⟨member, List.mem_cons_self, Std.ReflCmp.compare_self⟩
        · rcases List.mem_cons.mp inside with rfl | inside
          · exact ⟨added, List.mem_cons_self, Std.OrientedCmp.eq_symm same⟩
          · exact ⟨member, List.mem_cons_of_mem _ inside, Std.ReflCmp.compare_self⟩
    · next after =>
        have further : (member = added ∨ member ∈ rest) ∨ member = first := by
          rcases present with same | inside
          · exact .inl (.inl same)
          · rcases List.mem_cons.mp inside with same | inside
            · exact .inr same
            · exact .inl (.inr inside)
        rcases further with further | rfl
        · obtain ⟨kept, inside, same⟩ := ih further
          exact ⟨kept, List.mem_cons_of_mem _ inside, same⟩
        · exact ⟨member, List.mem_cons_self, Std.ReflCmp.compare_self⟩

/-- A collection has an equal of each member of the list. -/
theorem exists_collectSorted [Std.TransCmp cmp] {members : List α} {member : α} (inside : member ∈ members) :
    ∃ kept ∈ collectSorted cmp members, cmp member kept = .eq := by
  have fold (rest : List α) (before : List α) (present : (∃ kept ∈ before, cmp member kept = .eq) ∨ member ∈ rest) :
      ∃ kept ∈ rest.foldl (fun sorted member => insertSorted cmp member sorted) before, cmp member kept = .eq := by
    induction rest generalizing before with
    | nil => exact present.resolve_right List.not_mem_nil
    | cons first rest ih =>
      refine ih _ ?_
      rcases present with ⟨held, inside, same⟩ | inside
      · obtain ⟨kept, there, equal⟩ : ∃ kept ∈ insertSorted cmp first before, cmp held kept = .eq :=
          exists_insertSorted (.inr inside)
        exact .inl ⟨kept, there, Std.TransCmp.eq_trans same equal⟩
      · rcases List.mem_cons.mp inside with rfl | inside
        · exact .inl (exists_insertSorted (.inl rfl))
        · exact .inr inside
  exact fold members [] (.inr inside)

end Collected

end Liasse.Codes
