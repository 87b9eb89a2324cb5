/-
This file keeps the first member under each key of a list.
-/

import Mathlib

namespace Liasse.Codes

variable {α κ γ δ : Type*} [DecidableEq κ] (key : α → κ)

section Keeping

/-- One more member is kept when its key is new. -/
def keepFirst (kept : List α) (member : α) : List α :=
  if key member ∈ kept.map key then kept else kept ++ [member]

/-- The first member under each key. -/
def firsts (members : List α) : List α :=
  members.foldl (keepFirst key) []

theorem firsts_snoc (members : List α) (member : α) :
    firsts key (members ++ [member]) = keepFirst key (firsts key members) member :=
  List.foldl_concat _ _ _ _

variable {key}

theorem mem_of_mem_firsts {members : List α} {member : α} (inside : member ∈ firsts key members) :
    member ∈ members := by
  induction members using List.reverseRecOn with
  | nil => exact inside
  | append_singleton members last ih =>
    rw [firsts_snoc, keepFirst] at inside
    split at inside
    · exact List.mem_append_left _ (ih inside)
    · exact (List.mem_append.mp inside).elim (fun earlier => List.mem_append_left _ (ih earlier))
        fun here => List.mem_append_right _ here

variable (key) in
/-- Each member has a first one under its key. -/
theorem exists_first {members : List α} {member : α} (inside : member ∈ members) :
    ∃ first ∈ firsts key members, key first = key member := by
  induction members using List.reverseRecOn with
  | nil => cases inside
  | append_singleton members last ih =>
    rw [firsts_snoc, keepFirst]
    rcases List.mem_append.mp inside with earlier | here
    · obtain ⟨first, kept, same⟩ := ih earlier
      split
      · exact ⟨first, kept, same⟩
      · exact ⟨first, List.mem_append_left _ kept, same⟩
    · rw [List.mem_singleton.mp here]
      split
      · next known =>
          obtain ⟨first, kept, same⟩ := List.mem_map.mp known
          exact ⟨first, kept, same⟩
      · exact ⟨last, List.mem_append_right _ (List.mem_singleton_self last), rfl⟩

/-- What is kept of a part is kept of the whole. -/
theorem mem_firsts_append {left : List α} (right : List α) {member : α} (inside : member ∈ firsts key left) :
    member ∈ firsts key (left ++ right) := by
  induction right using List.reverseRecOn with
  | nil => rwa [List.append_nil]
  | append_singleton right last ih =>
    rw [← List.append_assoc, firsts_snoc, keepFirst]
    split
    · exact ih
    · exact List.mem_append_left _ ih

variable (key) in
/-- The members that are kept have different keys. -/
theorem nodup_firsts (members : List α) : ((firsts key members).map key).Nodup := by
  induction members using List.reverseRecOn with
  | nil => exact List.nodup_nil
  | append_singleton members last ih =>
    rw [firsts_snoc, keepFirst]
    split
    · exact ih
    · next unknown =>
        rw [List.map_append]
        refine List.nodup_append.mpr ⟨ih, List.nodup_singleton _, fun known present other here => ?_⟩
        rintro rfl
        rw [List.map_singleton, List.mem_singleton] at here
        exact unknown (here ▸ present)

/-- The first member under a key of an earlier part is in that part. -/
theorem mem_left_of_mem_firsts {left right : List α} {first member : α} (kept : first ∈ firsts key (left ++ right))
    (inside : member ∈ left) (same : key first = key member) : first ∈ left := by
  obtain ⟨earlier, here, equal⟩ := exists_first key inside
  have both := List.inj_on_of_nodup_map (nodup_firsts key (left ++ right)) kept (mem_firsts_append right here)
    (same.trans equal.symm)
  rw [both]
  exact mem_of_mem_firsts here

/-- What the keys determine does not depend on the order of the members. -/
theorem perm_firsts {image : α → δ} {first second : List α} (same : ∀ member, member ∈ first ↔ member ∈ second)
    (determined : ∀ one ∈ first, ∀ other ∈ first, key one = key other ↔ image one = image other) :
    ((firsts key first).map image).Perm ((firsts key second).map image) := by
  have distinct : ∀ members : List α, (∀ member ∈ members, member ∈ first) →
      ((firsts key members).map image).Nodup := by
    intro members held
    have apart := nodup_firsts key members
    rw [List.Nodup, List.pairwise_map] at apart ⊢
    refine apart.imp_of_mem fun {one other} inside present different equal => different ?_
    exact (determined one (held one (mem_of_mem_firsts inside)) other (held other (mem_of_mem_firsts present))).mpr
      equal
  have covered : ∀ members others : List α, (∀ member ∈ members, member ∈ first) →
      (∀ member ∈ members, member ∈ others) → (∀ member ∈ others, member ∈ first) →
        ∀ value ∈ (firsts key members).map image, value ∈ (firsts key others).map image := by
    rintro members others held crosses below value inside
    obtain ⟨member, kept, rfl⟩ := List.mem_map.mp inside
    have present := mem_of_mem_firsts kept
    obtain ⟨found, there, equal⟩ := exists_first key (crosses member present)
    refine List.mem_map.mpr ⟨found, there, ?_⟩
    exact (determined found (below found (mem_of_mem_firsts there)) member (held member present)).mp equal
  refine (List.perm_ext_iff_of_nodup (distinct first fun _ held => held)
    (distinct second fun member => (same member).mpr)).mpr fun value => ⟨?_, ?_⟩
  · exact covered first second (fun _ held => held) (fun member => (same member).mp)
      (fun member => (same member).mpr) value
  · exact covered second first (fun member => (same member).mpr) (fun member => (same member).mpr)
      (fun _ held => held) value

end Keeping

section Agreeing

variable (capacity : α → γ)

/-- Members under one key have one capacity. -/
def Agreeing (members : List α) : Prop :=
  ∀ one ∈ members, ∀ other ∈ members, key one = key other → capacity one = capacity other

variable {key capacity}

/-- One more member agrees with the others when it agrees with the first one under its key. -/
theorem agreeing_snoc {members : List α} {last : α} :
    Agreeing key capacity (members ++ [last]) ↔ Agreeing key capacity members ∧
      ∀ first ∈ firsts key members, key first = key last → capacity first = capacity last := by
  constructor
  · intro agreeing
    refine ⟨fun one inside other present => ?_, fun first kept => ?_⟩
    · exact agreeing one (List.mem_append_left _ inside) other (List.mem_append_left _ present)
    · exact agreeing first (List.mem_append_left _ (mem_of_mem_firsts kept)) last
        (List.mem_append_right _ (List.mem_singleton_self last))
  · rintro ⟨agreeing, latest⟩
    have against : ∀ one ∈ members, key one = key last → capacity one = capacity last := by
      intro one inside same
      obtain ⟨first, kept, equal⟩ := exists_first key inside
      rw [← latest first kept (equal.trans same)]
      exact agreeing one inside first (mem_of_mem_firsts kept) equal.symm
    intro one inside other present same
    rcases List.mem_append.mp inside with earlier | here <;> rcases List.mem_append.mp present with before | there
    · exact agreeing one earlier other before same
    · rw [List.mem_singleton.mp there] at same ⊢
      exact against one earlier same
    · rw [List.mem_singleton.mp here] at same ⊢
      exact (against other before same.symm).symm
    · rw [List.mem_singleton.mp here, List.mem_singleton.mp there]

omit [DecidableEq κ] in
theorem Agreeing.of_mem_iff {first second : List α} (same : ∀ member, member ∈ first ↔ member ∈ second)
    (agreeing : Agreeing key capacity first) : Agreeing key capacity second := by
  intro one inside other present
  exact agreeing one ((same one).mpr inside) other ((same other).mpr present)

end Agreeing

end Liasse.Codes
