/-
This file finds, changes and removes the entries of a list by name, and it proves what unique names give.
-/

import Mathlib.Data.List.Nodup

namespace Liasse.Codes

section Named

variable {α κ : Type} [DecidableEq κ] (key : α → κ)

/-- The first entry of a name. -/
def named (entries : List α) (name : κ) : Option α :=
  entries.find? fun entry => key entry = name

/-- The first entry of a name changes. -/
def changeNamed (name : κ) (change : α → α) : List α → List α
  | [] => []
  | entry :: rest =>
    if key entry = name then change entry :: rest else entry :: changeNamed name change rest

/-- The first entry of a name goes. -/
def removeNamed (entries : List α) (name : κ) : List α :=
  entries.eraseP fun entry => key entry = name

/-- No two entries have one name. -/
def UniqueNames (entries : List α) : Prop :=
  (entries.map key).Nodup

variable {key} {entries : List α} {name : κ}

theorem mem_of_named {entry : α} (found : named key entries name = some entry) :
    entry ∈ entries ∧ key entry = name :=
  ⟨List.mem_of_find?_eq_some found, by simpa using List.find?_some found⟩

theorem named_eq_none : named key entries name = none ↔ ∀ entry ∈ entries, key entry ≠ name := by
  simp [named, List.find?_eq_none]

omit [DecidableEq κ] in
/-- Two entries of one name are equal. -/
theorem UniqueNames.eq (unique : UniqueNames key entries) {first second : α} (left : first ∈ entries)
    (right : second ∈ entries) (same : key first = key second) : first = second :=
  List.inj_on_of_nodup_map unique left right same

/-- An entry is found under its name. -/
theorem UniqueNames.named_iff (unique : UniqueNames key entries) {entry : α} :
    named key entries name = some entry ↔ entry ∈ entries ∧ key entry = name := by
  refine ⟨mem_of_named, fun ⟨inside, same⟩ => ?_⟩
  cases found : named key entries name with
  | none => exact absurd same (named_eq_none.mp found entry inside)
  | some other =>
    obtain ⟨listed, also⟩ := mem_of_named found
    rw [unique.eq listed inside (also.trans same.symm)]

omit [DecidableEq κ] in
/-- Part of the entries keep unique names. -/
theorem UniqueNames.filter (unique : UniqueNames key entries) (keep : α → Bool) :
    UniqueNames key (entries.filter keep) :=
  unique.sublist (List.filter_sublist.map key)

/-- A name is looked up in part of the entries. -/
theorem UniqueNames.named_filter (unique : UniqueNames key entries) (keep : α → Bool) (name : κ) :
    named key (entries.filter keep) name = (named key entries name).filter keep := by
  apply Option.ext
  intro entry
  rw [(unique.filter keep).named_iff, Option.filter_eq_some_iff, unique.named_iff, List.mem_filter]
  tauto

section Changes

variable {change : α → α}

/-- A change that keeps a reading of the entries keeps all of them. -/
theorem map_changeNamed {β : Type} {read : α → β} (kept : ∀ entry, read (change entry) = read entry) :
    (changeNamed key name change entries).map read = entries.map read := by
  induction entries with
  | nil => rfl
  | cons entry rest ih =>
    rw [changeNamed]
    split
    · rw [List.map_cons, List.map_cons, kept]
    · rw [List.map_cons, List.map_cons, ih]

/-- Nothing changes when the named entry does not. -/
theorem changeNamed_of_fixed {entry : α} (found : named key entries name = some entry)
    (fixed : change entry = entry) : changeNamed key name change entries = entries := by
  induction entries with
  | nil => rfl
  | cons head rest ih =>
    rw [changeNamed]
    by_cases same : key head = name
    · rw [named, List.find?_cons_of_pos (by simpa using same)] at found
      rw [if_pos same, Option.some.inj found, fixed]
    · rw [named, List.find?_cons_of_neg (by simpa using same)] at found
      rw [if_neg same, ih found]

/-- The entries after a change are the changed one and the others. -/
theorem UniqueNames.mem_changeNamed (unique : UniqueNames key entries) {entry : α} :
    entry ∈ changeNamed key name change entries ↔
      (∃ before, named key entries name = some before ∧ entry = change before) ∨
        (entry ∈ entries ∧ key entry ≠ name) := by
  induction entries with
  | nil => simp [changeNamed, named]
  | cons head rest ih =>
    have fresh : ∀ other ∈ rest, key other ≠ key head := by
      intro other inside same
      exact (List.nodup_cons.mp unique).1 (same ▸ List.mem_map_of_mem inside)
    rw [changeNamed]
    by_cases same : key head = name
    · have found : named key (head :: rest) name = some head := List.find?_cons_of_pos (by simpa using same)
      rw [if_pos same, found, List.mem_cons]
      constructor
      · rintro (rfl | inside)
        · exact .inl ⟨head, rfl, rfl⟩
        · exact .inr ⟨List.mem_cons_of_mem _ inside, same ▸ fresh entry inside⟩
      · rintro (⟨before, first, rfl⟩ | ⟨inside, other⟩)
        · rw [Option.some.inj first]
          exact .inl rfl
        · rcases List.mem_cons.mp inside with rfl | inside
          · exact absurd same other
          · exact .inr inside
    · have found : named key (head :: rest) name = named key rest name :=
        List.find?_cons_of_neg (by simpa using same)
      rw [if_neg same, found, List.mem_cons, ih (List.nodup_cons.mp unique).2, List.mem_cons]
      constructor
      · rintro (rfl | changed | ⟨inside, other⟩)
        · exact .inr ⟨.inl rfl, same⟩
        · exact .inl changed
        · exact .inr ⟨.inr inside, other⟩
      · rintro (changed | ⟨rfl | inside, other⟩)
        · exact .inr (.inl changed)
        · exact .inl rfl
        · exact .inr (.inr ⟨inside, other⟩)

/-- A change to a name that nobody else has keeps the names unique. -/
theorem UniqueNames.changeNamed (unique : UniqueNames key entries) {other : κ}
    (fresh : ∀ entry ∈ entries, key entry ≠ name → key entry ≠ other)
    (renamed : ∀ entry, key entry = name → key (change entry) = other) :
    UniqueNames key (changeNamed key name change entries) := by
  induction entries with
  | nil => exact List.nodup_nil
  | cons head rest ih =>
    obtain ⟨first, rests⟩ := List.nodup_cons.mp unique
    have rest_fresh : ∀ entry ∈ rest, key entry ≠ name → key entry ≠ other :=
      fun entry inside => fresh entry (List.mem_cons_of_mem _ inside)
    rw [Codes.changeNamed]
    split
    next same =>
      refine List.nodup_cons.mpr ⟨fun repeated => ?_, rests⟩
      obtain ⟨entry, inside, equal⟩ := List.mem_map.mp repeated
      have away : key entry ≠ name := fun also =>
        first (List.mem_map.mpr ⟨entry, inside, also.trans same.symm⟩)
      exact rest_fresh entry inside away (equal.trans (renamed head same))
    next differs =>
      refine List.nodup_cons.mpr ⟨fun repeated => ?_, ih rests rest_fresh⟩
      obtain ⟨entry, inside, equal⟩ := List.mem_map.mp repeated
      rcases UniqueNames.mem_changeNamed rests |>.mp inside with ⟨before, found, rfl⟩ | ⟨inside, -⟩
      · rw [renamed before (mem_of_named found).2] at equal
        exact fresh head List.mem_cons_self differs equal.symm
      · exact first (List.mem_map.mpr ⟨entry, inside, equal⟩)

end Changes

section Growth

/-- A new entry with a fresh name keeps the names unique. -/
theorem UniqueNames.append (unique : UniqueNames key entries) {entry : α}
    (fresh : named key entries (key entry) = none) : UniqueNames key (entries ++ [entry]) := by
  rw [UniqueNames, List.map_append, List.map_singleton]
  refine List.Nodup.append unique (List.nodup_singleton _) ?_
  intro name inside also
  obtain ⟨other, listed, rfl⟩ := List.mem_map.mp inside
  exact named_eq_none.mp fresh other listed (List.mem_singleton.mp also)

/-- The entries of other names stay. -/
theorem UniqueNames.mem_removeNamed (unique : UniqueNames key entries) {entry : α} :
    entry ∈ Codes.removeNamed key entries name ↔ entry ∈ entries ∧ key entry ≠ name := by
  induction entries with
  | nil => simp [Codes.removeNamed]
  | cons head rest ih =>
    obtain ⟨first, rests⟩ := List.nodup_cons.mp unique
    by_cases same : key head = name
    · have removed : Codes.removeNamed key (head :: rest) name = rest :=
        List.eraseP_cons_of_pos (by simpa using same)
      rw [removed, List.mem_cons]
      constructor
      · intro inside
        exact ⟨.inr inside, fun also => first (List.mem_map.mpr ⟨entry, inside, also.trans same.symm⟩)⟩
      · rintro ⟨rfl | inside, other⟩
        · exact absurd same other
        · exact inside
    · have kept : Codes.removeNamed key (head :: rest) name = head :: Codes.removeNamed key rest name :=
        List.eraseP_cons_of_neg (by simpa using same)
      rw [kept, List.mem_cons, List.mem_cons, ih rests]
      constructor
      · rintro (rfl | ⟨inside, other⟩)
        · exact ⟨.inl rfl, same⟩
        · exact ⟨.inr inside, other⟩
      · rintro ⟨rfl | inside, other⟩
        · exact .inl rfl
        · exact .inr ⟨inside, other⟩

end Growth

end Named

end Liasse.Codes
