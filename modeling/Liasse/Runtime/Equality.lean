/-
This file proves that the key of a row and the references it holds depend on its values up to
equality, and that a key names one row only.
-/

import Liasse.Runtime.State

namespace Liasse.Runtime

open Store

section References

theorem memberRefKey_normal (member : Value) :
    memberRefKey member.normal = (memberRefKey member).map RefKey.normal := by
  cases member <;> rfl

theorem of_normal (value : Value) : ValueClass.of value.normal = .of value :=
  ValueClass.of_eq_iff.mpr value.normal_cmp

theorem map_of_normal (components : List Value) :
    (components.map Value.normal).map ValueClass.of = components.map .of := by
  rw [List.map_map]
  exact List.map_congr_left fun component _ => of_normal component

theorem named_normal {compiled : Compiled} {target : List String} {key : RefKey} {address : RowAddress} :
    named compiled target key.normal address = named compiled target key address := by
  have identities : ∀ names, refIdentity names key.normal = refIdentity names key := by
    intro names
    cases key with
    | scalar value => exact of_normal value
    | composite components =>
      rw [RefKey.normal, Value.normalList_eq, refIdentity, refIdentity, map_of_normal]
  have components : refKeyComponents key.normal = refKeyComponents key := by
    cases key with
    | scalar value => exact congrArg (fun component => [component]) (of_normal value)
    | composite components =>
      rw [RefKey.normal, Value.normalList_eq, refKeyComponents, refKeyComponents, map_of_normal]
  cases target with
  | nil => simp only [named, components]
  | cons first rest =>
    cases rest with
    | nil =>
      rw [named, named]
      simp only [identities]
    | cons second rest => simp only [named, components]

/-- Equal keys name the same rows. -/
theorem named_congr {compiled : Compiled} {target : List String} {first second : RefKey}
    (same : first.normal = second.normal) (address : RowAddress) :
    named compiled target first address = named compiled target second address := by
  rw [← named_normal, same, named_normal]

end References

section Keys

theorem keyOf_eq_some {collection : CompiledCollection} {fields : FieldMap} {key : KeyClass} :
    keyOf collection fields = some key ↔
      collection.key.map (fun name => (fields[name]?).map ValueClass.of) =
        key.components.map some := by
  have listed : ∀ (names : List String) (components : List ValueClass),
      (∃ values : List Value, names.mapM (fun name => fields[name]?) = some values ∧
        values.map .of = components) ↔
      names.map (fun name => (fields[name]?).map ValueClass.of) = components.map some := by
    intro names
    induction names with
    | nil =>
      intro components
      cases components with
      | nil => exact ⟨fun _ => rfl, fun _ => ⟨[], rfl, rfl⟩⟩
      | cons => simp
    | cons name rest ih =>
      intro components
      cases components with
      | nil =>
        rw [List.map_nil, List.map_cons]
        constructor
        · rintro ⟨values, found, empty⟩
          rw [List.map_eq_nil_iff.mp empty, List.mapM_cons] at found
          simp only [Option.bind_eq_bind, Option.bind_eq_some_iff, Option.pure_def,
            Option.some.injEq, reduceCtorEq, and_false, exists_false] at found
        · intro same
          cases same
      | cons component components =>
        rw [List.map_cons, List.map_cons, List.cons.injEq, ← ih components]
        constructor
        · rintro ⟨values, found, equal⟩
          rw [List.mapM_cons] at found
          simp only [Option.bind_eq_bind, Option.bind_eq_some_iff, Option.pure_def,
            Option.some.injEq] at found
          obtain ⟨value, present, others, all, rfl⟩ := found
          rw [List.map_cons, List.cons.injEq] at equal
          rw [present, Option.map_some, equal.1]
          exact ⟨rfl, others, all, equal.2⟩
        · rintro ⟨first, values, found, rfl⟩
          cases present : fields[name]? with
          | none => rw [present] at first; cases first
          | some value =>
            rw [present] at first
            refine ⟨value :: values, ?_, ?_⟩
            · rw [List.mapM_cons, present, found]
              rfl
            · rw [List.map_cons, Option.some.inj first]
  rw [← listed, keyOf]
  cases found : collection.key.mapM fun name => fields[name]? with
  | none => simp
  | some values =>
    cases values with
    | nil => simp [KeyClass.components]
    | cons first rest =>
      simp only [Option.some.injEq, exists_eq_left']
      exact KeyClass.components_inj.symm

/-- The key of a row has as many components as its collection has key fields. -/
theorem length_of_keyOf {collection : CompiledCollection} {fields : FieldMap} {key : KeyClass}
    (found : keyOf collection fields = some key) : collection.key.length = key.components.length := by
  have lengths := congrArg List.length (keyOf_eq_some.mp found)
  simpa only [List.length_map] using lengths

/-- Components of the length of the key are determined by their identity. -/
theorem identityOf_inj {names : List String} {first second : List ValueClass}
    (left : names.length = first.length) (right : names.length = second.length)
    (same : identityOf names first = identityOf names second) : first = second := by
  match names, first, second with
  | [], [], [] => rfl
  | [_], [one], [other] => exact congrArg (fun component => [component]) same
  | _ :: _ :: _, _, _ => exact ValueClass.composite_inj.mp same

end Keys

end Liasse.Runtime
