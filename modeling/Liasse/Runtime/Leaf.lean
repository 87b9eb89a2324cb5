/-
This file proves what a write at a path of field names changes: the value at the path, and no value at a
path apart from it.
-/

import Liasse.Runtime.Closure
import Liasse.Value.Normal

namespace Liasse.Runtime

open Store

section Members

/-- The other fields of a struct stay when one field is replaced. -/
theorem structGet_insertSorted_of_ne {fields : List (String × Value)} {name other : String} (value : Value)
    (different : other ≠ name) :
    structGet (Codes.insertSorted Value.compareName (name, value) fields) other = structGet fields other := by
  have skip (entry : String × Value) (rest : List (String × Value)) (same : entry.1 = name) :
      structGet (entry :: rest) other = structGet rest other := by
    rw [structGet, List.find?_cons_of_neg]
    · rfl
    · simpa only [decide_eq_true_eq, same] using Ne.symm different
  induction fields with
  | nil => exact skip _ [] rfl
  | cons entry rest earlier =>
    rw [Codes.insertSorted]
    split
    · exact skip _ _ rfl
    · next equal =>
        have same : name = entry.1 := (compareText_eq_iff _ _).mp equal
        rw [skip _ _ rfl, skip entry rest same.symm]
    · by_cases here : entry.1 = other
      · simp only [structGet, List.find?_cons, here, decide_true]
      · simp only [structGet, List.find?_cons, here, decide_false] at earlier ⊢
        exact earlier

theorem structGet_insertSorted_self (fields : List (String × Value)) (name : String) (value : Value) :
    structGet (Codes.insertSorted Value.compareName (name, value) fields) name = some value := by
  have first (rest : List (String × Value)) : structGet ((name, value) :: rest) name = some value := by
    simp only [structGet, List.find?_cons, decide_true, Option.map_some]
  induction fields with
  | nil => exact first []
  | cons entry rest earlier =>
    rw [Codes.insertSorted]
    split
    · exact first _
    · exact first _
    · next above =>
        have different : entry.1 ≠ name := by
          rintro rfl
          rw [Value.compareName, (compareText_eq_iff _ _).mpr rfl] at above
          cases above
        simp only [structGet, List.find?_cons, different, decide_false] at earlier ⊢
        exact earlier

end Members

section Paths

/-- Neither of two paths continues the other. -/
def Apart (first second : List String) : Prop :=
  ¬ first <+: second ∧ ¬ second <+: first

theorem Apart.tail {name : String} {first second : List String} (apart : Apart (name :: first) (name :: second)) :
    Apart first second :=
  ⟨fun continues => apart.1 ((List.prefix_cons_inj name).mpr continues),
    fun continues => apart.2 ((List.prefix_cons_inj name).mpr continues)⟩

/-- A write inside a struct leaves the values at the paths apart from it. -/
theorem descend_rebuildStruct {path : List String} {fields : List (String × Value)} {rest : List String}
    {field : String} (value : Value) (apart : Apart path (rest ++ [field])) :
    descend path (.struct (rebuildStruct fields rest field value)) = descend path (.struct fields) := by
  induction rest generalizing path fields with
  | nil =>
    cases path with
    | nil => exact absurd List.nil_prefix apart.1
    | cons name path =>
      have different : name ≠ field := by
        rintro rfl
        exact apart.2 ((List.prefix_cons_inj name).mpr List.nil_prefix)
      rw [rebuildStruct, descend, descend, structGet_insertSorted_of_ne value different]
  | cons head tail earlier =>
    cases path with
    | nil => exact absurd List.nil_prefix apart.1
    | cons name path =>
      rw [rebuildStruct]
      split
      · next inner found =>
          by_cases same : name = head
          · subst same
            rw [descend, descend, structGet_insertSorted_self, found]
            exact earlier apart.tail
          · rw [descend, descend, structGet_insertSorted_of_ne _ same]
      · rfl

/-- A write inside a struct puts the value at its path, or the path does not lead through structs. -/
theorem descend_rebuildStruct_self (fields : List (String × Value)) (rest : List String) (field : String)
    (value : Value) :
    descend (rest ++ [field]) (.struct (rebuildStruct fields rest field value)) = some value ∨
      (descend (rest ++ [field]) (.struct (rebuildStruct fields rest field value)) = none ∧
        descend (rest ++ [field]) (.struct fields) = none) := by
  induction rest generalizing fields with
  | nil =>
    left
    rw [List.nil_append, descend, rebuildStruct, structGet_insertSorted_self]
    rfl
  | cons head tail earlier =>
    rw [List.cons_append, rebuildStruct]
    split
    · next inner found =>
        rw [descend, descend, structGet_insertSorted_self, found]
        exact earlier inner
    · next other =>
        right
        have absent : descend (head :: (tail ++ [field])) (.struct fields) = none := by
          rw [descend]
          cases found : structGet fields head with
          | none => rfl
          | some inner =>
            cases inner with
            | struct members => exact absurd found (other members)
            | _ => cases tail <;> rfl
        exact ⟨absent, absent⟩

/-- A write below a value that is no struct leaves the value. -/
theorem descend_rebuildStruct_below {path rest : List String} {fields : List (String × Value)} {field : String}
    (value : Value) (below : path <+: rest) (within : path ≠ [])
    (leaf : ∀ inner, descend path (.struct fields) ≠ some (.struct inner)) :
    descend path (.struct (rebuildStruct fields rest field value)) = descend path (.struct fields) := by
  induction rest generalizing path fields with
  | nil => exact absurd (List.prefix_nil.mp below) within
  | cons head tail earlier =>
    cases path with
    | nil => exact absurd rfl within
    | cons name path =>
      obtain ⟨rfl, lower⟩ := List.cons_prefix_cons.mp below
      rw [rebuildStruct]
      split
      · next inner found =>
          rw [descend, found] at leaf
          rw [descend, descend, structGet_insertSorted_self, found]
          cases path with
          | nil => exact absurd rfl (leaf inner)
          | cons next path => exact earlier lower (List.cons_ne_nil _ _) leaf
      · rfl

end Paths

section Rows

/-- The value of a row at a path of field names. -/
def readPath (fields : FieldMap) : List String → Option Value
  | [] => none
  | head :: rest =>
    match fields[head]? with
    | some outer => descend rest outer
    | none => none

theorem RefSite.value_eq (site : RefSite) (fields : FieldMap) :
    site.value fields = readPath fields (site.container ++ [site.field.name]) := by
  rw [RefSite.value]
  cases site.container with
  | nil =>
    rw [List.nil_append, readPath]
    cases fields[site.field.name]? <;> rfl
  | cons head rest => rfl

/-- The path of the address of a field. -/
def FieldPath.names (path : FieldPath) : List String :=
  path.container ++ [path.field]

/-- The rows agree at the fields that a write does not replace. -/
theorem readPath_of_head {fields others : FieldMap} {name : String} (same : others[name]? = fields[name]?)
    (path : List String) : readPath others (name :: path) = readPath fields (name :: path) := by
  rw [readPath, readPath, same]

/-- A write leaves the values at the paths apart from it. -/
theorem readPath_writeInto {path : List String} (place : FieldPath) (fields : FieldMap) (value : Value)
    (apart : Apart path place.names) :
    readPath (place.writeInto fields value) path = readPath fields path := by
  obtain ⟨container, field⟩ := place
  cases path with
  | nil => rfl
  | cons name path =>
    rw [FieldPath.writeInto]
    cases container with
    | nil =>
      apply readPath_of_head
      apply Codes.getElem?_insert_of_ne
      rintro rfl
      exact apart.2 ((List.prefix_cons_inj name).mpr List.nil_prefix)
    | cons head rest =>
      rw [setSiteValue]
      split
      · next top found =>
          by_cases same : name = head
          · subst same
            rw [readPath, readPath, Std.ExtTreeMap.getElem?_insert_self, found]
            exact descend_rebuildStruct value apart.tail
          · exact readPath_of_head (Codes.getElem?_insert_of_ne same) path
      · rfl

/-- A write puts the value at its path, or the path does not lead through structs. -/
theorem readPath_writeInto_self (place : FieldPath) (fields : FieldMap) (value : Value) :
    readPath (place.writeInto fields value) place.names = some value ∨
      (readPath (place.writeInto fields value) place.names = none ∧ readPath fields place.names = none) := by
  obtain ⟨container, field⟩ := place
  rw [FieldPath.writeInto, FieldPath.names]
  cases container with
  | nil =>
    left
    rw [List.nil_append, readPath, setSiteValue, Std.ExtTreeMap.getElem?_insert_self]
    rfl
  | cons head rest =>
    rw [List.cons_append, setSiteValue]
    split
    · next top found =>
        rw [readPath, readPath, Std.ExtTreeMap.getElem?_insert_self, found]
        exact descend_rebuildStruct_self top rest field value
    · next other =>
        right
        have absent : readPath fields (head :: (rest ++ [field])) = none := by
          rw [readPath]
          cases found : fields[head]? with
          | none => rfl
          | some outer =>
            cases outer with
            | struct members => exact absurd found (other members)
            | _ => cases rest <;> rfl
        exact ⟨absent, absent⟩

/-- A write below a value that is no struct leaves the value. -/
theorem readPath_writeInto_below {path : List String} {place : FieldPath} {fields : FieldMap} (value : Value)
    (below : path <+: place.container) (leaf : ∀ inner, readPath fields path ≠ some (.struct inner)) :
    readPath (place.writeInto fields value) path = readPath fields path := by
  obtain ⟨container, field⟩ := place
  cases path with
  | nil => rfl
  | cons name path =>
    cases container with
    | nil => exact absurd (List.prefix_nil.mp below) (List.cons_ne_nil _ _)
    | cons head rest =>
      obtain ⟨rfl, lower⟩ := List.cons_prefix_cons.mp below
      rw [FieldPath.writeInto, setSiteValue]
      split
      · next top found =>
          rw [readPath, found] at leaf
          rw [readPath, readPath, Std.ExtTreeMap.getElem?_insert_self, found]
          cases path with
          | nil => exact absurd rfl (leaf top)
          | cons next path => exact descend_rebuildStruct_below value lower (List.cons_ne_nil _ _) leaf
      · rfl

end Rows

section Addresses

theorem compare_append_cons {α : Type} [Ord α] [Std.ReflOrd α] (first : List α) (next : α) (rest : List α) :
    compare first (first ++ next :: rest) = .lt := by
  induction first with
  | nil => rfl
  | cons head tail earlier =>
    rw [List.cons_append, List.compare_cons_cons, Std.ReflOrd.compare_self]
    exact earlier

/-- An address above another one comes first. -/
theorem compare_of_above {first second : FieldPath} (above : first.names <+: second.container) :
    compare first second = .lt := by
  obtain ⟨rest, split⟩ := above
  rw [FieldPath.names, List.append_assoc, List.singleton_append] at split
  change (compare (first.container.map textBytes) (second.container.map textBytes)).then _ = .lt
  rw [← split, List.map_append, List.map_cons, compare_append_cons]
  rfl

theorem FieldPath.names_inj {first second : FieldPath} (same : first.names = second.names) : first = second := by
  obtain ⟨containers, fields⟩ := List.append_inj' same rfl
  cases first
  cases second
  obtain rfl : _ = _ := containers
  obtain rfl : _ = _ := List.singleton_inj.mp fields
  rfl

/-- Another address is apart, below or above. -/
theorem FieldPath.beside {first second : FieldPath} (different : first ≠ second) :
    Apart first.names second.names ∨ first.names <+: second.container ∨ second.names <+: first.container := by
  have proper {upper lower : FieldPath} (other : upper ≠ lower) (continues : upper.names <+: lower.names) :
      upper.names <+: lower.container := by
    rcases List.prefix_concat_iff.mp continues with same | inside
    · exact absurd (FieldPath.names_inj same) other
    · exact inside
  by_cases down : first.names <+: second.names
  · exact .inr (.inl (proper different down))
  · by_cases up : second.names <+: first.names
    · exact .inr (.inr (proper (Ne.symm different) up))
    · exact .inl ⟨down, up⟩

end Addresses

end Liasse.Runtime
