/-
This file gives the laws of the value order and the identity form of key values.
-/

import Liasse.Value.Normal

namespace Liasse

open Codes

namespace Value

section Laws

theorem Everywhere.here {property : Value → Prop} {value : Value} (holds : value.Everywhere property) :
    property value :=
  let ⟨own, _⟩ := holds
  own

theorem Everywhere.child {property : Value → Prop} {value child : Value} (holds : value.Everywhere property)
    (inside : child ∈ value.children) : child.Everywhere property :=
  let ⟨_, below⟩ := holds
  below child inside

/-- Each present value is before the absence of a value. -/
theorem cmp_none {value : Value} (present : value ≠ .none) : value.cmp .none = .lt := by
  cases value with
  | none => exact absurd rfl present
  | _ => rfl

/-- A value with one place for another value, at any depth. -/
inductive Context
  | here
  | scalarRef (inner : Context)
  | compositeRef (before : List Value) (inner : Context) (after : List Value)
  | struct (before : List (String × Value)) (name : String) (inner : Context) (after : List (String × Value))
  | composite (before : List Value) (inner : Context) (after : List Value)
  | set (before : List Value) (inner : Context) (after : List Value)
  | mapKey (before : List (Value × Value)) (inner : Context) (value : Value) (after : List (Value × Value))
  | mapValue (before : List (Value × Value)) (key : Value) (inner : Context) (after : List (Value × Value))

namespace Context

/-- The value with its place filled. -/
def fill : Context → Value → Value
  | here, value => value
  | scalarRef inner, value => .ref (.scalar (inner.fill value))
  | compositeRef before inner after, value => .ref (.composite (before ++ inner.fill value :: after))
  | struct before name inner after, value => .struct (before ++ (name, inner.fill value) :: after)
  | composite before inner after, value => .composite (before ++ inner.fill value :: after)
  | set before inner after, value => .set (before ++ inner.fill value :: after)
  | mapKey before inner held after, value => .map (before ++ (inner.fill value, held) :: after)
  | mapValue before key inner after, value => .map (before ++ (key, inner.fill value) :: after)

/-- Lists that differ in one member have related members when that member is related. -/
theorem forall₂_replaced {α : Type} {related : α → α → Prop} (reflexive : ∀ member, related member member)
    {before after : List α} {first second : α} (same : related first second) :
    List.Forall₂ related (before ++ first :: after) (before ++ second :: after) := by
  have kept (members : List α) : List.Forall₂ related members members :=
    List.forall₂_same.mpr fun member _ => reflexive member
  exact List.rel_append (kept before) (.cons same (kept after))

variable {first second : Value}

theorem compareLex_replaced {α : Type} {compared : α → α → Ordering} [Std.ReflCmp compared] {before after : List α}
    {left right : α} (same : compared left right = .eq) :
    (before ++ left :: after).compareLex compared (before ++ right :: after) = .eq :=
  compareLex_of_forall₂ (forall₂_replaced (fun _ => Std.ReflCmp.compare_self) same)

theorem cmpField_self (field : String × Value) : cmpField field field = .eq := by
  obtain ⟨name, value⟩ := field
  exact Ordering.then_eq_eq.mpr ⟨Std.ReflCmp.compare_self, Std.ReflCmp.compare_self⟩

theorem cmpEntry_self (entry : Value × Value) : cmpEntry entry entry = .eq := by
  obtain ⟨key, value⟩ := entry
  exact Ordering.then_eq_eq.mpr ⟨Std.ReflCmp.compare_self, Std.ReflCmp.compare_self⟩

instance : Std.ReflCmp cmpField where
  compare_self {field} := cmpField_self field

instance : Std.ReflCmp cmpEntry where
  compare_self {entry} := cmpEntry_self entry

/-- Equal values replace each other at any depth. -/
theorem fill_congr (context : Context) (same : first.cmp second = .eq) :
    (context.fill first).cmp (context.fill second) = .eq := by
  induction context with
  | here => exact same
  | scalarRef inner ih => exact ih
  | compositeRef before inner after ih =>
    simp only [fill, cmp, cmpRef, cmpList_eq]
    exact compareLex_replaced ih
  | struct before name inner after ih =>
    simp only [fill, cmp, cmpFields_eq]
    refine compareLex_replaced ?_
    exact Ordering.then_eq_eq.mpr ⟨Std.ReflCmp.compare_self, ih⟩
  | composite before inner after ih =>
    simp only [fill, cmp, cmpList_eq]
    exact compareLex_replaced ih
  | set before inner after ih =>
    simp only [fill, cmp, cmpList_eq]
    exact compareLex_replaced ih
  | mapKey before inner held after ih =>
    simp only [fill, cmp, cmpEntries_eq]
    refine compareLex_replaced ?_
    exact Ordering.then_eq_eq.mpr ⟨ih, Std.ReflCmp.compare_self⟩
  | mapValue before key inner after ih =>
    simp only [fill, cmp, cmpEntries_eq]
    refine compareLex_replaced ?_
    exact Ordering.then_eq_eq.mpr ⟨Std.ReflCmp.compare_self, ih⟩

/-- A value that exchanges one well-formed value for another stays well-formed when its own collection is sorted. -/
theorem wellFormed_of_exchange {whole changed part : Value} (formed : whole.WellFormed) (sorted : changed.SortedHere)
    (filler : part.WellFormed) (exchanged : ∀ child ∈ changed.children, child ∈ whole.children ∨ child = part) :
    changed.WellFormed := by
  refine .intro sorted fun child present => ?_
  rcases exchanged child present with kept | rfl
  · exact formed.child kept
  · exact filler

/-- The order of the collections around a place does not see which of two equal values fills it. -/
theorem fill_wellFormed (context : Context) (same : first.cmp second = .eq) (filler : second.WellFormed)
    (formed : (context.fill first).WellFormed) : (context.fill second).WellFormed := by
  induction context with
  | here => exact filler
  | scalarRef inner ih =>
    have part := ih (formed.child (by simp [fill, children, RefKey.children]))
    exact wellFormed_of_exchange formed trivial part (by simp [fill, children, RefKey.children])
  | compositeRef before inner after ih =>
    have part := ih (formed.child (by simp [fill, children, RefKey.children]))
    refine wellFormed_of_exchange formed trivial part ?_
    simp only [fill, children, RefKey.children, List.mem_append, List.mem_cons]
    tauto
  | struct before name inner after ih =>
    have part := ih (formed.child (by simp [fill, children]))
    have sorted : Sorted compareName (before ++ (name, inner.fill second) :: after) := by
      refine Sorted.of_forall₂ ?_ formed.here
      exact forall₂_replaced (fun _ => Std.ReflCmp.compare_self) Std.ReflCmp.compare_self
    refine wellFormed_of_exchange formed sorted part ?_
    simp only [fill, children, List.map_append, List.map_cons, List.mem_append, List.mem_cons]
    tauto
  | composite before inner after ih =>
    have part := ih (formed.child (by simp [fill, children]))
    refine wellFormed_of_exchange formed trivial part ?_
    simp only [fill, children, List.mem_append, List.mem_cons]
    tauto
  | set before inner after ih =>
    have part := ih (formed.child (by simp [fill, children]))
    have sorted : Sorted cmp (before ++ inner.fill second :: after) := by
      refine Sorted.of_forall₂ ?_ formed.here
      exact forall₂_replaced (fun _ => Std.ReflCmp.compare_self) (fill_congr inner same)
    refine wellFormed_of_exchange formed sorted part ?_
    simp only [fill, children, List.mem_append, List.mem_cons]
    tauto
  | mapKey before inner held after ih =>
    have part := ih (formed.child (by simp [fill, children]))
    have sorted : Sorted compareKey (before ++ (inner.fill second, held) :: after) := by
      refine Sorted.of_forall₂ ?_ formed.here
      exact forall₂_replaced (fun _ => Std.ReflCmp.compare_self) (fill_congr inner same)
    refine wellFormed_of_exchange formed sorted part ?_
    simp only [fill, children, List.map_append, List.map_cons, List.mem_append, List.mem_cons]
    tauto
  | mapValue before key inner after ih =>
    have part := ih (formed.child (by simp [fill, children]))
    have sorted : Sorted compareKey (before ++ (key, inner.fill second) :: after) := by
      refine Sorted.of_forall₂ ?_ formed.here
      exact forall₂_replaced (fun _ => Std.ReflCmp.compare_self) Std.ReflCmp.compare_self
    refine wellFormed_of_exchange formed sorted part ?_
    simp only [fill, children, List.map_append, List.map_cons, List.mem_append, List.mem_cons]
    tauto

end Context

end Laws

mutual

/-- The identity of a key, in which each reference is the key of its target. -/
def identityValue : Value → Value
  | .ref key => identityRef key
  | .composite components => .composite (identityValues components)
  | other => other
termination_by structural value => value

def identityRef : RefKey → Value
  | .scalar key => identityValue key
  | .composite components => .composite (identityValues components)
termination_by structural key => key

def identityValues : List Value → List Value
  | [] => []
  | value :: rest => identityValue value :: identityValues rest
termination_by structural values => values

end

section Identity

@[simp] theorem identityValues_eq (values : List Value) : identityValues values = values.map identityValue := by
  induction values with
  | nil => rfl
  | cons value rest ih => rw [identityValues, ih, List.map_cons]

/-- Two key values are the same identity up to the references that carry their keys. -/
inductive SameIdentity : Value → Value → Prop
  | equal {first second} (same : first.cmp second = .eq) : SameIdentity first second
  | scalar (key) : SameIdentity (.ref (.scalar key)) key
  | tuple (components) : SameIdentity (.ref (.composite components)) (.composite components)
  | component (before after) {first second} (same : SameIdentity first second) :
      SameIdentity (.composite (before ++ first :: after)) (.composite (before ++ second :: after))
  | symm {first second} (same : SameIdentity first second) : SameIdentity second first
  | trans {first second third} (near : SameIdentity first second) (far : SameIdentity second third) :
      SameIdentity first third

/-- The identity form of an identity form is itself. -/
theorem identityValue_idem (value : Value) : value.identityValue.identityValue = value.identityValue := by
  induction value using induct with
  | step value ih =>
    have lists {components : List Value} (inside : ∀ component ∈ components, component ∈ value.children) :
        (components.map identityValue).map identityValue = components.map identityValue := by
      rw [List.map_map]
      exact List.map_congr_left fun component present => ih component (inside component present)
    cases value with
    | ref key =>
      cases key with
      | scalar key => exact ih key List.mem_cons_self
      | composite components =>
        simp only [identityValue, identityRef, identityValues_eq]
        exact congrArg Value.composite (lists fun _ => id)
    | composite components =>
      simp only [identityValue, identityValues_eq]
      exact congrArg Value.composite (lists fun _ => id)
    | _ => rfl

theorem compareLex_map_identity {left right : List Value}
    (same : List.Forall₂ (fun first second => first.identityValue.cmp second.identityValue = .eq) left right) :
    (left.map identityValue).compareLex cmp (right.map identityValue) = .eq :=
  compareLex_of_forall₂ (List.forall₂_map_left_iff.mpr (List.forall₂_map_right_iff.mpr same))

/-- Equal values have equal identity forms. -/
theorem identityValue_congr {first second : Value} (same : first.cmp second = .eq) :
    first.identityValue.cmp second.identityValue = .eq := by
  induction first using induct generalizing second with
  | step first ih =>
    have lists {left right : List Value} (inside : ∀ member ∈ left, member ∈ first.children)
        (equal : left.compareLex cmp right = .eq) :
        (left.map identityValue).compareLex cmp (right.map identityValue) = .eq := by
      refine compareLex_map_identity ((forall₂_mem (forall₂_of_compareLex equal)).imp ?_)
      rintro member other ⟨present, -, alike⟩
      exact ih member (inside member present) alike
    cases sameKind_of_cmp same with
    | ref left right =>
      cases left with
      | scalar key =>
        cases right with
        | scalar other =>
          have keys : key.cmp other = .eq := same
          have forms := ih key List.mem_cons_self keys
          exact forms
        | composite others => cases same
      | composite components =>
        cases right with
        | scalar other => cases same
        | composite others =>
          simp only [cmp, cmpRef, cmpList_eq] at same
          simp only [identityValue, identityRef, identityValues_eq, cmp, cmpList_eq]
          exact lists (fun _ => id) same
    | composite left right =>
      simp only [cmp, cmpList_eq] at same
      simp only [identityValue, identityValues_eq, cmp, cmpList_eq]
      exact lists (fun _ => id) same
    | _ => exact same

/-- The components of a composite take their identity forms one after the other. -/
theorem SameIdentity.components {before members : List Value}
    (each : ∀ member ∈ members, SameIdentity member member.identityValue) :
    SameIdentity (.composite (before ++ members)) (.composite (before ++ members.map identityValue)) := by
  induction members generalizing before with
  | nil => exact .equal Std.ReflCmp.compare_self
  | cons member rest ih =>
    have here := SameIdentity.component before rest (each member List.mem_cons_self)
    have later : SameIdentity (.composite ((before ++ [member.identityValue]) ++ rest)) _ :=
      ih fun other inside => each other (List.mem_cons_of_mem _ inside)
    refine here.trans ?_
    simpa using later

theorem sameIdentity_identityValue (value : Value) : SameIdentity value value.identityValue := by
  induction value using induct with
  | step value ih =>
    cases value with
    | ref key =>
      cases key with
      | scalar key => exact (SameIdentity.scalar key).trans (ih key List.mem_cons_self)
      | composite components =>
        have listed : SameIdentity (.composite ([] ++ components)) _ := SameIdentity.components ih
        refine (SameIdentity.tuple components).trans ?_
        simpa [identityValue, identityRef] using listed
    | composite components =>
      have listed : SameIdentity (.composite ([] ++ components)) _ := SameIdentity.components ih
      simpa [identityValue] using listed
    | _ => exact .equal Std.ReflCmp.compare_self

/-- Values of one identity have equal identity forms. -/
theorem SameIdentity.identityValue {first second : Value} (same : SameIdentity first second) :
    first.identityValue.cmp second.identityValue = .eq := by
  induction same with
  | equal same => exact identityValue_congr same
  | scalar key => exact Std.ReflCmp.compare_self
  | tuple components => exact Std.ReflCmp.compare_self
  | component before after _ ih =>
    simp only [Value.identityValue, identityValues_eq, List.map_append, List.map_cons, cmp, cmpList_eq]
    exact Context.compareLex_replaced ih
  | symm _ ih => exact Std.OrientedCmp.eq_symm ih
  | trans _ _ near far => exact Std.TransCmp.eq_trans near far

theorem identityValue_cmp_iff {first second : Value} :
    first.identityValue.cmp second.identityValue = .eq ↔ SameIdentity first second := by
  constructor
  · intro same
    exact (sameIdentity_identityValue first).trans ((SameIdentity.equal same).trans
      (sameIdentity_identityValue second).symm)
  · exact SameIdentity.identityValue

end Identity

/-- The value order is total and its equality is a congruence. The absence of a value is last. The identity form is
idempotent, and it identifies the values that are equal up to their references. -/
theorem order_laws :
    (∀ first second : Value, first.cmp second = (second.cmp first).swap) ∧
    (∀ first second third : Value, (first.cmp second).isLE → (second.cmp third).isLE → (first.cmp third).isLE) ∧
    (∀ first second : Value, (first.cmp second).isLE ∨ (second.cmp first).isLE) ∧
    (∀ first second other : Value, first.cmp second = .eq →
      first.cmp other = second.cmp other ∧ other.cmp first = other.cmp second) ∧
    (∀ (context : Context) (first second : Value), first.cmp second = .eq →
      (context.fill first).cmp (context.fill second) = .eq ∧
      (second.WellFormed → (context.fill first).WellFormed → (context.fill second).WellFormed)) ∧
    (∀ value : Value, value ≠ .none → value.cmp .none = .lt) ∧
    (∀ value : Value, value.identityValue.identityValue = value.identityValue) ∧
    ∀ first second : Value,
      first.identityValue.cmp second.identityValue = .eq ↔ SameIdentity first second := by
  refine ⟨cmp_swap, fun _ _ _ => Std.TransCmp.isLE_trans, fun first second => ?_, fun first second other same => ?_,
    fun context first second same => ⟨context.fill_congr same, context.fill_wellFormed same⟩,
    fun _ => cmp_none, identityValue_idem, fun _ _ => identityValue_cmp_iff⟩
  · rw [cmp_swap second first]
    cases first.cmp second <;> simp
  · exact ⟨Std.TransCmp.congr_left same, Std.TransCmp.congr_right same⟩

/-- One and one with a decimal place replace each other in a set, and a flag is before the absence of a value. -/
theorem order_sample :
    (Value.set [.decimal ⟨1, 0⟩]).cmp (.set [.decimal ⟨10, 1⟩]) = .eq ∧ (Value.bool true).cmp .none = .lt :=
  ⟨(order_laws.2.2.2.2.1 (.set [] .here []) (.decimal ⟨1, 0⟩) (.decimal ⟨10, 1⟩) (by decide +kernel)).1,
    order_laws.2.2.2.2.2.1 (.bool true) nofun⟩

/-- A reference and its key have one identity form, and they are not equal. -/
theorem reference_and_key : ¬ ∀ first second : Value,
    first.identityValue.cmp second.identityValue = .eq ↔ first.cmp second = .eq := by
  intro claimed
  have equal := (claimed (.ref (.scalar (.bool true))) (.bool true)).mp rfl
  cases equal

end Value

end Liasse
