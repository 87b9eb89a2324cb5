/-
This file proves that the order of the runtime values is a total preorder and defines the equality
of values.
-/

import Liasse.Codes.Total
import Liasse.Value.Basic

namespace Liasse

open Codes

instance : Std.TransCmp compareText := by
  change Std.TransCmp (compareOn textBytes)
  infer_instance

instance : Std.LawfulEqCmp compareText where
  eq_of_compare {first second} same := (compareText_eq_iff first second).mp same

section Scalars

theorem Signed.ordered {bits : Nat} (first : Signed bits) : Ordered Signed.cmp first :=
  .on (f := Signed.val) (.ofTrans first.val)

theorem cmpOptionalNoneLast_ordered {α : Type*} {cmp : α → α → Ordering} [Std.TransCmp cmp]
    (first : Option α) : Ordered (cmpOptionalNoneLast cmp) first := by
  have inner : ∀ value, Ordered cmp value := Ordered.ofTrans
  refine ⟨?_, ?_, ?_⟩
  · intro second third same
    cases first <;> cases second <;> cases third <;> first
      | exact (inner _).left _ _ same
      | rfl
      | cases same
  · intro second third same
    cases first <;> cases second <;> cases third <;> first
      | exact (inner _).right _ _ same
      | rfl
      | cases same
  · intro second third lower higher
    cases first <;> cases second <;> cases third <;> first
      | exact (inner _).below _ _ lower higher
      | rfl
      | (cases lower; done)
      | cases higher

theorem BigDecimal.ordered (first : BigDecimal) : Ordered BigDecimal.cmp first := by
  have asRat : BigDecimal.cmp = fun left right => compare left.toRat right.toRat := by
    funext left right
    exact BigDecimal.cmp_eq_compare left right
  rw [asRat]
  exact .on (f := BigDecimal.toRat) (.ofTrans first.toRat)

theorem Timestamp.ordered (first : Timestamp) : Ordered Timestamp.cmp first :=
  .thenBy (.on (f := fun timestamp : Timestamp => timestamp.secondsAndSubnanos.1) (.ofTrans _))
    (.on (f := fun timestamp : Timestamp => timestamp.secondsAndSubnanos.2) (.ofTrans _))

theorem Date.ordered (first : Date) : Ordered Date.cmp first :=
  .thenBy (.on (f := Date.year) (.ofTrans _))
    (.thenBy (.on (f := Date.month) (.ofTrans _)) (.on (f := Date.day) (.ofTrans _)))

theorem CalendarPeriod.ordered (first : CalendarPeriod) : Ordered CalendarPeriod.cmp first := by
  apply Ordered.thenBy (.on (f := years) (Signed.ordered _))
  apply Ordered.thenBy (.on (f := months) (Signed.ordered _))
  apply Ordered.thenBy (.on (f := weeks) (Signed.ordered _))
  apply Ordered.thenBy (.on (f := days) (Signed.ordered _))
  apply Ordered.thenBy (.on (f := time) (Signed.ordered _))
  apply Ordered.thenBy (.on (f := zone) (cmpOptionalNoneLast_ordered _))
  apply Ordered.thenBy (.on (f := fun period : CalendarPeriod => period.overflow.ctorIdx) (.ofTrans _))
  apply Ordered.thenBy (.on (f := fun period : CalendarPeriod => period.ambiguous.ctorIdx) (.ofTrans _))
  exact .on (f := fun period : CalendarPeriod => period.missing.ctorIdx) (.ofTrans _)

theorem Period.ordered (first : Period) : Ordered Period.cmp first := by
  cases first with
  | fixed nanos =>
    have inner := Signed.ordered nanos
    refine ⟨?_, ?_, ?_⟩
    · intro second third same
      cases second <;> cases third <;> first
        | exact inner.left _ _ same
        | rfl
        | cases same
    · intro second third same
      cases second <;> cases third <;> first
        | exact inner.right _ _ same
        | rfl
        | cases same
    · intro second third lower higher
      cases second <;> cases third <;> first
        | exact inner.below _ _ lower higher
        | rfl
        | cases higher
  | calendar period =>
    have inner := CalendarPeriod.ordered period
    refine ⟨?_, ?_, ?_⟩
    · intro second third same
      cases second <;> cases third <;> first
        | exact inner.left _ _ same
        | rfl
        | cases same
    · intro second third same
      cases second <;> cases third <;> first
        | exact inner.right _ _ same
        | rfl
        | cases same
    · intro second third lower higher
      cases second <;> cases third <;> first
        | exact inner.below _ _ lower higher
        | cases lower
        | cases higher

theorem EnumValue.ordered (first : EnumValue) : Ordered EnumValue.cmp first :=
  .thenBy (.on (f := EnumValue.ordinal) (.ofTrans _)) (.on (f := EnumValue.label) (.ofTrans _))

theorem BlobDescriptor.ordered (first : BlobDescriptor) : Ordered BlobDescriptor.cmp first := by
  apply Ordered.thenBy (.on (f := fun blob : BlobDescriptor => blob.sha512.bytes) (.ofTrans _))
  apply Ordered.thenBy (.on (f := byteCount) (.ofTrans _))
  apply Ordered.thenBy (.on (f := media) (.ofTrans _))
  exact .on (f := name) (cmpOptionalNoneLast_ordered _)

end Scalars

namespace Json

/-- JSON values of one rank are of one kind. -/
theorem sameKind_of_rank {first second : Json} (ranks : first.rank = second.rank) :
    SameKind first second :=
  (sameKind_or_rank first second).resolve_right fun different => different.1 ranks

theorem cmpMember_eq :
    cmpMember = fun left right => (compareText left.1 right.1).then (left.2.cmp right.2) := by
  funext left right
  cases left
  cases right
  rfl

theorem ordered (first : Json) : Ordered cmp first := by
  induction first using induct with
  | step first ih =>
    apply Ordered.ofRank rank
    · intro left right different
      rcases sameKind_or_rank left right with same | ⟨_, decided⟩
      · exact absurd (by cases same <;> rfl) different
      · exact decided
    · intro second third near far
      have members : ∀ items : List (String × Json),
          (∀ item ∈ items, item.2 ∈ first.children) → Ordered (List.compareLex cmpMember) items := by
        intro items inside
        apply Ordered.list
        intro item present
        have name : Ordered compareText item.1 := .ofTrans item.1
        have value : Ordered cmp item.2 := ih item.2 (inside item present)
        rw [cmpMember_eq]
        exact .thenBy (.on name) (.on value)
      have nearKind := sameKind_of_rank near
      have farKind := sameKind_of_rank far
      cases nearKind <;> cases farKind
      case null.null => exact ⟨fun _ => rfl, fun _ => rfl, fun lower => by cases lower⟩
      case bool.bool first second third =>
        have inner : Ordered (compare : Bool → Bool → Ordering) first := .ofTrans first
        exact ⟨inner.left _ _, inner.right _ _, inner.below _ _⟩
      case number.number first second third =>
        have inner := BigDecimal.ordered first
        exact ⟨inner.left _ _, inner.right _ _, inner.below _ _⟩
      case string.string first second third =>
        have inner : Ordered compareText first := .ofTrans first
        exact ⟨inner.left _ _, inner.right _ _, inner.below _ _⟩
      case array.array first second third =>
        have inner : Ordered (List.compareLex cmp) first := .list fun item inside => ih item inside
        simp only [cmp, cmpItems_eq]
        exact ⟨inner.left _ _, inner.right _ _, inner.below _ _⟩
      case object.object first second third =>
        have inner := members first fun item inside => List.mem_map_of_mem inside
        simp only [cmp, cmpMembers_eq]
        exact ⟨inner.left _ _, inner.right _ _, inner.below _ _⟩

instance : Std.TransCmp cmp :=
  transCmp_of_ordered cmp_swap ordered

end Json

namespace Value

/-- Values of one rank are of one kind. -/
theorem sameKind_of_rank {first second : Value} (ranks : first.rank = second.rank) :
    SameKind first second :=
  (sameKind_or_rank first second).resolve_right fun different => different.1 ranks

/-- The order of reference keys is ordered when the order of their values is. -/
theorem cmpRef_ordered (first : RefKey) (members : ∀ member ∈ first.children, Ordered cmp member) :
    Ordered cmpRef first := by
  cases first with
  | scalar key =>
    have inner := members key List.mem_cons_self
    refine ⟨?_, ?_, ?_⟩
    · intro second third same
      cases second <;> cases third <;> first
        | exact inner.left _ _ same
        | rfl
        | cases same
    · intro second third same
      cases second <;> cases third <;> first
        | exact inner.right _ _ same
        | rfl
        | cases same
    · intro second third lower higher
      cases second <;> cases third <;> first
        | exact inner.below _ _ lower higher
        | rfl
        | cases higher
  | composite components =>
    have inner : Ordered (List.compareLex cmp) components := .list members
    refine ⟨?_, ?_, ?_⟩
    · intro second third same
      cases second <;> cases third <;> simp only [cmpRef, cmpList_eq] at same ⊢ <;> first
        | exact inner.left _ _ same
        | cases same
    · intro second third same
      cases second <;> cases third <;> simp only [cmpRef, cmpList_eq] at same ⊢ <;> first
        | exact inner.right _ _ same
        | cases same
    · intro second third lower higher
      cases second <;> cases third <;> simp only [cmpRef, cmpList_eq] at lower higher ⊢ <;> first
        | exact inner.below _ _ lower higher
        | cases lower
        | cases higher

theorem cmpField_eq :
    cmpField = fun left right => (compareText left.1 right.1).then (left.2.cmp right.2) := by
  funext left right
  cases left
  cases right
  rfl

theorem cmpEntry_eq :
    cmpEntry = fun left right => (left.1.cmp right.1).then (left.2.cmp right.2) := by
  funext left right
  cases left
  cases right
  rfl

theorem ordered (first : Value) : Ordered cmp first := by
  induction first using induct with
  | step first ih =>
    apply Ordered.ofRank rank
    · intro left right different
      rcases sameKind_or_rank left right with same | ⟨_, decided⟩
      · exact absurd (by cases same <;> rfl) different
      · exact decided
    · intro second third near far
      have nearKind := sameKind_of_rank near
      have farKind := sameKind_of_rank far
      cases nearKind <;> cases farKind
      case text.text first second third =>
        have inner : Ordered compareText first := .ofTrans first
        exact ⟨inner.left _ _, inner.right _ _, inner.below _ _⟩
      case bool.bool first second third =>
        have inner : Ordered (compare : Bool → Bool → Ordering) first := .ofTrans first
        exact ⟨inner.left _ _, inner.right _ _, inner.below _ _⟩
      case int.int first second third =>
        have inner : Ordered (compare : Int → Int → Ordering) first := .ofTrans first
        exact ⟨inner.left _ _, inner.right _ _, inner.below _ _⟩
      case decimal.decimal first second third =>
        have inner := BigDecimal.ordered first
        exact ⟨inner.left _ _, inner.right _ _, inner.below _ _⟩
      case bytes.bytes first second third =>
        have inner : Ordered (compare : List UInt8 → List UInt8 → Ordering) first := .ofTrans first
        exact ⟨inner.left _ _, inner.right _ _, inner.below _ _⟩
      case uuid.uuid first second third =>
        have inner : Ordered (compare : List UInt8 → List UInt8 → Ordering) first.bytes :=
          .ofTrans first.bytes
        exact ⟨inner.left _ _, inner.right _ _, inner.below _ _⟩
      case date.date first second third =>
        have inner := Date.ordered first
        exact ⟨inner.left _ _, inner.right _ _, inner.below _ _⟩
      case timestamp.timestamp first second third =>
        have inner := Timestamp.ordered first
        exact ⟨inner.left _ _, inner.right _ _, inner.below _ _⟩
      case duration.duration first second third =>
        have inner := Signed.ordered first
        exact ⟨inner.left _ _, inner.right _ _, inner.below _ _⟩
      case period.period first second third =>
        have inner := Period.ordered first
        exact ⟨inner.left _ _, inner.right _ _, inner.below _ _⟩
      case json.json first second third =>
        have inner := Json.ordered first
        exact ⟨inner.left _ _, inner.right _ _, inner.below _ _⟩
      case blob.blob first second third =>
        have inner := BlobDescriptor.ordered first
        exact ⟨inner.left _ _, inner.right _ _, inner.below _ _⟩
      case enum.enum first second third =>
        have inner := EnumValue.ordered first
        exact ⟨inner.left _ _, inner.right _ _, inner.below _ _⟩
      case ref.ref first second third =>
        have inner := cmpRef_ordered first ih
        exact ⟨inner.left _ _, inner.right _ _, inner.below _ _⟩
      case struct.struct first second third =>
        have inner : Ordered (List.compareLex cmpField) first := by
          apply Ordered.list
          intro field inside
          have name : Ordered compareText field.1 := .ofTrans field.1
          have value : Ordered cmp field.2 := ih field.2 (List.mem_map_of_mem inside)
          rw [cmpField_eq]
          exact .thenBy (.on name) (.on value)
        simp only [cmp, cmpFields_eq]
        exact ⟨inner.left _ _, inner.right _ _, inner.below _ _⟩
      case composite.composite first second third =>
        have inner : Ordered (List.compareLex cmp) first := .list ih
        simp only [cmp, cmpList_eq]
        exact ⟨inner.left _ _, inner.right _ _, inner.below _ _⟩
      case set.set first second third =>
        have inner : Ordered (List.compareLex cmp) first := .list ih
        simp only [cmp, cmpList_eq]
        exact ⟨inner.left _ _, inner.right _ _, inner.below _ _⟩
      case map.map first second third =>
        have inner : Ordered (List.compareLex cmpEntry) first := by
          apply Ordered.list
          intro entry inside
          have key : Ordered cmp entry.1 :=
            ih entry.1 (List.mem_append_left _ (List.mem_map_of_mem inside))
          have value : Ordered cmp entry.2 :=
            ih entry.2 (List.mem_append_right _ (List.mem_map_of_mem inside))
          rw [cmpEntry_eq]
          exact .thenBy (.on key) (.on value)
        simp only [cmp, cmpEntries_eq]
        exact ⟨inner.left _ _, inner.right _ _, inner.below _ _⟩
      case none.none => exact ⟨fun _ => rfl, fun _ => rfl, fun lower => by cases lower⟩

instance : Std.TransCmp cmp :=
  transCmp_of_ordered cmp_swap ordered

instance : Ord Value where
  compare := cmp

instance : Std.TransOrd Value :=
  inferInstanceAs (Std.TransCmp cmp)

/-- Values are equal when their order does not separate them. -/
instance : BEq Value where
  beq first second := first.cmp second == .eq

instance : Std.LawfulBEqOrd Value where
  compare_eq_iff_beq := beq_iff_eq.symm

instance : EquivBEq Value :=
  Std.LawfulBEqOrd.equivBEq

/-- Equal values form one class. -/
instance setoid : Setoid Value where
  r first second := first.cmp second = .eq
  iseqv :=
    { refl := fun _ => Std.ReflCmp.compare_self
      symm := Std.OrientedCmp.eq_symm
      trans := Std.TransCmp.eq_trans }

end Value

/-- A value up to equality is all that a map key or a test for equality can see of it. -/
def ValueClass : Type :=
  Quotient Value.setoid

namespace ValueClass

/-- The class of a value. -/
def of (value : Value) : ValueClass :=
  Quotient.mk _ value

theorem of_eq_iff {first second : Value} : of first = of second ↔ first.cmp second = .eq :=
  Quotient.eq

/-- Classes have the order of their values. -/
def cmp : ValueClass → ValueClass → Ordering :=
  Quotient.lift₂ Value.cmp fun _ _ _ _ left right =>
    (Std.TransCmp.congr_left left).trans (Std.TransCmp.congr_right right)

instance : Ord ValueClass where
  compare := cmp

instance : Std.TransOrd ValueClass where
  eq_swap {first second} := by
    induction first, second using Quotient.ind₂
    exact Value.cmp_swap _ _
  isLE_trans {first second third} lower higher := by
    induction first, second using Quotient.ind₂
    induction third using Quotient.ind
    exact (inferInstance : Std.TransCmp Value.cmp).isLE_trans lower higher

instance : Std.LawfulEqOrd ValueClass where
  eq_of_compare {first second} same := by
    induction first, second using Quotient.ind₂
    exact Quotient.sound same

/-- Lists of values are equal when their members are. -/
private def listSetoid : Setoid (List Value) where
  r first second := first.compareLex Value.cmp second = .eq
  iseqv :=
    { refl := fun _ => Std.ReflCmp.compare_self
      symm := Std.OrientedCmp.eq_symm
      trans := Std.TransCmp.eq_trans }

/-- The class of the lists whose members are of the given classes. -/
private def members : List ValueClass → Quotient listSetoid
  | [] => Quotient.mk _ []
  | first :: rest =>
    @Quotient.map₂ _ _ Value.setoid listSetoid _ listSetoid List.cons (fun _ _ heads _ _ tails => by
      change List.compareLex _ (_ :: _) (_ :: _) = .eq
      rw [List.compareLex_cons_cons]
      exact Ordering.then_eq_eq.mpr ⟨heads, tails⟩) first (members rest)

/-- The class of the composite of some classes. -/
def composite (components : List ValueClass) : ValueClass :=
  @Quotient.map _ _ listSetoid Value.setoid Value.composite (fun _ _ same => by
    change Value.cmp _ _ = .eq
    rw [Value.cmp, Value.cmpList_eq]
    exact same) (members components)

private theorem members_of (components : List Value) :
    members (components.map of) = Quotient.mk _ components := by
  induction components with
  | nil => rfl
  | cons first rest ih =>
    rw [List.map_cons, members, ih]
    rfl

/-- The composite of the classes of some values is the class of their composite. -/
@[simp] theorem composite_of (components : List Value) :
    composite (components.map of) = of (.composite components) := by
  rw [composite, members_of]
  rfl

/-- Each list of classes is the list of the classes of some values. -/
theorem exists_values (components : List ValueClass) :
    ∃ values : List Value, components = values.map of := by
  induction components with
  | nil => exact ⟨[], rfl⟩
  | cons first rest ih =>
    obtain ⟨values, rfl⟩ := ih
    induction first using Quotient.ind with
    | _ value => exact ⟨value :: values, rfl⟩

theorem of_list_eq_iff {first second : List Value} :
    first.map of = second.map of ↔ first.compareLex Value.cmp second = .eq := by
  induction first generalizing second with
  | nil =>
    cases second with
    | nil => exact ⟨fun _ => rfl, fun _ => rfl⟩
    | cons => constructor <;> (intro same; cases same)
  | cons head rest ih =>
    cases second with
    | nil => constructor <;> (intro same; cases same)
    | cons other tail =>
      rw [List.map_cons, List.map_cons, List.cons.injEq, of_eq_iff, ih,
        List.compareLex_cons_cons, Ordering.then_eq_eq]

/-- A composite determines the classes of its components. -/
theorem composite_inj {first second : List ValueClass} :
    composite first = composite second ↔ first = second := by
  constructor
  · intro same
    obtain ⟨left, rfl⟩ := exists_values first
    obtain ⟨right, rfl⟩ := exists_values second
    rw [composite_of, composite_of, of_eq_iff, Value.cmp, Value.cmpList_eq] at same
    exact of_list_eq_iff.mpr same
  · rintro rfl
    rfl

instance : DecidableEq ValueClass := fun first second =>
  decidable_of_iff (compare first second = .eq) Std.LawfulEqOrd.compare_eq_iff_eq

end ValueClass

end Liasse
