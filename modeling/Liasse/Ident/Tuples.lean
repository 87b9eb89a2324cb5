/-
This file proves that two keys of one type have the same components exactly when they are equal. The text of each scalar
of a key type determines the scalar up to its order.
-/

import Liasse.Ident.KeyText

namespace Liasse.Ident

open Liasse.Codes Liasse.Wire Liasse.Runtime
open Liasse.Modules (IdentError flatten flattenRef flattenFields flattenField flattenAll component fromScalar)

section Types

mutual

/-- A value of a key type. The timestamps of a type have its precision, and the fields of a struct are all there. -/
inductive KeyOf : FieldType → Value → Prop
  | text (text : String) : KeyOf .text (.text text)
  | bool (flag : Bool) : KeyOf .bool (.bool flag)
  | int (integer : Int) : KeyOf .int (.int integer)
  | decimal (decimal : BigDecimal) : KeyOf .decimal (.decimal decimal)
  | bytes (bytes : List UInt8) : KeyOf .bytes (.bytes bytes)
  | uuid (uuid : Uuid) : KeyOf .uuid (.uuid uuid)
  | date {date : Date} : DateExists date → KeyOf .date (.date date)
  | timestamp (precision : Precision) (count : Signed 128) :
      KeyOf (.timestamp precision) (.timestamp ⟨count, precision⟩)
  | duration (nanos : Signed 128) : KeyOf .duration (.duration nanos)
  | enum {labels : List String} {value : EnumValue} :
      decodeEnum labels value.label = .ok value → KeyOf (.enum labels) (.enum value)
  | scalar {target : FieldType} {key : Value} : KeyOf target key → KeyOf (.ref (.scalar target)) (.ref (.scalar key))
  | positional {components : List (String × FieldType)} {keys : List Value} :
      List.Forall₂ KeyComponent components keys → KeyOf (.ref (.composite components)) (.ref (.composite keys))
  | struct {fields : List (String × FieldType)} {held : List (String × Value)} :
      List.Forall₂ KeyField fields held → KeyOf (.struct fields) (.struct held)
  | composite {components : List (String × FieldType)} {keys : List Value} :
      List.Forall₂ KeyComponent components keys → KeyOf (.composite components) (.composite keys)

inductive KeyField : String × FieldType → String × Value → Prop
  | intro {name : String} {type : FieldType} {value : Value} : KeyOf type value → KeyField (name, type) (name, value)

inductive KeyComponent : String × FieldType → Value → Prop
  | intro {name : String} {type : FieldType} {value : Value} : KeyOf type value → KeyComponent (name, type) value

end

end Types

section Scalars

variable {libraries : Libraries}

theorem integerText_injective : Function.Injective integerText := by
  intro first second same
  have left := parseInteger_integerText first
  rw [same, parseInteger_integerText] at left
  exact (Option.some.inj left).symm

theorem boolText_injective : Function.Injective fun flag : Bool => if flag then "true" else "false" := by
  decide

/-- The days of a magnitude stand before its time of the day. -/
theorem magnitudeText_split (nanos : Nat) :
    Duration.magnitudeText nanos =
      Duration.component (nanos / Duration.nanosPerDay) 'D' ++ Duration.magnitudeText (nanos % Duration.nanosPerDay) := by
  have below : nanos % Duration.nanosPerDay / Duration.nanosPerDay = 0 :=
    Nat.div_eq_of_lt (Nat.mod_lt nanos (by decide))
  have none : Duration.component 0 'D' = [] := rfl
  unfold Duration.magnitudeText
  dsimp only
  rw [Nat.mod_mod, below, none, List.nil_append]

/-- The text of a time of the day is empty or starts with its separator. -/
theorem magnitudeText_small {nanos : Nat} (small : nanos < Duration.nanosPerDay) :
    Duration.magnitudeText nanos = [] ∨ ∃ rest, Duration.magnitudeText nanos = 'T' :: rest := by
  have none : Duration.component 0 'D' = [] := rfl
  unfold Duration.magnitudeText
  dsimp only
  rw [Nat.div_eq_of_lt small, none, List.nil_append]
  split
  · exact .inr ⟨_, rfl⟩
  · exact .inl rfl

/-- The text of a short magnitude determines it. -/
theorem magnitudeText_congr {first second : Nat} (left : first < 2 ^ 127) (right : second < 2 ^ 127)
    (same : Duration.magnitudeText first = Duration.magnitudeText second) : first = second := by
  have unread : ∀ {nanos : Nat}, 0 < nanos → nanos < 2 ^ 127 → Duration.magnitudeText nanos ≠ [] := by
    intro nanos positive small empty
    have read := Duration.parseComponents_magnitudeText "" false positive small
    rw [empty] at read
    cases read
  rcases Nat.eq_zero_or_pos first with rfl | positive
  · rcases Nat.eq_zero_or_pos second with rfl | further
    · rfl
    · exact absurd same.symm (unread further right)
  · rcases Nat.eq_zero_or_pos second with rfl | further
    · exact absurd same (unread positive left)
    · have one := Duration.parseComponents_magnitudeText "" false positive left
      rw [same, Duration.parseComponents_magnitudeText "" false further right] at one
      have counts := congrArg Signed.val (Except.ok.inj one)
      rw [if_neg (by decide), if_neg (by decide), Duration.wrapTicks_val (by omega) (by omega),
        Duration.wrapTicks_val (by omega) (by omega)] at counts
      omega

/-- The digits in front of the days of a magnitude are those of its count of days. -/
theorem takeWhile_magnitudeText (nanos : Nat) :
    (Duration.magnitudeText nanos).takeWhile Char.isDigit =
      if nanos / Duration.nanosPerDay = 0 then [] else Nat.toDigits 10 (nanos / Duration.nanosPerDay) := by
  rw [magnitudeText_split]
  split
  next zero =>
    have none : Duration.component 0 'D' = [] := rfl
    rw [zero, none, List.nil_append]
    rcases magnitudeText_small (Nat.mod_lt nanos (by decide)) with empty | ⟨rest, started⟩
    · rw [empty]
      rfl
    · rw [started]
      rfl
  next nonzero =>
    rw [Duration.component, if_pos (Nat.pos_of_ne_zero nonzero), List.append_assoc, List.takeWhile_append_of_pos
      (toDigits_isDigits _).2]
    exact List.append_nil _

/-- The text of a magnitude determines it. -/
theorem magnitudeText_injective : Function.Injective Duration.magnitudeText := by
  intro first second same
  have digits := congrArg (List.takeWhile Char.isDigit) same
  rw [takeWhile_magnitudeText, takeWhile_magnitudeText] at digits
  have days : first / Duration.nanosPerDay = second / Duration.nanosPerDay := by
    split at digits
    next zero =>
      split at digits
      next other => rw [zero, other]
      next => exact absurd digits.symm Nat.toDigits_ne_nil
    next =>
      split at digits
      next => exact absurd digits Nat.toDigits_ne_nil
      next => rw [← Nat.ofDigitChars_ten_toDigits (n := first / _), digits, Nat.ofDigitChars_ten_toDigits]
  have times : first % Duration.nanosPerDay = second % Duration.nanosPerDay := by
    have below : ∀ nanos : Nat, nanos % Duration.nanosPerDay < 2 ^ 127 := fun nanos =>
      (Nat.mod_lt nanos (by decide)).trans (by decide)
    refine magnitudeText_congr (below first) (below second) ?_
    rw [magnitudeText_split first, magnitudeText_split second, days] at same
    exact List.append_cancel_left same
  rw [← Nat.div_add_mod first Duration.nanosPerDay, days, times, Nat.div_add_mod]

/-- The text of a duration determines it. -/
theorem durationText_injective : Function.Injective Duration.toCanonicalText := by
  have least : ∀ {first second : Signed 128}, Duration.toCanonicalText first = Duration.toCanonicalText second →
      first.val < 0 → first = second := by
    intro first second same negative
    rw [Duration.toCanonicalText, if_neg negative.ne, decide_eq_true negative, Duration.toCanonicalText] at same
    have chars := congrArg String.toList same
    rw [String.toList_ofList] at chars
    split at chars
    · cases chars
    · rw [String.toList_ofList] at chars
      by_cases further : second.val < 0
      · rw [decide_eq_true further] at chars
        have magnitudes := magnitudeText_injective (List.cons.inj (List.cons.inj chars).2).2
        obtain ⟨number, _, _⟩ := first
        obtain ⟨another, _, _⟩ := second
        have equal : number = another := by
          dsimp only at magnitudes negative further
          omega
        subst equal
        rfl
      · rw [decide_eq_false further] at chars
        exact absurd (List.cons.inj chars).1 (by decide)
  intro first second same
  by_cases negative : first.val < 0
  · exact least same negative
  · by_cases further : second.val < 0
    · exact (least same.symm further).symm
    · have left := @Duration.parse_toCanonicalText first (by omega)
      rw [same, Duration.parse_toCanonicalText (by omega)] at left
      exact (Except.ok.inj left).symm

/-- A component is the one text of a scalar. -/
theorem component_ok {value : Value} {parts : List String} (made : component libraries value = .ok parts) :
    ∃ text, fromScalar libraries value = .ok text ∧ parts = [text] := by
  obtain ⟨text, written, rest⟩ := bind_ok.mp made
  refine ⟨text, written, ?_⟩
  by_cases empty : text = ""
  · rw [if_pos empty] at rest
    cases rest
  · rw [if_neg empty] at rest
    exact (Except.ok.inj rest).symm

/-- The components of two values agree with their order. -/
def Agree (order : Ordering) (left right : List String) : Prop :=
  left.length = right.length ∧ (left = right ↔ order = .eq)

/-- Two scalars agree when their texts are equal exactly when the scalars are. -/
theorem agree_of_scalar {first second : Value} {left right : List String} {one other : String}
    (leftText : fromScalar libraries first = .ok one) (rightText : fromScalar libraries second = .ok other)
    (texts : one = other ↔ first.cmp second = .eq)
    (leftMade : component libraries first = .ok left) (rightMade : component libraries second = .ok right) :
    Agree (first.cmp second) left right := by
  obtain ⟨text, written, rfl⟩ := component_ok leftMade
  obtain ⟨another, spelt, rfl⟩ := component_ok rightMade
  obtain rfl := Except.ok.inj (leftText.symm.trans written)
  obtain rfl := Except.ok.inj (rightText.symm.trans spelt)
  refine ⟨rfl, ?_⟩
  rw [List.cons.injEq, and_iff_left rfl]
  exact texts

/-- Scalars of a kind with an injective text agree. -/
theorem agree_of_injective {α : Type} (wrap : α → Value) (written : α → String) {first second : α}
    {left right : List String} (texts : ∀ member, fromScalar libraries (wrap member) = .ok (written member))
    (same : written first = written second → first = second)
    (equal : (wrap first).cmp (wrap second) = .eq → first = second)
    (leftMade : component libraries (wrap first) = .ok left) (rightMade : component libraries (wrap second) = .ok right) :
    Agree ((wrap first).cmp (wrap second)) left right := by
  refine agree_of_scalar (texts first) (texts second) ⟨fun spelt => ?_, fun ordered => ?_⟩ leftMade rightMade
  · rw [same spelt]
    exact Std.ReflCmp.compare_self
  · rw [equal ordered]

end Scalars

section Parts

variable {libraries : Libraries}

/-- The fields of a struct flatten as its values do. -/
theorem flattenFields_eq (fields : List (String × Value)) :
    flattenFields libraries fields = flattenAll libraries (fields.map Prod.snd) := by
  induction fields with
  | nil => rfl
  | cons field rest ih =>
    obtain ⟨name, value⟩ := field
    rw [flattenFields, flattenField, ih, List.map_cons, flattenAll]

theorem flattenAll_cons {value : Value} {rest : List Value} {parts : List String}
    (flat : flattenAll libraries (value :: rest) = .ok parts) :
    ∃ first others, flatten libraries value = .ok first ∧ flattenAll libraries rest = .ok others ∧
      parts = first ++ others := by
  rw [flattenAll] at flat
  obtain ⟨first, here, rest⟩ := bind_ok.mp flat
  obtain ⟨others, later, last⟩ := bind_ok.mp rest
  exact ⟨first, others, here, later, (Except.ok.inj last).symm⟩

/-- Parts that agree one after the other agree together. -/
theorem Agree.append {here rest : Ordering} {first second left right : List String} (agree : Agree here first second)
    (later : Agree rest left right) : Agree (here.then rest) (first ++ left) (second ++ right) := by
  refine ⟨by rw [List.length_append, List.length_append, agree.1, later.1], ?_⟩
  rw [Ordering.then_eq_eq, ← agree.2, ← later.2]
  constructor
  · exact fun same => List.append_inj same agree.1
  · rintro ⟨rfl, rfl⟩
    rfl

/-- Lists of values agree when their members do one by one. -/
theorem agree_all {γ : Type} {related : γ → Value → Prop} {types : List γ} {keys others : List Value}
    (left : List.Forall₂ related types keys) (right : List.Forall₂ related types others)
    (each : ∀ type ∈ types, ∀ {first second parts rest}, related type first → related type second →
      flatten libraries first = .ok parts → flatten libraries second = .ok rest →
        Agree (first.cmp second) parts rest) {parts rest : List String}
    (leftMade : flattenAll libraries keys = .ok parts) (rightMade : flattenAll libraries others = .ok rest) :
    Agree (keys.compareLex Value.cmp others) parts rest := by
  induction left generalizing others parts rest with
  | nil =>
    cases right with
    | nil =>
      obtain rfl := Except.ok.inj leftMade
      obtain rfl := Except.ok.inj rightMade
      exact ⟨rfl, iff_of_true rfl rfl⟩
  | cons here _ ih =>
    cases right with
    | cons there more =>
      obtain ⟨_, _, first, tail, rfl⟩ := flattenAll_cons leftMade
      obtain ⟨_, _, second, behind, rfl⟩ := flattenAll_cons rightMade
      rw [List.compareLex_cons_cons]
      refine (each _ List.mem_cons_self here there first second).append (ih more ?_ tail behind)
      exact fun type inside => each type (List.mem_cons_of_mem _ inside)

/-- The values of a struct are the components of its type. -/
theorem components_of_fields {fields : List (String × FieldType)} {held : List (String × Value)}
    (related : List.Forall₂ KeyField fields held) : List.Forall₂ KeyComponent fields (held.map Prod.snd) := by
  rw [List.forall₂_map_right_iff]
  refine related.imp fun field value here => ?_
  obtain ⟨known⟩ := here
  exact .intro known

/-- The values of two structs of one type compare as the structs do. -/
theorem compare_fields {fields : List (String × FieldType)} {held others : List (String × Value)}
    (left : List.Forall₂ KeyField fields held) (right : List.Forall₂ KeyField fields others) :
    held.compareLex Value.cmpField others = (held.map Prod.snd).compareLex Value.cmp (others.map Prod.snd) := by
  induction left generalizing others with
  | nil =>
    cases right with
    | nil => rfl
  | cons here _ ih =>
    cases right with
    | cons there more =>
      obtain ⟨known⟩ := here
      obtain ⟨found⟩ := there
      rw [List.map_cons, List.map_cons, List.compareLex_cons_cons, List.compareLex_cons_cons,
        ih more]
      congr 1
      change (compareText _ _).then _ = _
      rw [(compareText_eq_iff _ _).mpr rfl]
      rfl

end Parts

section Keys

variable {libraries : Libraries}

/-- Two values of one key type have the same components exactly when they are equal. -/
theorem agree_of_keyOf (documented : libraries.Documented) {type : FieldType} {first second : Value}
    {left right : List String} (leftKey : KeyOf type first) (rightKey : KeyOf type second)
    (leftMade : flatten libraries first = .ok left) (rightMade : flatten libraries second = .ok right) :
    Agree (first.cmp second) left right := by
  induction type using FieldType.induct generalizing first second left right with
  | step type ih =>
    cases leftKey with
    | text one =>
      cases rightKey with
      | text other =>
        exact agree_of_injective Value.text id (fun _ => rfl) id (compareText_eq_iff one other).mp
          leftMade rightMade
    | bool one =>
      cases rightKey with
      | bool other =>
        exact agree_of_injective Value.bool (fun flag => if flag then "true" else "false") (fun _ => rfl)
          (fun same => boolText_injective same) Std.LawfulEqOrd.eq_of_compare leftMade rightMade
    | int one =>
      cases rightKey with
      | int other =>
        exact agree_of_injective Value.int integerText (fun _ => rfl) (fun same => integerText_injective same)
          Std.LawfulEqOrd.eq_of_compare leftMade rightMade
    | decimal one =>
      cases rightKey with
      | decimal other =>
        refine agree_of_scalar rfl rfl ?_ leftMade rightMade
        rw [Decimal.toCanonicalText_eq_iff]
        exact BigDecimal.cmp_eq_iff.symm
    | bytes one =>
      cases rightKey with
      | bytes other =>
        refine agree_of_injective Value.bytes libraries.toBase64 (fun _ => rfl) (fun same => ?_)
          Std.LawfulEqOrd.eq_of_compare leftMade rightMade
        have read := documented.base64 one
        rw [same, documented.base64 other] at read
        exact (Except.ok.inj read).symm
    | uuid one =>
      cases rightKey with
      | uuid other =>
        refine agree_of_injective Value.uuid libraries.uuidText (fun _ => rfl) (fun same => ?_) (fun same => ?_)
          leftMade rightMade
        · have read := documented.uuid one
          rw [same, documented.uuid other] at read
          exact (Option.some.inj read).symm
        · exact Value.uuid.inj (Value.normal_congr same)
    | date here =>
      cases rightKey with
      | date there =>
        refine agree_of_injective Value.date libraries.dateText (fun _ => rfl) (fun same => ?_) Date.eq_of_cmp
          leftMade rightMade
        have read := documented.date _ here
        rw [same, documented.date _ there] at read
        exact (Option.some.inj read).symm
    | timestamp precision one =>
      cases rightKey with
      | timestamp _ other =>
        refine agree_of_injective (fun count => Value.timestamp ⟨count, precision⟩)
          (fun count => integerText count.val) (fun _ => rfl) (fun same => ?_) count_congr leftMade rightMade
        have counts := integerText_injective same
        obtain ⟨number, _, _⟩ := one
        obtain ⟨another, _, _⟩ := other
        obtain rfl : number = another := counts
        rfl
    | duration one =>
      cases rightKey with
      | duration other =>
        exact agree_of_injective Value.duration Duration.toCanonicalText (fun _ => rfl)
          (fun same => durationText_injective same) Signed.eq_of_cmp leftMade rightMade
    | @enum labels one here =>
      cases rightKey with
      | @enum _ other there =>
        refine agree_of_injective Value.enum EnumValue.label (fun _ => rfl) (fun same => ?_)
          EnumValue.eq_of_cmp leftMade rightMade
        rw [same, there] at here
        exact (Except.ok.inj here).symm
    | scalar here =>
      cases rightKey with
      | scalar there =>
        have agree := ih _ List.mem_cons_self here there leftMade rightMade
        exact agree
    | positional here =>
      cases rightKey with
      | positional there =>
        rw [Value.cmp, Value.cmpRef, Value.cmpList_eq]
        refine agree_all here there (fun component listed => ?_) leftMade rightMade
        rintro _ _ _ _ ⟨one⟩ ⟨other⟩
        exact ih _ (List.mem_map_of_mem listed) one other
    | struct here =>
      cases rightKey with
      | struct there =>
        rw [flatten, flattenFields_eq] at leftMade rightMade
        rw [Value.cmp, Value.cmpFields_eq, compare_fields here there]
        refine agree_all (components_of_fields here) (components_of_fields there) (fun field listed => ?_)
          leftMade rightMade
        rintro _ _ _ _ ⟨one⟩ ⟨other⟩
        exact ih _ (List.mem_map_of_mem listed) one other
    | composite here =>
      cases rightKey with
      | composite there =>
        rw [Value.cmp, Value.cmpList_eq]
        refine agree_all here there (fun component listed => ?_) leftMade rightMade
        rintro _ _ _ _ ⟨one⟩ ⟨other⟩
        exact ih _ (List.mem_map_of_mem listed) one other

end Keys

end Liasse.Ident
