/-
This file gives the facts about finite maps whose keys are compared up to identity, and about maps whose entries move
to other keys.
-/

import Mathlib

namespace Liasse.Codes

section Tables

variable {α β : Type*} {cmp : α → α → Ordering} [Std.TransCmp cmp] [Std.LawfulEqCmp cmp]

section Map

variable {map : Std.ExtTreeMap α β cmp} {key other : α} {value : β}

/-- An insertion leaves the other entries. -/
theorem getElem?_insert_of_ne (different : other ≠ key) :
    (map.insert key value)[other]? = map[other]? := by
  rw [Std.ExtTreeMap.getElem?_insert, if_neg]
  exact fun same => different (Std.LawfulEqCmp.eq_of_compare same).symm

theorem getD_insert_of_ne (different : other ≠ key) (default : β) :
    (map.insert key value).getD other default = map.getD other default := by
  rw [Std.ExtTreeMap.getD_eq_getD_getElem?, getElem?_insert_of_ne different,
    ← Std.ExtTreeMap.getD_eq_getD_getElem?]

/-- A removal leaves the other entries. -/
theorem getElem?_erase_of_ne (different : other ≠ key) : (map.erase key)[other]? = map[other]? := by
  rw [Std.ExtTreeMap.getElem?_erase, if_neg]
  exact fun same => different (Std.LawfulEqCmp.eq_of_compare same).symm

/-- The map of the entries of a map is the map. -/
theorem ofList_toList (map : Std.ExtTreeMap α β cmp) : Std.ExtTreeMap.ofList map.toList cmp = map := by
  classical
  ext key value
  cases found : map[key]? with
  | some held =>
    rw [Std.ExtTreeMap.getElem?_ofList_of_mem Std.ReflCmp.compare_self map.distinct_keys_toList
      (Std.ExtTreeMap.mem_toList_iff_getElem?_eq_some.mpr found)]
  | none =>
    rw [Std.ExtTreeMap.getElem?_ofList_of_contains_eq_false]
    rw [List.contains_eq_mem, decide_eq_false_iff_not, Std.ExtTreeMap.map_fst_toList_eq_keys,
      Std.ExtTreeMap.mem_keys, Std.ExtTreeMap.mem_iff_isSome_getElem?, found]
    exact Bool.false_ne_true

/-- A search through a map finds nothing when it finds nothing at any entry. -/
theorem findSome?_toList_eq_none {γ : Type*} {found : α × β → Option γ} :
    map.toList.findSome? found = none ↔ ∀ key value, map[key]? = some value → found (key, value) = none := by
  rw [List.findSome?_eq_none_iff]
  constructor
  · intro silent key value stored
    exact silent (key, value) (Std.ExtTreeMap.mem_toList_iff_getElem?_eq_some.mpr stored)
  · intro silent entry inside
    exact silent entry.1 entry.2 (Std.ExtTreeMap.mem_toList_iff_getElem?_eq_some.mp inside)

/-- Each entry of a map has one in another map that is related to it. -/
def Covers {γ : Type*} (related : β → γ → Prop) (first : Std.ExtTreeMap α β cmp)
    (second : Std.ExtTreeMap α γ cmp) : Prop :=
  ∀ (key : α) (value : β), first[key]? = some value → ∃ next, second[key]? = some next ∧ related value next

omit [Std.LawfulEqCmp cmp] in
theorem Covers.refl {related : β → β → Prop} (reflexive : ∀ value, related value value)
    (map : Std.ExtTreeMap α β cmp) : Covers related map map :=
  fun _ value stored => ⟨value, stored, reflexive value⟩

omit [Std.LawfulEqCmp cmp] in
theorem Covers.imp {γ : Type*} {first : Std.ExtTreeMap α β cmp} {second : Std.ExtTreeMap α γ cmp}
    {related weaker : β → γ → Prop} (covers : Covers related first second)
    (weaken : ∀ x y, related x y → weaker x y) : Covers weaker first second := by
  intro key x stored
  obtain ⟨y, found, next⟩ := covers key x stored
  exact ⟨y, found, weaken x y next⟩

omit [Std.LawfulEqCmp cmp] in
/-- Covers compose where the relations do at the shared keys. -/
theorem Covers.trans {γ δ : Type*} {first : Std.ExtTreeMap α β cmp} {second : Std.ExtTreeMap α γ cmp}
    {third : Std.ExtTreeMap α δ cmp} {left : β → γ → Prop} {right : γ → δ → Prop} {whole : β → δ → Prop}
    (lower : Covers left first second) (upper : Covers right second third)
    (compose : ∀ (key : α) x y z, first[key]? = some x → second[key]? = some y → third[key]? = some z →
      left x y → right y z → whole x z) :
    Covers whole first third := by
  intro key x atFirst
  obtain ⟨y, atSecond, related⟩ := lower key x atFirst
  obtain ⟨z, atThird, next⟩ := upper key y atSecond
  exact ⟨z, atThird, compose key x y z atFirst atSecond atThird related next⟩

/-- The first entry of a map that another map misses or that compares badly. -/
def firstUncovered {γ δ : Type*} (first : Std.ExtTreeMap α β cmp) (second : Std.ExtTreeMap α γ cmp)
    (missing : α → δ) (compared : α → β → γ → Option δ) : Option δ :=
  first.toList.findSome? fun (key, x) =>
    match second[key]? with
    | none => some (missing key)
    | some y => compared key x y

/-- A search for an uncovered entry decides whether a map covers another. -/
theorem firstUncovered_eq_none {γ δ : Type*} {first : Std.ExtTreeMap α β cmp}
    {second : Std.ExtTreeMap α γ cmp} {missing : α → δ} {compared : α → β → γ → Option δ}
    {related : β → γ → Prop} (decides : ∀ key x y, compared key x y = none ↔ related x y) :
    firstUncovered first second missing compared = none ↔ Covers related first second := by
  rw [firstUncovered, findSome?_toList_eq_none]
  constructor
  · intro silent key x stored
    have quiet := silent key x stored
    cases found : second[key]? with
    | none => simp [found] at quiet
    | some y =>
      simp only [found] at quiet
      exact ⟨y, rfl, (decides key x y).mp quiet⟩
  · intro covers key x stored
    obtain ⟨y, found, next⟩ := covers key x stored
    simp only [found]
    exact (decides key x y).mpr next

end Map

section Assignments

variable [BEq β] [EquivBEq β] {assigned : α → β → Prop} {map : Std.ExtTreeMap α β cmp}

/-- A map holds some assignments up to equal values. -/
structure Holds (assigned : α → β → Prop) (map : Std.ExtTreeMap α β cmp) : Prop where
  sound : ∀ key value, map[key]? = some value → assigned key value
  complete : ∀ key value, assigned key value → ∃ kept, map[key]? = some kept ∧ (kept == value) = true

omit [Std.LawfulEqCmp cmp] [EquivBEq β] in
theorem Holds.empty : Holds (fun _ _ => False) (∅ : Std.ExtTreeMap α β cmp) := by
  refine ⟨fun key value stored => ?_, fun key value impossible => impossible.elim⟩
  rw [Std.ExtTreeMap.getElem?_empty] at stored
  cases stored

omit [Std.LawfulEqCmp cmp] [EquivBEq β] in
theorem Holds.congr {others : α → β → Prop} (holds : Holds assigned map)
    (same : ∀ key value, assigned key value ↔ others key value) : Holds others map :=
  ⟨fun key value stored => (same key value).mp (holds.sound key value stored),
    fun key value assignment => holds.complete key value ((same key value).mpr assignment)⟩

/-- An assignment that equals the one of its key joins the others. -/
theorem Holds.insert {key : α} {value : β} (holds : Holds assigned map)
    (agrees : ∀ kept, map[key]? = some kept → (kept == value) = true) :
    Holds (fun other more => assigned other more ∨ (other = key ∧ more = value)) (map.insert key value) := by
  constructor
  · intro other more stored
    by_cases same : other = key
    · subst same
      rw [Std.ExtTreeMap.getElem?_insert_self] at stored
      exact .inr ⟨rfl, (Option.some.inj stored).symm⟩
    · rw [getElem?_insert_of_ne same] at stored
      exact .inl (holds.sound other more stored)
  · intro other more assignment
    by_cases same : other = key
    · subst same
      refine ⟨value, Std.ExtTreeMap.getElem?_insert_self, ?_⟩
      rcases assignment with earlier | ⟨_, rfl⟩
      · obtain ⟨kept, stored, equal⟩ := holds.complete other more earlier
        exact BEq.trans (BEq.symm (agrees kept stored)) equal
      · exact BEq.rfl
    · rw [getElem?_insert_of_ne same]
      exact holds.complete other more (assignment.resolve_right fun here => same here.1)

omit [Std.LawfulEqCmp cmp] in
/-- The assignments of a key that a map holds are equal. -/
theorem Holds.agree (holds : Holds assigned map) {key : α} {first second : β} (left : assigned key first)
    (right : assigned key second) : (first == second) = true := by
  obtain ⟨kept, stored, equal⟩ := holds.complete key first left
  obtain ⟨again, found, other⟩ := holds.complete key second right
  obtain rfl := Option.some.inj (stored.symm.trans found)
  exact BEq.trans (BEq.symm equal) other

omit [Std.LawfulEqCmp cmp] [EquivBEq β] in
/-- Maps that hold the same assignments have equal entries. -/
theorem Holds.covers {other : Std.ExtTreeMap α β cmp} (holds : Holds assigned map)
    (again : Holds assigned other) : Covers (fun first second => (second == first) = true) map other :=
  fun key value stored => again.complete key value (holds.sound key value stored)

end Assignments

section Changes

variable {γ : Type*} {change : γ → β → β} {key : α}

/-- Changes of the entries at other keys leave an entry. -/
theorem getElem?_foldl_modify_of_ne {changes : List (α × γ)} (map : Std.ExtTreeMap α β cmp)
    (other : ∀ entry ∈ changes, entry.1 ≠ key) :
    (changes.foldl (fun map entry => map.modify entry.1 (change entry.2)) map)[key]? = map[key]? := by
  induction changes generalizing map with
  | nil => rfl
  | cons entry rest earlier =>
    obtain ⟨different, later⟩ := List.forall_mem_cons.mp other
    rw [List.foldl_cons, earlier _ later, Std.ExtTreeMap.getElem?_modify, if_neg]
    exact fun same => different (Std.LawfulEqCmp.eq_of_compare same)

/-- One change for each key of a table changes the entry of the key. -/
theorem getElem?_foldl_modify (map : Std.ExtTreeMap α β cmp) (changes : Std.ExtTreeMap α γ cmp) (key : α) :
    (changes.toList.foldl (fun map entry => map.modify entry.1 (change entry.2)) map)[key]? =
      match changes[key]? with
      | some made => map[key]?.map (change made)
      | none => map[key]? := by
  cases found : changes[key]? with
  | none =>
    refine getElem?_foldl_modify_of_ne map fun entry inside same => ?_
    have stored := Std.ExtTreeMap.mem_toList_iff_getElem?_eq_some.mp (show (entry.1, entry.2) ∈ _ from inside)
    rw [same, found] at stored
    cases stored
  | some made =>
    have inside : (key, made) ∈ changes.toList := Std.ExtTreeMap.mem_toList_iff_getElem?_eq_some.mpr found
    obtain ⟨before, after, split⟩ := List.append_of_mem inside
    have distinct : (before ++ (key, made) :: after).Pairwise fun first second => ¬ cmp first.1 second.1 = .eq :=
      split ▸ changes.distinct_keys_toList
    obtain ⟨_, rest, across⟩ := List.pairwise_append.mp distinct
    have left (entry : α × γ) (inside : entry ∈ before) : entry.1 ≠ key := fun same =>
      across entry inside (key, made) List.mem_cons_self (same ▸ Std.ReflCmp.compare_self)
    have right (entry : α × γ) (inside : entry ∈ after) : entry.1 ≠ key := fun same =>
      (List.pairwise_cons.mp rest).1 entry inside (same ▸ Std.ReflCmp.compare_self)
    rw [split, List.foldl_append, List.foldl_cons, getElem?_foldl_modify_of_ne _ right,
      Std.ExtTreeMap.getElem?_modify_self, getElem?_foldl_modify_of_ne map left]

/-- The changes of a table change each entry when a missing change is a neutral one. -/
theorem getElem?_foldl_modify_getD {neutral : γ} (keeps : ∀ value, change neutral value = value)
    (map : Std.ExtTreeMap α β cmp) (changes : Std.ExtTreeMap α γ cmp) (key : α) :
    (changes.toList.foldl (fun map entry => map.modify entry.1 (change entry.2)) map)[key]? =
      map[key]?.map (change (changes.getD key neutral)) := by
  rw [getElem?_foldl_modify, Std.ExtTreeMap.getD_eq_getD_getElem?]
  cases changes[key]? with
  | none =>
    rw [Option.getD_none, funext keeps]
    exact Option.map_id'.symm
  | some made => rfl

end Changes

/-- The set of a list has the members of the list. -/
theorem mem_ofList_toList [DecidableEq α] {members : List α} {member : α} :
    member ∈ (Std.TreeSet.ofList members cmp).toList ↔ member ∈ members := by
  rw [Std.TreeSet.mem_toList, Std.TreeSet.mem_ofList, List.contains_iff_mem]

end Tables

section Renamings

section Moves

variable {α β : Type*} {cmp : α → α → Ordering} [Std.TransCmp cmp] [Std.LawfulEqCmp cmp]
variable {rename other : α → α} {first second : Std.ExtTreeMap α β cmp}

/-- A map is another one with its keys renamed apart. -/
structure Renamed (rename : α → α) (first second : Std.ExtTreeMap α β cmp) : Prop where
  kept : ∀ key ∈ first, second[rename key]? = first[key]?
  onto : ∀ key ∈ second, ∃ origin ∈ first, rename origin = key
  injective : ∀ key ∈ first, ∀ other ∈ first, rename key = rename other → key = other

omit [Std.LawfulEqCmp cmp] in
theorem Renamed.refl (map : Std.ExtTreeMap α β cmp) : Renamed id map map :=
  ⟨fun _ _ => rfl, fun key inside => ⟨key, inside, rfl⟩, fun _ _ _ _ same => same⟩

omit [Std.LawfulEqCmp cmp] in
/-- The renaming matters at the keys of the map only. -/
theorem Renamed.congr (renamed : Renamed rename first second) (same : ∀ key ∈ first, rename key = other key) :
    Renamed other first second where
  kept key inside := same key inside ▸ renamed.kept key inside
  onto key inside := by
    obtain ⟨origin, found, names⟩ := renamed.onto key inside
    exact ⟨origin, found, (same origin found).symm.trans names⟩
  injective key inside next there equal := by
    rw [← same key inside, ← same next there] at equal
    exact renamed.injective key inside next there equal

omit [Std.LawfulEqCmp cmp] in
theorem Renamed.mem (renamed : Renamed rename first second) {key : α} (inside : key ∈ first) :
    rename key ∈ second := by
  rw [Std.ExtTreeMap.mem_iff_isSome_getElem?, renamed.kept key inside]
  exact Std.ExtTreeMap.mem_iff_isSome_getElem?.mp inside

/-- One more key moves to a free one. -/
theorem Renamed.move [DecidableEq α] (renamed : Renamed rename first second) {key next : α} {value : β}
    (inside : key ∈ first) (still : rename key = key) (stored : second[key]? = some value)
    (free : next ∉ second) :
    Renamed (Function.update rename key next) first ((second.erase key).insert next value) := by
  have present : key ∈ second := by
    rw [Std.ExtTreeMap.mem_iff_isSome_getElem?, stored]
    rfl
  have apart {origin : α} (found : origin ∈ first) (different : origin ≠ key) :
      rename origin ≠ key ∧ rename origin ≠ next := by
    refine ⟨fun same => different ?_, fun same => free (same ▸ renamed.mem found)⟩
    exact renamed.injective origin found key inside (same.trans still.symm)
  constructor
  · intro origin found
    by_cases same : origin = key
    · subst same
      rw [Function.update_self, Std.ExtTreeMap.getElem?_insert_self, ← renamed.kept origin inside, still, stored]
    · obtain ⟨moved, taken⟩ := apart found same
      rw [Function.update_of_ne same, getElem?_insert_of_ne taken, getElem?_erase_of_ne moved]
      exact renamed.kept origin found
  · intro target found
    by_cases same : target = next
    · exact ⟨key, inside, by rw [Function.update_self, same]⟩
    · rw [Std.ExtTreeMap.mem_iff_isSome_getElem?, getElem?_insert_of_ne same,
        ← Std.ExtTreeMap.mem_iff_isSome_getElem?, Std.ExtTreeMap.mem_erase] at found
      obtain ⟨origin, held, names⟩ := renamed.onto target found.2
      have different : origin ≠ key := by
        rintro rfl
        rw [still] at names
        subst names
        exact found.1 Std.ReflCmp.compare_self
      exact ⟨origin, held, by rw [Function.update_of_ne different, names]⟩
  · intro left leftInside right rightInside same
    by_cases atLeft : left = key
    · by_cases atRight : right = key
      · exact atLeft.trans atRight.symm
      · rw [atLeft, Function.update_self, Function.update_of_ne atRight] at same
        exact absurd same.symm (apart rightInside atRight).2
    · by_cases atRight : right = key
      · rw [atRight, Function.update_self, Function.update_of_ne atLeft] at same
        exact absurd same (apart leftInside atLeft).2
      · rw [Function.update_of_ne atLeft, Function.update_of_ne atRight] at same
        exact renamed.injective left leftInside right rightInside same

/-- The value of a key and that of its new key change together. -/
theorem Renamed.replace (renamed : Renamed rename first second) {key : α} (inside : key ∈ first) (value : β) :
    Renamed rename (first.insert key value) (second.insert (rename key) value) := by
  have keys (map : Std.ExtTreeMap α β cmp) {held : α} (present : held ∈ map) (other : α) :
      other ∈ map.insert held value ↔ other ∈ map := by
    rw [Std.ExtTreeMap.mem_insert]
    refine or_iff_right_of_imp fun same => ?_
    rwa [← Std.LawfulEqCmp.eq_of_compare same]
  have listed := keys first inside
  have named := keys second (renamed.mem inside)
  constructor
  · intro origin found
    have there := (listed origin).mp found
    by_cases same : origin = key
    · subst same
      rw [Std.ExtTreeMap.getElem?_insert_self, Std.ExtTreeMap.getElem?_insert_self]
    · have apart : rename origin ≠ rename key := fun equal =>
        same (renamed.injective origin there key inside equal)
      rw [getElem?_insert_of_ne apart, getElem?_insert_of_ne same]
      exact renamed.kept origin there
  · intro target found
    obtain ⟨origin, there, names⟩ := renamed.onto target ((named target).mp found)
    exact ⟨origin, (listed origin).mpr there, names⟩
  · intro left leftInside right rightInside
    exact renamed.injective left ((listed left).mp leftInside) right ((listed right).mp rightInside)

end Moves

end Renamings

end Liasse.Codes
