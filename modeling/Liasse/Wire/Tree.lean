/-
This file models the JSON trees of the serialization library. A number keeps its text, and an object keeps
its members under different names.
-/

import Mathlib

namespace Liasse.Wire

/-- A JSON tree. -/
inductive J
  | null
  | bool (flag : Bool)
  | number (text : String)
  | string (text : String)
  | array (items : List J)
  | object (members : List (String × J))

namespace J

section Objects

/-- The member of a name. -/
def get (members : List (String × J)) (name : String) : Option J :=
  members.lookup name

/-- An insertion replaces the member of its name, or it adds a member. -/
def insert (members : List (String × J)) (name : String) (value : J) : List (String × J) :=
  if members.any (·.1 == name) then
    members.map fun member => if member.1 = name then (name, value) else member
  else members ++ [(name, value)]

/-- The object of some members. A later member replaces an earlier one of its name. -/
def collect (entries : List (String × J)) : List (String × J) :=
  entries.foldl (fun members entry => insert members entry.1 entry.2) []

/-- The members of an object have different names. -/
def Named (members : List (String × J)) : Prop :=
  (members.map Prod.fst).Nodup

theorem insert_fresh {members : List (String × J)} {name : String} (fresh : name ∉ members.map Prod.fst)
    (value : J) : insert members name value = members ++ [(name, value)] := by
  rw [insert, if_neg]
  intro present
  obtain ⟨member, inside, same⟩ := List.any_eq_true.mp present
  exact fresh (List.mem_map.mpr ⟨member, inside, eq_of_beq same⟩)

/-- Members of different names are an object. -/
theorem collect_named {entries : List (String × J)} (named : Named entries) : collect entries = entries := by
  have grows : ∀ (rest before : List (String × J)), Named (before ++ rest) →
      rest.foldl (fun members entry => insert members entry.1 entry.2) before = before ++ rest := by
    intro rest
    induction rest with
    | nil => intro before _; exact (List.append_nil _).symm
    | cons entry rest ih =>
      intro before named
      have fresh : entry.1 ∉ before.map Prod.fst := by
        intro inside
        rw [Named, List.map_append] at named
        exact (List.nodup_append.mp named).2.2 entry.1 inside entry.1 (List.mem_cons_self ..) rfl
      rw [List.foldl_cons, insert_fresh fresh, ih]
      · rw [List.append_assoc, List.singleton_append]
      · rwa [List.append_assoc, List.singleton_append]
  exact grows entries [] named

end Objects

/-- The trees that a tree holds directly. -/
def children : J → List J
  | .array items => items
  | .object members => members.map Prod.snd
  | _ => []

theorem sizeOf_lt_of_mem_children {tree child : J} (inside : child ∈ tree.children) :
    sizeOf child < sizeOf tree := by
  cases tree with
  | array items =>
    have smaller : sizeOf child < sizeOf items := List.sizeOf_lt_of_mem inside
    simp only [array.sizeOf_spec]
    omega
  | object members =>
    obtain ⟨⟨name, value⟩, present, rfl⟩ := List.mem_map.mp inside
    have smaller := List.sizeOf_lt_of_mem present
    simp only [Prod.mk.sizeOf_spec] at smaller
    simp only [object.sizeOf_spec]
    omega
  | _ => cases inside

/-- The induction over trees assumes the statement of each direct child. -/
theorem induct {statement : J → Prop}
    (step : ∀ tree, (∀ child ∈ tree.children, statement child) → statement tree) (tree : J) :
    statement tree := by
  induction size : sizeOf tree using Nat.strong_induction_on generalizing tree with
  | _ bound ih =>
    apply step
    intro child inside
    exact ih _ (size ▸ sizeOf_lt_of_mem_children inside) child rfl

/-- This property holds of a tree and of all trees inside it. -/
inductive Everywhere (property : J → Prop) : J → Prop
  | intro {tree : J} : property tree → (∀ child ∈ tree.children, Everywhere property child) →
      Everywhere property tree

/-- The characters of the text of a number. -/
def numeral (char : Char) : Bool :=
  char.isDigit || ['-', '+', '.', 'e', 'E'].contains char

/-- An object has members of different names, and a number has the text of a number. -/
def ProperHere : J → Prop
  | .object members => Named members
  | .number text => ∀ char ∈ text.toList, numeral char = true
  | _ => True

/-- All objects and numbers inside a tree are proper. -/
def WellFormed (tree : J) : Prop :=
  tree.Everywhere ProperHere

theorem wellFormed_iff {tree : J} :
    tree.WellFormed ↔ tree.ProperHere ∧ ∀ child ∈ tree.children, child.WellFormed :=
  ⟨fun ⟨here, below⟩ => ⟨here, below⟩, fun ⟨here, below⟩ => ⟨here, below⟩⟩

@[simp] theorem wellFormed_bool (flag : Bool) : (bool flag).WellFormed :=
  .intro trivial fun _ inside => absurd inside List.not_mem_nil

@[simp] theorem wellFormed_string (text : String) : (string text).WellFormed :=
  .intro trivial fun _ inside => absurd inside List.not_mem_nil

theorem wellFormed_number {text : String} (numerals : ∀ char ∈ text.toList, numeral char = true) :
    (number text).WellFormed :=
  .intro numerals fun _ inside => absurd inside List.not_mem_nil

@[simp] theorem wellFormed_array {items : List J} :
    (array items).WellFormed ↔ ∀ item ∈ items, item.WellFormed :=
  wellFormed_iff.trans ⟨And.right, fun below => ⟨trivial, below⟩⟩

@[simp] theorem wellFormed_object {members : List (String × J)} :
    (object members).WellFormed ↔ Named members ∧ ∀ member ∈ members, member.2.WellFormed := by
  refine wellFormed_iff.trans (and_congr_right fun _ => ?_)
  constructor
  · intro below member inside
    exact below member.2 (List.mem_map_of_mem inside)
  · intro each child inside
    obtain ⟨member, listed, rfl⟩ := List.mem_map.mp inside
    exact each member listed

end J

end Liasse.Wire
