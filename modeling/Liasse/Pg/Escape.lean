/-
This file models the escape that keeps the stored texts free of the NUL character. It proves that the escape
can be undone on each JSON tree.
-/

import Liasse.Pg.Nodes
import Liasse.Wire.Tree

namespace Liasse.Pg

open Wire

section Texts

/-- The escape of one character. -/
def escapeChar (char : Char) : List Char :=
  if char = reverseSolidus then [reverseSolidus, reverseSolidus]
  else if char = nul then [reverseSolidus, '0']
  else [char]

/-- The escape of a text. -/
def escape (text : String) : String :=
  .ofList (text.toList.flatMap escapeChar)

theorem unescapeChars_cons {char : Char} (plain : char ≠ reverseSolidus) (rest : List Char) :
    unescapeChars (char :: rest) = char :: unescapeChars rest := by
  cases rest with
  | nil => rfl
  | cons next rest => rw [unescapeChars, if_neg plain]

theorem unescapeChars_escapeChar (char : Char) (rest : List Char) :
    unescapeChars (escapeChar char ++ rest) = char :: unescapeChars rest := by
  unfold escapeChar
  split
  · next same =>
      rw [same]
      exact (if_pos rfl).trans (if_pos rfl)
  · next plain =>
      split
      · next same =>
          rw [same]
          exact (if_pos rfl).trans ((if_neg (by decide)).trans (if_pos rfl))
      · exact unescapeChars_cons plain rest

theorem unescape_escape (text : String) : unescape (escape text) = text := by
  have whole : ∀ chars : List Char, unescapeChars (chars.flatMap escapeChar) = chars := by
    intro chars
    induction chars with
    | nil => rfl
    | cons char chars ih =>
      rw [List.flatMap_cons, unescapeChars_escapeChar, ih]
  rw [unescape, escape, String.toList_ofList, whole, String.ofList_toList]

theorem escape_injective : Function.Injective escape :=
  Function.LeftInverse.injective unescape_escape

/-- An escaped text has no NUL. -/
theorem nul_notMem_escape (text : String) : nul ∉ (escape text).toList := by
  rw [escape, String.toList_ofList, List.mem_flatMap]
  rintro ⟨char, _, inside⟩
  unfold escapeChar at inside
  split at inside
  · exact absurd inside (by decide)
  · split at inside
    · exact absurd inside (by decide)
    · next other => exact other (List.mem_singleton.mp inside).symm

end Texts

section Trees

mutual

/-- A function of texts applies to each string and to each name of a member. -/
def mapStrings (change : String → String) : J → J
  | .null => .null
  | .bool flag => .bool flag
  | .number text => .number text
  | .string text => .string (change text)
  | .array items => .array (mapItems change items)
  | .object members => .object (J.collect (mapMembers change members))
termination_by structural tree => tree

def mapItems (change : String → String) : List J → List J
  | [] => []
  | item :: rest => mapStrings change item :: mapItems change rest
termination_by structural items => items

def mapMembers (change : String → String) : List (String × J) → List (String × J)
  | [] => []
  | member :: rest => mapMember change member :: mapMembers change rest
termination_by structural members => members

def mapMember (change : String → String) : String × J → String × J
  | (name, value) => (change name, mapStrings change value)
termination_by structural member => member

end

/-- The tree as the database stores it. -/
def toJsonb (tree : J) : J :=
  mapStrings escape tree

/-- The tree that the stored tree stands for. -/
def fromJsonb (tree : J) : J :=
  mapStrings unescape tree

variable {change back : String → String}

@[simp] theorem mapItems_eq (items : List J) : mapItems change items = items.map (mapStrings change) := by
  induction items with
  | nil => rfl
  | cons item rest ih => rw [mapItems, ih, List.map_cons]

@[simp] theorem mapMembers_eq (members : List (String × J)) :
    mapMembers change members = members.map (mapMember change) := by
  induction members with
  | nil => rfl
  | cons member rest ih => rw [mapMembers, ih, List.map_cons]

/-- Different names stay different under an injective change. -/
theorem named_map (injective : Function.Injective change) {members : List (String × J)}
    (named : J.Named members) : J.Named (members.map (mapMember change)) := by
  have names : (members.map (mapMember change)).map Prod.fst = (members.map Prod.fst).map change := by
    rw [List.map_map, List.map_map]
    refine List.map_congr_left fun member _ => ?_
    obtain ⟨name, value⟩ := member
    rfl
  rw [J.Named, names]
  exact named.map injective

/-- A change that can be undone on texts can be undone on trees. -/
theorem mapStrings_back (undo : Function.LeftInverse back change) {tree : J} (proper : tree.WellFormed) :
    mapStrings back (mapStrings change tree) = tree := by
  induction tree using J.induct with
  | step tree ih =>
    obtain ⟨here, below⟩ := J.wellFormed_iff.mp proper
    have each : ∀ child ∈ tree.children, mapStrings back (mapStrings change child) = child :=
      fun child inside => ih child inside (below child inside)
    cases tree with
    | null => rfl
    | bool flag => rfl
    | number text => rfl
    | string text => rw [mapStrings, mapStrings, undo text]
    | array items =>
      rw [mapStrings, mapStrings, mapItems_eq, mapItems_eq, List.map_map]
      exact congrArg J.array ((List.map_congr_left each).trans (List.map_id items))
    | object members =>
      have whole : (members.map (mapMember change)).map (mapMember back) = members := by
        rw [List.map_map]
        refine (List.map_congr_left fun member inside => ?_).trans (List.map_id members)
        obtain ⟨name, value⟩ := member
        change (back (change name), mapStrings back (mapStrings change value)) = (name, value)
        rw [undo name, each value (List.mem_map_of_mem inside)]
      rw [mapStrings, mapMembers_eq, J.collect_named (named_map undo.injective here), mapStrings,
        mapMembers_eq, whole, J.collect_named here]

/-- The stored tree gives the tree back. -/
theorem fromJsonb_toJsonb {tree : J} (proper : tree.WellFormed) : fromJsonb (toJsonb tree) = tree :=
  mapStrings_back unescape_escape proper

/-- A tree has no NUL in a text here. -/
def NulFreeHere : J → Prop
  | .string text => nul ∉ text.toList
  | .number text => nul ∉ text.toList
  | .object members => ∀ member ∈ members, nul ∉ member.1.toList
  | _ => True

/-- No text of a tree has a NUL. -/
def NulFree (tree : J) : Prop :=
  tree.Everywhere NulFreeHere

/-- The stored tree has no NUL. -/
theorem toJsonb_nulFree {tree : J} (proper : tree.WellFormed) : NulFree (toJsonb tree) := by
  induction tree using J.induct with
  | step tree ih =>
    obtain ⟨here, below⟩ := J.wellFormed_iff.mp proper
    have each : ∀ child ∈ tree.children, NulFree (toJsonb child) :=
      fun child inside => ih child inside (below child inside)
    cases tree with
    | null => exact .intro trivial fun _ inside => absurd inside List.not_mem_nil
    | bool flag => exact .intro trivial fun _ inside => absurd inside List.not_mem_nil
    | number text =>
      refine .intro (fun inside => ?_) fun _ inside => absurd inside List.not_mem_nil
      exact absurd (here nul inside) (by decide)
    | string text =>
      exact .intro (nul_notMem_escape text) fun _ inside => absurd inside List.not_mem_nil
    | array items =>
      refine .intro trivial fun child inside => ?_
      rw [toJsonb, mapStrings, mapItems_eq] at inside
      obtain ⟨item, present, rfl⟩ := List.mem_map.mp inside
      exact each item present
    | object members =>
      have stored : toJsonb (.object members) = .object (members.map (mapMember escape)) := by
        rw [toJsonb, mapStrings, mapMembers_eq, J.collect_named (named_map escape_injective here)]
      rw [stored]
      refine .intro (fun member inside => ?_) fun child inside => ?_
      · obtain ⟨⟨name, value⟩, _, rfl⟩ := List.mem_map.mp inside
        exact nul_notMem_escape name
      · obtain ⟨member, listed, rfl⟩ := List.mem_map.mp inside
        obtain ⟨⟨name, value⟩, present, rfl⟩ := List.mem_map.mp listed
        exact each value (List.mem_map_of_mem present)

end Trees

end Liasse.Pg
