/-
This file gives parsing expression grammars with the implicit blanks between the parts of a rule, and the
pairs that a run of a rule leaves.
-/

import Mathlib.Tactic.TypeStar

namespace Liasse.Codes

/-- A normal rule skips blanks between its parts. A silent rule leaves no pair of its own. An atomic rule
skips nothing and keeps no pair inside, and a compound rule skips nothing and keeps the pairs inside. -/
inductive RuleKind
  | normal
  | silent
  | atomic
  | compound
deriving DecidableEq

/-- A parsing expression over named rules. -/
inductive Peg (R : Type)
  | any
  | text (word : List Char)
  | char (test : Char → Bool)
  | start
  | finish
  | rule (name : R)
  | seq (first second : Peg R)
  | alt (first second : Peg R)
  | opt (body : Peg R)
  | star (body : Peg R)
  | more (body : Peg R)
  | ahead (body : Peg R)
  | lacks (body : Peg R)

/-- A grammar has a kind and an expression for each rule. Blanks and comments are skipped. -/
structure Grammar (R : Type) where
  kind : R → RuleKind
  body : R → Peg R
  blank : R
  comment : R

/-- A place in a text: the number of characters before it, its column and the characters after it. -/
structure Cursor where
  offset : Nat
  column : Nat
  rest : List Char

/-- A pair has the rule that matched, the column of its start, its text and the pairs inside. -/
inductive Pair (R : Type)
  | node (name : R) (column : Nat) (text : List Char) (inner : List (Pair R))

namespace Pair

variable {R : Type}

def name : Pair R → R
  | node name _ _ _ => name

def column : Pair R → Nat
  | node _ column _ _ => column

def text : Pair R → List Char
  | node _ _ text _ => text

def inner : Pair R → List (Pair R)
  | node _ _ _ inner => inner

end Pair

/-- A match ends at a cursor and leaves pairs. -/
inductive Outcome (R : Type)
  | fail
  | ok (cursor : Cursor) (pairs : List (Pair R))

/-- The treatment of blanks and pairs by the rules around. -/
inductive Atomicity
  | plain
  | compound
  | atomic
deriving DecidableEq

def Cursor.advance (cursor : Cursor) (char : Char) (rest : List Char) : Cursor :=
  ⟨cursor.offset + 1, if char = Char.ofNat 10 then 0 else cursor.column + 1, rest⟩

/-- The cursor behind a word. -/
def Cursor.take : Cursor → List Char → Option Cursor
  | cursor, [] => some cursor
  | ⟨offset, column, first :: rest⟩, char :: word =>
    if first = char then (Cursor.advance ⟨offset, column, first :: rest⟩ first rest).take word else none
  | ⟨_, _, []⟩, _ :: _ => none

namespace Grammar

variable {R : Type} (grammar : Grammar R)

/-- Blanks, with comments between them. -/
def skipped : Peg R :=
  .seq (.star (.rule grammar.blank)) (.star (.seq (.rule grammar.comment) (.star (.rule grammar.blank))))

/-- The atomicity inside a rule. Blanks and comments are atomic. -/
def within [DecidableEq R] (mode : Atomicity) (name : R) : Atomicity :=
  if name = grammar.blank ∨ name = grammar.comment then .atomic
  else
    match grammar.kind name with
    | .normal => mode
    | .silent => mode
    | .atomic => .atomic
    | .compound => .compound

/-- The pairs of a match of a rule between two cursors. -/
def emitted (mode : Atomicity) (name : R) (start finish : Cursor) (pairs : List (Pair R)) : List (Pair R) :=
  match mode, grammar.kind name with
  | .atomic, _ => []
  | _, .silent => pairs
  | _, _ => [.node name start.column (start.rest.take (finish.offset - start.offset)) pairs]

/-- The continuation of a match. -/
def andThen (outcome : Option (Outcome R)) (next : Cursor → List (Pair R) → Option (Outcome R)) :
    Option (Outcome R) :=
  match outcome with
  | some (.ok cursor pairs) => next cursor pairs
  | some .fail => some .fail
  | none => none

/-- The other outcome after a failure. -/
def orElse (outcome other : Option (Outcome R)) : Option (Outcome R) :=
  match outcome with
  | some .fail => other
  | _ => outcome

/-- A match where an expression fails. -/
def negated (cursor : Cursor) : Option (Outcome R) → Option (Outcome R)
  | some .fail => some (.ok cursor [])
  | some (.ok _ _) => some .fail
  | none => none

/-- The run of an expression at a cursor, within a number of nested calls. -/
def run [DecidableEq R] : Nat → Atomicity → Peg R → Cursor → Option (Outcome R)
  | 0, _, _, _ => none
  | fuel + 1, mode, expr, cursor =>
    let skip : Cursor → Option (Outcome R) := fun cursor =>
      if mode = .plain then run fuel .atomic grammar.skipped cursor else some (.ok cursor [])
    match expr with
    | .any =>
      match cursor.rest with
      | [] => some .fail
      | char :: rest => some (.ok (cursor.advance char rest) [])
    | .text word =>
      match cursor.take word with
      | some next => some (.ok next [])
      | none => some .fail
    | .char test =>
      match cursor.rest with
      | [] => some .fail
      | char :: rest => if test char then some (.ok (cursor.advance char rest) []) else some .fail
    | .start => if cursor.offset = 0 then some (.ok cursor []) else some .fail
    | .finish =>
      match cursor.rest with
      | [] => some (.ok cursor [])
      | _ :: _ => some .fail
    | .rule name =>
      andThen (run fuel (grammar.within mode name) (grammar.body name) cursor) fun next pairs =>
        some (.ok next (grammar.emitted mode name cursor next pairs))
    | .seq first second =>
      andThen (run fuel mode first cursor) fun next pairs =>
        andThen (skip next) fun next _ =>
          andThen (run fuel mode second next) fun next others => some (.ok next (pairs ++ others))
    | .alt first second => orElse (run fuel mode first cursor) (run fuel mode second cursor)
    | .opt body => orElse (run fuel mode body cursor) (some (.ok cursor []))
    | .star body =>
      orElse
        (andThen (run fuel mode body cursor) fun next pairs =>
          andThen (run fuel mode (.more body) next) fun next others => some (.ok next (pairs ++ others)))
        (some (.ok cursor []))
    | .more body =>
      orElse
        (andThen (skip cursor) fun next _ =>
          andThen (run fuel mode body next) fun next pairs =>
            andThen (run fuel mode (.more body) next) fun next others =>
              some (.ok next (pairs ++ others)))
        (some (.ok cursor []))
    | .ahead body => andThen (run fuel mode body cursor) fun _ _ => some (.ok cursor [])
    | .lacks body => negated cursor (run fuel mode body cursor)

section Fuel

variable {grammar}

/-- A run with more calls has the outcome of the run, if there is one. -/
def Extends (less more : Option (Outcome R)) : Prop :=
  ∀ outcome, less = some outcome → more = some outcome

theorem Extends.refl (outcome : Option (Outcome R)) : Extends outcome outcome :=
  fun _ same => same

theorem Extends.andThen {less more : Option (Outcome R)}
    {next further : Cursor → List (Pair R) → Option (Outcome R)} (first : Extends less more)
    (second : ∀ cursor pairs, Extends (next cursor pairs) (further cursor pairs)) :
    Extends (Grammar.andThen less next) (Grammar.andThen more further) := by
  intro outcome reached
  cases less with
  | none => cases reached
  | some found =>
    rw [first found rfl]
    cases found with
    | fail => exact reached
    | ok cursor pairs => exact second cursor pairs outcome reached

theorem Extends.orElse {less more other further : Option (Outcome R)} (first : Extends less more)
    (second : Extends other further) : Extends (orElse less other) (Grammar.orElse more further) := by
  intro outcome reached
  cases less with
  | none => cases reached
  | some found =>
    rw [first found rfl]
    cases found with
    | fail => exact second outcome reached
    | ok cursor pairs => exact reached

theorem Extends.negated {less more : Option (Outcome R)} (cursor : Cursor) (first : Extends less more) :
    Extends (negated cursor less) (Grammar.negated cursor more) := by
  intro outcome reached
  cases less with
  | none => cases reached
  | some found =>
    rw [first found rfl]
    exact reached

variable [DecidableEq R]

end Fuel

end Grammar

end Liasse.Codes
