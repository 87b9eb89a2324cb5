/-
This file models the escapes of an identity text and the text of a key with some parts.
-/

import Liasse.Codes.Escaping
import Liasse.Modules.Routing
import Liasse.Wire.Scalars

namespace Liasse.Ident

open Liasse.Codes Liasse.Wire
open Liasse.Modules (IdentError flatten flattenRef flattenFields flattenField flattenAll component fromScalar keyText
  joinComponents)

/-- Which reserved characters a context escapes. -/
structure Codec where
  escapeColon : Bool

namespace Codec

/-- The codec of a component of a key. -/
def key : Codec where
  escapeColon := true

/-- The codec of a name in a path. -/
def name : Codec where
  escapeColon := false

variable (codec : Codec)

/-- The escape of a character. -/
def encodeChar : Char → List Char
  | '%' => ['%', '2', '5']
  | '/' => ['%', '2', 'F']
  | ':' => if codec.escapeColon then ['%', '3', 'A'] else [':']
  | other => [other]

/-- The escaped text. -/
def encode (text : String) : String :=
  .ofList (text.toList.flatMap codec.encodeChar)

/-- The character that the two characters after a percent sign stand for. -/
def unescape : Char → Char → Option Char
  | '2', '5' => some '%'
  | '2', 'F' => some '/'
  | '3', 'A' => if codec.escapeColon then some ':' else none
  | _, _ => none

/-- The characters that an escaped text stands for, unless an escape is not one of the codec. -/
def decodeChars : List Char → Option (List Char)
  | [] => some []
  | char :: rest =>
    if char ≠ '%' then (decodeChars rest).map (List.cons char)
    else
      match rest with
      | first :: second :: later => (codec.unescape first second).bind fun char =>
        (decodeChars later).map (List.cons char)
      | _ => none

/-- The text that an escaped text stands for. -/
def decode (text : String) : Except IdentError String :=
  match codec.decodeChars text.toList with
  | some chars => .ok (.ofList chars)
  | none => .error (.malformedEscape text)

/-- The check that each escape of a text is one of the codec. -/
def validate (text : String) : Except IdentError Unit :=
  (codec.decode text).map fun _ => ⟨⟩

/-- The two characters of an escape. -/
def pair (char : Char) : Option (Char × Char) :=
  if char = '%' then some ('2', '5')
  else if char = '/' then some ('2', 'F')
  else if char = ':' ∧ codec.escapeColon = true then some ('3', 'A')
  else none

theorem pair_eq_some_iff {char first second : Char} :
    codec.pair char = some (first, second) ↔ codec.unescape first second = some char := by
  unfold pair unescape
  grind

theorem pair_plain {char first second : Char} (named : codec.pair char = some (first, second)) :
    codec.pair first = none ∧ codec.pair second = none := by
  unfold pair at named ⊢
  grind

/-- The codec as a code of escapes. -/
def escaping : Escaping Char where
  mark := '%'
  pair := codec.pair
  letter := codec.unescape
  letter_iff := codec.pair_eq_some_iff.symm
  marked := by simp [pair]
  plain := codec.pair_plain

theorem encodeChar_eq (char : Char) : codec.encodeChar char = codec.escaping.encodeLetter char := by
  unfold encodeChar Escaping.encodeLetter escaping pair
  grind

theorem decodeChars_eq (chars : List Char) : codec.decodeChars chars = codec.escaping.decode chars := by
  fun_induction decodeChars codec chars with
  | case1 => rfl
  | case2 char rest other ih => rw [Escaping.decode_plain other, ih]
  | case3 char percent first second later ih =>
    have marked : ¬ char ≠ codec.escaping.mark := percent
    rw [Escaping.decode, if_neg marked, ih]
    rfl
  | case4 char rest percent short =>
    obtain rfl := not_not.mp percent
    have unnamed : ¬ codec.escaping.Named rest := by
      rintro ⟨first, second, later, -, whole, -⟩
      exact short first second later whole
    exact (Escaping.decode_unnamed unnamed).symm

variable {codec}

theorem toList_encode (text : String) : (codec.encode text).toList = codec.escaping.encode text.toList := by
  rw [encode, String.toList_ofList, Escaping.encode]
  congr 1
  exact funext codec.encodeChar_eq

/-- A codec decodes a text exactly when the code of escapes reads its characters. -/
theorem decode_ok_iff {text raw : String} :
    codec.decode text = .ok raw ↔ codec.escaping.decode text.toList = some raw.toList := by
  rw [decode, decodeChars_eq]
  cases codec.escaping.decode text.toList with
  | none => exact iff_of_false (by rintro ⟨⟩) (by rintro ⟨⟩)
  | some chars => rw [Except.ok.injEq, Option.some.injEq, ← String.toList_inj, String.toList_ofList]

/-- A codec decodes each of its encodings back. -/
theorem decode_encode (text : String) : codec.decode (codec.encode text) = .ok text := by
  rw [decode_ok_iff, toList_encode, Escaping.decode_encode]

/-- Some percent sign of a text does not start an escape of the codec. -/
def Malformed (codec : Codec) (text : String) : Prop :=
  codec.escaping.Malformed text.toList

/-- A text has no separator that the codec escapes. -/
def Clean (codec : Codec) (text : String) : Prop :=
  '/' ∉ text.toList ∧ (codec.escapeColon = true → ':' ∉ text.toList)

theorem exists_decode_iff {text : String} : (∃ raw, codec.decode text = .ok raw) ↔ ¬ codec.Malformed text := by
  rw [Malformed, ← Escaping.decode_eq_none_iff, ← ne_eq, Option.ne_none_iff_exists']
  constructor
  · rintro ⟨raw, read⟩
    exact ⟨raw.toList, decode_ok_iff.mp read⟩
  · rintro ⟨chars, read⟩
    exact ⟨.ofList chars, decode_ok_iff.mpr (by rw [read, String.toList_ofList])⟩

theorem clean_iff {text : String} : codec.escaping.Clean text.toList ↔ codec.Clean text := by
  have each : ∀ char, (char = codec.escaping.mark ∨ codec.escaping.pair char = none) ↔
      char ≠ '/' ∧ (codec.escapeColon = true → char ≠ ':') := by
    intro char
    change char = '%' ∨ codec.pair char = none ↔ _
    unfold pair
    grind
  rw [Escaping.Clean, Clean]
  simp only [each]
  grind

/-- The codec writes a text exactly when each of its escapes is one of the codec and it has no separator. -/
theorem exists_encode_iff {text : String} :
    (∃ raw, codec.encode raw = text) ↔ ¬ codec.Malformed text ∧ codec.Clean text := by
  rw [Malformed, ← clean_iff, ← Escaping.exists_encode_iff]
  constructor
  · rintro ⟨raw, rfl⟩
    exact ⟨raw.toList, (toList_encode raw).symm⟩
  · rintro ⟨chars, written⟩
    refine ⟨.ofList chars, ?_⟩
    rw [← String.toList_inj, toList_encode, String.toList_ofList, written]

/-- The codec accepts a text and writes it, or neither, exactly when the text has no separator or a malformed escape. -/
theorem accepts_iff {text : String} :
    ((∃ raw, codec.decode text = .ok raw) ↔ ∃ raw, codec.encode raw = text) ↔
      codec.Clean text ∨ codec.Malformed text := by
  rw [exists_decode_iff, exists_encode_iff]
  tauto

/-- An encoding has no separator that the codec escapes. -/
theorem clean_encode (text : String) : codec.Clean (codec.encode text) :=
  (exists_encode_iff.mp ⟨text, rfl⟩).2

end Codec

section Texts

/-- The escaped text of a key. Each of its escapes is one of the codec of keys. -/
structure KeyText where
  text : String
  valid : Codec.key.validate text = .ok ⟨⟩

namespace KeyText

theorem validate_ok_iff {codec : Codec} {text : String} :
    codec.validate text = .ok ⟨⟩ ↔ ∃ raw, codec.decode text = .ok raw := by
  rw [Codec.validate, map_ok]
  exact exists_congr fun _ => and_iff_left rfl

/-- A text whose escapes are those of the codec. -/
def parse (encoded : String) : Except IdentError KeyText :=
  match checked : Codec.key.validate encoded with
  | .ok ⟨⟩ => .ok ⟨encoded, checked⟩
  | .error fault => .error fault

theorem parse_ok_iff {encoded : String} {key : KeyText} : parse encoded = .ok key ↔ key.text = encoded := by
  obtain ⟨text, valid⟩ := key
  unfold parse
  split
  · next checked =>
      rw [Except.ok.injEq, KeyText.mk.injEq]
      exact eq_comm
  · next fault checked =>
      refine iff_of_false (by rintro ⟨⟩) ?_
      rintro rfl
      rw [valid] at checked
      cases checked

/-- The components of a key are the decoded parts of its text. -/
def components (key : KeyText) : Except IdentError (List String) :=
  (key.text.toList.splitOn ':').mapM fun part => Codec.key.decode (.ofList part)

/-- The joined text of some escaped components. -/
def joined (first : String) (rest : List String) : String :=
  rest.foldl (fun joined component => joined ++ ":" ++ Codec.key.encode component) (Codec.key.encode first)

theorem toList_joined (first : String) (rest : List String) :
    (joined first rest).toList =
      [':'].intercalate ((first :: rest).map fun component => (Codec.key.encode component).toList) := by
  have folded : ∀ start : String, (rest.foldl (fun joined component =>
      joined ++ ":" ++ Codec.key.encode component) start).toList =
        [':'].intercalate (start.toList :: rest.map fun component => (Codec.key.encode component).toList) := by
    induction rest with
    | nil => simp
    | cons component rest ih =>
      intro start
      rw [List.foldl_cons, ih, String.toList_append, String.toList_append]
      cases rest with
      | nil => simp
      | cons => simp
  exact folded _

/-- The parts of a joined text are the escaped components. -/
theorem splitOn_joined (first : String) (rest : List String) :
    (joined first rest).toList.splitOn ':' =
      (first :: rest).map fun component => (Codec.key.encode component).toList := by
  rw [toList_joined, List.splitOn_intercalate]
  · intro part inside
    obtain ⟨component, -, rfl⟩ := List.mem_map.mp inside
    exact (Codec.clean_encode component).2 rfl
  · exact List.cons_ne_nil _ _

theorem joined_valid (first : String) (rest : List String) : Codec.key.validate (joined first rest) = .ok ⟨⟩ := by
  rw [validate_ok_iff, Codec.exists_decode_iff, Codec.Malformed, ← Escaping.decode_eq_none_iff, toList_joined]
  have read : ∀ parts : List String, ∃ raw, Codec.key.escaping.decode
      ([':'].intercalate (parts.map fun component => (Codec.key.encode component).toList)) = some raw := by
    intro parts
    induction parts with
    | nil => exact ⟨[], rfl⟩
    | cons component parts ih =>
      obtain ⟨raw, later⟩ := ih
      cases parts with
      | nil => exact ⟨component.toList, by simp [Codec.toList_encode, Escaping.decode_encode]⟩
      | cons next parts =>
        refine ⟨component.toList ++ ':' :: raw, ?_⟩
        have other : ':' ≠ Codec.key.escaping.mark := by decide
        rw [List.map_cons] at later
        rw [List.map_cons, List.map_cons, List.intercalate_cons_cons, Codec.toList_encode,
          List.append_assoc, Escaping.decode_encode_append, List.singleton_append, Escaping.decode_plain other,
          later]
        rfl
  obtain ⟨raw, answered⟩ := read (first :: rest)
  rw [answered]
  exact Option.some_ne_none raw

/-- The text of a key with a first component and some others. -/
def new (first : String) (rest : List String) : KeyText :=
  ⟨joined first rest, joined_valid first rest⟩

/-- The components of a key are those that it is made of. -/
theorem components_new (first : String) (rest : List String) : (new first rest).components = .ok (first :: rest) := by
  rw [components, new, splitOn_joined, mapM_ok, List.map_map]
  refine List.map_congr_left fun component _ => ?_
  rw [Function.comp_apply, String.ofList_toList, Codec.decode_encode]

variable (libraries : Libraries)

/-- The text of a key with some values. -/
def fromKeyValues (values : List Value) : Except IdentError KeyText := do
  match ← flattenAll libraries values with
  | [] => throw .emptyKey
  | first :: rest => pure (new first rest)

/-- The text of a key with some values is that of their components. -/
theorem fromKeyValues_ok {values : List Value} {key : KeyText} :
    fromKeyValues libraries values = .ok key ↔
      ∃ first rest, flattenAll libraries values = .ok (first :: rest) ∧ key = new first rest := by
  rw [fromKeyValues, bind_ok]
  constructor
  · rintro ⟨parts, flat, made⟩
    cases parts with
    | nil => cases made
    | cons first rest => exact ⟨first, rest, flat, (Except.ok.inj made).symm⟩
  · rintro ⟨first, rest, flat, rfl⟩
    exact ⟨first :: rest, flat, rfl⟩

end KeyText

end Texts

end Liasse.Ident
