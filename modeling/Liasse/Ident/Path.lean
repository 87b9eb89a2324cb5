/-
This file models the display path of a row. It proves what the texts of keys and of paths identify: a path reads back
exactly when no key in it has the separator of paths.
-/

import Liasse.Codes.Lines
import Liasse.Ident.Tuples

namespace Liasse.Ident

open Liasse.Codes Liasse.Wire Liasse.Runtime
open Liasse.Modules (IdentError component flatten flattenAll fromScalar)

section Paths

/-- A segment of a path is the name of a declaration or a key. -/
inductive PathSegment
  | name (text : String)
  | key (key : KeyText)

/-- The escaped text of a segment. -/
def PathSegment.encode : PathSegment → String
  | .name text => Codec.name.encode text
  | .key held => held.text

/-- A segment of a parsed path. The schema of the caller says whether it is a name or a key. -/
structure RawSegment where
  encoded : String

namespace RawSegment

/-- The segment as a name. -/
def asName (segment : RawSegment) : Except IdentError String :=
  Codec.name.decode segment.encoded

/-- The segment as a key. -/
def asKey (segment : RawSegment) : Except IdentError KeyText :=
  KeyText.parse segment.encoded

end RawSegment

/-- A display path. -/
structure CanonicalPath where
  segments : List PathSegment

namespace CanonicalPath

/-- The text of a path has a separator in front of each segment. -/
def toDisplayString (path : CanonicalPath) : String :=
  let out := path.segments.foldl (fun out segment => out.push '/' ++ segment.encode) ""
  if out = "" then "/" else out

/-- A segment of the text of a path is not empty and has the escapes of a key. -/
def parseSegment (text : String) (segment : List Char) : Except IdentError RawSegment :=
  if segment = [] then .error (.emptyPathSegment text)
  else (Codec.key.validate (.ofList segment)).map fun _ => ⟨.ofList segment⟩

/-- The segments of the text of a path. -/
def parse (text : String) : Except IdentError (List RawSegment) :=
  match text.toList with
  | '/' :: body => if body = [] then .ok [] else (body.splitOn '/').mapM (parseSegment text)
  | _ => .error (.pathMissingRoot text)

/-- A parsed segment gives the segment of a path back. -/
def Resolves : PathSegment → RawSegment → Prop
  | .name name, raw => raw.asName = .ok name
  | .key key, raw => raw.asKey = .ok key

/-- The parse of the text of a path gives its segments back. -/
def Recovers (path : CanonicalPath) : Prop :=
  ∃ raws, parse path.toDisplayString = .ok raws ∧ List.Forall₂ Resolves path.segments raws

theorem toList_toDisplayString (path : CanonicalPath) :
    path.toDisplayString.toList =
      '/' :: ['/'].intercalate (path.segments.map fun segment => segment.encode.toList) := by
  obtain ⟨segments⟩ := path
  have folded : ∀ start : String,
      (segments.foldl (fun out segment => out.push '/' ++ segment.encode) start).toList =
        start.toList ++ segments.flatMap fun segment => '/' :: segment.encode.toList := by
    induction segments with
    | nil => simp
    | cons segment segments ih =>
      intro start
      rw [List.foldl_cons, ih, String.toList_append, String.toList_push, List.flatMap_cons]
      simp
  have joined : ∀ (segment : PathSegment) (rest : List PathSegment),
      (segment :: rest).flatMap (fun segment => '/' :: segment.encode.toList) =
        '/' :: ['/'].intercalate ((segment :: rest).map fun segment => segment.encode.toList) := by
    intro segment rest
    induction rest generalizing segment with
    | nil => simp
    | cons next rest ih =>
      rw [List.flatMap_cons, ih, List.map_cons, List.map_cons, List.map_cons,
        List.intercalate_cons_cons]
      simp
  have whole := folded ""
  unfold toDisplayString
  dsimp only
  cases segments with
  | nil => rfl
  | cons segment rest =>
    rw [joined] at whole
    split
    · next empty =>
        rw [empty] at whole
        cases whole
    · exact whole

/-- An encoding of a name has the escapes of a key. -/
theorem valid_of_name {text raw : String} (read : Codec.name.decode text = .ok raw) :
    Codec.key.validate text = .ok ⟨⟩ := by
  rw [KeyText.validate_ok_iff, Codec.exists_decode_iff]
  have formed := Codec.exists_decode_iff.mp ⟨raw, read⟩
  rintro ⟨before, after, whole, unnamed⟩
  refine formed ⟨before, after, whole, ?_⟩
  rintro ⟨first, second, later, reserved, rest, named⟩
  refine unnamed ⟨first, second, later, reserved, rest, ?_⟩
  change Codec.name.pair reserved = _ at named
  change Codec.key.pair reserved = _
  unfold Codec.pair at named ⊢
  simp only [Codec.name, Bool.false_eq_true, and_false, ↓reduceIte] at named
  grind

/-- The text of a segment has the escapes of a key. -/
theorem valid_encode (segment : PathSegment) : Codec.key.validate segment.encode = .ok ⟨⟩ := by
  cases segment with
  | name name => exact valid_of_name (Codec.decode_encode name)
  | key key => exact key.valid

/-- The text of a segment gives the segment back. -/
theorem resolves_encode (segment : PathSegment) : Resolves segment ⟨segment.encode⟩ := by
  cases segment with
  | name name => exact Codec.decode_encode name
  | key key => exact KeyText.parse_ok_iff.mpr rfl

/-- The parse of the text of a path whose segments are not empty and have no separator gives each segment. -/
theorem parse_toDisplayString {path : CanonicalPath} (filled : ∀ segment ∈ path.segments, segment.encode ≠ "")
    (plain : ∀ segment ∈ path.segments, '/' ∉ segment.encode.toList) :
    parse path.toDisplayString = .ok (path.segments.map fun segment => ⟨segment.encode⟩) := by
  have text := toList_toDisplayString path
  obtain ⟨segments⟩ := path
  dsimp only at filled plain text ⊢
  unfold parse
  rw [text]
  cases segments with
  | nil => rfl
  | cons segment rest =>
    have parts : ∀ part ∈ (segment :: rest).map (fun segment => segment.encode.toList), '/' ∉ part := by
      intro part inside
      obtain ⟨other, listed, rfl⟩ := List.mem_map.mp inside
      exact plain other listed
    have some : ['/'].intercalate ((segment :: rest).map fun segment => segment.encode.toList) ≠ [] := by
      have here : segment.encode.toList ≠ [] := fun empty =>
        filled segment List.mem_cons_self (String.toList_eq_nil_iff.mp empty)
      cases rest with
      | nil => simpa using here
      | cons => simp
    refine (if_neg some).trans ?_
    rw [List.splitOn_intercalate _ parts (List.cons_ne_nil _ _), mapM_ok, List.map_map, List.map_map]
    refine List.map_congr_left fun other listed => ?_
    have here : other.encode.toList ≠ [] := fun empty =>
      filled other listed (String.toList_eq_nil_iff.mp empty)
    rw [Function.comp_apply, Function.comp_apply, parseSegment, if_neg here, String.ofList_toList, valid_encode]
    rfl

/-- A parsed segment has no separator. -/
theorem plain_of_parse {text : String} {raws : List RawSegment} (parsed : parse text = .ok raws) {raw : RawSegment}
    (listed : raw ∈ raws) : '/' ∉ raw.encoded.toList := by
  unfold parse at parsed
  split at parsed
  · next body started =>
      split at parsed
      · obtain rfl := Except.ok.inj parsed
        cases listed
      · obtain ⟨segment, inside, made⟩ := (mem_of_mapM parsed).mp listed
        rw [parseSegment] at made
        split at made
        · cases made
        · obtain ⟨_, -, rfl⟩ := map_ok.mp made
          rw [String.toList_ofList]
          exact fun separator => (mem_of_mem_splitOn inside separator).2 rfl
  · cases parsed

/-- A path with segments that are not empty reads back exactly when no key in it has the separator of paths. -/
theorem recovers_iff {path : CanonicalPath} (filled : ∀ segment ∈ path.segments, segment.encode ≠ "") :
    path.Recovers ↔ ∀ key, .key key ∈ path.segments → '/' ∉ key.text.toList := by
  constructor
  · rintro ⟨raws, parsed, resolved⟩ key listed
    obtain ⟨raw, present, resolves⟩ := exists_related resolved listed
    have same : key.text = raw.encoded := KeyText.parse_ok_iff.mp resolves
    rw [same]
    exact plain_of_parse parsed present
  · intro plain
    refine ⟨_, parse_toDisplayString filled fun segment listed => ?_, ?_⟩
    · cases segment with
      | name name => exact (Codec.clean_encode name).1
      | key key => exact plain key listed
    · rw [List.forall₂_map_right_iff]
      exact List.forall₂_same.mpr fun segment _ => resolves_encode segment

end CanonicalPath

end Paths

section Identities

variable {libraries : Libraries}

/-- The texts of two keys of one type are equal exactly when the keys are. -/
theorem fromKeyValues_eq_iff (documented : libraries.Documented) {types : List FieldType} {first second : List Value}
    {left right : KeyText} (leftKeys : List.Forall₂ KeyOf types first) (rightKeys : List.Forall₂ KeyOf types second)
    (leftMade : KeyText.fromKeyValues libraries first = .ok left)
    (rightMade : KeyText.fromKeyValues libraries second = .ok right) :
    left = right ↔ first.compareLex Value.cmp second = .eq := by
  obtain ⟨one, rest, leftFlat, rfl⟩ := (KeyText.fromKeyValues_ok libraries).mp leftMade
  obtain ⟨other, others, rightFlat, rfl⟩ := (KeyText.fromKeyValues_ok libraries).mp rightMade
  have agree := agree_all leftKeys rightKeys (fun _ _ => agree_of_keyOf documented) leftFlat rightFlat
  rw [← agree.2]
  constructor
  · intro same
    have parts := KeyText.components_new one rest
    rw [same, KeyText.components_new] at parts
    exact (Except.ok.inj parts).symm
  · intro same
    obtain ⟨rfl, rfl⟩ := List.cons.inj same
    rfl

/-- The texts of keys of one type are equal exactly when the keys are, and give the components back. A path reads back
exactly when no key in it has the separator of paths. A codec decodes its encodings, and accepts a text exactly when it
writes the text, unless the text has a separator and no malformed escape. -/
theorem identity_texts (documented : libraries.Documented) :
    (∀ types first second left right, List.Forall₂ KeyOf types first → List.Forall₂ KeyOf types second →
      KeyText.fromKeyValues libraries first = .ok left → KeyText.fromKeyValues libraries second = .ok right →
        (left = right ↔ first.compareLex Value.cmp second = .eq)) ∧
      (∀ values parts key, flattenAll libraries values = .ok parts →
        KeyText.fromKeyValues libraries values = .ok key →
          KeyText.parse key.text = .ok key ∧ key.components = .ok parts) ∧
        (∀ path : CanonicalPath, (∀ segment ∈ path.segments, segment.encode ≠ "") →
          (path.Recovers ↔ ∀ key, .key key ∈ path.segments → '/' ∉ key.text.toList)) ∧
          ∀ (codec : Codec) (text : String), codec.decode (codec.encode text) = .ok text ∧
            (((∃ raw, codec.decode text = .ok raw) ↔ ∃ raw, codec.encode raw = text) ↔
              codec.Clean text ∨ codec.Malformed text) := by
  refine ⟨fun _ _ _ _ _ => fromKeyValues_eq_iff documented, ?_, fun _ => CanonicalPath.recovers_iff,
    fun codec text => ⟨Codec.decode_encode text, Codec.accepts_iff⟩⟩
  intro values parts key flat made
  obtain ⟨first, rest, known, rfl⟩ := (KeyText.fromKeyValues_ok libraries).mp made
  obtain rfl := Except.ok.inj (flat.symm.trans known)
  exact ⟨KeyText.parse_ok_iff.mpr rfl, KeyText.components_new first rest⟩

/-- The key text that is read from a name with the separator of paths. -/
def slashed : KeyText where
  text := "a/b"
  valid := KeyText.validate_ok_iff.mpr ⟨"a/b", Codec.decode_ok_iff.mpr (by decide)⟩

/-- Two keys of a number and a text, and the path of a module with a row of the first key. -/
theorem identity_texts_sample :
    KeyText.new (integerText 7) ["a/b:c%"] ≠ KeyText.new (integerText 7) ["a/b"] ∧
      (KeyText.new (integerText 7) ["a/b:c%"]).components = .ok [integerText 7, "a/b:c%"] ∧
        (CanonicalPath.mk [.name "a:b", .key (KeyText.new (integerText 7) ["a/b:c%"])]).Recovers ∧
          ∃ raw, Codec.name.encode raw = "a:b" := by
  obtain ⟨alike, back, paths, codecs⟩ := identity_texts Sample.documented
  have keys : ∀ text, List.Forall₂ KeyOf [.int, .text] [.int 7, .text text] := fun text =>
    .cons (.int 7) (.cons (.text text) .nil)
  have flat : ∀ text, text ≠ "" →
      flattenAll Sample.libraries [.int 7, .text text] = .ok [integerText 7, text] := by
    intro text filled
    have seven : integerText 7 ≠ "" := by decide
    simp only [flattenAll, flatten, component, fromScalar, ok_bind, seven, filled, ↓reduceIte]
    rfl
  have made : ∀ text, text ≠ "" →
      KeyText.fromKeyValues Sample.libraries [.int 7, .text text] = .ok (KeyText.new (integerText 7) [text]) :=
    fun text filled => (KeyText.fromKeyValues_ok _).mpr ⟨_, _, flat text filled, rfl⟩
  have first := made "a/b:c%" (by decide)
  have second := made "a/b" (by decide)
  refine ⟨?_, (back _ _ _ (flat _ (by decide)) first).2, (paths _ ?_).mpr ?_, ?_⟩
  · exact (alike _ _ _ _ _ (keys _) (keys _) first second).not.mpr (by decide)
  · exact List.forall_mem_cons.mpr ⟨by decide, List.forall_mem_singleton.mpr (by decide)⟩
  · intro key listed
    rcases List.mem_cons.mp listed with same | listed
    · cases same
    · obtain rfl := PathSegment.key.inj (List.mem_singleton.mp listed)
      decide
  · have clean : Codec.name.Clean "a:b" := ⟨by decide, fun colon => by cases colon⟩
    exact ((codecs Codec.name "a:b").2.mpr (.inl clean)).mp ⟨"a:b", Codec.decode_ok_iff.mpr (by decide)⟩

/-- A name with the separator of paths is read as a key, although no key is written so. The path of the key does not
read back. -/
theorem slashed_unrecovered :
    KeyText.parse "a/b" = .ok slashed ∧ (¬ ∃ raw, Codec.key.encode raw = "a/b") ∧
      ¬ (CanonicalPath.mk [.name "rows", .key slashed]).Recovers := by
  have separated : '/' ∈ slashed.text.toList := by decide
  refine ⟨KeyText.parse_ok_iff.mpr rfl, ?_, ?_⟩
  · intro written
    exact (Codec.exists_encode_iff.mp written).2.1 separated
  · intro recovered
    have filled : ∀ segment ∈ [PathSegment.name "rows", .key slashed], segment.encode ≠ "" :=
      List.forall_mem_cons.mpr ⟨by decide, List.forall_mem_singleton.mpr (by decide)⟩
    exact (CanonicalPath.recovers_iff filled).mp recovered slashed (List.mem_cons_of_mem _ List.mem_cons_self)
      separated

end Identities

end Liasse.Ident
