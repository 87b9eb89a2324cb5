/-
This file models the signed tokens of a keyring: the claims, the bytes that a version signs and the
verification against the accepted versions.
-/

import Liasse.Keys.Operator
import Liasse.Runtime.Leaf
import Liasse.Wire.Sample
import Liasse.Wire.Typed

namespace Liasse.Keys

open Liasse.Runtime (structGet)
open Liasse.Wire (Libraries)

section Claims

/-- The claims of a token by name. -/
abbrev CoseClaims := Std.ExtTreeMap String Value compareText

namespace CoseClaims

/-- The claims as a struct. -/
def asStruct (claims : CoseClaims) : Value :=
  .struct claims.toList

/-- The bytes that a version signs are the canonical JSON text of the claims. -/
def signingBytes (libraries : Libraries) (claims : CoseClaims) : List UInt8 :=
  textBytes (Wire.toWire libraries claims.asStruct).toText

/-- The claims of a struct. -/
def fromValue : Value → Option CoseClaims
  | .struct fields => some (.ofList fields compareText)
  | _ => none

end CoseClaims

/-- A token has the ring and the version that signed its claims. -/
structure CoseToken where
  ring : String
  version : Nat
  claims : CoseClaims
  signature : List UInt8

namespace CoseToken

/-- A token as a value. A version above the range of a signed integer takes its largest one. -/
def toValue (token : CoseToken) : Value :=
  .struct (Codes.collectSorted Value.compareName [
    ("$ring", .text token.ring),
    ("$version", .int (if token.version < 2 ^ 63 then token.version else 2 ^ 63 - 1)),
    ("$claims", token.claims.asStruct),
    ("$sig", .bytes token.signature)])

/-- The version of a token value. -/
def versionOf : Value → Option Nat
  | .int number => (Wire.parseUnsigned (Wire.integerText number)).map UInt64.toNat
  | _ => none

/-- The token of a value. -/
def fromValue : Value → Option CoseToken
  | .struct fields =>
    match structGet fields "$ring", structGet fields "$version", structGet fields "$claims",
        structGet fields "$sig" with
    | some (.text ring), some version, some claims, some (.bytes signature) =>
      match versionOf version, CoseClaims.fromValue claims with
      | some version, some claims => some ⟨ring, version, claims, signature⟩
      | _, _ => none
    | _, _, _, _ => none
  | _ => none

end CoseToken

end Claims

section Signing

/-- The Ed25519 library decides which bytes are a public key and which signature a key verifies. -/
structure Ed25519 where
  usable : List UInt8 → Bool
  verifyStrict : List UInt8 → List UInt8 → List UInt8 → Bool

/-- The reason why a signature does not verify. -/
inductive SignatureError
  | unsupportedAlgorithm (algorithm : String)
  | invalid
  | malformedPublicKey (algorithm : String)

/-- The algorithms with a verifier. -/
def ed25519Algorithms : List String :=
  ["Ed25519", "EdDSA"]

def verifyEd25519 (library : Ed25519) (algorithm : String) (publicKey : Value)
    (signed signature : List UInt8) :
    Except SignatureError Unit :=
  match publicKey with
  | .bytes material =>
    if material.length = 32 ∧ library.usable material = true then
      if signature.length = 64 ∧ library.verifyStrict material signed signature = true then .ok ()
      else .error .invalid
    else .error (.malformedPublicKey algorithm)
  | _ => .error (.malformedPublicKey algorithm)

/-- The verification of a signature under the public key of a version. -/
def verifyCoseSignature (library : Ed25519) (algorithm : String) (publicKey : Value)
    (signed signature : List UInt8) : Except SignatureError Unit :=
  if ed25519Algorithms.contains algorithm then verifyEd25519 library algorithm publicKey signed signature
  else .error (.unsupportedAlgorithm algorithm)

/-- A provider signs a message with a key. -/
class KeySigner (P : Type) extends KeyOperator P where
  sign : P → KeyHandle → String → List UInt8 → Except Failure (List UInt8)

/-- The reason why a ring does not sign. -/
inductive SignError (Failure : Type)
  | noActiveVersion
  | provider (failure : Failure)

/-- The reason why a token does not verify. -/
inductive CoseVerifyError
  | wrongRing
  | versionNotAccepted
  | claimsTampered
  | unsupportedAlgorithm

/-- A signature that does not verify is the mark of altered claims. -/
def CoseVerifyError.ofSignature : SignatureError → CoseVerifyError
  | .unsupportedAlgorithm _ => .unsupportedAlgorithm
  | .invalid | .malformedPublicKey _ => .claimsTampered

namespace Keyring

variable {P : Type} [KeySigner P]

/-- The active version signs claims. -/
def signClaims (libraries : Libraries) (ring : Keyring P) (claims : CoseClaims) :
    Except (SignError (KeyProvider.Failure P)) CoseToken :=
  match ring.current with
  | none => .error .noActiveVersion
  | some active =>
    match KeySigner.sign ring.provider active.handle active.algorithm (claims.signingBytes libraries) with
    | .error failure => .error (.provider failure)
    | .ok signature => .ok ⟨ring.name, active.id, claims, signature⟩

/-- A token verifies under an accepted version of its ring. -/
def verifyClaims (libraries : Libraries) (library : Ed25519) (ring : Keyring P) (token : CoseToken)
    (now : Timestamp) : Except CoseVerifyError (CoseClaims × Nat) :=
  if token.ring ≠ ring.name then .error .wrongRing
  else
    match (ring.accepted now).find? fun version => version.id = token.version with
    | none => .error .versionNotAccepted
    | some version =>
      match verifyCoseSignature library version.algorithm version.publicKey
          (token.claims.signingBytes libraries) token.signature with
      | .error error => .error (.ofSignature error)
      | .ok () => .ok (token.claims, version.id)

end Keyring

/-- An operation on a ring, or a signature of claims. -/
inductive CoseEvent (P : Type)
  | ring (event : Keyring.Event P)
  | sign (claims : CoseClaims)

/-- A keyring with the tokens that it signed. -/
structure CoseKeyring (P : Type) where
  ring : Keyring P
  signed : List CoseToken

namespace CoseKeyring

variable {P : Type} [KeySigner P]

def perform (libraries : Libraries) (keyring : CoseKeyring P) : CoseEvent P → CoseKeyring P
  | .ring event => { keyring with ring := (keyring.ring.perform event).2 }
  | .sign claims =>
    match keyring.ring.signClaims libraries claims with
    | .ok token => { keyring with signed := token :: keyring.signed }
    | .error _ => keyring

/-- The keyring after some events. The last event comes first. -/
def after (libraries : Libraries) (first : CoseKeyring P) (events : List (CoseEvent P)) : CoseKeyring P :=
  events.foldr (fun event keyring => keyring.perform libraries event) first

end CoseKeyring

end Signing

section Bytes

variable {libraries : Libraries}

/-- A name above all others by length is none of them. -/
theorem exists_fresh (names : List String) : ∃ name, name ∉ names := by
  refine ⟨.ofList (List.replicate ((names.map String.length).sum + 1) 'a'), fun listed => ?_⟩
  have bound := List.single_le_sum (fun _ _ => Nat.zero_le _) _
    (List.mem_map_of_mem (f := String.length) listed)
  rw [String.length_ofList, List.length_replicate] at bound
  omega

/-- The members of a struct that are written are its present fields. -/
theorem fieldsToWire_filter (fields : List (String × Value)) :
    Wire.fieldsToWire libraries (fields.filter fun field => field.2.present) =
      Wire.fieldsToWire libraries fields := by
  induction fields with
  | nil => rfl
  | cons field rest earlier =>
    obtain ⟨name, value⟩ := field
    rw [List.filter_cons, Wire.fieldsToWire, Wire.fieldToWire]
    split
    · next present => rw [Wire.fieldsToWire, Wire.fieldToWire, if_pos present, earlier]
    · next absent => rw [earlier, List.nil_append]

/-- A claim without a value is not signed. -/
theorem signingBytes_insert_none (claims : CoseClaims) {name : String} (fresh : name ∉ claims) :
    CoseClaims.signingBytes libraries (claims.insert name .none) =
      CoseClaims.signingBytes libraries claims := by
  have ordered (map : CoseClaims) : (map.toList.filter fun field => field.2.present).Pairwise
      fun first second => compare (textBytes first.1) (textBytes second.1) = .lt :=
    map.ordered_keys_toList.filter _
  have same : (claims.insert name .none).toList.filter (fun field => field.2.present) =
      claims.toList.filter fun field => field.2.present := by
    refine Codes.eq_of_strict (ordered _) (ordered _) fun field => ?_
    rw [List.mem_filter, List.mem_filter]
    refine and_congr_left fun present => ?_
    rw [Std.ExtTreeMap.mem_toList_iff_getElem?_eq_some, Std.ExtTreeMap.mem_toList_iff_getElem?_eq_some]
    by_cases here : field.1 = name
    · rw [here, Std.ExtTreeMap.getElem?_insert_self, Std.ExtTreeMap.getElem?_eq_none fresh]
      refine iff_of_false (fun absent => ?_) (fun impossible => by cases impossible)
      rw [← Option.some.inj absent] at present
      cases present
    · rw [Codes.getElem?_insert_of_ne here]
  rw [CoseClaims.signingBytes, CoseClaims.signingBytes, CoseClaims.asStruct, CoseClaims.asStruct, Wire.toWire,
    Wire.toWire, ← fieldsToWire_filter, same, fieldsToWire_filter]

/-- Other claims than the given ones have the bytes of any claims. -/
theorem exists_alike (libraries : Libraries) (claims : CoseClaims) (known : List CoseClaims) :
    ∃ other, CoseClaims.signingBytes libraries other = CoseClaims.signingBytes libraries claims ∧
      other ∉ known := by
  obtain ⟨name, fresh⟩ := exists_fresh ((claims :: known).flatMap fun map => map.keys)
  have absent (map : CoseClaims) (listed : map ∈ claims :: known) : name ∉ map := fun inside =>
    fresh (List.mem_flatMap.mpr ⟨map, listed, Std.ExtTreeMap.mem_keys.mpr inside⟩)
  refine ⟨claims.insert name .none, signingBytes_insert_none claims (absent claims List.mem_cons_self),
    fun listed => absent _ (List.mem_cons_of_mem _ listed) ?_⟩
  rw [Std.ExtTreeMap.mem_insert]
  exact .inl Std.ReflCmp.compare_self

end Bytes

section Tokens

theorem versionOf_int (number : Nat) (small : number < 2 ^ 64) :
    CoseToken.versionOf (.int (number : Int)) = some number := by
  have read := Wire.parseUnsigned_integerText (UInt64.ofNat number)
  have whole : (UInt64.ofNat number).toNat = number := UInt64.toNat_ofNat_of_lt' small
  rw [whole] at read
  rw [CoseToken.versionOf, read, Option.map_some, whole]

/-- The claims of a struct of claims. -/
theorem fromValue_asStruct (claims : CoseClaims) : CoseClaims.fromValue claims.asStruct = some claims :=
  congrArg some (Codes.ofList_toList claims)

/-- The members of the struct of a token. -/
theorem members_toValue (ring version claims signature : Value) :
    let fields := Codes.collectSorted Value.compareName
      [("$ring", ring), ("$version", version), ("$claims", claims), ("$sig", signature)]
    structGet fields "$ring" = some ring ∧ structGet fields "$version" = some version ∧
      structGet fields "$claims" = some claims ∧ structGet fields "$sig" = some signature := by
  simp [Codes.collectSorted, Runtime.structGet_insertSorted_of_ne, Runtime.structGet_insertSorted_self]

/-- A token comes back from its value when its version is a signed integer. -/
theorem fromValue_toValue (token : CoseToken) :
    CoseToken.fromValue token.toValue = some token ↔ token.version < 2 ^ 63 := by
  obtain ⟨ring, version, claims, signature⟩ := token
  obtain ⟨named, versioned, claimed, signed⟩ := members_toValue (.text ring)
    (.int (if version < 2 ^ 63 then version else 2 ^ 63 - 1)) claims.asStruct (.bytes signature)
  rw [CoseToken.toValue, CoseToken.fromValue, named, versioned, claimed, signed]
  dsimp only
  rw [fromValue_asStruct]
  by_cases small : version < 2 ^ 63
  · rw [if_pos small, versionOf_int version (by omega)]
    exact iff_of_true rfl small
  · have largest : ((2 ^ 63 - 1 : Nat) : Int) = 2 ^ 63 - 1 := by norm_num
    have read := versionOf_int (2 ^ 63 - 1) (by norm_num)
    rw [largest] at read
    rw [if_neg small, read]
    refine iff_of_false (fun same => ?_) small
    have kept := congrArg CoseToken.version (Option.some.inj same)
    dsimp only at kept
    omega

end Tokens

section Verification

variable {P : Type} {libraries : Libraries} {library : Ed25519}

namespace Keyring

/-- A token verifies exactly when an accepted version of its ring has verified its bytes. -/
theorem verifyClaims_ok {ring : Keyring P} {token : CoseToken} {now : Timestamp} {claims : CoseClaims}
    {id : Nat} :
    ring.verifyClaims libraries library token now = .ok (claims, id) ↔
      token.ring = ring.name ∧ token.claims = claims ∧ token.version = id ∧
        ∃ version, (ring.accepted now).find? (fun version => version.id = id) = some version ∧
          verifyCoseSignature library version.algorithm version.publicKey
            (claims.signingBytes libraries) token.signature = .ok () := by
  unfold verifyClaims
  constructor
  · intro verified
    split at verified
    · cases verified
    · next same =>
        split at verified
        · cases verified
        · next version found =>
            split at verified
            · cases verified
            · next checked =>
                cases verified
                have matched : version.id = token.version := by simpa using List.find?_some found
                exact ⟨not_not.mp same, rfl, matched.symm, version, matched.symm ▸ found, checked⟩
  · rintro ⟨named, rfl, rfl, version, found, checked⟩
    have matched : version.id = token.version := by simpa using List.find?_some found
    rw [if_neg (not_not.mpr named), found]
    dsimp only
    rw [checked, matched]

end Keyring

namespace CoseKeyring

variable [KeySigner P]

/-- The ring of a history: its load, and the events after it. -/
def history (libraries : Libraries) (name : String) (provider : P) (policy : KeyringPolicy)
    (events : List (CoseEvent P)) : CoseKeyring P :=
  (CoseKeyring.mk (.load name provider policy) []).after libraries events

/-- Without the key of a version no signature verifies under it but on the bytes that it signed. -/
def Unforgeable (libraries : Libraries) (library : Ed25519) (keyring : CoseKeyring P)
    (now : Timestamp) : Prop :=
  ∀ version ∈ keyring.ring.accepted now, ∀ message signature,
    verifyCoseSignature library version.algorithm version.publicKey message signature = .ok () →
      ∃ signed ∈ keyring.signed, signed.version = version.id ∧
        signed.claims.signingBytes libraries = message

/-- The claims of each token that verifies were signed by the version. -/
def Authentic (libraries : Libraries) (library : Ed25519) (keyring : CoseKeyring P)
    (now : Timestamp) : Prop :=
  ∀ token claims id, keyring.ring.verifyClaims libraries library token now = .ok (claims, id) →
    ∃ signed ∈ keyring.signed, signed.version = id ∧ signed.claims = claims

/-- Each signed token verifies with its claims while its version is accepted. -/
def Verifies (libraries : Libraries) (library : Ed25519) (keyring : CoseKeyring P)
    (now : Timestamp) : Prop :=
  ∀ signed ∈ keyring.signed, (∃ version ∈ keyring.ring.accepted now, version.id = signed.version) →
    keyring.ring.verifyClaims libraries library signed now = .ok (signed.claims, signed.version)

/-- A version that has signed a token and is accepted verifies claims that it never signed. -/
theorem authentic_iff (libraries : Libraries) (library : Ed25519) (name : String) (provider : P)
    (policy : KeyringPolicy) (events : List (CoseEvent P)) (now : Timestamp) (token : CoseToken)
    (unforgeable : (history libraries name provider policy events).Unforgeable libraries library now) :
    ((history libraries name provider policy events).Authentic libraries library now ∧
      (history libraries name provider policy events).Verifies libraries library now ∧
      CoseToken.fromValue token.toValue = some token) ↔
    (∀ signed ∈ (history libraries name provider policy events).signed,
      ∀ version ∈ (history libraries name provider policy events).ring.accepted now,
        version.id ≠ signed.version) ∧ token.version < 2 ^ 63 := by
  generalize history libraries name provider policy events = keyring at unforgeable ⊢
  rw [← and_assoc, fromValue_toValue]
  refine and_congr_left fun _ => ⟨?_, ?_⟩
  · rintro ⟨authentic, verifies⟩ signed listed version accepted same
    obtain ⟨named, -, -, holder, found, checked⟩ :=
      Keyring.verifyClaims_ok.mp (verifies signed listed ⟨version, accepted, same⟩)
    obtain ⟨other, alike, unsigned⟩ :=
      exists_alike libraries signed.claims (keyring.signed.map CoseToken.claims)
    rw [← alike] at checked
    obtain ⟨source, inside, -, equal⟩ := authentic { signed with claims := other } other signed.version
      (Keyring.verifyClaims_ok.mpr ⟨named, rfl, rfl, holder, found, checked⟩)
    exact unsigned (equal ▸ List.mem_map_of_mem inside)
  · intro apart
    refine ⟨fun token claims id verified => ?_, fun signed listed accepted => ?_⟩
    · obtain ⟨-, -, -, version, found, checked⟩ := Keyring.verifyClaims_ok.mp verified
      have accepted := List.mem_of_find?_eq_some found
      obtain ⟨signed, listed, same, -⟩ := unforgeable version accepted _ _ checked
      exact absurd same.symm (apart signed listed version accepted)
    · obtain ⟨version, inside, same⟩ := accepted
      exact absurd same (apart signed listed version inside)

end CoseKeyring

end Verification

section Sample

/-- A provider of one key, whose signature is the same for each message. -/
structure SampleSigner where

instance : KeySigner SampleSigner where
  Failure := Empty
  generate := fun provider _ => (.ok 0, provider)
  publicKey := fun _ _ => .ok ⟨"EdDSA", .bytes (List.replicate 32 1)⟩
  attest := fun _ _ => .ok none
  bind := fun provider _ _ => (.ok 0, provider)
  destroy := fun provider _ => (.ok (), provider)
  sign := fun _ _ _ _ => .ok (List.replicate 64 1)

def signerPolicy : KeyringPolicy :=
  { samplePolicy with algorithm := "EdDSA" }

/-- Claims of one text. -/
def levelText : CoseClaims :=
  .ofList [("level", .text "1")] compareText

/-- Claims of one integer with the spelling of the text. -/
def levelInt : CoseClaims :=
  .ofList [("level", .int 1)] compareText

theorem levelInt_signingBytes :
    levelInt.signingBytes Wire.Sample.libraries = levelText.signingBytes Wire.Sample.libraries := by
  have text : levelText.asStruct = .struct [("level", .text "1")] := rfl
  have int : levelInt.asStruct = .struct [("level", .int 1)] := rfl
  have spelled : Wire.integerText 1 = "1" := by decide
  rw [CoseClaims.signingBytes, CoseClaims.signingBytes, text, int]
  simp only [Wire.toWire, Wire.fieldsToWire, Wire.fieldToWire, Value.present, spelled]

theorem levelInt_ne : levelText ≠ levelInt := by
  intro same
  have texts : levelText.asStruct = .struct [("level", .text "1")] := rfl
  have ints : levelInt.asStruct = .struct [("level", .int 1)] := rfl
  rw [same, ints] at texts
  cases texts

/-- The library accepts the one message that the sample key signs. -/
def sampleEd25519 : Ed25519 where
  usable := fun _ => true
  verifyStrict := fun _ message _ => message = levelText.signingBytes Wire.Sample.libraries

/-- The ring after the signature of one token. -/
def sampleSigned : CoseKeyring SampleSigner :=
  .history Wire.Sample.libraries "session" SampleSigner.mk signerPolicy
    [.sign levelText, .ring (.bootstrap (sampleInstant ⟨0, by decide⟩))]

/-- The token of the sample ring. -/
def sampleToken : CoseToken where
  ring := "session"
  version := 1
  claims := levelText
  signature := List.replicate 64 1

theorem sampleSigned_signed : sampleSigned.signed = [sampleToken] :=
  rfl

/-- The public material of the one accepted version. -/
theorem sampleSigned_accepted : (sampleSigned.ring.accepted (sampleInstant 1)).map
    (fun version => (version.id, version.algorithm, version.publicKey)) =
      [(1, "EdDSA", .bytes (List.replicate 32 1))] :=
  rfl

/-- The sample key verifies one message. -/
theorem sampleEd25519_verifies {message signature : List UInt8} :
    verifyCoseSignature sampleEd25519 "EdDSA" (.bytes (List.replicate 32 1)) message signature = .ok () ↔
      signature.length = 64 ∧ message = levelText.signingBytes Wire.Sample.libraries := by
  have wide : (List.replicate 32 (1 : UInt8)).length = 32 ∧
      sampleEd25519.usable (List.replicate 32 1) = true := ⟨List.length_replicate, rfl⟩
  have genuine : sampleEd25519.verifyStrict (List.replicate 32 1) message signature = true ↔
      message = levelText.signingBytes Wire.Sample.libraries := decide_eq_true_iff
  rw [verifyCoseSignature, if_pos (by decide), verifyEd25519, if_pos wide, ← genuine]
  split
  · next same => exact iff_of_true rfl same
  · next other => exact iff_of_false (fun impossible => by cases impossible) other

theorem sampleSigned_unforgeable :
    sampleSigned.Unforgeable Wire.Sample.libraries sampleEd25519 (sampleInstant 1) := by
  intro version accepted message signature verified
  have listed := List.mem_map_of_mem (f := fun version : KeyVersion =>
    (version.id, version.algorithm, version.publicKey)) accepted
  rw [sampleSigned_accepted, List.mem_singleton, Prod.mk.injEq, Prod.mk.injEq] at listed
  obtain ⟨first, algorithm, key⟩ := listed
  rw [algorithm, key, sampleEd25519_verifies] at verified
  refine ⟨sampleToken, ?_, first.symm, verified.2.symm⟩
  rw [sampleSigned_signed]
  exact List.mem_singleton_self _

/-- A token with an integer in the place of the signed text verifies. -/
theorem sampleSigned_forged :
    sampleSigned.Unforgeable Wire.Sample.libraries sampleEd25519 (sampleInstant 1) ∧
      ¬ sampleSigned.Authentic Wire.Sample.libraries sampleEd25519 (sampleInstant 1) := by
  refine ⟨sampleSigned_unforgeable, fun authentic => ?_⟩
  have verified : sampleSigned.ring.verifyClaims Wire.Sample.libraries sampleEd25519
      { sampleToken with claims := levelInt } (sampleInstant 1) = .ok (levelInt, 1) := by
    refine Keyring.verifyClaims_ok.mpr ⟨rfl, rfl, rfl, _, rfl, ?_⟩
    rw [levelInt_signingBytes]
    exact sampleEd25519_verifies.mpr ⟨List.length_replicate, rfl⟩
  obtain ⟨signed, listed, -, same⟩ := authentic _ _ _ verified
  rw [sampleSigned_signed, List.mem_singleton] at listed
  rw [listed] at same
  exact levelInt_ne same

/-- The sample ring does not keep the claims of its tokens. -/
theorem sampleSigned_not_authentic :
    ¬ (sampleSigned.Authentic Wire.Sample.libraries sampleEd25519 (sampleInstant 1) ∧
      sampleSigned.Verifies Wire.Sample.libraries sampleEd25519 (sampleInstant 1) ∧
      CoseToken.fromValue sampleToken.toValue = some sampleToken) := by
  intro holds
  have apart : ∀ signed ∈ sampleSigned.signed,
      ∀ version ∈ sampleSigned.ring.accepted (sampleInstant 1), version.id ≠ signed.version :=
    ((CoseKeyring.authentic_iff Wire.Sample.libraries sampleEd25519 "session" SampleSigner.mk signerPolicy
      [.sign levelText, .ring (.bootstrap (sampleInstant ⟨0, by decide⟩))] (sampleInstant 1) sampleToken
        sampleSigned_unforgeable).mp holds).1
  have listed : (1, "EdDSA", Value.bytes (List.replicate 32 1)) ∈
      (sampleSigned.ring.accepted (sampleInstant 1)).map
        (fun version => (version.id, version.algorithm, version.publicKey)) := by
    rw [sampleSigned_accepted]
    exact List.mem_singleton_self _
  obtain ⟨version, accepted, same⟩ := List.mem_map.mp listed
  refine apart sampleToken ?_ version accepted (congrArg Prod.fst same)
  rw [sampleSigned_signed]
  exact List.mem_singleton_self _

end Sample

end Liasse.Keys
