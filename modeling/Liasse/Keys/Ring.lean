/-
This file models a keyring over a key provider: its versions, the automatic rotation on the clock and
the acceptance of retired versions.
-/

import Liasse.Runtime.Instant

namespace Liasse.Keys

section Versions

/-- The state of a key version. -/
inductive KeyState
  | pending
  | active
  | retired
  | revoked
  | destroyed
deriving DecidableEq

/-- The identity of a key version and the instants of its life. -/
structure Lifecycle where
  id : Nat
  createdAt : Timestamp
  activatedAt : Option Timestamp
  retiredAt : Option Timestamp
  revokedAt : Option Timestamp
  state : KeyState
deriving DecidableEq

/-- The handle of a key at its provider. -/
abbrev KeyHandle := Nat

/-- A key version with its public material. -/
structure KeyVersion extends Lifecycle where
  algorithm : String
  publicKey : Value
  attestation : Option Value
  handle : KeyHandle

namespace Lifecycle

/-- A version that no operation has activated. -/
def recorded (id : Nat) (now : Timestamp) : Lifecycle where
  id := id
  createdAt := now
  activatedAt := none
  retiredAt := none
  revokedAt := none
  state := .pending

/-- The retirement of the active version. -/
def retire (now : Timestamp) (version : Lifecycle) : Lifecycle :=
  if version.state = .active then { version with state := .retired, retiredAt := some now }
  else version

/-- The activation of a version. -/
def activate (now : Timestamp) (version : Lifecycle) : Lifecycle :=
  { version with state := .active, activatedAt := some now }

/-- A version is accepted while it is active or inside the retention of its retirement. -/
def isAccepted (retain : Option (Signed 128)) (now : Timestamp) (version : Lifecycle) : Bool :=
  match version.state with
  | .active => true
  | .retired =>
    match retain, version.retiredAt with
    | some retain, some retiredAt => now < retiredAt.instantAdd retain
    | _, _ => true
  | _ => false

end Lifecycle

/-- The change of the life of a version. -/
def KeyVersion.modify (change : Lifecycle → Lifecycle) (version : KeyVersion) : KeyVersion :=
  { version with toLifecycle := change version.toLifecycle }

/-- The change of the first member that a test accepts. -/
def modifyFirst {A : Type} (test : A → Bool) (change : A → A) : List A → List A
  | [] => []
  | head :: rest =>
    if test head then change head :: rest else head :: modifyFirst test change rest

/-- The activation of a version in the list of lives retires the active version. -/
def activateIn (id : Nat) (now : Timestamp) (lives : List Lifecycle) : List Lifecycle :=
  modifyFirst (fun version => version.id = id) (.activate now) (lives.map (.retire now))

end Versions

section Providers

/-- An operation of a key. -/
inductive KeyOperation
  | sign
  | verify
  | decrypt
  | keyAgreement
  | wrap
  | mac
deriving DecidableEq

/-- The class of protection of a key. -/
inductive ProtectionClass
  | software
  | hardware
deriving DecidableEq

/-- What a generated key must satisfy. -/
structure KeySpec where
  algorithm : String
  operations : List KeyOperation
  protection : Option ProtectionClass

/-- The public material of a key with its algorithm. -/
structure PublicKey where
  algorithm : String
  material : Value

/-- The reason why a public key is invalid. -/
inductive PublicKeyError
  | missingAlgorithm
  | emptyMaterial
  | wrongType (material : Value)

/-- A public key is a non-empty byte string under a named algorithm. -/
def PublicKey.validate (key : PublicKey) : Except PublicKeyError Unit :=
  if key.algorithm = "" then .error .missingAlgorithm
  else
    match key.material with
    | .bytes (_ :: _) => .ok ()
    | .bytes [] => .error .emptyMaterial
    | other => .error (.wrongType other)

/-- A key provider is code outside the repository. An operation that fails names its failure. -/
class KeyProvider (P : Type) where
  Failure : Type
  generate : P → KeySpec → Except Failure KeyHandle × P
  publicKey : P → KeyHandle → Except Failure PublicKey
  attest : P → KeyHandle → Except Failure (Option Value)

end Providers

section Rings

/-- Scheduled rotation is automatic, or an operator drives it. -/
inductive RotationMode
  | automatic
  | manual
deriving DecidableEq

/-- The cadence of a rotation and the lead of the next version. -/
structure RotationSchedule where
  every : Signed 128
  overlap : Signed 128
  mode : RotationMode

/-- The policy of a keyring. A retired version without retention is accepted without limit. -/
structure KeyringPolicy where
  algorithm : String
  usage : List KeyOperation
  rotate : Option RotationSchedule
  retain : Option (Signed 128)
  protection : Option ProtectionClass

/-- A ring without an automatic schedule is manual. -/
def KeyringPolicy.isManual (policy : KeyringPolicy) : Bool :=
  match policy.rotate with
  | some schedule => schedule.mode ≠ .automatic
  | none => true

def KeyringPolicy.spec (policy : KeyringPolicy) : KeySpec where
  algorithm := policy.algorithm
  operations := policy.usage
  protection := policy.protection

/-- The reason why a keyring operation does not proceed. -/
inductive KeyringError (Failure : Type)
  | provider (failure : Failure)
  | publicKey (error : PublicKeyError)
  | algorithmMismatch (declared found : String)
  | unknownVersion (version : Nat)

/-- The outcome of a rotation attempt. -/
inductive RotationOutcome
  | notDue
  | rotated (version : Nat)
  | keptCurrentOverdue
deriving DecidableEq

/-- A keyring over its provider. -/
structure Keyring (P : Type) where
  name : String
  provider : P
  policy : KeyringPolicy
  versions : List KeyVersion
  nextId : Nat
  overdue : Bool

variable {P : Type} [KeyProvider P]

namespace Keyring

/-- A ring of a policy without a version. -/
def load (name : String) (provider : P) (policy : KeyringPolicy) : Keyring P where
  name := name
  provider := provider
  policy := policy
  versions := []
  nextId := 1
  overdue := false

/-- The lives of the versions. -/
def lives (ring : Keyring P) : List Lifecycle :=
  ring.versions.map KeyVersion.toLifecycle

/-- The active version. -/
def current (ring : Keyring P) : Option KeyVersion :=
  ring.versions.find? fun version => version.state = .active

/-- The versions that are accepted at an instant. -/
def accepted (ring : Keyring P) (now : Timestamp) : List KeyVersion :=
  ring.versions.filter fun version => version.isAccepted ring.policy.retain now

/-- The record of a pending version reads and validates its public key. -/
def record (ring : Keyring P) (handle : KeyHandle) (now : Timestamp) :
    Except (KeyringError (KeyProvider.Failure P)) (Nat × Keyring P) :=
  match KeyProvider.publicKey ring.provider handle with
  | .error failure => .error (.provider failure)
  | .ok key =>
    match key.validate with
    | .error error => .error (.publicKey error)
    | .ok () =>
      if key.algorithm ≠ ring.policy.algorithm then
        .error (.algorithmMismatch ring.policy.algorithm key.algorithm)
      else
        match KeyProvider.attest ring.provider handle with
        | .error failure => .error (.provider failure)
        | .ok attestation =>
          .ok (ring.nextId, { ring with
            nextId := ring.nextId + 1
            versions := ring.versions ++ [{
              toLifecycle := .recorded ring.nextId now
              algorithm := key.algorithm
              publicKey := key.material
              attestation := attestation
              handle := handle }] })

/-- The activation of a version retires the active one. -/
def activate (ring : Keyring P) (version : Nat) (now : Timestamp) : Keyring P :=
  { ring with
    versions := modifyFirst (fun other => other.id = version) (.modify (.activate now))
      (ring.versions.map (.modify (.retire now))) }

/-- The generation of a key, with the provider after it, and its record. -/
def generate (ring : Keyring P) (now : Timestamp) :
    Except (KeyringError (KeyProvider.Failure P)) Nat × Keyring P :=
  match KeyProvider.generate ring.provider ring.policy.spec with
  | (.error failure, provider) => (.error (.provider failure), { ring with provider := provider })
  | (.ok handle, provider) =>
    match record { ring with provider := provider } handle now with
    | .error error => (.error error, { ring with provider := provider })
    | .ok (version, ring) => (.ok version, ring)

/-- The first version of an automatic ring is generated and activated. -/
def bootstrap (ring : Keyring P) (now : Timestamp) :
    Except (KeyringError (KeyProvider.Failure P)) Unit × Keyring P :=
  if ring.policy.isManual then (.ok (), ring)
  else
    match ring.generate now with
    | (.error error, ring) => (.error error, ring)
    | (.ok version, ring) => (.ok (), ring.activate version now)

/-- The next version becomes pending once the lead of its activation is reached. A failure of the
provider leaves the versions. -/
def exposePending (ring : Keyring P) (now : Timestamp) (schedule : RotationSchedule)
    (dueAt : Timestamp) : Keyring P :=
  if ring.versions.any fun version => version.state = .pending then ring
  else if now < dueAt.subDuration schedule.overlap then ring
  else (ring.generate now).2

/-- The rotation activates the pending version or a generated one. -/
def rotate (ring : Keyring P) (now : Timestamp) :
    Except (KeyringError (KeyProvider.Failure P)) Nat × Keyring P :=
  match ring.versions.find? fun version => version.state = .pending with
  | some version => (.ok version.id, ring.activate version.id now)
  | none =>
    match ring.generate now with
    | (.error error, ring) => (.error error, ring)
    | (.ok version, ring) => (.ok version, ring.activate version now)

/-- The clock has room for the ticks of a timestamp. -/
def remaining (instant : Timestamp) : Nat :=
  (2 ^ 127 - instant.count.val).toNat

theorem remaining_lt {instant : Timestamp} {duration : Signed 128}
    (advances : ¬ instant.instantAdd duration ≤ instant) :
    remaining (instant.instantAdd duration) < remaining instant := by
  rw [Timestamp.le_iff, not_le,
    Timestamp.nanos_lt_iff (instant.instantAdd_precision duration).symm] at advances
  have high := (instant.instantAdd duration).count.high
  unfold remaining
  omega

/-- The rotation at each boundary that the clock has passed. A boundary that does not advance ends the
loop, and a failure of the provider ends the call. -/
def catchUp (schedule : RotationSchedule) (now : Timestamp) (ring : Keyring P)
    (outcome : RotationOutcome) (dueAt : Timestamp) :
    Except (Keyring P) (RotationOutcome × Keyring P × Timestamp) :=
  if dueAt ≤ now then
    match ring.rotate dueAt with
    | (.error _, ring) => .error { ring with overdue := true }
    | (.ok version, ring) =>
      if dueAt.instantAdd schedule.every ≤ dueAt then
        .ok (.rotated version, { ring with overdue := false }, dueAt)
      else
        catchUp schedule now { ring with overdue := false } (.rotated version)
          (dueAt.instantAdd schedule.every)
  else .ok (outcome, ring, dueAt)
termination_by remaining dueAt
decreasing_by exact remaining_lt (by assumption)

/-- Any due rotation before the next operation. -/
def ensureCurrent (ring : Keyring P) (now : Timestamp) : RotationOutcome × Keyring P :=
  match ring.policy.rotate with
  | none => (.notDue, ring)
  | some schedule =>
    if schedule.mode ≠ .automatic then (.notDue, ring)
    else
      match ring.current.map fun active => active.activatedAt with
      | some (some activatedAt) =>
        let dueAt := activatedAt.instantAdd schedule.every
        if now < dueAt then (.notDue, ring.exposePending now schedule dueAt)
        else
          match ring.catchUp schedule now .notDue dueAt with
          | .error ring => (.keptCurrentOverdue, ring)
          | .ok (outcome, ring, dueAt) =>
            if now < dueAt then (outcome, ring.exposePending now schedule dueAt)
            else (outcome, ring)
      | _ => (.notDue, ring)

/-- The ring after a call at each instant. -/
def visit (ring : Keyring P) (instants : List Timestamp) : Keyring P :=
  instants.foldl (fun ring now => (ring.ensureCurrent now).2) ring

end Keyring

end Rings

end Liasse.Keys
