/-
This file models the blob engine. An upload lands verified copies, a fetch reads one of them, and a reconcile
pass repairs them.
-/

import Liasse.Blobs.Placement
import Liasse.Value.Total
import Liasse.Wire.Calendar

namespace Liasse.Blobs

open Liasse.Wire

section Connectors

/-- What a connector may advertise. -/
inductive Capability
  | streamUpload
  | streamDownload
  | presignedUpload
  | presignedDownload
  | rangeReads
  | serverSideCopy
  | checksum
  | delete
  | physicalUsage
deriving DecidableEq

def Capability.text : Capability → String
  | .streamUpload => "StreamUpload"
  | .streamDownload => "StreamDownload"
  | .presignedUpload => "PresignedUpload"
  | .presignedDownload => "PresignedDownload"
  | .rangeReads => "RangeReads"
  | .serverSideCopy => "ServerSideCopy"
  | .checksum => "Checksum"
  | .delete => "Delete"
  | .physicalUsage => "PhysicalUsage"

/-- Why a connector failed. -/
inductive ConnectorFailure
  | notFound
  | rangeOutOfBounds (start stop length : UInt64)
  | unsupported (capability : Capability)
  | unavailable
  | failed (detail : String)

def ConnectorFailure.text : ConnectorFailure → String
  | .notFound => "no object held for digest"
  | .rangeOutOfBounds start stop length =>
    "range [" ++ toString start ++ ", " ++ toString stop ++ ") is outside the object's " ++ toString length ++
      " bytes"
  | .unsupported capability => "operation requires unavailable capability `" ++ capability.text ++ "`"
  | .unavailable => "connector is unavailable"
  | .failed detail => "connector operation failed: " ++ detail

abbrev Bytes := List UInt8

/-- A connector keeps objects by their digest. The reads leave it as it is, and each write may change it in any
way and may fail. -/
structure BlobConnector (C : Type) where
  capabilities : C → List Capability
  upload : C → Sha512 → Bytes → Except ConnectorFailure Unit × C
  fetch : C → Sha512 → Except ConnectorFailure Bytes
  delete : C → Sha512 → Except ConnectorFailure Unit × C
  observeUsage : C → Except ConnectorFailure Unit

/-- The hash function and the texts of its values. -/
structure Hashing where
  libraries : Libraries
  hash : Bytes → Sha512

namespace Hashing

variable (hashing : Hashing)

def canonicalText (sha512 : Sha512) : String :=
  hashing.libraries.toHex sha512.bytes

def digestHex (bytes : Bytes) : String :=
  hashing.canonicalText (hashing.hash bytes)

/-- A fetch fails at the transport or at the verification. -/
inductive VerifiedFetchError
  | connector (failure : ConnectorFailure)
  | tampered (expected actual : String)

/-- Some bytes are the content of a digest when their hash has its text. -/
def verify (expected : Sha512) (bytes : Bytes) : Except VerifiedFetchError Unit :=
  if hashing.digestHex bytes = hashing.canonicalText expected then .ok ()
  else .error (.tampered (hashing.canonicalText expected) (hashing.digestHex bytes))

variable {C : Type} (api : BlobConnector C)

/-- The bytes of a connector are verified before they are delivered. -/
def fetchVerified (expected : Sha512) (connector : C) : Except VerifiedFetchError Bytes :=
  match api.fetch connector expected with
  | .error failure => .error (.connector failure)
  | .ok bytes => (hashing.verify expected bytes).map fun _ => bytes

end Hashing

end Connectors

section Descriptors

/-- The white space characters of texts. -/
def isWhiteSpace (char : Char) : Bool :=
  let code := char.toNat
  (0x9 ≤ code ∧ code ≤ 0xD) ∨ code = 0x20 ∨ code = 0x85 ∨ code = 0xA0 ∨ code = 0x1680 ∨
    (0x2000 ≤ code ∧ code ≤ 0x200A) ∨ code = 0x2028 ∨ code = 0x2029 ∨ code = 0x202F ∨ code = 0x205F ∨ code = 0x3000

def trim (chars : List Char) : List Char :=
  ((chars.dropWhile isWhiteSpace).reverse.dropWhile isWhiteSpace).reverse

def toAsciiLowercase (chars : List Char) : List Char :=
  chars.map Char.toLower

/-- The parts of a text around its first equals sign. -/
def splitOnce (chars : List Char) : Option (List Char × List Char) :=
  match chars.dropWhile (· ≠ '=') with
  | [] => none
  | _ :: after => some (chars.takeWhile (· ≠ '='), after)

/-- A media type has its lowercase essence and its parameters in the order of their lowercase names. -/
def parseMedia (media : String) : List Char × List (String × String) :=
  let parts := media.toList.splitOn ';'
  let params := parts.tail.filterMap fun param =>
    (splitOnce param).map fun (name, value) =>
      (String.ofList (toAsciiLowercase (trim name)), String.ofList (trim value))
  (toAsciiLowercase (trim (parts.headD [])),
    params.insertionSort fun left right => left.1 < right.1 ∨ left.1 = right.1 ∧ left.2 ≤ right.2)

/-- A declaration without parameters accepts each parameter. -/
def mediaAccepted (accepted : List String) (candidate : String) : Bool :=
  let (essence, params) := parseMedia candidate
  accepted.any fun declared =>
    let (declEssence, declParams) := parseMedia declared
    declEssence == essence && (declParams.isEmpty || declParams == params)

/-- The constraints of a blob field. -/
structure AcceptedType where
  maxBytes : UInt64
  media : List String

/-- The members that a client declares with an upload. -/
structure DeclaredDescriptor where
  sha512 : String
  bytes : UInt64
  media : String
  name : Option String

/-- Why an upload was rejected. -/
inductive UploadError
  | malformedDigest
  | digestMismatch
  | byteCountMismatch
  | mediaNotAccepted (media : String)
  | tooLarge (actual limit : UInt64)
  | noWritablePlacement
  | connector (connector reason : String)
  | copyVerification

/-- A declared descriptor is checked against the bytes and the accepted type. -/
def verifyDescriptor (hashing : Hashing) (declared : DeclaredDescriptor) (accepted : AcceptedType) (bytes : Bytes) :
    Except UploadError BlobDescriptor := do
  let digest ← (parseSha512 hashing.libraries declared.sha512).mapError fun _ => .malformedDigest
  if declared.sha512 ≠ hashing.canonicalText digest then throw .malformedDigest
  if hashing.digestHex bytes ≠ hashing.canonicalText digest then throw .digestMismatch
  let actual := UInt64.ofNat bytes.length
  if declared.bytes ≠ actual then throw .byteCountMismatch
  if accepted.maxBytes < actual then throw (.tooLarge actual accepted.maxBytes)
  if !mediaAccepted accepted.media declared.media then throw (.mediaNotAccepted declared.media)
  return ⟨digest, declared.bytes, declared.media, declared.name⟩

end Descriptors

section Engines

/-- A store row selects a connector. -/
structure Store where
  id : StoreId
  connector : String
  enabled : Bool

/-- The lifecycle state of one copy. -/
inductive CopyState
  | pending
  | copying
  | verified
  | corrupt
  | draining
deriving DecidableEq

/-- The copies of an occurrence by store. -/
abbrev Copies := Std.ExtTreeMap StoreId CopyState compareText

/-- The stores of the verified copies. -/
def Copies.verified (copies : Copies) : Finset StoreId :=
  ((copies.toList.filter fun copy => copy.2 = .verified).map Prod.fst).toFinset

/-- A committed occurrence has its descriptor, its copies and its read order. -/
structure Blob where
  descriptor : BlobDescriptor
  placement : Copies
  serve : List StoreId

/-- Why a fetch delivered nothing. -/
inductive FetchError
  | denied
  | noCleanHolder

/-- The registered connectors and the store rows. -/
structure BlobEngine (C : Type) where
  connectors : Std.ExtTreeMap String C compareText
  stores : List Store

namespace BlobEngine

variable {C : Type} (api : BlobConnector C) (hashing : Hashing)

def connectorName (engine : BlobEngine C) (store : StoreId) : Option String :=
  (engine.stores.find? fun row => row.id = store).map Store.connector

def connectorFor (engine : BlobEngine C) (store : StoreId) : Option C :=
  (engine.connectorName store).bind fun name => engine.connectors[name]?

/-- A connector is reachable when only the observation of its usage may be unsupported. -/
def reachable (connector : C) : Bool :=
  match api.observeUsage connector with
  | .ok _ => true
  | .error (.unsupported _) => true
  | .error _ => false

/-- A store is writable when it is enabled and its connector can be written and reached now. -/
def writable (engine : BlobEngine C) (store : StoreId) : Bool :=
  match engine.stores.find? fun row => row.id = store with
  | none => false
  | some row =>
    row.enabled && (engine.connectors[row.connector]?).any fun connector =>
      (api.capabilities connector).contains .streamUpload && reachable api connector

/-- An engine with another connector of a name. -/
def write (engine : BlobEngine C) (name : String) (connector : C) : BlobEngine C :=
  { engine with connectors := engine.connectors.insert name connector }

/-- A copy lands when its destination serves the content after the upload. -/
def landCopy (engine : BlobEngine C) (digest : Sha512) (bytes : Bytes) (store : StoreId) :
    Except UploadError Unit × BlobEngine C :=
  match engine.connectorName store with
  | none => (.error .noWritablePlacement, engine)
  | some name =>
    match engine.connectors[name]? with
    | none => (.error .noWritablePlacement, engine)
    | some connector =>
      let (uploaded, written) := api.upload connector digest bytes
      let engine := engine.write name written
      match uploaded with
      | .error reason => (.error (.connector name reason.text), engine)
      | .ok _ =>
        match hashing.fetchVerified api digest written with
        | .error _ => (.error .copyVerification, engine)
        | .ok _ => (.ok (), engine)

/-- The copies of an upload land one after the other, up to the first one that fails. -/
def landAll (digest : Sha512) (bytes : Bytes) :
    List StoreId → BlobEngine C → Copies → Except UploadError Copies × BlobEngine C
  | [], engine, landed => (.ok landed, engine)
  | store :: rest, engine, landed =>
    match engine.landCopy api hashing digest bytes store with
    | (.error error, engine) => (.error error, engine)
    | (.ok _, engine) => landAll digest bytes rest engine (landed.insert store .verified)

/-- An upload lands all copies of one plan, or it fails. -/
def upload (engine : BlobEngine C) (declared : DeclaredDescriptor) (accepted : AcceptedType)
    (policy : PlacementPolicy) (bytes : Bytes) : Except UploadError Blob × BlobEngine C :=
  match verifyDescriptor hashing declared accepted bytes with
  | .error error => (.error error, engine)
  | .ok descriptor =>
    match policy.plan.writablePlan (engine.writable api) with
    | none => (.error .noWritablePlacement, engine)
    | some plan =>
      match landAll api hashing descriptor.sha512 bytes plan engine ∅ with
      | (.error error, engine) => (.error error, engine)
      | (.ok landed, engine) => (.ok ⟨descriptor, landed, policy.serveOrder landed.verified⟩, engine)

/-- The first holder of a list that serves the content. -/
def fetchFrom (engine : BlobEngine C) (blob : Blob) : List StoreId → Except FetchError Bytes
  | [] => .error .noCleanHolder
  | store :: rest =>
    if blob.placement[store]? ≠ some .verified then fetchFrom engine blob rest
    else
      match engine.connectorFor store with
      | none => fetchFrom engine blob rest
      | some connector =>
        match hashing.fetchVerified api blob.descriptor.sha512 connector with
        | .ok bytes => .ok bytes
        | .error _ => fetchFrom engine blob rest

/-- A fetch probes the verified holders in the read order. -/
def fetch (engine : BlobEngine C) (blob : Blob) (visible : Bool) : Except FetchError Bytes :=
  if !visible then .error .denied else engine.fetchFrom api hashing blob blob.serve

/-- Whether the connector of a store delivers other bytes than the content. -/
def tampers (engine : BlobEngine C) (digest : Sha512) (store : StoreId) : Bool :=
  (engine.connectorFor store).any fun connector =>
    match hashing.fetchVerified api digest connector with
    | .error (.tampered _ _) => true
    | _ => false

/-- A verified copy that hashes wrong becomes corrupt. -/
def demoteCorrupt (engine : BlobEngine C) (blob : Blob) : Blob :=
  let corrupt := (blob.placement.toList.filter fun copy =>
    copy.2 = .verified && engine.tampers api hashing blob.descriptor.sha512 copy.1).map Prod.fst
  { blob with placement := corrupt.foldl (fun copies store => copies.insert store .corrupt) blob.placement }

/-- The bytes of the first verified holder that serves the content. -/
def verifiedSource (engine : BlobEngine C) (blob : Blob) : Option Bytes :=
  (blob.placement.toList.filter fun copy => copy.2 = .verified).findSome? fun copy =>
    (engine.connectorFor copy.1).bind fun connector =>
      (hashing.fetchVerified api blob.descriptor.sha512 connector).toOption

/-- A pass fills the plan of a new write and repairs the corrupt copies of writable stores. -/
def repairTargets (engine : BlobEngine C) (blob : Blob) (placement : Placement) : List StoreId :=
  let fill := ((placement.writablePlan (engine.writable api)).getD []).filter fun store =>
    blob.placement[store]? ≠ some .verified
  blob.placement.toList.foldl (fun targets copy =>
    if copy.2 = .corrupt ∧ engine.writable api copy.1 ∧ !targets.contains copy.1 then targets ++ [copy.1]
    else targets) fill

/-- The object of a digest is deleted at the connector of a store. -/
def clear (engine : BlobEngine C) (digest : Sha512) (store : StoreId) : BlobEngine C :=
  match engine.connectorName store with
  | none => engine
  | some name =>
    match engine.connectors[name]? with
    | none => engine
    | some connector => engine.write name (api.delete connector digest).2

/-- A repair deletes the object of the destination before it lands the fresh copy. -/
def copyAndVerify (engine : BlobEngine C) (digest : Sha512) (bytes : Bytes) (store : StoreId) :
    Bool × BlobEngine C :=
  match (engine.clear api digest store).landCopy api hashing digest bytes store with
  | (.ok _, engine) => (true, engine)
  | (.error _, engine) => (false, engine)

/-- The repairs of a pass. A copy that lands becomes verified. -/
def repairAll (digest : Sha512) (bytes : Bytes) :
    List StoreId → BlobEngine C → Copies → BlobEngine C × Copies
  | [], engine, copies => (engine, copies)
  | store :: rest, engine, copies =>
    match engine.copyAndVerify api hashing digest bytes store with
    | (true, engine) => repairAll digest bytes rest engine (copies.insert store .verified)
    | (false, engine) => repairAll digest bytes rest engine copies

/-- A pass demotes the corrupt copies and repairs from a verified holder. -/
def reconcile (engine : BlobEngine C) (blob : Blob) (policy : PlacementPolicy) : BlobEngine C × Blob :=
  let demoted := engine.demoteCorrupt api hashing blob
  match engine.verifiedSource api hashing demoted with
  | none => (engine, demoted)
  | some source =>
    let (engine, copies) := repairAll api hashing blob.descriptor.sha512 source
      (engine.repairTargets api demoted policy.plan) engine demoted.placement
    (engine, { demoted with placement := copies, serve := policy.serveOrder copies.verified })

end BlobEngine

end Engines

section Worlds

/-- An engine with the occurrences that were committed. -/
structure World (C : Type) where
  engine : BlobEngine C
  blobs : List Blob

/-- What happens to a world. The connectors and the store rows may change in any way between the operations. -/
inductive Operation (C : Type)
  | upload (declared : DeclaredDescriptor) (accepted : AcceptedType) (policy : PlacementPolicy) (bytes : Bytes)
  | fetch (index : Nat) (visible : Bool)
  | reconcile (index : Nat) (policy : PlacementPolicy)
  | environment (engine : BlobEngine C)

variable {C : Type} (api : BlobConnector C) (hashing : Hashing)

/-- An upload commits an occurrence, and a pass replaces one. -/
def World.step (world : World C) : Operation C → World C
  | .upload declared accepted policy bytes =>
    match world.engine.upload api hashing declared accepted policy bytes with
    | (.ok blob, engine) => ⟨engine, world.blobs ++ [blob]⟩
    | (.error _, engine) => ⟨engine, world.blobs⟩
  | .fetch _ _ => world
  | .reconcile index policy =>
    match world.blobs[index]? with
    | none => world
    | some blob =>
      let (engine, blob) := world.engine.reconcile api hashing blob policy
      ⟨engine, world.blobs.set index blob⟩
  | .environment engine => ⟨engine, world.blobs⟩

end Worlds

end Liasse.Blobs
