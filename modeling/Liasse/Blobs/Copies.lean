/-
This file tells when the copies of blobs are never made worse.
-/

import Liasse.Blobs.Engine
import Liasse.Codes.Table
import Liasse.Wire.Sample

namespace Liasse.Blobs

open Liasse.Codes Liasse.Wire

section Copies

variable {C : Type} (api : BlobConnector C) (hashing : Hashing)

section Statements

/-- A connector serves the content of a digest. -/
def Clean (digest : Sha512) (connector : C) : Prop :=
  ∃ bytes, hashing.fetchVerified api digest connector = .ok bytes

/-- A store serves the content of a digest. -/
def BlobEngine.Serves (engine : BlobEngine C) (digest : Sha512) (store : StoreId) : Prop :=
  ∃ connector, engine.connectorFor store = some connector ∧ Clean api hashing digest connector

/-- One call writes to one connector. -/
inductive Call (digest : Sha512) : BlobEngine C → BlobEngine C → Prop
  | upload {engine : BlobEngine C} {name : String} {connector : C}
      (found : engine.connectors[name]? = some connector) (bytes : Bytes) :
      Call digest engine (engine.write name (api.upload connector digest bytes).2)
  | delete {engine : BlobEngine C} {name : String} {connector : C}
      (found : engine.connectors[name]? = some connector) :
      Call digest engine (engine.write name (api.delete connector digest).2)

/-- A repair deletes the object of a digest and uploads some bytes. -/
def rewritten (digest : Sha512) (bytes : Bytes) (connector : C) : C :=
  (api.upload (api.delete connector digest).2 digest bytes).2

/-- The number of stores of a list that select a connector. -/
def BlobEngine.uses (engine : BlobEngine C) (name : String) (stores : List StoreId) : Nat :=
  stores.countP fun store => engine.connectorName store = some name

/-- A pass suits an occurrence when its policy names each verified holder and each repaired one, and when each
connector that serves the content serves it again after the repairs that overwrite it. -/
def Suits (world : World C) : Operation C → Prop
  | .reconcile index policy => ∀ blob, world.blobs[index]? = some blob → ∀ source,
      world.engine.verifiedSource api hashing (world.engine.demoteCorrupt api hashing blob) = some source →
        (∀ store, (world.engine.demoteCorrupt api hashing blob).placement[store]? = some .verified ∨
          store ∈ world.engine.repairTargets api (world.engine.demoteCorrupt api hashing blob) policy.plan →
            store ∈ policy.ordered) ∧
        ∀ store name connector, world.engine.connectorName store = some name →
          world.engine.connectors[name]? = some connector → Clean api hashing blob.descriptor.sha512 connector →
            Clean api hashing blob.descriptor.sha512
              ((rewritten api blob.descriptor.sha512 source)^[world.engine.uses name
                (world.engine.repairTargets api (world.engine.demoteCorrupt api hashing blob) policy.plan)] connector)
  | _ => True

/-- The worlds that suitable steps reach from an engine without occurrences. -/
inductive Reached : World C → Prop
  | start (engine : BlobEngine C) : Reached ⟨engine, []⟩
  | step {world : World C} {operation : Operation C} (reached : Reached world)
      (suits : Suits api hashing world operation) : Reached (world.step api hashing operation)

end Statements

variable {api hashing}

section Fetching

variable {engine : BlobEngine C} {digest : Sha512}

end Fetching

section Landing

variable {engine : BlobEngine C} {digest : Sha512} {bytes : Bytes}

end Landing

section Repairs

variable {engine : BlobEngine C} {digest : Sha512} {bytes : Bytes}

variable (api hashing)

end Repairs

section Occurrences

variable {engine : BlobEngine C}

end Occurrences

section Runs

variable {world : World C} {operation : Operation C}

end Runs

end Copies

section Deciding

variable {C : Type} {api : BlobConnector C} {hashing : Hashing} {digest : Sha512}

theorem clean_iff {connector : C} :
    Clean api hashing digest connector ↔ (hashing.fetchVerified api digest connector).toOption.isSome = true := by
  rw [Clean]
  cases hashing.fetchVerified api digest connector <;> simp [Except.toOption]

end Deciding

namespace Sample

section Texts

def hexDigits (byte : UInt8) : List Char :=
  [Nat.digitChar (byte.toNat / 16), Nat.digitChar (byte.toNat % 16)]

def toHex (bytes : Bytes) : String :=
  .ofList (bytes.flatMap hexDigits)

def digitValue (char : Char) : Option Nat :=
  (List.range 16).find? fun digit => Nat.digitChar digit = char

def bytesOf : List Char → Option Bytes
  | [] => some []
  | [_] => none
  | high :: low :: rest => do
      let first ← digitValue high
      let second ← digitValue low
      some (.ofNat (16 * first + second) :: (← bytesOf rest))

theorem digitValue_digitChar {digit : Nat} (bound : digit < 16) : digitValue (Nat.digitChar digit) = some digit := by
  interval_cases digit <;> decide

theorem bytesOf_hexDigits (bytes : Bytes) : bytesOf (bytes.flatMap hexDigits) = some bytes := by
  induction bytes with
  | nil => rfl
  | cons byte rest ih =>
    have bound := byte.toNat_lt
    rw [List.flatMap_cons, hexDigits, List.cons_append, List.cons_append, List.nil_append, bytesOf,
      digitValue_digitChar (by omega), digitValue_digitChar (by omega), ih]
    simp only [Option.bind_eq_bind, Option.bind_some, Nat.div_add_mod, UInt8.ofNat_toNat]

def libraries : Libraries :=
  { Wire.Sample.libraries with
    toHex := toHex
    fromHex := fun text => ((bytesOf text.toList).map Except.ok).getD (.error "invalid length") }

theorem hex (bytes : Bytes) : libraries.fromHex (libraries.toHex bytes) = .ok bytes := by
  change ((bytesOf (String.ofList (bytes.flatMap hexDigits)).toList).map Except.ok).getD _ = _
  rw [String.toList_ofList, bytesOf_hexDigits]
  rfl

end Texts

section Disks

/-- A disk keeps objects. A full disk refuses uploads. -/
structure Disk where
  objects : List (Sha512 × Bytes)
  full : Bool
deriving DecidableEq

def disks : BlobConnector Disk where
  capabilities _ := [.streamUpload, .delete]
  upload disk digest bytes :=
    if disk.full then (.error (.failed "disk full"), disk)
    else (.ok (), { disk with objects := (digest, bytes) :: disk.objects })
  fetch disk digest := ((disk.objects.lookup digest).map Except.ok).getD (.error .notFound)
  delete disk digest := (.ok (), { disk with objects := disk.objects.filter fun object => object.1 ≠ digest })
  observeUsage _ := .ok ()

/-- The digest of the empty content. -/
def empty : Sha512 :=
  ⟨[0xcf, 0x83, 0xe1, 0x35, 0x7e, 0xef, 0xb8, 0xbd, 0xf1, 0x54, 0x28, 0x50, 0xd6, 0x6d, 0x80, 0x07,
    0xd6, 0x20, 0xe4, 0x05, 0x0b, 0x57, 0x15, 0xdc, 0x83, 0xf4, 0xa9, 0x21, 0xd3, 0x6c, 0xe9, 0xce,
    0x47, 0xd0, 0xd1, 0x3c, 0x5d, 0x85, 0xf2, 0xb0, 0xff, 0x83, 0x18, 0xd2, 0x87, 0x7e, 0xec, 0x2f,
    0x63, 0xb9, 0x31, 0xbd, 0x47, 0x41, 0x7a, 0x81, 0xa5, 0x38, 0x32, 0x7a, 0xf9, 0x27, 0xda, 0x3e], rfl⟩

def hashing : Hashing :=
  ⟨libraries, fun _ => empty⟩

/-- The upload of the empty content to one store. -/
def upload : Operation Disk :=
  .upload ⟨hashing.canonicalText empty, 0, "text/plain", none⟩ ⟨16, ["text/plain"]⟩ ⟨.view ["a"], none⟩ []

/-- Two stores that select one disk. -/
def shared (disk : Disk) : BlobEngine Disk :=
  ⟨.ofList [("disk", disk)] compareText, [⟨"a", "disk", true⟩, ⟨"b", "disk", true⟩]⟩

/-- A disk that becomes full after the upload. -/
def filled : World Disk :=
  ((World.mk (shared ⟨[], false⟩) []).step disks hashing upload).step disks hashing
    (.environment (shared ⟨[(empty, [])], true⟩))

/-- Two stores that select a disk each. -/
def apart (first second : Disk) : BlobEngine Disk :=
  ⟨.ofList [("first", first), ("second", second)] compareText, [⟨"a", "first", true⟩, ⟨"b", "second", true⟩]⟩

/-- The policy moves to another store, and then this store loses its object. -/
def moved : World Disk :=
  (((World.mk (apart ⟨[], false⟩ ⟨[], false⟩) []).step disks hashing upload).step disks hashing
    (.reconcile 0 ⟨.view ["b"], none⟩)).step disks hashing (.environment (apart ⟨[(empty, [])], false⟩ ⟨[], false⟩))

end Disks

end Sample

section Losses

end Losses

end Liasse.Blobs
