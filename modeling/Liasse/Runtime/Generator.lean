/-
This file derives the identifiers that the `uuid()` calls of one request produce.
-/

import Mathlib.Data.Fintype.BigOperators
import Liasse.Codes.Words
import Liasse.Runtime.State

namespace Liasse.Runtime

section Sources

/-- The handle of a source carries the identity of the map that issued it. -/
structure SourceId where
  map : BitVec 64
  index : BitVec 32
deriving DecidableEq

/-- A file has its path, and a synthetic source has a label. -/
inductive SourceName
  | file (path : String)
  | label (text : String)
deriving DecidableEq

structure Source where
  name : SourceName
  text : String
deriving DecidableEq

/-- The registered sources stay in the order of their registration. -/
structure SourceMap where
  id : BitVec 64
  sources : List Source

namespace SourceMap

/-- The index of a new source is the number of the sources before it. -/
def insert (map : SourceMap) (name : SourceName) (text : String) : SourceId × SourceMap :=
  (⟨map.id, BitVec.ofNat 32 map.sources.length⟩, { map with sources := map.sources ++ [⟨name, text⟩] })

def addLabel (map : SourceMap) (label text : String) : SourceId × SourceMap :=
  map.insert (.label label) text

/-- The registrations of one compilation, where each is a label with a text. -/
def addLabels (map : SourceMap) : List (String × String) → List SourceId × SourceMap
  | [] => ([], map)
  | entry :: rest =>
    let added := map.addLabel entry.1 entry.2
    let later := added.2.addLabels rest
    (added.1 :: later.1, later.2)

/-- The indices of successive registrations count on from the sources of the map. -/
theorem addLabels_indices (map : SourceMap) (entries : List (String × String)) :
    (map.addLabels entries).1.map SourceId.index =
      (List.range' map.sources.length entries.length).map (BitVec.ofNat 32) := by
  induction entries generalizing map with
  | nil => rfl
  | cons entry rest ih =>
    simp only [addLabels, List.map_cons, ih, List.length_cons, List.range'_succ]
    simp [addLabel, insert]

end SourceMap

/-- A span of bytes does not end before its start. -/
structure ByteSpan where
  start : BitVec 32
  stop : BitVec 32
  ordered : start ≤ stop
deriving DecidableEq

end Sources

section Derivation

/-- The finalizer that spreads the bits of a word. -/
def mix (word : BitVec 64) : BitVec 64 :=
  let first := (word ^^^ (word >>> 30)) * 0xBF58476D1CE4E5B9#64
  let second := (first ^^^ (first >>> 27)) * 0x94D049BB133111EB#64
  second ^^^ (second >>> 31)

/-- The word behind the first eight bytes of an identifier. -/
def lowWord (seed : BitVec 64) (source : SourceId) (site : ByteSpan) (generation : BitVec 64) : BitVec 64 :=
  seed ^^^ site.start.setWidth 64 * 0x9E3779B97F4A7C15#64
    ^^^ source.index.setWidth 64 * 0xC2B2AE3D27D4EB4F#64
    ^^^ generation * 0x2545F4914F6CDD1D#64

/-- The word behind the last eight bytes of an identifier. -/
def highWord (seed : BitVec 64) (source : SourceId) (site : ByteSpan) (generation : BitVec 64) : BitVec 64 :=
  seed.rotateLeft 32 ^^^ (site.stop.setWidth 64 + 0xD1B54A32D192ED03#64)
    ^^^ (source.index.setWidth 64).rotateLeft 17 * 0x165667B19E3779F9#64
    ^^^ generation.rotateLeft 29 * 0xBF58476D1CE4E5B9#64

/-- The identifier of a call at a place of a source, for the seed of a request and one generation. -/
def deriveUuid (seed : BitVec 64) (source : SourceId) (site : ByteSpan) (generation : BitVec 64) : Uuid where
  bytes := Codes.bytesBE 8 (mix (lowWord seed source site generation)) ++
    Codes.bytesBE 8 (mix (highWord seed source site generation))
  size := by simp

/-- Each step of the finalizer is reversible. -/
theorem mix_injective : Function.Injective mix := by
  have shifted {shift : Nat} (positive : 0 < shift) :
      Function.Injective fun word : BitVec 64 => word ^^^ (word >>> shift) := Codes.xorShift_injective positive
  have scaled {factor : BitVec 64} (odd : Odd factor.toNat) :
      Function.Injective fun word : BitVec 64 => word * factor := Codes.mul_injective odd
  have low : Odd (0xBF58476D1CE4E5B9#64).toNat := by decide
  have high : Odd (0x94D049BB133111EB#64).toNat := by decide
  have first := (scaled low).comp (shifted (show 0 < 30 by decide))
  have second := (scaled high).comp (shifted (show 0 < 27 by decide))
  have last := shifted (show 0 < 31 by decide)
  exact last.comp (second.comp first)

/-- The finalizer reaches every word, and no word twice. -/
theorem mix_bijective : Function.Bijective mix :=
  Finite.injective_iff_bijective.mp mix_injective

variable {seed seed' generation generation' : BitVec 64} {source source' : SourceId} {site site' : ByteSpan}

/-- Equal identifiers come from equal words in both halves. -/
theorem deriveUuid_words (same : deriveUuid seed source site generation = deriveUuid seed' source' site' generation') :
    lowWord seed source site generation = lowWord seed' source' site' generation' ∧
      highWord seed source site generation = highWord seed' source' site' generation' := by
  have bytes := congrArg Uuid.bytes same
  obtain ⟨low, high⟩ := List.append_inj bytes (by simp)
  exact ⟨mix_injective (Codes.bytesBE_injective 8 low), mix_injective (Codes.bytesBE_injective 8 high)⟩

theorem deriveUuid_seed (apart : seed ≠ seed') :
    deriveUuid seed source site generation ≠ deriveUuid seed' source site generation := by
  intro same
  have low := (deriveUuid_words same).1
  simp only [lowWord, BitVec.xor_left_inj] at low
  exact apart low

theorem deriveUuid_source (apart : source.index ≠ source'.index) :
    deriveUuid seed source site generation ≠ deriveUuid seed source' site generation := by
  intro same
  have low := (deriveUuid_words same).1
  simp only [lowWord, BitVec.xor_left_inj, BitVec.xor_right_inj] at low
  have wide := Codes.mul_injective (by decide) low
  exact apart (Codes.setWidth_injective (by decide) wide)

/-- The start of a span reaches the first half of an identifier, and its end reaches the second half. -/
theorem deriveUuid_site (apart : site ≠ site') :
    deriveUuid seed source site generation ≠ deriveUuid seed source site' generation := by
  intro same
  obtain ⟨low, high⟩ := deriveUuid_words same
  simp only [lowWord, BitVec.xor_left_inj, BitVec.xor_right_inj] at low
  simp only [highWord, BitVec.xor_left_inj, BitVec.xor_right_inj] at high
  have start := Codes.setWidth_injective (by decide) (Codes.mul_injective (by decide) low)
  have stop := Codes.setWidth_injective (by decide) (Codes.add_injective _ high)
  cases site
  cases site'
  simp_all

theorem deriveUuid_generation (apart : generation ≠ generation') :
    deriveUuid seed source site generation ≠ deriveUuid seed source site generation' := by
  intro same
  have low := (deriveUuid_words same).1
  simp only [lowWord, BitVec.xor_right_inj] at low
  exact apart (Codes.mul_injective (by decide) low)

end Derivation

section Requests

/-- The inputs of one derivation. -/
structure UuidInput where
  seed : BitVec 64
  source : SourceId
  site : ByteSpan
  generation : BitVec 64

def UuidInput.uuid (input : UuidInput) : Uuid :=
  deriveUuid input.seed input.source input.site input.generation

/-- Two derivations differ in exactly one of the four inputs. -/
inductive OneApart : UuidInput → UuidInput → Prop
  | seed {seed seed' source source' site generation} (apart : seed ≠ seed') (same : source.index = source'.index) :
      OneApart ⟨seed, source, site, generation⟩ ⟨seed', source', site, generation⟩
  | source {seed source source' site generation} (apart : source.index ≠ source'.index) :
      OneApart ⟨seed, source, site, generation⟩ ⟨seed, source', site, generation⟩
  | site {seed source source' site site' generation} (apart : site ≠ site') (same : source.index = source'.index) :
      OneApart ⟨seed, source, site, generation⟩ ⟨seed, source', site', generation⟩
  | generation {seed source source' site generation generation'} (apart : generation ≠ generation')
      (same : source.index = source'.index) :
      OneApart ⟨seed, source, site, generation⟩ ⟨seed, source', site, generation'⟩

/-- The derivation reads the index of a source and not the map that issued it. -/
theorem deriveUuid_map {seed generation : BitVec 64} {source source' : SourceId} {site : ByteSpan}
    (same : source.index = source'.index) :
    deriveUuid seed source site generation = deriveUuid seed source' site generation := by
  simp only [deriveUuid, lowWord, highWord, same]

theorem OneApart.uuid_ne {first second : UuidInput} (apart : OneApart first second) :
    first.uuid ≠ second.uuid := by
  simp only [UuidInput.uuid]
  cases apart with
  | seed apart same =>
    rw [← deriveUuid_map same]
    exact deriveUuid_seed apart
  | source apart => exact deriveUuid_source apart
  | site apart same =>
    rw [← deriveUuid_map same]
    exact deriveUuid_site apart
  | generation apart same =>
    rw [← deriveUuid_map same]
    exact deriveUuid_generation apart

/-- One call site gives a new identifier for each ordinal that a request draws. -/
theorem drawn_uuids_nodup (seed : BitVec 64) (source : SourceId) (site : ByteSpan) (prospective : Prospective)
    {requested : List Edit} (bounded : requested.length ≤ 2 ^ 64) :
    ((prospective.drawn requested).map fun ordinal =>
      deriveUuid seed source site (BitVec.ofNat 64 ordinal)).Nodup := by
  obtain ⟨count, fewer, drawn⟩ := prospective.drawn_eq requested
  rw [drawn, ← Function.comp_def (deriveUuid seed source site), ← List.map_map]
  refine (Codes.counted_nodup (fewer.trans bounded)).map fun first second same => ?_
  by_contra apart
  exact deriveUuid_generation apart same

/-- Two sources of one compilation give two identifiers for the same span of one row. -/
theorem source_uuids_nodup (seed : BitVec 64) (site : ByteSpan) (generation : BitVec 64) (map : SourceMap)
    {entries : List (String × String)} (bounded : entries.length ≤ 2 ^ 32) :
    ((map.addLabels entries).1.map fun source => deriveUuid seed source site generation).Nodup := by
  have indices : ((map.addLabels entries).1.map SourceId.index).Nodup := by
    rw [SourceMap.addLabels_indices]
    exact Codes.counted_nodup bounded
  refine (List.Nodup.of_map _ indices).map_on fun first inside second other same => ?_
  by_contra apart
  refine deriveUuid_source (fun index => apart ?_) same
  exact List.inj_on_of_nodup_map indices inside other index

/-- Derivations that differ in exactly one input differ, and so do the rows of one request and the defaults of
one row. -/
theorem derived_uuids_apart : Function.Bijective mix ∧
    (∀ first second : UuidInput, OneApart first second → first.uuid ≠ second.uuid) ∧
    (∀ seed source site (prospective : Prospective) (requested : List Edit), requested.length ≤ 2 ^ 64 →
      ((prospective.drawn requested).map fun ordinal =>
        deriveUuid seed source site (BitVec.ofNat 64 ordinal)).Nodup) ∧
    ∀ seed site generation (map : SourceMap) (entries : List (String × String)), entries.length ≤ 2 ^ 32 →
      ((map.addLabels entries).1.map fun source => deriveUuid seed source site generation).Nodup :=
  ⟨mix_bijective, fun _ _ => OneApart.uuid_ne,
    fun seed source site prospective _ => drawn_uuids_nodup seed source site prospective,
    fun seed site generation map _ => source_uuids_nodup seed site generation map⟩

theorem derived_uuids_sample :
    deriveUuid 7 ⟨0, 0⟩ ⟨0, 6, by decide⟩ 0 ≠ deriveUuid 7 ⟨0, 0⟩ ⟨0, 6, by decide⟩ 1 ∧
    ((Prospective.drawn ⟨∅, ∅, ∅, 0⟩ [.nextGeneration, .nextGeneration]).map fun ordinal =>
      deriveUuid 7 ⟨0, 0⟩ ⟨0, 6, by decide⟩ (BitVec.ofNat 64 ordinal)).Nodup ∧
    ((SourceMap.addLabels ⟨0, []⟩ [("id", "uuid()"), ("secret", "uuid()")]).1.map fun source =>
      deriveUuid 7 source ⟨0, 6, by decide⟩ 0).Nodup :=
  ⟨derived_uuids_apart.2.1 ⟨7, ⟨0, 0⟩, ⟨0, 6, by decide⟩, 0⟩ ⟨7, ⟨0, 0⟩, ⟨0, 6, by decide⟩, 1⟩
      (.generation (by decide) rfl),
    derived_uuids_apart.2.2.1 7 ⟨0, 0⟩ ⟨0, 6, by decide⟩ ⟨∅, ∅, ∅, 0⟩ [.nextGeneration, .nextGeneration] (by simp),
    derived_uuids_apart.2.2.2 7 ⟨0, 6, by decide⟩ 0 ⟨0, []⟩ [("id", "uuid()"), ("secret", "uuid()")] (by simp)⟩

end Requests

end Liasse.Runtime
