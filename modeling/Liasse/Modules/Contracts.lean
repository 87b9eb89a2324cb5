/-
This file tells when a package satisfies the contracts of a module space, what a release keeps of an earlier
one, and how an update groups the exposed interfaces.
-/

import Liasse.Modules.Lifecycle

namespace Liasse.Modules

open Codes Liasse.Host Liasse.Runtime

section Contracts

variable {M : Type} [Package M]

/-- A bound mutation reads declared parameters only, and it returns the declared fields. -/
structure MutationMet (declared : InterfaceMut) (bound : MutationContract) : Prop where
  params : ∀ names, declared.params = some names → ∀ param ∈ bound.params, param ∈ names
  returns : ∀ fields response, declared.returnFields = some fields → bound.response = some response →
    ∀ field ∈ fields, (response[field.1]?).bind ExprType.asScalar = some field.2

/-- An exposed interface has the declared fields with their types, and its bound mutations satisfy the
declared ones. -/
structure ContractMet (contract : InterfaceContract) (package : M) : Prop where
  fields : ∀ view, Package.exposedView package contract.name = some view →
    ∀ field ∈ contract.viewFields, field ∈ (Package.exposedViewFields package contract.name).getD []
  muts : ∀ declared ∈ contract.muts, ∀ bound,
    Package.exposedMutationContract package contract.name declared.name = some bound →
      MutationMet declared bound

/-- An exposed interface with declared fields shows rows. -/
def ShowsRows (contract : InterfaceContract) (package : M) : Prop :=
  ∀ view, Package.exposedView package contract.name = some view → contract.viewFields ≠ [] →
    (Package.rowFields view.type).isSome

theorem checkParams_ok {contract : InterfaceContract} {declared : InterfaceMut}
    {bound : MutationContract} :
    checkParams contract declared bound = .ok ⟨⟩ ↔
      ∀ names, declared.params = some names → ∀ param ∈ bound.params, param ∈ names := by
  rw [checkParams]
  cases declared.params with
  | none => simp
  | some names =>
    dsimp only
    cases found : bound.params.find? fun param => !names.contains param with
    | none =>
      rw [List.find?_eq_none] at found
      simpa using found
    | some param =>
      have outside := List.find?_some found
      have inside := List.mem_of_find?_eq_some found
      simp only [reduceCtorEq, false_iff]
      intro all
      simp [all names rfl param inside] at outside

theorem checkReturn_ok {contract : InterfaceContract} {declared : InterfaceMut}
    {bound : MutationContract} :
    checkReturn contract declared bound = .ok ⟨⟩ ↔
      ∀ fields response, declared.returnFields = some fields → bound.response = some response →
        ∀ field ∈ fields, (response[field.1]?).bind ExprType.asScalar = some field.2 := by
  rw [checkReturn]
  cases declared.returnFields with
  | none => simp
  | some fields =>
    cases bound.response with
    | none => simp
    | some response =>
      dsimp only
      cases found : fields.find? fun field =>
          decide ((response[field.1]?).bind ExprType.asScalar ≠ some field.2) with
      | none =>
        rw [List.find?_eq_none] at found
        simpa using found
      | some field =>
        have outside := List.find?_some found
        have inside := List.mem_of_find?_eq_some found
        simp only [reduceCtorEq, false_iff]
        intro all
        simp [all fields response rfl rfl field inside] at outside

/-- The check of the mutations decides whether all of them are met. -/
theorem checkInterfaceMuts_ok {contract : InterfaceContract} {package : M} :
    checkInterfaceMuts contract package = .ok ⟨⟩ ↔ ∀ declared ∈ contract.muts, ∀ bound,
      Package.exposedMutationContract package contract.name declared.name = some bound →
        MutationMet declared bound := by
  rw [checkInterfaceMuts, forM_ok]
  refine forall_congr' fun declared => imp_congr_right fun _ => ?_
  cases Package.exposedMutationContract package contract.name declared.name with
  | none => simp
  | some bound =>
    simp only [bind_ok, Option.some.injEq, forall_eq']
    constructor
    · rintro ⟨_, params, returns⟩
      exact ⟨checkParams_ok.mp params, checkReturn_ok.mp returns⟩
    · intro met
      exact ⟨⟨⟩, checkParams_ok.mpr met.params, checkReturn_ok.mpr met.returns⟩

/-- A view that shows rows and passes the check has the declared fields. -/
theorem checkView_ok {contract : InterfaceContract} {package : M}
    (passed : checkView contract package = .ok ⟨⟩) (shows : ShowsRows contract package) :
    ∀ view, Package.exposedView package contract.name = some view →
      ∀ field ∈ contract.viewFields, field ∈ (Package.exposedViewFields package contract.name).getD [] := by
  intro view exposed field declared
  obtain ⟨fields, rows⟩ := Option.isSome_iff_exists.mp (shows view exposed (List.ne_nil_of_mem declared))
  rw [checkView] at passed
  cases listed : Package.exposedViewFields package contract.name with
  | none =>
    rw [Package.exposedViewFields, exposed] at listed
    simp [rows] at listed
  | some shown =>
    rw [listed] at passed
    dsimp only at passed
    cases found : contract.viewFields.find? fun field => !shown.contains field with
    | some missing =>
      rw [found] at passed
      cases passed
    | none =>
      rw [List.find?_eq_none] at found
      simpa using found field declared

/-- A package that passes the check and shows rows satisfies every contract. -/
theorem checkContracts_met {contracts : List InterfaceContract} {package : M}
    (passed : checkContracts contracts package = .ok ⟨⟩)
    (shows : ∀ contract ∈ contracts, ShowsRows contract package) :
    ∀ contract ∈ contracts, ContractMet contract package := by
  intro contract inside
  obtain ⟨_, view, muts⟩ := bind_ok.mp (forM_ok.mp passed contract inside)
  exact ⟨checkView_ok view (shows contract inside), checkInterfaceMuts_ok.mp muts⟩

end Contracts

section Releases

variable {M : Type} [Package M]

/-- A release of a package has its text and what it compiles to. -/
structure Release (M : Type) where
  text : String
  package : M

namespace Release

/-- The major of a release. -/
def major (release : Release M) : Nat :=
  (Package.version release.package).major

/-- The exposed surface of a release. -/
def surface (release : Release M) : ExposedSurface :=
  ExposedSurface.read (Package.parse M release.text)

/-- The fields that a release exposes through a view. A pass-through exposes every field of its source. -/
def fields (release : Release M) (interface : String) : ViewSurface → Finset String
  | .fields names => names
  | .all => ((((Package.exposedView release.package interface).bind fun view =>
    Package.rowFields view.type).getD []).map Prod.fst).toFinset

/-- A later release has the exposed interfaces of an earlier one with their fields and operations. -/
def Keeps (earlier later : Release M) : Prop :=
  Covers (fun _ _ => True) earlier.surface later.surface ∧
    ∀ (interface : String) before after, earlier.surface[interface]? = some before →
      later.surface[interface]? = some after →
        earlier.fields interface before.view ⊆ later.fields interface after.view ∧
          ∀ operation : String, operation ∈ before.operations → operation ∈ after.operations

theorem Keeps.trans {first second third : Release M} (lower : first.Keeps second)
    (upper : second.Keeps third) : first.Keeps third := by
  refine ⟨lower.1.trans upper.1 fun _ _ _ _ _ _ _ _ _ => trivial, fun interface x z atFirst atThird => ?_⟩
  obtain ⟨y, atSecond, -⟩ := lower.1 interface x atFirst
  obtain ⟨left, kept⟩ := lower.2 interface x y atFirst atSecond
  obtain ⟨right, also⟩ := upper.2 interface y z atSecond atThird
  exact ⟨left.trans right, fun operation inside => also operation (kept operation inside)⟩

/-- A view that is a pass-through on one side loses no field. -/
def PassesThrough (earlier later : Release M) : Prop :=
  ∀ (interface : String) before after, earlier.surface[interface]? = some before →
    later.surface[interface]? = some after → before.view = .all ∨ after.view = .all →
      earlier.fields interface before.view ⊆ later.fields interface after.view

/-- A target that the narrowing check accepts keeps the active release when its pass-throughs do. -/
theorem keeps_of_widened {earlier later : Release M}
    (widened : exposedNarrowing (Package.alphanumeric M) (Package.parse M earlier.text)
      (Package.parse M later.text) = none) (passes : earlier.PassesThrough later) :
    earlier.Keeps later := by
  have covers := (exposedNarrowing_eq_none (Package.alphanumeric M)).mp widened
  refine ⟨covers.imp fun _ _ _ => trivial, fun interface before after atEarlier atLater => ?_⟩
  obtain ⟨other, found, kept⟩ := covers interface before atEarlier
  obtain rfl : other = after := Option.some.inj (found.symm.trans atLater)
  refine ⟨?_, kept.operations⟩
  cases views : before.view with
  | all => exact views ▸ passes interface before other atEarlier atLater (.inl views)
  | fields theirs =>
    cases others : other.view with
    | all => exact views ▸ others ▸ passes interface before other atEarlier atLater (.inr others)
    | fields mine => exact kept.fields mine theirs others views

end Release

/-- One release follows another under the same major only when it keeps it. -/
def Follows (earlier later : Release M) : Prop :=
  earlier.major = later.major → earlier.Keeps later

/-- Releases of one major in a row each keep all the earlier ones. -/
theorem pairwise_keeps {releases segment : List (Release M)} (chain : releases.IsChain Follows)
    (inside : segment <:+: releases) {major : Nat} (one : ∀ release ∈ segment, release.major = major) :
    segment.Pairwise Release.Keeps := by
  have : IsTrans (Release M) Release.Keeps := ⟨fun _ _ _ => Release.Keeps.trans⟩
  have within : segment.IsChain Follows := List.IsChain.infix chain inside
  have kept : segment.IsChain Release.Keeps :=
    within.imp_of_mem_imp fun earlier later first second follows =>
      follows ((one earlier first).trans (one later second).symm)
  exact kept.pairwise

end Releases

section Grouping

end Grouping

end Liasse.Modules
