/-
This file proves that a role that exists and a role that does not give the same reply to every caller
that the role does not admit.
-/

import Liasse.Codes.Listing
import Liasse.Store.Memory
import Liasse.Surface.Pipeline

namespace Liasse.Surface

open Codes Live

section Refusals

variable {rt : Runtime} [DecidableEq rt.RowId]

/-- A session is refused as a session. -/
theorem SessionSource.resolve_error {source : SessionSource} {reader : StateReader rt} {key : Value}
    {denial : Denial} (refused : source.resolve reader key = .error denial) :
    denial.reason = .sessionInvalid := by
  unfold SessionSource.resolve at refused
  split at refused
  · next row _ =>
      rcases bind_error.mp refused with expiry | ⟨expiresAt, -, later⟩
      · unfold expiryOf at expiry
        split at expiry <;> cases expiry
        rfl
      · dsimp only at later
        split at later
        · split at later <;> cases later
          rfl
        · cases later
          rfl
  · cases refused
    rfl
  · cases refused
    rfl
  · cases refused
    rfl

namespace SessionAuthenticator

/-- An actor is refused as an actor. -/
theorem actor_error {authenticator : SessionAuthenticator} {reader : StateReader rt} {account : Value}
    {denial : Denial} (refused : authenticator.actor reader account = .error denial) :
    denial.reason = .actorUnresolved := by
  unfold actor at refused
  split at refused <;> cases refused <;> rfl

/-- The refusal of a credential is not the refusal of a name. -/
theorem resolve_error {authenticator : SessionAuthenticator} {credential : Value}
    {reader : StateReader rt} {denial : Denial}
    (refused : authenticator.resolve credential reader = .error denial) :
    denial.reason ≠ .unresolved := by
  unfold resolve at refused
  rcases bind_error.mp refused with unverified | ⟨claims, -, refused⟩
  · obtain ⟨message, -, rfl⟩ := mapError_error.mp unverified
    exact DenialReason.noConfusion
  rcases bind_error.mp refused with unbound | ⟨-, -, refused⟩
  · unfold bound at unbound
    split at unbound <;> cases unbound
    exact DenialReason.noConfusion
  have actorFailed {account : Value} {next : Value → Except Denial AuthContext}
      (total : ∀ actor, next actor ≠ .error denial)
      (failed : (authenticator.actor reader account >>= next) = .error denial) :
      denial.reason ≠ .unresolved := by
    rcases bind_error.mp failed with absent | ⟨actor, -, later⟩
    · rw [actor_error absent]
      exact DenialReason.noConfusion
    · exact absurd later (total actor)
  split at refused
  · split at refused
    · rcases bind_error.mp refused with invalid | ⟨⟨session, account⟩, -, refused⟩
      · rw [SessionSource.resolve_error invalid]
        exact DenialReason.noConfusion
      · exact actorFailed (by rintro _ ⟨⟩) refused
    · cases refused
      exact DenialReason.noConfusion
  · split at refused
    · exact actorFailed (by rintro _ ⟨⟩) refused
    · cases refused
      exact DenialReason.noConfusion

end SessionAuthenticator

namespace SurfaceHost

/-- The refusal of a selection is not the refusal of a name. -/
theorem verifySelection_error {host : SurfaceHost rt} {role : Role} {selection : AuthSelection}
    {denial : Denial} (refused : host.verifySelection role selection = .error denial) :
    denial.reason ≠ .unresolved := by
  unfold verifySelection at refused
  split at refused
  · cases refused
    exact DenialReason.noConfusion
  · split at refused
    · cases refused
      exact DenialReason.noConfusion
    · exact SessionAuthenticator.resolve_error refused

/-- A refusal over a role that is hidden is the refusal of a name. -/
theorem authorizeRole_hidden {host : SurfaceHost rt} {role : Role} {selection : AuthSelection}
    {scope : List Value} {denial : Denial}
    (refused : host.authorizeRole role selection scope = .error denial) (name : String) :
    hideUnenumerableDenial (.role name) false denial = unresolvedName := by
  rcases bind_error.mp refused with unverified | ⟨context, -, outside⟩
  · have shown := verifySelection_error unverified
    simp only [hideUnenumerableDenial, Bool.not_false, Bool.true_and, decide_eq_true_eq]
    exact if_pos shown
  · split at outside <;> cases outside
    rfl

end SurfaceHost

end Refusals

section Admission

variable {rt : Runtime} [DecidableEq rt.RowId]

/-- The role exists, and the selection of the request resolves to an actor that holds the role for the
scope. -/
def SurfaceHost.Admits (host : SurfaceHost rt) (id role : String) (request : SurfaceHost.Request rt) :
    Prop :=
  ∃ roleDef selection context, host.router.role role = some roleDef ∧
    host.callSelection id request.context request.auth = .ok selection ∧
    host.authorizeRole roleDef selection request.scope = .ok context

namespace SurfaceHost

/-- The caller has no authority over the role that the host has recorded: the request carries its own
selection, or no context is bound, or its context is bound to another role, or to the role for an actor
that was not a member. -/
def Unestablished (host : SurfaceHost rt) (id role : String) (request : Request rt) : Prop :=
  host.established id request.context request.auth role = false

/-- A caller without authority is admitted to the role or is refused as for an unknown name. -/
theorem authorizeRequest_unestablished {host : SurfaceHost rt} {id role : String} {request : Request rt}
    (unestablished : host.Unestablished id role request) :
    host.Admits id role request ∨
      host.authorizeRequest id role request.context request.auth request.scope =
        .error unresolvedName := by
  unfold authorizeRequest
  split
  · exact .inr rfl
  · next roleDef known =>
      cases chosen : host.callSelection id request.context request.auth with
      | error denial =>
        right
        have hidden : hideUnenumerableDenial (.role role) false denial = unresolvedName := by
          unfold callSelection at chosen
          split at chosen
          · cases chosen
          · split at chosen
            · cases chosen
              rfl
            · split at chosen <;> cases chosen
              rfl
        exact congrArg Except.error hidden
      | ok selection =>
        cases outcome : host.authorizeRole roleDef selection request.scope with
        | ok context => exact .inl ⟨roleDef, selection, context, known, chosen, outcome⟩
        | error denial =>
          right
          change (host.authorizeRole roleDef selection request.scope).mapError _ = _
          rw [unestablished, outcome]
          exact congrArg Except.error (authorizeRole_hidden outcome role)

/-- A name that is no role is refused. -/
theorem authorizeRequest_unknown {host : SurfaceHost rt} {id role : String} {request : Request rt}
    (unknown : host.router.role role = none) :
    host.authorizeRequest id role request.context request.auth request.scope =
      .error unresolvedName := by
  rw [authorizeRequest, unknown]

end SurfaceHost

end Admission

section Replies

variable {rt : Runtime} [DecidableEq rt.RowId] [Ord rt.RowId] [DecidableEq Value]

namespace SurfaceHost

/-- A call that is not authorized is refused before its arguments are read. -/
theorem call_refused {host : SurfaceHost rt} {id : String} {request : SurfaceCall} {denial : Denial}
    (refused : host.resolveCall id request = .error (.denied denial)) :
    host.call id request =
      (host, if host.connections.contains id then .ok (.denied denial)
        else .error (.noConnection id)) := by
  have prepared : host.prepare id request = .error (.denied denial) := by
    rw [prepare, refused]
    rfl
  rw [call, prepared]
  cases host.connections.contains id <;> rfl

/-- A subscription that is not authorized is refused before its arguments are read. -/
theorem subscribe_refused {host : SurfaceHost rt} {id name : String} {address : SurfaceAddress}
    {args : Arguments} {auth : Option AuthSelection} {context : Option String} {scope : List Value}
    {window : Option (Window rt.RowId Value)} {denial : Denial}
    (refused : host.resolveView id address context auth scope = .error denial) :
    host.subscribe id name address args auth context scope window =
      (host, if host.connections.contains id then .ok (.denied denial)
        else .error (.noConnection id)) := by
  rw [subscribe, Std.ExtTreeMap.contains_eq_isSome_getElem?]
  cases host.connections[id]? with
  | none => rfl
  | some connection =>
    dsimp only
    rw [refused]
    rfl

omit [Ord rt.RowId] [DecidableEq Value] in
/-- A call under a role is resolved for an authorized caller only. -/
theorem resolveCall_refused {host : SurfaceHost rt} {id role : String} {request : SurfaceCall}
    (addressed : request.address.authority = .role role) {denial : Denial}
    (refused : host.authorizeRequest id role request.context request.auth request.scope =
      .error denial) :
    host.resolveCall id request = .error (.denied denial) := by
  rw [resolveCall, addressed]
  dsimp only
  rw [refused]
  rfl

omit [Ord rt.RowId] [DecidableEq Value] in
/-- A view under a role is resolved for an authorized caller only. -/
theorem resolveView_refused {host : SurfaceHost rt} {id role : String} {address : SurfaceAddress}
    {context : Option String} {auth : Option AuthSelection} {scope : List Value}
    (addressed : address.authority = .role role) {denial : Denial}
    (refused : host.authorizeRequest id role context auth scope = .error denial) :
    host.resolveView id address context auth scope = .error denial := by
  rw [resolveView, addressed]
  dsimp only
  rw [refused]
  rfl

/-- A request that is not authorized gets the refusal of its kind and leaves the host as it is. -/
theorem serve_refused {host : SurfaceHost rt} {id role : String} {request : Request rt}
    (addressed : request.address.authority = .role role) {denial : Denial}
    (refused : host.authorizeRequest id role request.context request.auth request.scope =
      .error denial) :
    host.serve id request =
      (host, if host.connections.contains id then .ok (request.refusal denial)
        else .error (.noConnection id)) := by
  cases request with
  | call request =>
    rw [serve, call_refused (resolveCall_refused addressed refused)]
    cases host.connections.contains id <;> rfl
  | watch request =>
    have quiet : host.resolveView id request.address request.context request.auth request.scope =
        .error denial := resolveView_refused addressed refused
    rw [serve, watch, subscribe_refused quiet]
    cases host.connections.contains id <;> rfl
  | resume request =>
    have quiet : host.resolveView id request.address request.context request.auth [] =
        .error denial := resolveView_refused addressed refused
    rw [serve, resume, subscribe_refused quiet]
    cases host.connections.contains id <;> rfl

/-- A caller that is not admitted gets the refusal of a name, whether the role exists or not. -/
theorem serve_outside {host : SurfaceHost rt} {id role : String} {request : Request rt}
    (addressed : request.address.authority = .role role)
    (unestablished : host.Unestablished id role request)
    (outside : ¬ host.Admits id role request) :
    host.serve id request =
      (host, if host.connections.contains id then .ok (request.refusal unresolvedName)
        else .error (.noConnection id)) :=
  serve_refused addressed ((authorizeRequest_unestablished unestablished).resolve_left outside)

omit [DecidableEq rt.RowId] [Ord rt.RowId] [DecidableEq Value] in
/-- The refusal of a request depends on its kind only. -/
theorem refusal_congr {request probe : Request rt} (kind : request.isCall = probe.isCall)
    (denial : Denial) : request.refusal denial = probe.refusal denial := by
  cases request <;> cases probe <;> first
    | rfl
    | exact Bool.noConfusion kind

/-- A role that exists and a name that is no role give one reply to a caller that the role does not
admit and that has no authority over it. The reply depends neither on the arguments nor on the data of
the host, and the hosts do not change. -/
theorem role_unenumerable {present absent : SurfaceHost rt} {id role ghost : String}
    {request probe : Request rt} (addressed : request.address.authority = .role role)
    (probed : probe.address.authority = .role ghost) (unknown : absent.router.role ghost = none)
    (kind : request.isCall = probe.isCall)
    (connected : present.connections.contains id = absent.connections.contains id)
    (unestablished : present.Unestablished id role request)
    (outside : ¬ present.Admits id role request) :
    (present.serve id request).2 = (absent.serve id probe).2 ∧
      (present.serve id request).1 = present ∧ (absent.serve id probe).1 = absent := by
  rw [serve_outside addressed unestablished outside,
    serve_refused probed (authorizeRequest_unknown unknown), refusal_congr kind, connected]
  exact ⟨rfl, rfl, rfl⟩

end SurfaceHost

end Replies

section Samples

/-- An engine with one account, which changes nothing. -/
abbrev staticRuntime : Runtime where
  Engine := Unit
  Hydrated := Unit
  Entropy := Unit
  Fault := Unit
  Response := Unit
  RowId := Nat
  head _ := .ok 0
  call _ _ _ _ := ((), (), .ok (.unchanged none))
  viewAtHead _ _ := .ok (some (.rows [⟨0, [("id", .int 7)], []⟩] ⟨[]⟩))
  viewWith _ _ _ _ := .ok none
  hydrate _ _ := .ok ()
  viewWithHydrated _ _ _ _ := .ok none
  scopedReceiver _ _ _ _ _ _ := .ok .unscoped
  surfaceViewParams _ _ := []
  rowIdentity _ := none

/-- The authenticator resolves its only valid credential to the account. -/
def keyAuthenticator : SessionAuthenticator where
  name := "key"
  verify credential :=
    if sameValue credential (.int 1) then .ok ⟨"key", none, some (.int 7)⟩ else .error "forged"
  session := none
  accounts := ⟨"accounts", "id"⟩

/-- The role that the account holds. -/
def memberRole : Role :=
  ⟨"member", ["key"], ⟨"members", "id"⟩, none⟩

/-- A host with the role and one call under it. -/
def memberHost : SurfaceHost staticRuntime where
  engine := ()
  router :=
    { publicSurfaces := ∅
      roles := (∅ : Std.ExtTreeMap String RoleGrant).insert "member"
        ⟨memberRole, (∅ : Std.ExtTreeMap String SurfaceBinding).insert "notes"
          ⟨none, (∅ : Std.ExtTreeMap String CallBinding).insert "add" ⟨"addNote", [], [], []⟩⟩⟩
      authenticators := (∅ : Std.ExtTreeMap String SessionAuthenticator).insert "key" keyAuthenticator }
  clock := Store.defaultNow
  entropy := ()
  connections := (∅ : Std.ExtTreeMap String (Connection staticRuntime)).insert "c" ⟨0, ∅, ∅⟩
  operations _ := none

/-- A call under a role with a credential of its own. -/
def noteCall (role : String) (credential : Value) : SurfaceCall :=
  ⟨⟨.role role, "notes", some "add"⟩, ∅, none, some ⟨"key", credential⟩, none, [], []⟩

open Classical in
/-- A caller with a forged credential cannot tell the role from a name that is no role. -/
theorem role_unenumerable_forged :
    (memberHost.serve "c" (.call (noteCall "member" (.int 2)))).2 =
      (memberHost.serve "c" (.call (noteCall "ghost" (.int 2)))).2 := by
  have outside : ¬ memberHost.Admits "c" "member" (.call (noteCall "member" (.int 2))) := by
    rintro ⟨roleDef, selection, context, known, chosen, held⟩
    obtain rfl : memberRole = roleDef := Option.some.inj known
    obtain rfl : ⟨"key", .int 2⟩ = selection := Except.ok.inj chosen
    cases held
  have unknown : memberHost.router.role "ghost" = none := rfl
  have unestablished :
      memberHost.Unestablished "c" "member" (.call (noteCall "member" (.int 2))) := rfl
  have addressed : (.call (noteCall "member" (.int 2)) : SurfaceHost.Request staticRuntime).address.authority =
      .role "member" := rfl
  have probed : (.call (noteCall "ghost" (.int 2)) : SurfaceHost.Request staticRuntime).address.authority =
      .role "ghost" := rfl
  exact (SurfaceHost.role_unenumerable addressed probed unknown rfl rfl unestablished outside).1

open Classical in
/-- A member with a credential of its own has no recorded authority, and it can tell the role from a
name that is no role. -/
theorem member_enumerates :
    memberHost.Unestablished "c" "member" (.call (noteCall "member" (.int 1))) ∧
      (memberHost.serve "c" (.call (noteCall "member" (.int 1)))).2 =
        .ok (.outcome (.unchanged 0 none)) ∧
      (memberHost.serve "c" (.call (noteCall "ghost" (.int 1)))).2 =
        .ok (.outcome (.denied unresolvedName)) :=
  ⟨rfl, rfl, rfl⟩

end Samples

end Liasse.Surface
