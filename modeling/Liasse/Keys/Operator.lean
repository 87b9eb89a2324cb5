/-
This file models the operations of an operator on a keyring and proves when each version only moves
forward through its life.
-/

import Liasse.Keys.Lazy

namespace Liasse.Keys

section Order

/-- The place of a state in the life of a version. -/
def KeyState.rank : KeyState → Nat
  | .pending => 0
  | .active => 1
  | .retired => 2
  | .destroyed => 3
  | .revoked => 3

/-- A version moves forward through its life. It leaves neither the destroyed nor the revoked state. -/
def KeyState.Forward (first second : KeyState) : Prop :=
  first = second ∨ first.rank < second.rank

instance (first second : KeyState) : Decidable (first.Forward second) :=
  inferInstanceAs (Decidable (_ ∨ _))

/-- A version that is revoked or destroyed has no later state. -/
def KeyState.Ended (state : KeyState) : Prop :=
  state = .revoked ∨ state = .destroyed

namespace KeyState.Forward

variable {first second third : KeyState}

theorem refl (state : KeyState) : state.Forward state :=
  .inl rfl

theorem trans (before : first.Forward second) (after : second.Forward third) : first.Forward third := by
  rcases before with rfl | before
  · exact after
  · rcases after with rfl | after
    · exact .inr before
    · exact .inr (before.trans after)

theorem ended (forward : first.Forward second) (ended : first.Ended) : second = first := by
  rcases forward with rfl | above
  · rfl
  · rcases ended with rfl | rfl <;> cases second <;> exact absurd above (by decide)

end KeyState.Forward

/-- A version keeps its identity and moves forward. -/
def Lifecycle.Moves (first second : Lifecycle) : Prop :=
  first.id = second.id ∧ first.state.Forward second.state

theorem Lifecycle.Moves.refl (life : Lifecycle) : life.Moves life :=
  ⟨rfl, .refl _⟩

theorem Lifecycle.Moves.trans {first second third : Lifecycle} (before : first.Moves second)
    (after : second.Moves third) : first.Moves third :=
  ⟨before.1.trans after.1, before.2.trans after.2⟩

/-- Each version moves forward at its place, and a version that joins has a later identity than each
version before it. -/
structure Follows (first second : List Lifecycle) : Prop where
  moves : ∀ (index : Nat) (life : Lifecycle), first[index]? = some life →
    ∃ later, second[index]? = some later ∧ life.Moves later
  joins : ∀ (index : Nat) (life : Lifecycle), first.length ≤ index → second[index]? = some life →
    ∀ earlier ∈ first, earlier.id < life.id

namespace Follows

variable {first second third : List Lifecycle}

/-- A list of the same length whose versions move forward. -/
theorem of_moves (moves : ∀ (index : Nat) (life : Lifecycle), first[index]? = some life →
      ∃ later, second[index]? = some later ∧ life.Moves later)
    (same : second.length = first.length) : Follows first second where
  moves := moves
  joins := by
    intro index life beyond found
    rw [List.getElem?_eq_none_iff.mpr (same ▸ beyond)] at found
    cases found

theorem refl (lives : List Lifecycle) : Follows lives lives :=
  of_moves (fun _ life found => ⟨life, found, .refl life⟩) rfl

theorem append {life : Lifecycle} (later : ∀ earlier ∈ first, earlier.id < life.id) :
    Follows first (first ++ [life]) where
  moves := by
    intro index life found
    obtain ⟨inside, _⟩ := List.getElem?_eq_some_iff.mp found
    exact ⟨life, by rwa [List.getElem?_append_left inside], .refl life⟩
  joins := by
    intro index joined beyond found
    rw [List.getElem?_append_right beyond, List.getElem?_singleton] at found
    split at found
    · cases found
      exact later
    · cases found

theorem trans (before : Follows first second) (after : Follows second third) : Follows first third where
  moves := by
    intro index life found
    obtain ⟨middle, at_, moved⟩ := before.moves index life found
    obtain ⟨last, final, carried⟩ := after.moves index middle at_
    exact ⟨last, final, moved.trans carried⟩
  joins := by
    intro index life beyond found earlier inside
    cases between : second[index]? with
    | some middle =>
      obtain ⟨last, final, carried⟩ := after.moves index middle between
      rw [found] at final
      cases final
      exact (before.joins index middle beyond between earlier inside).trans_eq carried.1
    | none =>
      obtain ⟨place, at_⟩ := List.mem_iff_getElem?.mp inside
      obtain ⟨moved, listed, kept⟩ := before.moves place earlier at_
      have joined := after.joins index life (List.getElem?_eq_none_iff.mp between) found moved
        (List.mem_of_getElem? listed)
      rwa [← kept.1] at joined

end Follows

theorem length_modifyFirst {A : Type} (test : A → Bool) (change : A → A) (members : List A) :
    (modifyFirst test change members).length = members.length := by
  induction members with
  | nil => rfl
  | cons head rest earlier =>
    rw [modifyFirst]
    split
    · rfl
    · rw [List.length_cons, List.length_cons, earlier]

/-- A change of one member relates each member to the one at its place. -/
theorem modifyFirst_at {A : Type} {relation : A → A → Prop} {test : A → Bool} {change : A → A}
    {members : List A} (refl : ∀ member, relation member member)
    (changes : ∀ member ∈ members, test member = true → relation member (change member)) :
    ∀ (index : Nat) (member : A), members[index]? = some member →
      ∃ later, (modifyFirst test change members)[index]? = some later ∧ relation member later := by
  induction members with
  | nil => intro index member found; cases found
  | cons head rest earlier =>
    intro index member found
    rw [modifyFirst]
    split
    next matched =>
      cases index with
      | zero =>
        cases found
        exact ⟨_, rfl, changes head List.mem_cons_self matched⟩
      | succ index => exact ⟨member, found, refl member⟩
    next =>
      cases index with
      | zero =>
        cases found
        exact ⟨head, rfl, refl head⟩
      | succ index =>
        exact earlier (fun other inside => changes other (List.mem_cons_of_mem _ inside)) index member
          found

/-- The first member that the test accepts is the one that changes. -/
theorem modifyFirst_found {A : Type} {test : A → Bool} (change : A → A) {members : List A} {member : A}
    (found : members.find? test = some member) :
    ∃ index : Nat, members[index]? = some member ∧
      (modifyFirst test change members)[index]? = some (change member) := by
  induction members with
  | nil => cases found
  | cons head rest earlier =>
    rw [modifyFirst]
    cases matched : test head with
    | true =>
      rw [List.find?_cons_of_pos matched] at found
      cases found
      exact ⟨0, rfl, rfl⟩
    | false =>
      rw [List.find?_cons_of_neg (by simp [matched])] at found
      obtain ⟨index, listed, changed⟩ := earlier found
      exact ⟨index + 1, listed, changed⟩

/-- A change of one member adds at most one to a count. -/
theorem countP_modifyFirst_le {A : Type} (counted test : A → Bool) (change : A → A) (members : List A) :
    (modifyFirst test change members).countP counted ≤ members.countP counted + 1 := by
  induction members with
  | nil => exact Nat.zero_le _
  | cons head rest earlier =>
    rw [modifyFirst]
    split
    · simp only [List.countP_cons]
      split <;> split <;> omega
    · simp only [List.countP_cons]
      omega

/-- A change to members that are not counted does not raise a count. -/
theorem countP_modifyFirst_of_not {A : Type} {counted : A → Bool} {change : A → A}
    (uncounted : ∀ member, counted (change member) = false) (test : A → Bool) (members : List A) :
    (modifyFirst test change members).countP counted ≤ members.countP counted := by
  induction members with
  | nil => exact le_rfl
  | cons head rest earlier =>
    rw [modifyFirst]
    split
    · simp [List.countP_cons, uncounted]
    · simp only [List.countP_cons]
      omega

end Order

section Operations

/-- A provider that binds external keys and destroys keys. -/
class KeyOperator (P : Type) extends KeyProvider P where
  bind : P → String → KeySpec → Except Failure KeyHandle × P
  destroy : P → KeyHandle → Except Failure Unit × P

namespace Lifecycle

/-- The revocation of a version. -/
def revoke (now : Timestamp) (version : Lifecycle) : Lifecycle :=
  { version with state := .revoked, revokedAt := some now }

/-- The destruction of a version. -/
def destroy (version : Lifecycle) : Lifecycle :=
  { version with state := .destroyed }

end Lifecycle

namespace Keyring

variable {P : Type} [KeyOperator P]

/-- An external key is bound, recorded and activated. -/
def bindActivate (ring : Keyring P) (external : String) (now : Timestamp) :
    Except (KeyringError (KeyProvider.Failure P)) Nat × Keyring P :=
  match KeyOperator.bind ring.provider external ring.policy.spec with
  | (.error failure, provider) => (.error (.provider failure), { ring with provider := provider })
  | (.ok handle, provider) =>
    match record { ring with provider := provider } handle now with
    | .error error => (.error error, { ring with provider := provider })
    | .ok (version, ring) => (.ok version, ring.activate version now)

/-- The change of the life of the version of an identity. -/
def modifyVersion (ring : Keyring P) (version : Nat) (change : Lifecycle → Lifecycle) : Keyring P :=
  { ring with versions := modifyFirst (fun other => other.id = version) (.modify change) ring.versions }

/-- A version is rejected from its revocation on. -/
def revoke (ring : Keyring P) (version : Nat) (now : Timestamp) :
    Except (KeyringError (KeyProvider.Failure P)) Unit × Keyring P :=
  match ring.versions.find? fun other => other.id = version with
  | none => (.error (.unknownVersion version), ring)
  | some _ => (.ok (), ring.modifyVersion version (.revoke now))

/-- The material of a version is destroyed at the provider first. -/
def destroy (ring : Keyring P) (version : Nat) :
    Except (KeyringError (KeyProvider.Failure P)) Unit × Keyring P :=
  match ring.versions.find? fun other => other.id = version with
  | none => (.error (.unknownVersion version), ring)
  | some target =>
    match KeyOperator.destroy ring.provider target.handle with
    | (.error failure, provider) => (.error (.provider failure), { ring with provider := provider })
    | (.ok (), provider) => (.ok (), { ring with provider := provider }.modifyVersion version .destroy)

/-- An operation on a ring. The host can change the provider between two operations. -/
inductive Event (P : Type)
  | bootstrap (now : Timestamp)
  | ensureCurrent (now : Timestamp)
  | bindActivate (external : String) (now : Timestamp)
  | revoke (version : Nat) (now : Timestamp)
  | destroy (version : Nat)
  | setProvider (provider : P)

/-- The refusal of an operation or its success, with the ring after it. -/
def perform (ring : Keyring P) :
    Event P → Except (KeyringError (KeyProvider.Failure P)) Unit × Keyring P
  | .bootstrap now => ring.bootstrap now
  | .ensureCurrent now => (.ok (), (ring.ensureCurrent now).2)
  | .bindActivate external now =>
    let (result, ring) := ring.bindActivate external now
    (result.map fun _ => (), ring)
  | .revoke version now => ring.revoke version now
  | .destroy version => ring.destroy version
  | .setProvider provider => (.ok (), { ring with provider := provider })

/-- The ring after some operations. The last operation comes first. -/
def after (first : Keyring P) (events : List (Event P)) : Keyring P :=
  events.foldr (fun event ring => (ring.perform event).2) first

/-- An operation does not revoke a destroyed version and does not destroy the material of a revoked one. -/
def Respects (ring : Keyring P) : Event P → Prop
  | .revoke version _ => ∀ target, ring.versions.find? (fun other => other.id = version) = some target →
      target.state ≠ .destroyed
  | .destroy version => ∀ target, ring.versions.find? (fun other => other.id = version) = some target →
      target.state = .revoked → ∃ failure, (KeyOperator.destroy ring.provider target.handle).1 = .error failure
  | _ => True

end Keyring

end Operations

section Steps

/-- Lists whose versions keep their places have the same identities. -/
theorem ids_of_moves {first second : List Lifecycle}
    (moves : ∀ (index : Nat) (life : Lifecycle), first[index]? = some life →
      ∃ later, second[index]? = some later ∧ life.Moves later)
    (same : second.length = first.length) : second.map Lifecycle.id = first.map Lifecycle.id := by
  apply List.ext_getElem?
  intro index
  rw [List.getElem?_map, List.getElem?_map]
  cases found : first[index]? with
  | none =>
    rw [List.getElem?_eq_none_iff] at found
    rw [List.getElem?_eq_none_iff.mpr (same ▸ found)]
  | some life =>
    obtain ⟨later, listed, moved⟩ := moves index life found
    rw [listed, Option.map_some, Option.map_some, moved.1]

/-- The test that a version is active. -/
def Lifecycle.isActive (life : Lifecycle) : Bool :=
  life.state = .active

/-- The retirement of the active version moves it forward. -/
theorem retire_moves (now : Timestamp) (life : Lifecycle) : life.Moves (life.retire now) := by
  unfold Lifecycle.retire
  split
  next active => exact ⟨rfl, .inr (by rw [active]; exact Nat.one_lt_two)⟩
  next => exact .refl life

theorem retire_not_active (now : Timestamp) (life : Lifecycle) : (life.retire now).isActive = false := by
  unfold Lifecycle.retire
  split
  · rfl
  next passive => exact decide_eq_false passive

namespace Keyring

variable {P : Type}

/-- The identities ascend below the counter, and at most one version is active. -/
structure Sound (ring : Keyring P) : Prop where
  ascending : (ring.lives.map Lifecycle.id).Pairwise (· < ·)
  below : ∀ id ∈ ring.lives.map Lifecycle.id, id < ring.nextId
  single : ring.lives.countP Lifecycle.isActive ≤ 1

/-- A sound ring stays sound, and its versions move forward. -/
structure Carries (first second : Keyring P) : Prop where
  sound : second.Sound
  follows : Follows first.lives second.lives

namespace Carries

variable {first second third : Keyring P}

theorem trans (before : first.Carries second) (after : second.Carries third) : first.Carries third :=
  ⟨after.sound, before.follows.trans after.follows⟩

/-- A ring with the versions and the counter of another one. -/
theorem of_versions (sound : first.Sound) (versions : second.versions = first.versions)
    (nextId : second.nextId = first.nextId) : first.Carries second := by
  have lives : second.lives = first.lives := congrArg (List.map KeyVersion.toLifecycle) versions
  refine ⟨⟨?_, ?_, ?_⟩, ?_⟩
  · rw [lives]
    exact sound.ascending
  · rw [lives, nextId]
    exact sound.below
  · rw [lives]
    exact sound.single
  · rw [lives]
    exact .refl _

theorem refl (sound : first.Sound) : first.Carries first :=
  of_versions sound rfl rfl

/-- The versions move forward at their places. -/
theorem of_moves (sound : first.Sound) (nextId : second.nextId = first.nextId)
    (moves : ∀ (index : Nat) (life : Lifecycle), first.lives[index]? = some life →
      ∃ later, second.lives[index]? = some later ∧ life.Moves later)
    (same : second.lives.length = first.lives.length)
    (single : second.lives.countP Lifecycle.isActive ≤ 1) : first.Carries second where
  follows := .of_moves moves same
  sound := by
    refine ⟨?_, ?_, single⟩
    · rw [ids_of_moves moves same]
      exact sound.ascending
    · rw [ids_of_moves moves same, nextId]
      exact sound.below

/-- A pending version joins the ring under the identity of the counter. -/
theorem of_recorded (sound : first.Sound) (now : Timestamp)
    (lives : second.lives = first.lives ++ [.recorded first.nextId now])
    (nextId : second.nextId = first.nextId + 1) : first.Carries second where
  follows := by
    rw [lives]
    exact .append fun earlier inside => sound.below _ (List.mem_map_of_mem inside)
  sound := by
    have ids : second.lives.map Lifecycle.id = first.lives.map Lifecycle.id ++ [first.nextId] := by
      rw [lives, List.map_append]
      rfl
    refine ⟨?_, ?_, ?_⟩
    · rw [ids, List.pairwise_append]
      refine ⟨sound.ascending, List.pairwise_singleton _ _, fun id inside last listed => ?_⟩
      rw [List.mem_singleton.mp listed]
      exact sound.below id inside
    · rw [ids, nextId]
      intro id inside
      rcases List.mem_append.mp inside with inside | inside
      · exact (sound.below id inside).trans (Nat.lt_succ_self _)
      · rw [List.mem_singleton.mp inside]
        exact Nat.lt_succ_self _
    · rw [lives, List.countP_append]
      exact sound.single

end Carries

variable {ring : Keyring P}

/-- A version of a sound ring is determined by its identity. -/
theorem Sound.unique (sound : ring.Sound) {first second : Lifecycle} (inside : first ∈ ring.lives)
    (listed : second ∈ ring.lives) (same : first.id = second.id) : first = second :=
  List.inj_on_of_nodup_map (sound.ascending.imp ne_of_lt) inside listed same

/-- The activation of a pending version retires the active one. -/
theorem activate_carries (sound : ring.Sound) {version : Nat}
    (waiting : ∀ life ∈ ring.lives, life.id = version → life.state = .pending) (now : Timestamp) :
    ring.Carries (ring.activate version now) := by
  have retired : (ring.lives.map (Lifecycle.retire now)).countP Lifecycle.isActive = 0 := by
    rw [List.countP_eq_zero]
    intro life inside
    obtain ⟨earlier, _, rfl⟩ := List.mem_map.mp inside
    rw [retire_not_active]
    exact Bool.false_ne_true
  refine .of_moves sound rfl ?_ ?_ ?_
  · intro index life found
    have moved : (ring.lives.map (Lifecycle.retire now))[index]? = some (life.retire now) := by
      rw [List.getElem?_map, found]
      rfl
    rw [activate_lives, activateIn]
    have changes : ∀ member ∈ ring.lives.map (Lifecycle.retire now), decide (member.id = version) = true →
        member.Moves (member.activate now) := by
      intro member inside matched
      obtain ⟨earlier, listed, rfl⟩ := List.mem_map.mp inside
      have same : earlier.id = version := (retire_moves now earlier).1.trans (of_decide_eq_true matched)
      have pending := waiting earlier listed same
      have kept : earlier.retire now = earlier := if_neg (by rw [pending]; decide)
      rw [kept]
      exact ⟨rfl, .inr (by rw [pending]; exact Nat.one_pos)⟩
    obtain ⟨later, listed, carried⟩ := modifyFirst_at Lifecycle.Moves.refl changes index _ moved
    exact ⟨later, listed, (retire_moves now life).trans carried⟩
  · rw [activate_lives, activateIn, length_modifyFirst, List.length_map]
  · rw [activate_lives, activateIn]
    exact (countP_modifyFirst_le _ _ _ _).trans (by rw [retired])

theorem modifyVersion_lives (ring : Keyring P) (version : Nat) (change : Lifecycle → Lifecycle) :
    (ring.modifyVersion version change).lives =
      modifyFirst (fun other => other.id = version) change ring.lives :=
  @map_modifyFirst KeyVersion Lifecycle (fun other => other.id = version)
    (fun other => other.id = version) (.modify change) change KeyVersion.toLifecycle (fun _ => rfl)
    (fun _ => rfl) _

/-- A version ends its life when it has no other end. -/
theorem modifyVersion_carries (sound : ring.Sound) {version : Nat} {change : Lifecycle → Lifecycle}
    (moves : ∀ life ∈ ring.lives, life.id = version → life.Moves (change life))
    (passive : ∀ life, (change life).isActive = false) :
    ring.Carries (ring.modifyVersion version change) := by
  refine .of_moves sound rfl ?_ ?_ ?_
  · rw [modifyVersion_lives]
    exact modifyFirst_at .refl fun life inside matched => moves life inside (of_decide_eq_true matched)
  · rw [modifyVersion_lives, length_modifyFirst]
  · rw [modifyVersion_lives]
    exact (countP_modifyFirst_of_not passive _ _).trans sound.single

/-- The version that an operation addresses is the one of its identity. -/
theorem Sound.target (sound : ring.Sound) {version : Nat} {target : KeyVersion}
    (found : ring.versions.find? (fun other => other.id = version) = some target) {life : Lifecycle}
    (inside : life ∈ ring.lives) (same : life.id = version) : life = target.toLifecycle := by
  have matched : target.id = version := by simpa using List.find?_some found
  exact sound.unique inside (List.mem_map_of_mem (List.mem_of_find?_eq_some found))
    (same.trans matched.symm)

/-- The version that an operation addresses is the one that it changes. -/
theorem modifyVersion_forward {version : Nat} {change : Lifecycle → Lifecycle} {target : KeyVersion}
    (found : ring.versions.find? (fun other => other.id = version) = some target)
    (follows : Follows ring.lives (ring.modifyVersion version change).lives) :
    target.state.Forward (change target.toLifecycle).state := by
  obtain ⟨index, listed, changed⟩ := modifyFirst_found (KeyVersion.modify change) found
  have before : ring.lives[index]? = some target.toLifecycle := by
    rw [lives, List.getElem?_map, listed]
    rfl
  have after : (ring.modifyVersion version change).lives[index]? = some (change target.toLifecycle) := by
    rw [lives, List.getElem?_map, modifyVersion, changed]
    rfl
  obtain ⟨later, final, moved⟩ := follows.moves index _ before
  rw [after] at final
  cases final
  exact moved.2

/-- A version that has ended its life is not accepted. -/
theorem isAccepted_ended {life : Lifecycle} (ended : life.state.Ended) (retain : Option (Signed 128))
    (now : Timestamp) : life.isAccepted retain now = false := by
  unfold Lifecycle.isAccepted
  rcases ended with ended | ended <;> rw [ended]

/-- A version that has ended its life is not accepted by a later ring. -/
theorem Carries.rejected {later : Keyring P} (carried : ring.Carries later) {life : Lifecycle}
    (inside : life ∈ ring.lives) (ended : life.state.Ended) (now : Timestamp) :
    ∀ version ∈ later.accepted now, version.id ≠ life.id := by
  intro version listed same
  obtain ⟨member, accepted⟩ := List.mem_filter.mp listed
  obtain ⟨index, at_⟩ := List.mem_iff_getElem?.mp inside
  obtain ⟨moved, found, forward⟩ := carried.follows.moves index life at_
  have own : version.toLifecycle = moved :=
    carried.sound.unique (List.mem_map_of_mem member) (List.mem_of_getElem? found)
      (same.trans forward.1)
  have final : moved.state.Ended := forward.2.ended ended ▸ ended
  rw [own, isAccepted_ended final] at accepted
  cases accepted

theorem load_sound (name : String) (provider : P) (policy : KeyringPolicy) :
    (Keyring.load name provider policy).Sound where
  ascending := .nil
  below := by
    intro id inside
    cases inside
  single := Nat.zero_le 1

section Generation

variable [KeyProvider P]

/-- A recorded version is pending under the identity of the counter. -/
theorem record_spec {handle : KeyHandle} {now : Timestamp} {version : Nat} {next : Keyring P}
    (recorded : ring.record handle now = .ok (version, next)) :
    version = ring.nextId ∧ next.lives = ring.lives ++ [.recorded ring.nextId now] ∧
      next.nextId = ring.nextId + 1 := by
  unfold record at recorded
  split at recorded
  · cases recorded
  · split at recorded
    · cases recorded
    · split at recorded
      · cases recorded
      · split at recorded
        · cases recorded
        · cases recorded
          exact ⟨rfl, by simp [lives], rfl⟩

/-- A record activates under the identity of the counter. -/
theorem record_activate_carries (sound : ring.Sound) {handle : KeyHandle} {now : Timestamp}
    {version : Nat} {next : Keyring P} (recorded : ring.record handle now = .ok (version, next))
    (instant : Timestamp) : ring.Carries (next.activate version instant) := by
  obtain ⟨rfl, lives, nextId⟩ := record_spec recorded
  have joined : ring.Carries next := .of_recorded sound now lives nextId
  refine joined.trans (activate_carries joined.sound ?_ instant)
  intro life inside same
  rw [lives] at inside
  rcases List.mem_append.mp inside with inside | inside
  · exact absurd same (sound.below _ (List.mem_map_of_mem inside)).ne
  · rw [List.mem_singleton.mp inside]
    rfl

/-- A failed generation leaves the versions, and another one records a pending version. -/
theorem generate_cases (ring : Keyring P) (now : Timestamp) :
    (∃ error next, ring.generate now = (.error error, next) ∧ next.versions = ring.versions ∧
      next.nextId = ring.nextId) ∨
    ∃ provider handle next, ring.generate now = (.ok ring.nextId, next) ∧
      record { ring with provider := provider } handle now = .ok (ring.nextId, next) := by
  unfold generate
  split
  next failure provider _ => exact .inl ⟨_, _, rfl, rfl, rfl⟩
  next handle provider _ =>
    split
    next => exact .inl ⟨_, _, rfl, rfl, rfl⟩
    next version next recorded =>
      obtain rfl := (record_spec recorded).1
      exact .inr ⟨provider, handle, next, rfl, recorded⟩

theorem generate_carries (sound : ring.Sound) (now : Timestamp) : ring.Carries (ring.generate now).2 := by
  rcases ring.generate_cases now with ⟨_, next, generated, versions, nextId⟩ |
    ⟨provider, handle, next, generated, recorded⟩
  · rw [generated]
    exact .of_versions sound versions nextId
  · rw [generated]
    obtain ⟨_, lives, nextId⟩ := record_spec recorded
    exact .of_recorded sound now lives nextId

/-- A generation and the activation of its version. -/
theorem generate_activate_carries (sound : ring.Sound) {now : Timestamp} {version : Nat}
    {next : Keyring P} (generated : ring.generate now = (.ok version, next)) (instant : Timestamp) :
    ring.Carries (next.activate version instant) := by
  rcases ring.generate_cases now with ⟨_, _, failed, _⟩ | ⟨provider, handle, other, made, recorded⟩
  · rw [failed] at generated
    cases generated
  · rw [made] at generated
    cases generated
    have same : ring.Carries { ring with provider := provider } := .of_versions sound rfl rfl
    exact same.trans (record_activate_carries same.sound recorded instant)

theorem bootstrap_carries (sound : ring.Sound) (now : Timestamp) : ring.Carries (ring.bootstrap now).2 := by
  unfold bootstrap
  split
  · exact .refl sound
  · have generated := generate_carries sound now
    split
    next failed => rwa [failed] at generated
    next made => exact generate_activate_carries sound made now

/-- A rotation activates the pending version of its identity or a generated one. -/
theorem rotate_carries (sound : ring.Sound) (now : Timestamp) : ring.Carries (ring.rotate now).2 := by
  unfold rotate
  split
  next version found =>
    have inside := List.mem_of_find?_eq_some found
    have pending : version.state = .pending := by simpa using List.find?_some found
    refine activate_carries sound ?_ now
    intro life listed same
    rw [sound.unique listed (List.mem_map_of_mem inside) same]
    exact pending
  next =>
    have generated := generate_carries sound now
    split
    next failed => rwa [failed] at generated
    next made => exact generate_activate_carries sound made now

theorem exposePending_carries (sound : ring.Sound) (now : Timestamp) (schedule : RotationSchedule)
    (dueAt : Timestamp) : ring.Carries (ring.exposePending now schedule dueAt) := by
  unfold exposePending
  split
  · exact .refl sound
  · split
    · exact .refl sound
    · exact generate_carries sound now

/-- The ring that the loop of rotations ends with. -/
def caught : Except (Keyring P) (RotationOutcome × Keyring P × Timestamp) → Keyring P
  | .error ring => ring
  | .ok (_, ring, _) => ring

/-- The versions move forward along the loop of rotations. -/
theorem catchUp_carries (sound : ring.Sound) (schedule : RotationSchedule) (now : Timestamp)
    (outcome : RotationOutcome) (dueAt : Timestamp) :
    ring.Carries (caught (ring.catchUp schedule now outcome dueAt)) := by
  fun_induction catchUp schedule now ring outcome dueAt with
  | case1 ring outcome dueAt reached failure next rotated =>
    have carried := rotate_carries sound dueAt
    rw [rotated] at carried
    exact carried.trans (.of_versions carried.sound rfl rfl)
  | case2 ring outcome dueAt reached version next rotated stalled =>
    have carried := rotate_carries sound dueAt
    rw [rotated] at carried
    exact carried.trans (.of_versions carried.sound rfl rfl)
  | case3 ring outcome dueAt reached version next rotated advances earlier =>
    have carried := rotate_carries sound dueAt
    rw [rotated] at carried
    have settled : next.Carries { next with overdue := false } := .of_versions carried.sound rfl rfl
    exact (carried.trans settled).trans (earlier settled.sound)
  | case4 ring outcome dueAt early => exact .refl sound

theorem ensureCurrent_carries (sound : ring.Sound) (now : Timestamp) :
    ring.Carries (ring.ensureCurrent now).2 := by
  unfold ensureCurrent
  split
  · exact .refl sound
  next schedule _ =>
    split
    · exact .refl sound
    · split
      next activatedAt _ =>
        dsimp only
        split
        · exact exposePending_carries sound now schedule _
        · have carried := catchUp_carries sound schedule now .notDue (activatedAt.instantAdd schedule.every)
          split
          next failed => rwa [failed] at carried
          next outcome next dueAt ended =>
            rw [ended] at carried
            split
            · exact carried.trans (exposePending_carries carried.sound now schedule dueAt)
            · exact carried
      · exact .refl sound

end Generation

end Keyring

end Steps

section Runs

namespace Keyring

variable {P : Type} [KeyOperator P] {ring : Keyring P}

theorem bindActivate_carries (sound : ring.Sound) (external : String) (now : Timestamp) :
    ring.Carries (ring.bindActivate external now).2 := by
  unfold bindActivate
  split
  · exact .of_versions sound rfl rfl
  next handle provider _ =>
    have same : ring.Carries { ring with provider := provider } := .of_versions sound rfl rfl
    split
    · exact same
    next recorded => exact same.trans (record_activate_carries same.sound recorded now)

/-- A target that is not at its end can be revoked. -/
theorem forward_revoked {state : KeyState} (alive : state ≠ .destroyed) : state.Forward .revoked := by
  cases state <;> first | exact absurd rfl alive | decide

theorem forward_destroyed {state : KeyState} (alive : state ≠ .revoked) : state.Forward .destroyed := by
  cases state <;> first | exact absurd rfl alive | decide

/-- An operation that respects the ends of the lives moves the versions forward. -/
theorem perform_carries (sound : ring.Sound) (event : Event P) (respects : ring.Respects event) :
    ring.Carries (ring.perform event).2 := by
  cases event with
  | bootstrap now => exact bootstrap_carries sound now
  | ensureCurrent now => exact ensureCurrent_carries sound now
  | bindActivate external now => exact bindActivate_carries sound external now
  | setProvider provider => exact .of_versions sound rfl rfl
  | revoke version now =>
    show ring.Carries (ring.revoke version now).2
    unfold revoke
    split
    · exact .refl sound
    next target found =>
      refine modifyVersion_carries sound (fun life inside same => ⟨rfl, ?_⟩) fun _ => rfl
      rw [sound.target found inside same]
      exact forward_revoked (respects target found)
  | destroy version =>
    show ring.Carries (ring.destroy version).2
    unfold destroy
    split
    · exact .refl sound
    next target found =>
      split
      · exact .of_versions sound rfl rfl
      next provider destroyed =>
        have same : ring.Carries { ring with provider := provider } := .of_versions sound rfl rfl
        refine same.trans (modifyVersion_carries same.sound (fun life inside same => ⟨rfl, ?_⟩) fun _ => rfl)
        rw [sound.target found inside same]
        refine forward_destroyed fun revoked => ?_
        obtain ⟨failure, refused⟩ := respects target found revoked
        rw [destroyed] at refused
        cases refused

/-- An operation that moves the versions forward respects the ends of their lives. -/
theorem respects_of_follows {event : Event P} (follows : Follows ring.lives (ring.perform event).2.lives) :
    ring.Respects event := by
  cases event with
  | revoke version now =>
    intro target found destroyed
    have shown : Follows ring.lives (ring.revoke version now).2.lives := follows
    rw [revoke, found] at shown
    have forward := modifyVersion_forward found shown
    rw [destroyed] at forward
    exact absurd (forward.ended (.inr rfl)) KeyState.noConfusion
  | destroy version =>
    intro target found revoked
    have shown : Follows ring.lives (ring.destroy version).2.lives := follows
    rw [destroy, found] at shown
    simp only at shown
    split at shown
    next failure _ refused => exact ⟨failure, by rw [refused]⟩
    next provider _ =>
      have located : ({ ring with provider := provider } : Keyring P).versions.find?
          (fun other => other.id = version) = some target := found
      have forward := modifyVersion_forward located shown
      rw [revoked] at forward
      exact absurd (forward.ended (.inl rfl)) KeyState.noConfusion
  | _ => trivial

/-- An operation that is refused leaves the versions. -/
theorem perform_refused {event : Event P} {error : KeyringError (KeyProvider.Failure P)}
    (refused : (ring.perform event).1 = .error error) : (ring.perform event).2.versions = ring.versions := by
  cases event with
  | bootstrap now =>
    show (ring.bootstrap now).2.versions = ring.versions
    replace refused : (ring.bootstrap now).1 = .error error := refused
    unfold bootstrap at refused ⊢
    split at refused
    · cases refused
    next automatic =>
      rw [if_neg automatic]
      rcases ring.generate_cases now with ⟨_, next, generated, versions, _⟩ |
        ⟨_, _, next, generated, _⟩
      · rw [generated]
        exact versions
      · rw [generated] at refused
        cases refused
  | bindActivate external now =>
    show (ring.bindActivate external now).2.versions = ring.versions
    replace refused : (ring.bindActivate external now).1.map (fun _ => ()) = .error error := refused
    unfold bindActivate at refused ⊢
    split at refused
    · rfl
    · split at refused
      · rfl
      · cases refused
  | revoke version now =>
    show (ring.revoke version now).2.versions = ring.versions
    replace refused : (ring.revoke version now).1 = .error error := refused
    unfold revoke at refused ⊢
    split at refused
    · rfl
    · cases refused
  | destroy version =>
    show (ring.destroy version).2.versions = ring.versions
    replace refused : (ring.destroy version).1 = .error error := refused
    unfold destroy at refused ⊢
    split at refused
    · rfl
    · split at refused
      · rfl
      · cases refused
  | ensureCurrent now => cases refused
  | setProvider provider => cases refused

/-- What a run of operations keeps of the lives of the versions. -/
structure Kept (first : Keyring P) (events : List (Event P)) : Prop where
  single : (first.after events).lives.countP Lifecycle.isActive ≤ 1
  ascending : ((first.after events).lives.map Lifecycle.id).Pairwise (· < ·)
  forward : ∀ earlier, earlier <:+ events → Follows (first.after earlier).lives (first.after events).lives
  rejected : ∀ earlier, earlier <:+ events → ∀ life ∈ (first.after earlier).lives, life.state.Ended →
    ∀ now, ∀ version ∈ (first.after events).accepted now, version.id ≠ life.id
  refused : ∀ event error, ((first.after events).perform event).1 = .error error →
    ((first.after events).perform event).2.versions = (first.after events).versions

/-- Each ring of a run carries the versions of the rings before it. -/
theorem after_carries {first : Keyring P} (sound : first.Sound) {events : List (Event P)}
    (respects : ∀ event before, event :: before <:+ events → (first.after before).Respects event)
    (earlier : List (Event P)) (inside : earlier <:+ events) :
    (first.after earlier).Carries (first.after events) := by
  induction events generalizing earlier with
  | nil =>
    rw [List.suffix_nil.mp inside]
    exact .refl sound
  | cons event before ih =>
    have kept := ih fun other rest within => respects other rest (within.trans (List.suffix_cons _ _))
    have step : (first.after before).Carries (first.after (event :: before)) :=
      perform_carries (kept before List.suffix_rfl).sound event (respects event before List.suffix_rfl)
    rcases List.suffix_cons_iff.mp inside with rfl | inside
    · exact .refl step.sound
    · exact (kept earlier inside).trans step

/-- A run keeps the lives of the versions in each of its states exactly when no operation of it revokes a
destroyed version or destroys the material of a revoked one. -/
theorem lifecycle_iff (name : String) (provider : P) (policy : KeyringPolicy) (events : List (Event P)) :
    (∀ later, later <:+ events → Kept (Keyring.load name provider policy) later) ↔
      ∀ event before, event :: before <:+ events →
        ((Keyring.load name provider policy).after before).Respects event := by
  constructor
  · intro kept event before inside
    exact respects_of_follows ((kept _ inside).forward before (List.suffix_cons _ _))
  · intro respects later inside
    have carried : ∀ earlier, earlier <:+ later →
        ((Keyring.load name provider policy).after earlier).Carries
          ((Keyring.load name provider policy).after later) := fun earlier within =>
      after_carries (load_sound name provider policy)
        (fun event before listed => respects event before (listed.trans inside)) earlier within
    have sound := (carried later List.suffix_rfl).sound
    exact {
      single := sound.single
      ascending := sound.ascending
      forward := fun earlier within => (carried earlier within).follows
      rejected := fun earlier within life listed ended now =>
        (carried earlier within).rejected listed ended now
      refused := fun event error => perform_refused }

end Keyring

end Runs

section Sample

instance : KeyOperator SampleProvider where
  bind := fun provider _ _ => (.ok provider.generated, ⟨provider.generated + 1⟩)
  destroy := fun provider _ => (.ok (), provider)

/-- A bound version is destroyed and then revoked. The last operation comes first. -/
def revokedAfterDestruction : List (Keyring.Event SampleProvider) :=
  [.revoke 1 (sampleInstant ⟨2, by decide⟩), .destroy 1, .bindActivate "hsm" (sampleInstant ⟨1, by decide⟩)]

/-- A destroyed version leaves its state when it is revoked. -/
theorem revoke_leaves_destroyed :
    ¬ ∀ later, later <:+ revokedAfterDestruction →
      Keyring.Kept (Keyring.load "session" ⟨0⟩ { samplePolicy with rotate := none }) later := by
  intro kept
  have forward := (kept _ List.suffix_rfl).forward _ (List.suffix_cons _ _)
  obtain ⟨later, listed, moved⟩ := forward.moves 0 _ rfl
  cases listed
  exact absurd moved.2 (by decide)

end Sample

end Liasse.Keys
