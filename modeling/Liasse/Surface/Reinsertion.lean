/-
This file models the erasure and the reinsertion of retained payloads. It proves what the extract of an erasure gives
back, and which extracts the reinsertion accepts.
-/

import Liasse.Surface.Extract

namespace Liasse.Surface

open Codes

section Tables

variable {α β γ : Type*} {cmp : α → α → Ordering} [Std.TransCmp cmp] [Std.LawfulEqCmp cmp]

theorem getElem?_foldl_insert_of_ne {shown : γ → β} {entries : List (α × γ)} {key : α}
    (map : Std.ExtTreeMap α β cmp) (other : ∀ entry ∈ entries, entry.1 ≠ key) :
    (entries.foldl (fun map entry => map.insert entry.1 (shown entry.2)) map)[key]? = map[key]? := by
  induction entries generalizing map with
  | nil => rfl
  | cons entry rest ih =>
    obtain ⟨different, later⟩ := List.forall_mem_cons.mp other
    rw [List.foldl_cons, ih _ later, getElem?_insert_of_ne (Ne.symm different)]

/-- The entries of a table overwrite those of another table. -/
theorem getElem?_foldl_insert (shown : γ → β) (map : Std.ExtTreeMap α β cmp) (entries : Std.ExtTreeMap α γ cmp)
    (key : α) :
    (entries.toList.foldl (fun map entry => map.insert entry.1 (shown entry.2)) map)[key]? =
      (entries[key]?.map shown).or map[key]? := by
  cases found : entries[key]? with
  | none =>
    refine getElem?_foldl_insert_of_ne map fun entry inside same => ?_
    have stored := Std.ExtTreeMap.mem_toList_iff_getElem?_eq_some.mp (show (entry.1, entry.2) ∈ _ from inside)
    rw [same, found] at stored
    cases stored
  | some value =>
    have inside : (key, value) ∈ entries.toList := Std.ExtTreeMap.mem_toList_iff_getElem?_eq_some.mpr found
    obtain ⟨before, after, split⟩ := List.append_of_mem inside
    have distinct : (before ++ (key, value) :: after).Pairwise fun first second => ¬ cmp first.1 second.1 = .eq :=
      split ▸ entries.distinct_keys_toList
    obtain ⟨-, rest, -⟩ := List.pairwise_append.mp distinct
    have right (entry : α × γ) (listed : entry ∈ after) : entry.1 ≠ key := fun same =>
      (List.pairwise_cons.mp rest).1 entry listed (same ▸ Std.ReflCmp.compare_self)
    rw [split, List.foldl_append, List.foldl_cons, getElem?_foldl_insert_of_ne _ right,
      Std.ExtTreeMap.getElem?_insert_self]
    rfl

end Tables

section Operations

variable (libraries : Wire.Libraries) (digest : List UInt8 → String)

namespace Erasure

/-- The retained payload of an occurrence. -/
def payload (history : Erasure) (occurrence : String) : Option Value :=
  match history[occurrence]? with
  | some (.payload value) => some value
  | _ => none

/-- The stub of a scrubbed occurrence. -/
def stub (history : Erasure) (occurrence : String) : Option String :=
  match history[occurrence]? with
  | some (.stub hash) => some hash
  | _ => none

/-- The erasure on the retained history. An error leaves the history. -/
def eraseIn (history : Erasure) (occurrences : List String) : Erasure × Except DeleteError Extract :=
  match history.erase libraries digest occurrences with
  | .ok (extract, next) => (next, .ok extract)
  | .error fault => (history, .error fault)

/-- An occurrence bears the stub of a payload. -/
def checkStub (history : Erasure) (entry : String × Value) : Except DeleteError Unit :=
  if history.stub entry.1 ≠ some (leafHash libraries digest entry.2) then .error (.stubMismatch entry.1)
  else .ok ⟨⟩

/-- The payloads of an extract are restored when its hash and each stub verify. -/
def reinsert (history : Erasure) (extract : Extract) : Erasure × Except DeleteError Unit :=
  if extractHash libraries digest extract.payloads ≠ extract.hash then (history, .error .extractHashMismatch)
  else
    match extract.payloads.toList.forM (history.checkStub libraries digest) with
    | .error fault => (history, .error fault)
    | .ok _ =>
      (extract.payloads.toList.foldl (fun history entry => history.insert entry.1 (.payload entry.2)) history,
        .ok ⟨⟩)

end Erasure

/-- A copy of an extract with another payload and the hash of the extract. -/
def Extract.tampered (extract : Extract) (occurrence : String) (replacement : Value) : Extract :=
  ⟨extract.hash, extract.payloads.insert occurrence replacement⟩

end Operations

section Erasing

variable {libraries : Wire.Libraries} {digest : List UInt8 → String} {history : Erasure} {occurrences : List String}

/-- Each of some occurrences has a payload. -/
def Retained (history : Erasure) (occurrences : List String) : Prop :=
  ∀ occurrence ∈ occurrences, ∃ value, history[occurrence]? = some (.payload value)

theorem retained_of_collect {payloads : Std.ExtTreeMap String Value compareText}
    (collected : history.collect occurrences = .ok payloads) : Retained history occurrences := by
  unfold Erasure.collect at collected
  generalize (∅ : Std.ExtTreeMap String Value compareText) = start at collected
  induction occurrences generalizing start with
  | nil => rintro _ ⟨⟩
  | cons first rest ih =>
    rw [List.foldlM_cons] at collected
    obtain ⟨next, here, later⟩ := bind_ok.mp collected
    refine List.forall_mem_cons.mpr ⟨?_, ih _ later⟩
    split at here
    · next value found => exact ⟨value, found⟩
    · cases here

/-- The erasure of occurrences with payloads moves them into the extract and leaves their stubs. -/
theorem eraseIn_retained (retained : Retained history occurrences) :
    ∃ payloads remaining, history.eraseIn libraries digest occurrences =
        (remaining, .ok ⟨extractHash libraries digest payloads, payloads⟩) ∧
      (∀ occurrence value, payloads[occurrence]? = some value ↔
        occurrence ∈ occurrences ∧ history[occurrence]? = some (.payload value)) ∧
      ∀ occurrence : String, remaining[occurrence]? =
        (payloads[occurrence]?.map fun value => LeafContent.stub (leafHash libraries digest value)).or
          history[occurrence]? := by
  obtain ⟨payloads, collected, entries⟩ := collect_spec retained
  refine ⟨payloads, _, ?_, entries, fun occurrence => getElem?_foldl_insert _ history payloads occurrence⟩
  rw [Erasure.eraseIn, Erasure.erase, collected]
  rfl

/-- An erasure succeeds exactly when each occurrence has a payload. -/
theorem retained_of_eraseIn {remaining : Erasure} {extract : Extract}
    (erased : history.eraseIn libraries digest occurrences = (remaining, .ok extract)) :
    Retained history occurrences := by
  unfold Erasure.eraseIn at erased
  split at erased
  · next answered =>
      obtain ⟨payloads, collected, -⟩ := bind_ok.mp answered
      exact retained_of_collect collected
  · cases erased

theorem eraseIn_error {remaining : Erasure} {fault : DeleteError}
    (failed : history.eraseIn libraries digest occurrences = (remaining, .error fault)) : remaining = history := by
  unfold Erasure.eraseIn at failed
  split at failed
  · cases failed
  · exact (Prod.mk.inj failed).1.symm

theorem checkStub_ok {entry : String × Value} :
    history.checkStub libraries digest entry = .ok ⟨⟩ ↔
      history.stub entry.1 = some (leafHash libraries digest entry.2) := by
  unfold Erasure.checkStub
  split
  next other => exact iff_of_false (by rintro ⟨⟩) other
  next same => exact iff_of_true rfl (not_not.mp same)

/-- The extract has the hash of its payloads, and each occurrence bears the stub of its payload. -/
def Verified (libraries : Wire.Libraries) (digest : List UInt8 → String) (history : Erasure) (extract : Extract) :
    Prop :=
  extractHash libraries digest extract.payloads = extract.hash ∧
    ∀ occurrence value, extract.payloads[occurrence]? = some value →
      history.stub occurrence = some (leafHash libraries digest value)

/-- A verified extract is reinserted. -/
theorem reinsert_verified {extract : Extract} (verified : Verified libraries digest history extract) :
    history.reinsert libraries digest extract =
      (extract.payloads.toList.foldl (fun history entry => history.insert entry.1 (.payload entry.2)) history,
        .ok ⟨⟩) := by
  have checked : extract.payloads.toList.forM (history.checkStub libraries digest) = .ok ⟨⟩ := by
    rw [forM_ok]
    rintro ⟨occurrence, value⟩ inside
    exact checkStub_ok.mpr (verified.2 occurrence value (Std.ExtTreeMap.mem_toList_iff_getElem?_eq_some.mp inside))
  rw [Erasure.reinsert, if_neg (not_not_intro verified.1), checked]

/-- An extract that is not verified is refused, and the history stays. -/
theorem reinsert_unverified {extract : Extract} (unverified : ¬ Verified libraries digest history extract) :
    ∃ fault, history.reinsert libraries digest extract = (history, .error fault) := by
  unfold Erasure.reinsert
  by_cases same : extractHash libraries digest extract.payloads = extract.hash
  · rw [if_neg (not_not_intro same)]
    cases checked : extract.payloads.toList.forM (history.checkStub libraries digest) with
    | error fault => exact ⟨fault, rfl⟩
    | ok _ =>
      refine absurd ⟨same, fun occurrence value found => ?_⟩ unverified
      have inside := Std.ExtTreeMap.mem_toList_iff_getElem?_eq_some.mpr found
      exact checkStub_ok.mp (forM_ok.mp checked _ inside)
  · exact ⟨.extractHashMismatch, if_pos same⟩

theorem reinsert_error {remaining : Erasure} {extract : Extract} {fault : DeleteError}
    (failed : history.reinsert libraries digest extract = (remaining, .error fault)) : remaining = history := by
  by_cases verified : Verified libraries digest history extract
  · rw [reinsert_verified verified] at failed
    cases failed
  · obtain ⟨other, refused⟩ := reinsert_unverified verified
    rw [refused] at failed
    exact (Prod.mk.inj failed).1.symm

end Erasing

section Protection

variable (libraries : Wire.Libraries) (digest : List UInt8 → String)

/-- The canonical JSON text of a value. -/
def canonicalText (value : Value) : String :=
  (Wire.toWire libraries value).toText

/-- The payload that an erasure takes from an occurrence. -/
def erasedPayload (history : Erasure) (occurrences : List String) (occurrence : String) : Option Value :=
  if occurrence ∈ occurrences then history.payload occurrence else none

/-- Two payloads are equal, or both are absent. -/
def SamePayload : Option Value → Option Value → Prop
  | some first, some second => (first == second) = true
  | none, none => True
  | _, _ => False

/-- An extract has another payload at some occurrence than the erased one. -/
def Differs (history : Erasure) (occurrences : List String) (extract : Extract) : Prop :=
  ∃ occurrence, ¬ SamePayload extract.payloads[occurrence]? (erasedPayload history occurrences occurrence)

/-- An extract has the hash of its payloads. Each of its occurrences was erased with a payload of the same canonical
text, or it has borne the stub of its payload before. -/
def Passes (history : Erasure) (occurrences : List String) (extract : Extract) : Prop :=
  extractHash libraries digest extract.payloads = extract.hash ∧
    ∀ occurrence value, extract.payloads[occurrence]? = some value →
      (∃ erased, erasedPayload history occurrences occurrence = some erased ∧
        canonicalText libraries value = canonicalText libraries erased) ∨
      occurrence ∉ occurrences ∧ history.stub occurrence = some (leafHash libraries digest value)

/-- What the erasure of some occurrences promises: an error leaves the history, the extract restores it once and exactly,
the history that stays shows only the hashes of the payloads, and an extract with other payloads is refused. -/
structure Guarded (history : Erasure) (occurrences : List String) (tampered : Extract) : Prop where
  intact : ∀ remaining fault, history.eraseIn libraries digest occurrences = (remaining, .error fault) →
    remaining = history
  refused : ∀ (state remaining : Erasure) extract fault,
    state.reinsert libraries digest extract = (remaining, .error fault) → remaining = state
  restored : ∀ remaining extract, history.eraseIn libraries digest occurrences = (remaining, .ok extract) →
    remaining.reinsert libraries digest extract = (history, .ok ⟨⟩)
  scrubbed : ∀ remaining extract, history.eraseIn libraries digest occurrences = (remaining, .ok extract) →
    ∀ occurrence ∈ occurrences, remaining.payload occurrence = none
  hidden : ∀ remaining extract, history.eraseIn libraries digest occurrences = (remaining, .ok extract) →
    ∀ other : Erasure, Retained other occurrences →
      (∀ occurrence : String, occurrence ∉ occurrences → other[occurrence]? = history[occurrence]?) →
        (∀ occurrence ∈ occurrences, (other.payload occurrence).map (leafHash libraries digest) =
          (history.payload occurrence).map (leafHash libraries digest)) →
            (other.eraseIn libraries digest occurrences).1 = remaining
  once : ∀ remaining extract, history.eraseIn libraries digest occurrences = (remaining, .ok extract) →
    ∃ fault, (remaining.reinsert libraries digest extract).1.reinsert libraries digest extract =
      ((remaining.reinsert libraries digest extract).1, .error fault)
  guarded : ∀ remaining extract, history.eraseIn libraries digest occurrences = (remaining, .ok extract) →
    Differs history occurrences tampered →
      ∃ fault, remaining.reinsert libraries digest tampered = (remaining, .error fault)

variable {libraries digest} {history : Erasure} {occurrences : List String}

theorem payload_eq_some {occurrence : String} {value : Value} :
    history.payload occurrence = some value ↔ history[occurrence]? = some (.payload value) := by
  unfold Erasure.payload
  split
  · next held found => rw [found, Option.some.injEq, Option.some.injEq, LeafContent.payload.injEq]
  · next other =>
      refine iff_of_false (Option.some_ne_none value).symm ?_
      exact other value

theorem stub_eq_some {occurrence hash : String} :
    history.stub occurrence = some hash ↔ history[occurrence]? = some (.stub hash) := by
  unfold Erasure.stub
  split
  · next held found => rw [found, Option.some.injEq, Option.some.injEq, LeafContent.stub.injEq]
  · next other =>
      refine iff_of_false (Option.some_ne_none hash).symm ?_
      exact other hash

/-- Two payloads have one leaf hash exactly when they have one canonical text. -/
theorem leafHash_eq_iff (injective : Function.Injective digest) {first second : Value} :
    leafHash libraries digest first = leafHash libraries digest second ↔
      canonicalText libraries first = canonicalText libraries second := by
  constructor
  · exact fun same => textBytes_inj (injective same)
  · exact fun same => congrArg (fun text => digest (textBytes text)) same

/-- What a successful erasure leaves and gives. -/
structure Scrubs (libraries : Wire.Libraries) (digest : List UInt8 → String) (history : Erasure)
    (occurrences : List String) (remaining : Erasure) (extract : Extract) : Prop where
  retained : Retained history occurrences
  hash : extractHash libraries digest extract.payloads = extract.hash
  payloads : ∀ occurrence value, extract.payloads[occurrence]? = some value ↔
    occurrence ∈ occurrences ∧ history[occurrence]? = some (.payload value)
  leaves : ∀ occurrence : String, remaining[occurrence]? =
    (extract.payloads[occurrence]?.map fun value => LeafContent.stub (leafHash libraries digest value)).or
      history[occurrence]?

theorem scrubs_of_eraseIn {remaining : Erasure} {extract : Extract}
    (erased : history.eraseIn libraries digest occurrences = (remaining, .ok extract)) :
    Scrubs libraries digest history occurrences remaining extract := by
  have retained := retained_of_eraseIn erased
  obtain ⟨payloads, rest, answered, entries, leaves⟩ := @eraseIn_retained libraries digest _ _ retained
  rw [erased] at answered
  obtain ⟨rfl, same⟩ := Prod.mk.inj answered
  obtain rfl := Except.ok.inj same
  exact ⟨retained, rfl, entries, leaves⟩

namespace Scrubs

variable {remaining : Erasure} {extract : Extract}
  (scrubs : Scrubs libraries digest history occurrences remaining extract)
include scrubs

theorem erased (occurrence : String) : extract.payloads[occurrence]? = erasedPayload history occurrences occurrence := by
  refine Option.ext fun value => ?_
  rw [scrubs.payloads, erasedPayload]
  split
  next listed => rw [payload_eq_some, and_iff_right listed]
  next apart => exact iff_of_false (fun both => apart both.1) (Option.some_ne_none value).symm

/-- An erased occurrence bears the stub of its payload. -/
theorem leaf_of_payload {occurrence : String} {value : Value} (found : extract.payloads[occurrence]? = some value) :
    remaining[occurrence]? = some (.stub (leafHash libraries digest value)) := by
  rw [scrubs.leaves, found]
  rfl

/-- An occurrence that is not erased keeps its leaf. -/
theorem leaf_of_apart {occurrence : String} (apart : occurrence ∉ occurrences) :
    remaining[occurrence]? = history[occurrence]? := by
  rw [scrubs.leaves, scrubs.erased, erasedPayload, if_neg apart]
  rfl

theorem verified : Verified libraries digest remaining extract :=
  ⟨scrubs.hash, fun _ _ found => stub_eq_some.mpr (scrubs.leaf_of_payload found)⟩

/-- The reinsertion of the extract gives the history back. -/
theorem reinserted : remaining.reinsert libraries digest extract = (history, .ok ⟨⟩) := by
  rw [reinsert_verified scrubs.verified]
  refine Prod.ext (Std.ExtTreeMap.ext_getElem? fun occurrence => ?_) rfl
  rw [getElem?_foldl_insert, scrubs.leaves]
  cases found : extract.payloads[occurrence]? with
  | none => rfl
  | some value => exact ((scrubs.payloads occurrence value).mp found).2.symm

/-- The reinsertion accepts an extract exactly when it passes. -/
theorem verified_iff (injective : Function.Injective digest) (tampered : Extract) :
    Verified libraries digest remaining tampered ↔ Passes libraries digest history occurrences tampered := by
  refine and_congr_right fun _ => forall_congr' fun occurrence => forall₂_congr fun value _ => ?_
  by_cases listed : occurrence ∈ occurrences
  · obtain ⟨payload, retained⟩ := scrubs.retained occurrence listed
    have known := (scrubs.payloads occurrence payload).mpr ⟨listed, retained⟩
    have taken := scrubs.erased occurrence
    rw [known] at taken
    rw [stub_eq_some, scrubs.leaf_of_payload known, Option.some.injEq, LeafContent.stub.injEq,
      leafHash_eq_iff injective, ← taken]
    constructor
    · exact fun same => .inl ⟨payload, rfl, same.symm⟩
    · rintro (⟨other, one, same⟩ | ⟨apart, -⟩)
      · rw [Option.some.inj one]
        exact same.symm
      · exact absurd listed apart
  · rw [stub_eq_some, scrubs.leaf_of_apart listed, erasedPayload, if_neg listed, ← stub_eq_some]
    constructor
    · exact fun known => .inr ⟨listed, known⟩
    · rintro (⟨other, none, -⟩ | ⟨-, known⟩)
      · cases none
      · exact known

/-- The history that stays is the same for payloads with the same leaf hashes. -/
theorem remaining_eq {other rest : Erasure} {another : Extract}
    (scrubbed : Scrubs libraries digest other occurrences rest another)
    (apart : ∀ occurrence : String, occurrence ∉ occurrences → other[occurrence]? = history[occurrence]?)
    (hashes : ∀ occurrence ∈ occurrences, (other.payload occurrence).map (leafHash libraries digest) =
      (history.payload occurrence).map (leafHash libraries digest)) : rest = remaining := by
  refine Std.ExtTreeMap.ext_getElem? fun occurrence => ?_
  by_cases listed : occurrence ∈ occurrences
  · obtain ⟨payload, retained⟩ := scrubs.retained occurrence listed
    obtain ⟨replaced, held⟩ := scrubbed.retained occurrence listed
    have same := hashes occurrence listed
    rw [payload_eq_some.mpr retained, payload_eq_some.mpr held, Option.map_some, Option.map_some] at same
    rw [scrubs.leaf_of_payload ((scrubs.payloads _ _).mpr ⟨listed, retained⟩),
      scrubbed.leaf_of_payload ((scrubbed.payloads _ _).mpr ⟨listed, held⟩), Option.some.inj same]
  · rw [scrubs.leaf_of_apart listed, scrubbed.leaf_of_apart listed, apart occurrence listed]

/-- A second reinsertion fails exactly when some occurrence was erased. -/
theorem second_iff :
    (∃ fault, history.reinsert libraries digest extract = (history, .error fault)) ↔ occurrences ≠ [] := by
  constructor
  · rintro ⟨fault, failed⟩ rfl
    have verified : Verified libraries digest history extract :=
      ⟨scrubs.hash, fun occurrence value found => absurd ((scrubs.payloads _ _).mp found).1 List.not_mem_nil⟩
    rw [reinsert_verified verified] at failed
    cases (Prod.mk.inj failed).2
  · intro some
    obtain ⟨first, rest, rfl⟩ := List.exists_cons_of_ne_nil some
    refine reinsert_unverified fun verified => ?_
    obtain ⟨payload, retained⟩ := scrubs.retained first List.mem_cons_self
    have found := (scrubs.payloads first payload).mpr ⟨List.mem_cons_self, retained⟩
    have stubbed := stub_eq_some.mp (verified.2 first payload found)
    rw [retained] at stubbed
    cases stubbed

end Scrubs

/-- An erasure keeps its promises for an extract exactly when, if each occurrence has a payload, there is one, and the
extract does not both differ from the erased payloads and pass for them. -/
theorem guarded_iff (injective : Function.Injective digest) (history : Erasure) (occurrences : List String)
    (tampered : Extract) :
    Guarded libraries digest history occurrences tampered ↔
      (Retained history occurrences → occurrences ≠ [] ∧
        (Differs history occurrences tampered → ¬ Passes libraries digest history occurrences tampered)) := by
  constructor
  · intro holds retained
    obtain ⟨payloads, remaining, erased, -, -⟩ := @eraseIn_retained libraries digest _ _ retained
    have scrubs := scrubs_of_eraseIn erased
    constructor
    · have second := holds.once _ _ erased
      rw [scrubs.reinserted] at second
      exact scrubs.second_iff.mp second
    · intro differs passes
      obtain ⟨fault, failed⟩ := holds.guarded _ _ erased differs
      rw [reinsert_verified ((scrubs.verified_iff injective tampered).mpr passes)] at failed
      cases (Prod.mk.inj failed).2
  · intro promised
    refine ⟨fun _ _ => eraseIn_error, fun _ _ _ _ => reinsert_error, ?_, ?_, ?_, ?_, ?_⟩
    · exact fun _ _ erased => (scrubs_of_eraseIn erased).reinserted
    · intro remaining extract erased occurrence listed
      have scrubs := scrubs_of_eraseIn erased
      obtain ⟨payload, retained⟩ := scrubs.retained occurrence listed
      rw [Erasure.payload, scrubs.leaf_of_payload ((scrubs.payloads _ _).mpr ⟨listed, retained⟩)]
    · intro remaining extract erased other retained apart hashes
      obtain ⟨payloads, rest, answered, -, -⟩ := @eraseIn_retained libraries digest _ _ retained
      rw [answered]
      exact (scrubs_of_eraseIn erased).remaining_eq (scrubs_of_eraseIn answered) apart hashes
    · intro remaining extract erased
      have scrubs := scrubs_of_eraseIn erased
      rw [scrubs.reinserted]
      exact scrubs.second_iff.mpr (promised scrubs.retained).1
    · intro remaining extract erased differs
      have scrubs := scrubs_of_eraseIn erased
      refine reinsert_unverified fun verified => (promised scrubs.retained).2 differs ?_
      exact (scrubs.verified_iff injective tampered).mp verified

end Protection

section Samples

/-- A digest that keeps the bytes. -/
def plainDigest (bytes : List UInt8) : String :=
  Wire.Sample.byteText bytes

theorem plainDigest_injective : Function.Injective plainDigest :=
  Function.LeftInverse.injective Wire.Sample.textBytes_byteText

/-- The payload of one occurrence. -/
def notePayloads (payload : Value) : Std.ExtTreeMap String Value compareText :=
  (∅ : Std.ExtTreeMap String Value compareText).insert "n" payload

/-- A history with the payload of one occurrence. -/
def noteHistory : Erasure :=
  Erasure.record ∅ "n" (.text "1")

/-- The extract of the occurrence with another payload. -/
def noteExtract (payload : Value) : Extract :=
  ⟨extractHash Wire.Sample.libraries plainDigest (notePayloads (.text "1")), notePayloads payload⟩

theorem getElem?_notePayloads (payload : Value) {occurrence : String} (other : occurrence ≠ "n") :
    (notePayloads payload)[occurrence]? = none := by
  rw [notePayloads, getElem?_insert_of_ne other]
  exact Std.ExtTreeMap.getElem?_empty

theorem erasedPayload_note : erasedPayload noteHistory ["n"] "n" = some (.text "1") := by
  rw [erasedPayload, if_pos (List.mem_singleton.mpr rfl), payload_eq_some]
  exact Std.ExtTreeMap.getElem?_insert_self

/-- The extract with another text is refused. -/
theorem guarded_note : Guarded Wire.Sample.libraries plainDigest noteHistory ["n"] (noteExtract (.text "2")) := by
  refine (guarded_iff plainDigest_injective _ _ _).mpr fun _ => ⟨List.cons_ne_nil _ _, fun _ passes => ?_⟩
  rcases passes.2 "n" (.text "2") Std.ExtTreeMap.getElem?_insert_self with ⟨erased, known, same⟩ | ⟨apart, -⟩
  · rw [erasedPayload_note] at known
    obtain rfl := Option.some.inj known
    exact absurd same (by decide)
  · exact apart (List.mem_singleton.mpr rfl)

/-- An integer has the canonical text of the erased text. The extract with it is reinserted, and the history has the
integer then. -/
theorem integer_reinserted : ∃ remaining changed,
    noteHistory.eraseIn Wire.Sample.libraries plainDigest ["n"] = (remaining, .ok (noteExtract (.text "1"))) ∧
      remaining.reinsert Wire.Sample.libraries plainDigest ((noteExtract (.text "1")).tampered "n" (.int 1)) =
        (changed, .ok ⟨⟩) ∧
      changed.payload "n" = some (.int 1) ∧
      ¬ Guarded Wire.Sample.libraries plainDigest noteHistory ["n"]
        ((noteExtract (.text "1")).tampered "n" (.int 1)) := by
  have retained : Retained noteHistory ["n"] :=
    List.forall_mem_singleton.mpr ⟨.text "1", Std.ExtTreeMap.getElem?_insert_self⟩
  obtain ⟨payloads, remaining, erased, entries, -⟩ :=
    @eraseIn_retained Wire.Sample.libraries plainDigest _ _ retained
  have scrubs := scrubs_of_eraseIn erased
  have whole : payloads = notePayloads (.text "1") := by
    refine Std.ExtTreeMap.ext_getElem? fun occurrence => (scrubs.erased occurrence).trans ?_
    by_cases same : occurrence = "n"
    · rw [same, erasedPayload_note, notePayloads, Std.ExtTreeMap.getElem?_insert_self]
    · rw [getElem?_notePayloads _ same, erasedPayload, if_neg fun listed => same (List.mem_singleton.mp listed)]
  subst whole
  have verified : Verified Wire.Sample.libraries plainDigest remaining
      ((noteExtract (.text "1")).tampered "n" (.int 1)) := by
    refine (scrubs.verified_iff plainDigest_injective _).mpr ⟨by decide +kernel, fun occurrence value found => .inl ?_⟩
    by_cases same : occurrence = "n"
    · subst same
      obtain rfl := Option.some.inj (Std.ExtTreeMap.getElem?_insert_self.symm.trans found)
      exact ⟨.text "1", erasedPayload_note, by decide⟩
    · rw [Extract.tampered, getElem?_insert_of_ne same] at found
      cases (getElem?_notePayloads _ same).symm.trans found
  have answered := reinsert_verified verified
  refine ⟨remaining, _, erased, answered, ?_, fun guards => ?_⟩
  · rw [payload_eq_some, getElem?_foldl_insert, Extract.tampered, Std.ExtTreeMap.getElem?_insert_self]
    rfl
  · have differs : Differs noteHistory ["n"] ((noteExtract (.text "1")).tampered "n" (.int 1)) := by
      refine ⟨"n", ?_⟩
      rw [erasedPayload_note, Extract.tampered, Std.ExtTreeMap.getElem?_insert_self]
      exact (by decide : ¬ (Value.int 1 == Value.text "1") = true)
    obtain ⟨fault, failed⟩ := guards.guarded _ _ erased differs
    rw [answered] at failed
    cases (Prod.mk.inj failed).2

end Samples

end Liasse.Surface
