/-
This file models the line framing of the live stream: it composes and parses the fields of the events of the stream.
-/

import Liasse.Codes.Lines
import Liasse.Live.Tokens

namespace Liasse.Live

open Codes
open Modules (splitOnce)

section Framing

/-- One event of the stream has a type, an identifier, a payload and a reconnection delay. -/
structure SseEvent where
  event : Option (List Char)
  id : Option (List Char)
  data : List Char
  retry : Option UInt64
deriving DecidableEq

/-- One `field: value` line. -/
def pushField (field : String) (value : List Char) : List Char :=
  field.toList ++ ':' :: ' ' :: value ++ ['\n']

/-- The text of an event ends with the blank line that dispatches it. -/
def SseEvent.encode (event : SseEvent) : List Char :=
  event.id.elim [] (pushField "id") ++
  event.event.elim [] (pushField "event") ++
  event.retry.elim [] (fun retry => pushField "retry" retry.toNat.repr.toList) ++
  (event.data.splitOn '\n').flatMap (pushField "data") ++ ['\n']

def encodeStream (events : List SseEvent) : List Char :=
  events.flatMap SseEvent.encode

/-- The accumulated fields of the event that is parsed. -/
structure Pending where
  event : Option (List Char) := none
  id : Option (List Char) := none
  data : List Char := []
  hasData : Bool := false
  retry : Option UInt64 := none

namespace Pending

/-- A known field changes the pending event, and an unknown one is ignored. -/
def field (pending : Pending) (name value : List Char) : Pending :=
  if name = "event".toList then { pending with event := some value }
  else if name = "id".toList then { pending with id := some value }
  else if name = "data".toList then
    { pending with data := pending.data ++ value ++ ['\n'], hasData := true }
  else if name = "retry".toList then
    match History.position (String.ofList value) with
    | some delay => { pending with retry := some (UInt64.ofNat delay) }
    | none => pending
  else pending

/-- The payload loses the line break after its last line. -/
def payload (pending : Pending) : List Char :=
  if pending.data.getLast? = some '\n' then pending.data.dropLast else pending.data

/-- A pending event without data dispatches nothing. -/
def dispatch (pending : Pending) (events : List SseEvent) : List SseEvent × Pending :=
  (if pending.hasData then events ++ [⟨pending.event, pending.id, pending.payload, pending.retry⟩] else events, {})

end Pending

/-- Exactly one space after the colon is dropped. -/
def stripSpace : List Char → List Char
  | ' ' :: rest => rest
  | value => value

/-- A blank line dispatches the pending event, a comment line is ignored, and each other line is a field. -/
def parseLine (state : List SseEvent × Pending) (line : List Char) : List SseEvent × Pending :=
  if line = [] then state.2.dispatch state.1
  else if line.head? = some ':' then state
  else
    match splitOnce ':' line with
    | some (name, value) => (state.1, state.2.field name (stripSpace value))
    | none => (state.1, state.2.field line [])

/-- Each pair of a carriage return and a line feed becomes a line feed. -/
def collapse : List Char → List Char
  | '\r' :: '\n' :: rest => '\n' :: collapse rest
  | char :: rest => char :: collapse rest
  | [] => []

/-- The three line terminators become line feeds. -/
def normalize (input : List Char) : List Char :=
  (collapse input).map fun char => if char = '\r' then '\n' else char

/-- A last event without its blank line is dispatched at the end of the text. -/
def parseStream (input : List Char) : List SseEvent :=
  let last := ((normalize input).splitOn '\n').foldl parseLine ([], {})
  (last.2.dispatch last.1).1

end Framing

section Lines

/-- The name and the value of each line of an event. -/
def SseEvent.fields (event : SseEvent) : List (String × List Char) :=
  event.id.toList.map (fun id => ("id", id)) ++
  event.event.toList.map (fun type => ("event", type)) ++
  event.retry.toList.map (fun retry => ("retry", retry.toNat.repr.toList)) ++
  (event.data.splitOn '\n').map fun line => ("data", line)

def fieldLine (field : String × List Char) : List Char :=
  field.1.toList ++ ':' :: ' ' :: field.2

/-- The lines of an event are those of its fields and a blank line. -/
def SseEvent.lines (event : SseEvent) : List (List Char) :=
  event.fields.map fieldLine ++ [[]]

theorem SseEvent.encode_eq (event : SseEvent) : event.encode = unlines '\n' event.lines := by
  have pushed : ∀ name (values : List (List Char)), values.flatMap (pushField name) =
      unlines '\n' (values.map fun value => fieldLine (name, value)) := by
    intro name values
    have shape : pushField name = fun value => fieldLine (name, value) ++ ['\n'] := rfl
    rw [shape, unlines, List.flatMap_map]
  obtain ⟨type, id, data, retry⟩ := event
  simp only [encode, lines, fields, List.map_append, unlines_append, pushed, List.map_map]
  congr 1
  · congr 1
    congr 1
    · congr 1
      · cases id <;> simp [unlines, pushField, fieldLine]
      · cases type <;> simp [unlines, pushField, fieldLine]
    · cases retry <;> simp [unlines, pushField, fieldLine]

theorem encodeStream_eq (events : List SseEvent) :
    encodeStream events = unlines '\n' (events.flatMap SseEvent.lines) := by
  induction events with
  | nil => rfl
  | cons event rest ih =>
    rw [List.flatMap_cons, unlines_append, ← event.encode_eq, ← ih]
    rfl

/-- A named field with any value comes back from its line. -/
theorem parseLine_fieldLine (state : List SseEvent × Pending) {name : String} (named : name.toList ≠ [])
    (plain : ':' ∉ name.toList) (value : List Char) :
    parseLine state (fieldLine (name, value)) = (state.1, state.2.field name.toList value) := by
  have filled : fieldLine (name, value) ≠ [] := by simp [fieldLine]
  have uncommented : (fieldLine (name, value)).head? ≠ some ':' := by
    obtain ⟨first, rest, spelled⟩ := List.exists_cons_of_ne_nil named
    have other : first ≠ ':' := by
      rintro rfl
      exact plain (spelled ▸ List.mem_cons_self)
    simp [fieldLine, spelled, other]
  rw [parseLine, if_neg filled, if_neg uncommented, fieldLine, splitOnce_append plain]
  rfl

end Lines

section Parsing

/-- The pending event after all fields of an event has the same fields, and a line break ends its payload. -/
theorem foldl_fields (event : SseEvent) :
    event.fields.foldl (fun pending field => pending.field field.1.toList field.2) ({} : Pending) =
      ⟨event.event, event.id, event.data ++ ['\n'], true, event.retry⟩ := by
  have payload : ∀ (lines : List (List Char)) (pending : Pending), lines ≠ [] →
      (lines.map fun line => ("data", line)).foldl (fun pending field => pending.field field.1.toList field.2) pending =
        { pending with data := pending.data ++ unlines '\n' lines, hasData := true } := by
    intro lines
    induction lines with
    | nil => exact fun _ filled => absurd rfl filled
    | cons line rest ih =>
      intro pending _
      have here : pending.field "data".toList line =
          { pending with data := pending.data ++ line ++ ['\n'], hasData := true } := rfl
      rw [List.map_cons, List.foldl_cons, here]
      by_cases last : rest = []
      · simp [last]
      · rw [ih _ last]
        simp
  have delay : ∀ (retry : UInt64) (pending : Pending),
      pending.field "retry".toList retry.toNat.repr.toList = { pending with retry := some retry } := by
    intro retry pending
    have parsed : History.position (String.ofList retry.toNat.repr.toList) = some retry.toNat := by
      rw [String.ofList_toList]
      exact History.position_repr retry.toNat_lt
    rw [Pending.field, if_neg (by decide), if_neg (by decide), if_neg (by decide), if_pos rfl, parsed]
    simp
  obtain ⟨type, id, data, retry⟩ := event
  simp only [SseEvent.fields, List.foldl_append]
  rw [payload _ _ (List.splitOn_ne_nil _ _), unlines_splitOn]
  have named : ∀ (id : List Char) (pending : Pending),
      pending.field "id".toList id = { pending with id := some id } := fun _ _ => rfl
  have typed : ∀ (type : List Char) (pending : Pending),
      pending.field "event".toList type = { pending with event := some type } := fun _ _ => rfl
  cases id <;> cases type <;> cases retry <;>
    simp only [Option.toList_none, Option.toList_some, List.map_nil, List.map_cons, List.foldl_nil,
      List.foldl_cons, named, typed, delay, List.nil_append]

/-- The lines of an event dispatch the event, and nothing is pending after them. -/
theorem foldl_lines (event : SseEvent) (events : List SseEvent) :
    event.lines.foldl parseLine (events, {}) = (events ++ [event], {}) := by
  have fields : ∀ (listed : List (String × List Char)) (pending : Pending),
      (∀ field ∈ listed, field.1 ∈ ["id", "event", "retry", "data"]) →
      (listed.map fieldLine).foldl parseLine (events, pending) =
        (events, listed.foldl (fun pending field => pending.field field.1.toList field.2) pending) := by
    intro listed
    induction listed with
    | nil => exact fun _ _ => rfl
    | cons field rest ih =>
      intro pending known
      have own := known field List.mem_cons_self
      have named : field.1.toList ≠ [] ∧ ':' ∉ field.1.toList := by
        simp only [List.mem_cons, List.not_mem_nil, or_false] at own
        rcases own with name | name | name | name <;> (rw [name]; decide)
      rw [List.map_cons, List.foldl_cons, parseLine_fieldLine _ named.1 named.2]
      exact ih _ fun other inside => known other (List.mem_cons_of_mem _ inside)
  have known : ∀ field ∈ event.fields, field.1 ∈ ["id", "event", "retry", "data"] := by
    intro field inside
    simp only [SseEvent.fields, List.mem_append, List.mem_map] at inside
    rcases inside with ((⟨_, -, rfl⟩ | ⟨_, -, rfl⟩) | ⟨_, -, rfl⟩) | ⟨_, -, rfl⟩ <;> simp
  rw [SseEvent.lines, List.foldl_append, fields _ _ known, foldl_fields]
  simp [parseLine, Pending.dispatch, Pending.payload]

theorem foldl_stream (events before : List SseEvent) :
    (events.flatMap SseEvent.lines).foldl parseLine (before, {}) = (before ++ events, {}) := by
  induction events generalizing before with
  | nil => simp
  | cons event rest ih =>
    rw [List.flatMap_cons, List.foldl_append, foldl_lines, ih, List.append_assoc,
      List.singleton_append]

end Parsing

section RoundTrips

/-- A text without a carriage return is its own normal form. -/
theorem normalize_of_plain {text : List Char} (plain : '\r' ∉ text) : normalize text = text := by
  have collapsed : collapse text = text := by
    fun_induction collapse text with
    | case1 rest => exact absurd List.mem_cons_self plain
    | case2 char rest _ ih =>
      rw [ih fun inside => plain (List.mem_cons_of_mem _ inside)]
    | case3 => rfl
  rw [normalize, collapsed]
  have kept : ∀ char ∈ text, (if char = '\r' then '\n' else char) = id char := by
    intro char inside
    have other : char ≠ '\r' := by
      rintro rfl
      exact plain inside
    exact if_neg other
  rw [List.map_congr_left kept, List.map_id]

/-- The normal form of a text has no carriage return. -/
theorem normalize_plain (text : List Char) : '\r' ∉ normalize text := by
  intro inside
  obtain ⟨char, -, same⟩ := List.mem_map.mp inside
  split at same
  · exact absurd same (by decide)
  · contradiction

/-- The type and the identifier of the event are single lines. -/
def SseEvent.SingleLine (event : SseEvent) : Prop :=
  ∀ text ∈ event.event.toList ++ event.id.toList, '\n' ∉ text ∧ '\r' ∉ text

/-- A line break in a line of an event is a carriage return of its payload. -/
theorem SseEvent.SingleLine.broken {event : SseEvent} (single : event.SingleLine) {line : List Char}
    (listed : line ∈ event.lines) {char : Char} (inside : char ∈ line) (broken : char = '\n' ∨ char = '\r') :
    char ∈ event.data ∧ char ≠ '\n' := by
  have unnamed : ∀ name ∈ ["id", "event", "retry", "data"], char ∉ name.toList := by
    rcases broken with rfl | rfl <;> decide
  have unmarked : char ≠ ':' ∧ char ≠ ' ' := by
    rcases broken with rfl | rfl <;> decide
  have undigited : ∀ number : Nat, char ∉ number.repr.toList := by
    intro number present
    rw [Nat.toList_repr] at present
    have digit := Nat.isDigit_of_mem_toDigits (by decide) (by decide) present
    rcases broken with rfl | rfl <;> exact absurd digit (by decide)
  have unbroken : ∀ text ∈ event.event.toList ++ event.id.toList, char ∉ text := by
    intro text own
    rcases broken with rfl | rfl
    · exact (single text own).1
    · exact (single text own).2
  have values : ∀ name value, (name, value) ∈ event.fields → name ∈ ["id", "event", "retry", "data"] ∧
      (char ∈ value → char ∈ event.data ∧ char ≠ '\n') := by
    intro name value field
    simp only [SseEvent.fields, List.mem_append, List.mem_map, Prod.mk.injEq] at field
    rcases field with ((⟨id, own, rfl, rfl⟩ | ⟨type, own, rfl, rfl⟩) | ⟨retry, own, rfl, rfl⟩) | ⟨part, own, rfl, rfl⟩
    · exact ⟨by simp, fun present => absurd present (unbroken id (List.mem_append_right _ own))⟩
    · exact ⟨by simp, fun present => absurd present (unbroken type (List.mem_append_left _ own))⟩
    · exact ⟨by simp, fun present => absurd present (undigited _)⟩
    · exact ⟨by simp, fun present => mem_of_mem_splitOn own present⟩
  rcases List.mem_append.mp listed with field | blank
  · obtain ⟨⟨name, value⟩, own, rfl⟩ := List.mem_map.mp field
    obtain ⟨known, below⟩ := values name value own
    simp only [fieldLine, List.mem_append, List.mem_cons] at inside
    rcases inside with named | colon | space | present
    · exact absurd named (unnamed name known)
    · exact absurd colon unmarked.1
    · exact absurd space unmarked.2
    · exact below present
  · rw [List.mem_singleton.mp blank] at inside
    cases inside

/-- Events with plain payloads come back from their text. -/
theorem parseStream_encodeStream {events : List SseEvent} (single : ∀ event ∈ events, event.SingleLine)
    (plain : ∀ event ∈ events, '\r' ∉ event.data) : parseStream (encodeStream events) = events := by
  have lines : ∀ line ∈ events.flatMap SseEvent.lines, '\n' ∉ line ∧ '\r' ∉ line := by
    intro line listed
    obtain ⟨event, own, listed⟩ := List.mem_flatMap.mp listed
    constructor
    · intro inside
      exact ((single event own).broken listed inside (.inl rfl)).2 rfl
    · intro inside
      exact plain event own ((single event own).broken listed inside (.inr rfl)).1
  have returns : '\r' ∉ encodeStream events := by
    intro inside
    rw [encodeStream_eq, unlines] at inside
    obtain ⟨line, listed, present⟩ := List.mem_flatMap.mp inside
    rcases List.mem_append.mp present with own | mark
    · exact (lines line listed).2 own
    · exact absurd (List.mem_singleton.mp mark) (by decide)
  have split : (encodeStream events).splitOn '\n' = events.flatMap SseEvent.lines ++ [[]] := by
    have parts := splitOn_unlines (fun line listed => (lines line listed).1) []
    rwa [List.append_nil, ← encodeStream_eq, List.splitOn_nil] at parts
  rw [parseStream, normalize_of_plain returns, split, List.foldl_append, foldl_stream]
  rfl

/-- The parser has read no carriage return into a payload. -/
structure Unbroken (state : List SseEvent × Pending) : Prop where
  events : ∀ event ∈ state.1, '\r' ∉ event.data
  pending : '\r' ∉ state.2.data

theorem Unbroken.dispatch {state : List SseEvent × Pending} (unbroken : Unbroken state) :
    Unbroken (state.2.dispatch state.1) := by
  have payload : '\r' ∉ state.2.payload := by
    rw [Pending.payload]
    split
    · exact fun inside => unbroken.pending (List.mem_of_mem_dropLast inside)
    · exact unbroken.pending
  refine ⟨fun event inside => ?_, by simp [Pending.dispatch]⟩
  simp only [Pending.dispatch] at inside
  split at inside
  · rcases List.mem_append.mp inside with before | last
    · exact unbroken.events event before
    · rw [List.mem_singleton.mp last]
      exact payload
  · exact unbroken.events event inside

theorem Unbroken.field {state : List SseEvent × Pending} (unbroken : Unbroken state) (name : List Char)
    {value : List Char} (plain : '\r' ∉ value) : Unbroken (state.1, state.2.field name value) := by
  refine ⟨unbroken.events, ?_⟩
  simp only [Pending.field]
  split_ifs
  · exact unbroken.pending
  · exact unbroken.pending
  · simp [unbroken.pending, plain]
  · cases History.position (String.ofList value) with
    | none => exact unbroken.pending
    | some delay => exact unbroken.pending
  · exact unbroken.pending

theorem Unbroken.parseLine {state : List SseEvent × Pending} (unbroken : Unbroken state) {line : List Char}
    (plain : '\r' ∉ line) : Unbroken (parseLine state line) := by
  rw [Live.parseLine]
  split_ifs
  · exact unbroken.dispatch
  · exact unbroken
  · cases parts : splitOnce ':' line with
    | none => exact unbroken.field line (by simp)
    | some pair =>
      obtain ⟨name, value⟩ := pair
      refine unbroken.field name fun inside => plain ?_
      have stripped : stripSpace value ⊆ value := by
        rw [stripSpace.eq_def]
        split
        · exact List.subset_cons_self _ _
        · exact List.Subset.refl _
      rw [splitOnce] at parts
      split at parts
      next => cases parts
      next mark after rest =>
        obtain ⟨-, rfl⟩ := Prod.mk.inj (Option.some.inj parts)
        have below : after ⊆ line.dropWhile (· ≠ ':') := rest ▸ List.subset_cons_self _ _
        exact (List.dropWhile_sublist _).subset (below (stripped inside))

/-- The payloads of the parsed events have no carriage return. -/
theorem parseStream_plain {text : List Char} {event : SseEvent} (parsed : event ∈ parseStream text) :
    '\r' ∉ event.data := by
  have run : ∀ (lines : List (List Char)) (state : List SseEvent × Pending), (∀ line ∈ lines, '\r' ∉ line) →
      Unbroken state → Unbroken (lines.foldl parseLine state) := by
    intro lines
    induction lines with
    | nil => exact fun _ _ unbroken => unbroken
    | cons line rest ih =>
      intro state plain unbroken
      exact ih _ (fun other inside => plain other (List.mem_cons_of_mem _ inside))
        (unbroken.parseLine (plain line List.mem_cons_self))
  have plain : ∀ line ∈ (normalize text).splitOn '\n', '\r' ∉ line := fun line listed inside =>
    normalize_plain text (mem_of_mem_splitOn listed inside).1
  have last := run _ ([], {}) plain ⟨by simp, by simp⟩
  exact last.dispatch.events event parsed

/-- The events of a stream come back from its text exactly when no payload has a carriage return. -/
theorem parseStream_encodeStream_iff (events : List SseEvent) (single : ∀ event ∈ events, event.SingleLine) :
    parseStream (encodeStream events) = events ↔ ∀ event ∈ events, '\r' ∉ event.data := by
  constructor
  · intro same event inside
    rw [← same] at inside
    exact parseStream_plain inside
  · exact parseStream_encodeStream single

/-- A payload of several lines comes back with its empty lines, its leading spaces and its colons. -/
theorem parseStream_sample :
    parseStream (encodeStream [⟨none, some "42".toList, " a\n\n: b\n".toList, some 1500⟩]) =
      [⟨none, some "42".toList, " a\n\n: b\n".toList, some 1500⟩] :=
  (parseStream_encodeStream_iff [⟨none, some "42".toList, " a\n\n: b\n".toList, some 1500⟩]
    (by simp [SseEvent.SingleLine])).mpr (by simp)

/-- The rest of a payload line after a carriage return is lost. -/
theorem parseStream_return : ¬ ∀ events : List SseEvent, (∀ event ∈ events, event.SingleLine) →
    parseStream (encodeStream events) = events := by
  intro claimed
  have same := claimed [⟨none, none, "a\rb".toList, none⟩] (by simp [SseEvent.SingleLine])
  have lost : parseStream (encodeStream [⟨none, none, "a\rb".toList, none⟩]) =
      [⟨none, none, "a".toList, none⟩] := by decide +kernel
  rw [lost] at same
  exact absurd same (by decide)

end RoundTrips

end Liasse.Live
