/-
This file models the occurrence tokens of one connection. A token is minted for a row in the life of a subscription.
The file proves what the connection records of its tokens.
-/

import Liasse.Codes.Related
import Liasse.Codes.Table
import Liasse.History.Lineage
import Liasse.Live.Session
import Liasse.Modules.Peer

namespace Liasse.Live

open Codes
open Modules (splitOnce)

section Keys

/-- A minter seals the payload of a token, and it recovers the payload of a token that it sealed. -/
structure TokenMinter where
  sealPayload : String → String
  openToken : String → Option String
  opens : ∀ payload, openToken (sealPayload payload) = some payload

/-- The public name of a connection has no separator. -/
structure ConnKeys where
  publicId : String
  plain : '.' ∉ publicId.toList

namespace ConnKeys

variable (keys : ConnKeys) (minter : TokenMinter)

/-- The token of an occurrence is sealed over the public name and a count. -/
def occurrence (counter : Nat) : String :=
  minter.sealPayload ("o." ++ keys.publicId ++ "." ++ counter.repr)

/-- The count of a token with the public name of the connection. -/
def openOccurrence (token : String) : Option Nat := do
  let payload ← minter.openToken token
  let rest ← if "o.".toList.isPrefixOf payload.toList then some (payload.toList.drop 2) else none
  let (publicId, counter) ← splitOnce '.' rest
  if String.ofList publicId ≠ keys.publicId then none else History.position (String.ofList counter)

end ConnKeys

end Keys

section Minting

/-- The tokens of one subscription by row. The fields `life` and `shown` are not part of the program: they count the
subscriptions that the connection installed, and they list the rows of the last projection. -/
structure SubTokens (RowId : Type) [Ord RowId] where
  occOf : Std.ExtTreeMap RowId String
  life : Nat
  shown : List RowId

/-- A token with the row and the life of a subscription that it was minted for. -/
structure Issue (Sub RowId : Type) where
  sub : Sub
  life : Nat
  row : RowId
  token : String

/-- The tokens of a connection in both directions. The fields `lives` and `issued` are not part of the program: they
count the installed subscriptions, and they list each token that was ever minted. -/
structure Tokens (Sub RowId : Type) [Ord Sub] [Ord RowId] where
  counter : Nat
  index : Std.ExtTreeMap String (Sub × RowId)
  subs : Std.ExtTreeMap Sub (SubTokens RowId)
  lives : Nat
  issued : List (Issue Sub RowId)

/-- How a token of a request resolves. -/
inductive AnchorResolution (RowId : Type)
  | row (row : RowId)
  | absent
  | forged
deriving DecidableEq

namespace Tokens

variable {Sub RowId Value : Type} [Ord Sub] [Std.TransOrd Sub] [Ord RowId] [Std.TransOrd RowId]

omit [Std.TransOrd Sub] [Std.TransOrd RowId] in
/-- A new connection has minted nothing. -/
def new : Tokens Sub RowId :=
  ⟨0, ∅, ∅, 0, []⟩

omit [Std.TransOrd RowId] in
/-- A new subscription has no tokens. It replaces one with its name. -/
def renew (tokens : Tokens Sub RowId) (sub : Sub) : Tokens Sub RowId :=
  { tokens with subs := tokens.subs.insert sub ⟨∅, tokens.lives, []⟩, lives := tokens.lives + 1 }

/-- The projection of some rows is recorded. -/
def record (tokens : Tokens Sub RowId) (sub : Sub) (shown : List RowId) : Tokens Sub RowId :=
  match tokens.subs[sub]? with
  | some known => { tokens with subs := tokens.subs.insert sub { known with shown } }
  | none => tokens

variable (keys : ConnKeys) (minter : TokenMinter)

/-- A row keeps its token in the life of its subscription. A new row takes the next count. -/
def mintOcc (tokens : Tokens Sub RowId) (sub : Sub) (row : RowId) : Tokens Sub RowId × String :=
  match tokens.subs[sub]?.bind fun known => known.occOf[row]? with
  | some occ => (tokens, occ)
  | none =>
    let occ := keys.occurrence minter tokens.counter
    let subs := match tokens.subs[sub]? with
      | some known => tokens.subs.insert sub { known with occOf := known.occOf.insert row occ }
      | none => tokens.subs
    let life := (tokens.subs[sub]?.map SubTokens.life).getD 0
    ({ tokens with
        counter := (tokens.counter + 1) % 2 ^ 64
        index := tokens.index.insert occ (sub, row)
        subs
        issued := tokens.issued ++ [⟨sub, life, row, occ⟩] }, occ)

/-- The rows of a view with their tokens. -/
def projectRows (tokens : Tokens Sub RowId) (sub : Sub) :
    List (WireRow RowId Value) → Tokens Sub RowId × List (WireRow String Value)
  | [] => (tokens, [])
  | row :: rest =>
    let minted := tokens.mintOcc keys minter sub row.occ
    let projected := projectRows minted.1 sub rest
    (projected.1, ⟨minted.2, row.value⟩ :: projected.2)

/-- The rows of a view get their tokens. -/
def project (tokens : Tokens Sub RowId) (sub : Sub) (rows : List (WireRow RowId Value)) :
    Tokens Sub RowId × List (WireRow String Value) :=
  let projected := tokens.projectRows keys minter sub rows
  (projected.1.record sub (rows.map WireRow.occ), projected.2)

omit [Std.TransOrd Sub] [Std.TransOrd RowId] in
/-- A token that opens resolves to the row that it is recorded for. -/
def resolveOcc (tokens : Tokens Sub RowId) (occ : String) : AnchorResolution RowId :=
  match keys.openOccurrence minter occ with
  | none => .forged
  | some _ =>
    match tokens.index[occ]? with
    | some found => .row found.2
    | none => .absent

end Tokens

end Minting

section Texts

variable {keys : ConnKeys} {minter : TokenMinter}

/-- A text splits at its first separator. -/
theorem splitOnce_append {separator : Char} {before : List Char} (absent : separator ∉ before) (after : List Char) :
    splitOnce separator (before ++ separator :: after) = some (before, after) := by
  have kept : ∀ char ∈ before, decide (char ≠ separator) = true := by
    intro char inside
    exact decide_eq_true fun same => absent (same ▸ inside)
  have rest : (before ++ separator :: after).dropWhile (· ≠ separator) = separator :: after := by
    rw [List.dropWhile_append_of_pos kept, List.dropWhile_cons_of_neg (by simp)]
  have first : (before ++ separator :: after).takeWhile (· ≠ separator) = before := by
    rw [List.takeWhile_append_of_pos kept, List.takeWhile_cons_of_neg (by simp), List.append_nil]
  rw [splitOnce, rest, first]

/-- The token of a 64-bit count opens to the count. -/
theorem openOccurrence_occurrence {counter : Nat} (bounded : counter < 2 ^ 64) :
    keys.openOccurrence minter (keys.occurrence minter counter) = some counter := by
  have text : ("o." ++ keys.publicId ++ "." ++ counter.repr).toList =
      "o.".toList ++ (keys.publicId.toList ++ '.' :: counter.repr.toList) := by
    simp [String.toList_append]
  have rest : ("o.".toList ++ (keys.publicId.toList ++ '.' :: counter.repr.toList)).drop 2 =
      keys.publicId.toList ++ '.' :: counter.repr.toList := rfl
  have started : "o.".toList.isPrefixOf ("o.".toList ++ (keys.publicId.toList ++ '.' :: counter.repr.toList)) = true :=
    List.isPrefixOf_iff_prefix.mpr (List.prefix_append ..)
  rw [ConnKeys.openOccurrence, ConnKeys.occurrence, minter.opens]
  simp only [Option.bind_eq_bind, Option.bind_some, text, started, ↓reduceIte, rest, splitOnce_append keys.plain,
    String.ofList_toList, ne_eq, not_true_eq_false]
  exact History.position_repr bounded

theorem occurrence_injective {first second : Nat} (one : first < 2 ^ 64) (two : second < 2 ^ 64)
    (same : keys.occurrence minter first = keys.occurrence minter second) : first = second := by
  have opened : keys.openOccurrence minter (keys.occurrence minter first) = some first := openOccurrence_occurrence one
  rw [same, openOccurrence_occurrence two] at opened
  exact (Option.some.inj opened).symm

end Texts

section Records

variable {Sub RowId Value : Type} [Ord Sub] [Std.TransOrd Sub] [Ord RowId] [Std.TransOrd RowId]

namespace Tokens

omit [Std.TransOrd Sub] [Std.TransOrd RowId] in
/-- The tokens are those of the counts in their order. The index has the last row of each token. A life of a
subscription has one token for each of its rows, and the subscriptions have different lives. -/
structure Sound (keys : ConnKeys) (minter : TokenMinter) (tokens : Tokens Sub RowId) : Prop where
  counts : tokens.counter = tokens.issued.length % 2 ^ 64
  texts : tokens.issued.map Issue.token =
    (List.range tokens.issued.length).map fun count => keys.occurrence minter (count % 2 ^ 64)
  index : ∀ occ : String, tokens.index[occ]? =
    (tokens.issued.reverse.find? fun issue => issue.token = occ).map fun issue => (issue.sub, issue.row)
  once : (tokens.issued.map fun issue => (issue.life, issue.row)).Nodup
  held : ∀ (sub : Sub) (own : SubTokens RowId), tokens.subs[sub]? = some own → own.life < tokens.lives ∧
    ∀ (row : RowId) (occ : String), own.occOf[row]? = some occ ↔ ⟨sub, own.life, row, occ⟩ ∈ tokens.issued
  apart : ∀ (sub other : Sub) (own others : SubTokens RowId), tokens.subs[sub]? = some own →
    tokens.subs[other]? = some others → own.life = others.life → sub = other
  past : ∀ issue ∈ tokens.issued, issue.life < tokens.lives ∧
    ∀ (sub : Sub) (own : SubTokens RowId), tokens.subs[sub]? = some own → own.life = issue.life → sub = issue.sub

omit [Std.TransOrd Sub] [Std.TransOrd RowId] in
/-- A projection mints tokens for rows of one life only, and its rows have tokens of that life. -/
structure Labels (tokens next : Tokens Sub RowId) (sub : Sub) (own : SubTokens RowId) (rows : List RowId)
    (occs : List String) : Prop where
  grows : ∃ more, next.issued = tokens.issued ++ more ∧
    ∀ issue ∈ more, issue.sub = sub ∧ issue.life = own.life ∧ issue.row ∈ rows
  lives : next.lives = tokens.lives
  here : ∃ occOf, next.subs[sub]? = some { own with occOf }
  elsewhere : ∀ other : Sub, other ≠ sub → next.subs[other]? = tokens.subs[other]?
  labelled : List.Forall₂ (fun row occ => ⟨sub, own.life, row, occ⟩ ∈ next.issued) rows occs

variable {keys : ConnKeys} {minter : TokenMinter} {tokens : Tokens Sub RowId}

theorem sound_new : (new : Tokens Sub RowId).Sound keys minter where
  counts := rfl
  texts := rfl
  index occ := by
    rw [new, Std.ExtTreeMap.getElem?_empty]
    rfl
  once := .nil
  held sub own found := by
    rw [new, Std.ExtTreeMap.getElem?_empty] at found
    cases found
  apart sub other own others found := by
    rw [new, Std.ExtTreeMap.getElem?_empty] at found
    cases found
  past := nofun

variable [Std.LawfulEqOrd Sub] [Std.LawfulEqOrd RowId]

omit [Std.LawfulEqOrd RowId] in
/-- A new subscription has a life of its own. -/
theorem Sound.renew (sound : tokens.Sound keys minter) (sub : Sub) : (tokens.renew sub).Sound keys minter where
  counts := sound.counts
  texts := sound.texts
  index := sound.index
  once := sound.once
  held other own found := by
    by_cases same : other = sub
    · obtain rfl := same
      rw [Tokens.renew, Std.ExtTreeMap.getElem?_insert_self] at found
      obtain rfl := Option.some.inj found
      refine ⟨Nat.lt_succ_self _, fun row occ => ?_⟩
      rw [Std.ExtTreeMap.getElem?_empty]
      refine iff_of_false nofun fun issued => ?_
      exact Nat.lt_irrefl _ (sound.past _ issued).1
    · rw [Tokens.renew, getElem?_insert_of_ne same] at found
      obtain ⟨earlier, tokens⟩ := sound.held other own found
      exact ⟨Nat.lt_succ_of_lt earlier, tokens⟩
  apart sub' other own others found known lives := by
    have fresh {third : Sub} {earlier : SubTokens RowId} (stored : tokens.subs[third]? = some earlier) :
        earlier.life ≠ tokens.lives := Nat.ne_of_lt (sound.held third earlier stored).1
    by_cases same : sub' = sub <;> by_cases alike : other = sub
    · exact same.trans alike.symm
    · obtain rfl := same
      rw [Tokens.renew, Std.ExtTreeMap.getElem?_insert_self] at found
      rw [Tokens.renew, getElem?_insert_of_ne alike] at known
      obtain rfl := Option.some.inj found
      exact absurd lives.symm (fresh known)
    · obtain rfl := alike
      rw [Tokens.renew, Std.ExtTreeMap.getElem?_insert_self] at known
      rw [Tokens.renew, getElem?_insert_of_ne same] at found
      obtain rfl := Option.some.inj known
      exact absurd lives (fresh found)
    · rw [Tokens.renew, getElem?_insert_of_ne same] at found
      rw [Tokens.renew, getElem?_insert_of_ne alike] at known
      exact sound.apart sub' other own others found known lives
  past issue inside := by
    obtain ⟨earlier, owner⟩ := sound.past issue inside
    refine ⟨Nat.lt_succ_of_lt earlier, fun other own found lives => ?_⟩
    by_cases same : other = sub
    · obtain rfl := same
      rw [Tokens.renew, Std.ExtTreeMap.getElem?_insert_self] at found
      obtain rfl := Option.some.inj found
      exact absurd lives.symm (Nat.ne_of_lt earlier)
    · rw [Tokens.renew, getElem?_insert_of_ne same] at found
      exact owner other own found lives

omit [Std.LawfulEqOrd Sub] [Std.LawfulEqOrd RowId] in
/-- A row that has no token yet has none of its life. -/
theorem Sound.fresh (sound : tokens.Sound keys minter) {sub : Sub} {own : SubTokens RowId}
    (found : tokens.subs[sub]? = some own) {row : RowId} (absent : own.occOf[row]? = none) :
    (own.life, row) ∉ tokens.issued.map fun issue => (issue.life, issue.row) := by
  intro inside
  obtain ⟨⟨other, life, same, token⟩, issued, equal⟩ := List.mem_map.mp inside
  obtain ⟨rfl, rfl⟩ := Prod.mk.inj equal
  obtain rfl := (sound.past _ issued).2 sub own found rfl
  rw [((sound.held sub own found).2 same token).mpr issued] at absent
  cases absent

omit [Std.TransOrd RowId] [Std.LawfulEqOrd RowId] in
/-- A fresh mint keeps the lives of the subscriptions. -/
theorem lives_of_minted {sub third : Sub} {own now : SubTokens RowId} (found : tokens.subs[sub]? = some own)
    {occOf : Std.ExtTreeMap RowId String}
    (present : (tokens.subs.insert sub { own with occOf })[third]? = some now) :
    ∃ before, tokens.subs[third]? = some before ∧ before.life = now.life := by
  by_cases same : third = sub
  · obtain rfl := same
    rw [Std.ExtTreeMap.getElem?_insert_self] at present
    obtain rfl := Option.some.inj present
    exact ⟨own, found, rfl⟩
  · rw [getElem?_insert_of_ne same] at present
    exact ⟨now, present, rfl⟩

/-- The records after the mint of a token for a row without one. -/
def minted (tokens : Tokens Sub RowId) (sub : Sub) (own : SubTokens RowId) (row : RowId) (occ : String) :
    Tokens Sub RowId where
  counter := (tokens.counter + 1) % 2 ^ 64
  index := tokens.index.insert occ (sub, row)
  subs := tokens.subs.insert sub { own with occOf := own.occOf.insert row occ }
  lives := tokens.lives
  issued := tokens.issued ++ [⟨sub, own.life, row, occ⟩]

omit [Std.LawfulEqOrd Sub] [Std.LawfulEqOrd RowId] in
theorem mintOcc_fresh {sub : Sub} {own : SubTokens RowId} (found : tokens.subs[sub]? = some own) {row : RowId}
    (absent : own.occOf[row]? = none) : tokens.mintOcc keys minter sub row =
      (tokens.minted sub own row (keys.occurrence minter tokens.counter), keys.occurrence minter tokens.counter) := by
  rw [mintOcc, found, Option.bind_some, absent]
  rfl

omit [Std.LawfulEqOrd Sub] [Std.LawfulEqOrd RowId] in
theorem mintOcc_known {sub : Sub} {own : SubTokens RowId} (found : tokens.subs[sub]? = some own) {row : RowId}
    {occ : String} (known : own.occOf[row]? = some occ) : tokens.mintOcc keys minter sub row = (tokens, occ) := by
  rw [mintOcc, found, Option.bind_some, known]

/-- The mint of a new token keeps the records sound. -/
theorem Sound.minted (sound : tokens.Sound keys minter) {sub : Sub} {own : SubTokens RowId}
    (found : tokens.subs[sub]? = some own) {row : RowId} (absent : own.occOf[row]? = none) :
    (tokens.minted sub own row (keys.occurrence minter tokens.counter)).Sound keys minter where
  counts := by
    change (tokens.counter + 1) % 2 ^ 64 = (tokens.issued ++ [_]).length % 2 ^ 64
    rw [List.length_append, List.length_singleton, sound.counts, Nat.mod_add_mod]
  texts := by
    change (tokens.issued ++ [_]).map Issue.token = (List.range (tokens.issued ++ [_]).length).map _
    rw [List.map_append, sound.texts, List.length_append, List.length_singleton, List.range_succ, List.map_append,
      sound.counts]
    rfl
  index occ := by
    change (tokens.index.insert _ _)[occ]? = ((tokens.issued ++ [_]).reverse.find? _).map _
    rw [List.reverse_append, List.reverse_singleton, List.singleton_append, List.find?_cons]
    by_cases same : keys.occurrence minter tokens.counter = occ
    · rw [same, Std.ExtTreeMap.getElem?_insert_self]
      simp
    · rw [getElem?_insert_of_ne (Ne.symm same), sound.index]
      simp [same]
  once := by
    change ((tokens.issued ++ [_]).map _).Nodup
    rw [List.map_append, List.nodup_append]
    refine ⟨sound.once, List.nodup_singleton _, fun pair inside other last same => ?_⟩
    obtain rfl := List.mem_singleton.mp last
    rw [same] at inside
    exact sound.fresh found absent inside
  held other others stored := by
    change (tokens.subs.insert sub _)[other]? = _ at stored
    change others.life < tokens.lives ∧ ∀ (row : RowId) (occ : String), _ ↔ _ ∈ tokens.issued ++ [_]
    by_cases same : other = sub
    · obtain rfl := same
      rw [Std.ExtTreeMap.getElem?_insert_self] at stored
      obtain rfl := Option.some.inj stored
      obtain ⟨earlier, tokensOf⟩ := sound.held other own found
      refine ⟨earlier, fun key occ => ?_⟩
      rw [List.mem_append, List.mem_singleton, Issue.mk.injEq]
      by_cases alike : key = row
      · obtain rfl := alike
        rw [Std.ExtTreeMap.getElem?_insert_self]
        constructor
        · intro equal
          exact .inr ⟨rfl, rfl, rfl, (Option.some.inj equal).symm⟩
        · rintro (issued | ⟨_, _, _, rfl⟩)
          · rw [(tokensOf key occ).mpr issued] at absent
            cases absent
          · rfl
      · rw [getElem?_insert_of_ne alike, tokensOf key occ]
        exact ⟨.inl, fun either => either.resolve_right fun parts => alike parts.2.2.1⟩
    · rw [getElem?_insert_of_ne same] at stored
      obtain ⟨earlier, tokensOf⟩ := sound.held other others stored
      refine ⟨earlier, fun key occ => ?_⟩
      rw [tokensOf key occ, List.mem_append, List.mem_singleton, Issue.mk.injEq]
      exact ⟨.inl, fun either => either.resolve_right fun parts => same parts.1⟩
  apart first second one two stored others lives := by
    obtain ⟨before, here, same⟩ := lives_of_minted found stored
    obtain ⟨others, there, alike⟩ := lives_of_minted found others
    exact sound.apart first second before others here there (same.trans (lives.trans alike.symm))
  past issue inside := by
    rcases List.mem_append.mp inside with old | last
    · obtain ⟨earlier, owner⟩ := sound.past issue old
      refine ⟨earlier, fun other others stored lives => ?_⟩
      obtain ⟨before, here, same⟩ := lives_of_minted found stored
      exact owner other before here (same.trans lives)
    · obtain rfl := List.mem_singleton.mp last
      refine ⟨(sound.held sub own found).1, fun other others stored lives => ?_⟩
      obtain ⟨before, here, same⟩ := lives_of_minted found stored
      exact sound.apart other sub before own here found (same.trans lives)

/-- The mint of a token keeps the records sound, and the row has a token of its life. -/
theorem Sound.mintOcc (sound : tokens.Sound keys minter) {sub : Sub} {own : SubTokens RowId}
    (found : tokens.subs[sub]? = some own) (row : RowId) :
    (tokens.mintOcc keys minter sub row).1.Sound keys minter ∧
      tokens.Labels (tokens.mintOcc keys minter sub row).1 sub own [row] [(tokens.mintOcc keys minter sub row).2] := by
  cases known : own.occOf[row]? with
  | some occ =>
    rw [mintOcc_known found known]
    have issued := ((sound.held sub own found).2 row occ).mp known
    exact ⟨sound, ⟨[], (List.append_nil _).symm, nofun⟩, rfl, ⟨own.occOf, found⟩, fun _ _ => rfl,
      .cons issued .nil⟩
  | none =>
    rw [mintOcc_fresh found known]
    refine ⟨sound.minted found known, ⟨_, rfl, fun issue last => ?_⟩, rfl, ⟨_, Std.ExtTreeMap.getElem?_insert_self⟩,
      fun other different => getElem?_insert_of_ne different, .cons ?_ .nil⟩
    · obtain rfl := List.mem_singleton.mp last
      exact ⟨rfl, rfl, List.mem_singleton.mpr rfl⟩
    · exact List.mem_append_right _ (List.mem_singleton.mpr rfl)

/-- The projection of some rows keeps the records sound and labels each row with its token. -/
theorem Sound.projectRows {sub : Sub} (rows : List (WireRow RowId Value)) {tokens : Tokens Sub RowId}
    (sound : tokens.Sound keys minter) {own : SubTokens RowId} (found : tokens.subs[sub]? = some own) :
    (tokens.projectRows keys minter sub rows).1.Sound keys minter ∧
      tokens.Labels (tokens.projectRows keys minter sub rows).1 sub own (rows.map WireRow.occ)
        ((tokens.projectRows keys minter sub rows).2.map WireRow.occ) := by
  induction rows generalizing tokens own with
  | nil => exact ⟨sound, ⟨[], (List.append_nil _).symm, nofun⟩, rfl, ⟨own.occOf, found⟩, fun _ _ => rfl, .nil⟩
  | cons row rest ih =>
    obtain ⟨kept, ⟨one, grown, ofOne⟩, lives, ⟨occOf, here⟩, elsewhere, first⟩ := sound.mintOcc found row.occ
    obtain ⟨last, ⟨more, longer, ofMore⟩, lasting, there, others, labelled⟩ := ih kept here
    refine ⟨last, ⟨one ++ more, ?_, fun issue inside => ?_⟩, lasting.trans lives, there,
      fun other different => (others other different).trans (elsewhere other different), ?_⟩
    · change (Tokens.projectRows keys minter _ sub rest).1.issued = _
      rw [longer, grown, List.append_assoc]
    · rcases List.mem_append.mp inside with early | late
      · obtain ⟨same, life, member⟩ := ofOne issue early
        exact ⟨same, life, List.mem_cons.mpr (.inl (List.mem_singleton.mp member))⟩
      · obtain ⟨same, life, member⟩ := ofMore issue late
        exact ⟨same, life, List.mem_cons_of_mem _ member⟩
    · refine .cons ?_ labelled
      obtain ⟨issued, _⟩ := List.forall₂_cons.mp first
      change _ ∈ (Tokens.projectRows keys minter _ sub rest).1.issued
      rw [longer]
      exact List.mem_append_left _ issued

omit [Std.LawfulEqOrd RowId] in
/-- The record of a projection keeps the tokens sound. -/
theorem Sound.record (sound : tokens.Sound keys minter) {sub : Sub} {known : SubTokens RowId}
    (found : tokens.subs[sub]? = some known) (shown : List RowId) : (tokens.record sub shown).Sound keys minter := by
  have recorded : tokens.record sub shown = { tokens with subs := tokens.subs.insert sub { known with shown } } := by
    rw [Tokens.record, found]
  have before {third : Sub} {now : SubTokens RowId}
      (present : (tokens.subs.insert sub { known with shown })[third]? = some now) :
      ∃ earlier, tokens.subs[third]? = some earlier ∧ earlier.life = now.life ∧ earlier.occOf = now.occOf := by
    by_cases same : third = sub
    · obtain rfl := same
      rw [Std.ExtTreeMap.getElem?_insert_self] at present
      obtain rfl := Option.some.inj present
      exact ⟨known, found, rfl, rfl⟩
    · rw [getElem?_insert_of_ne same] at present
      exact ⟨now, present, rfl, rfl⟩
  rw [recorded]
  refine ⟨sound.counts, sound.texts, sound.index, sound.once, fun third now present => ?_,
    fun third other now others present stored lives => ?_, fun issue inside => ⟨(sound.past issue inside).1, ?_⟩⟩
  · obtain ⟨earlier, stored, life, occOf⟩ := before present
    rw [← life, ← occOf]
    exact sound.held third earlier stored
  · obtain ⟨earlier, here, life, _⟩ := before present
    obtain ⟨former, there, others, _⟩ := before stored
    exact sound.apart third other earlier former here there (life.trans (lives.trans others.symm))
  · intro third now present lives
    obtain ⟨earlier, stored, life, _⟩ := before present
    exact (sound.past issue inside).2 third earlier stored (life.trans lives)

/-- The projection of a view keeps the tokens sound, labels each row with its token and records the rows. -/
theorem Sound.project (sound : tokens.Sound keys minter) {sub : Sub} {known : SubTokens RowId}
    (found : tokens.subs[sub]? = some known) (rows : List (WireRow RowId Value)) :
    (tokens.project keys minter sub rows).1.Sound keys minter ∧
      tokens.Labels (tokens.project keys minter sub rows).1 sub { known with shown := rows.map WireRow.occ }
        (rows.map WireRow.occ) ((tokens.project keys minter sub rows).2.map WireRow.occ) := by
  obtain ⟨kept, grows, lives, ⟨occOf, here⟩, elsewhere, labelled⟩ := sound.projectRows rows found
  have recorded : (tokens.project keys minter sub rows).1 =
      { (tokens.projectRows keys minter sub rows).1 with
        subs := (tokens.projectRows keys minter sub rows).1.subs.insert sub
          ⟨occOf, known.life, rows.map WireRow.occ⟩ } := by
    rw [Tokens.project, Tokens.record, here]
  refine ⟨kept.record here _, ?_⟩
  rw [recorded]
  exact ⟨grows, lives, ⟨occOf, Std.ExtTreeMap.getElem?_insert_self⟩,
    fun other different => (getElem?_insert_of_ne different).trans (elsewhere other different), labelled⟩

end Tokens

end Records

section Identity

namespace Tokens

variable {Sub RowId : Type} [Ord Sub] [Std.TransOrd Sub] [Ord RowId] [Std.TransOrd RowId]
variable {keys : ConnKeys} {minter : TokenMinter} {tokens : Tokens Sub RowId}

omit [Std.TransOrd Sub] [Std.TransOrd RowId] in
/-- Two tokens are equal exactly when they are minted for one row in one life of a subscription. -/
def Identified (tokens : Tokens Sub RowId) : Prop :=
  ∀ first ∈ tokens.issued, ∀ second ∈ tokens.issued,
    first.token = second.token ↔ first.life = second.life ∧ first.row = second.row

/-- Each token is that of its count. -/
theorem Sound.token (sound : tokens.Sound keys minter) {count : Nat} (inside : count < tokens.issued.length) :
    tokens.issued[count].token = keys.occurrence minter (count % 2 ^ 64) := by
  have texts := congrArg (fun texts => texts[count]?) sound.texts
  simpa [inside] using texts

/-- The tokens identify their rows exactly while the counter does not wrap. -/
theorem Sound.identified_iff (sound : tokens.Sound keys minter) :
    tokens.Identified ↔ tokens.issued.length ≤ 2 ^ 64 := by
  have alone {first second : Nat} (one : first < tokens.issued.length) (two : second < tokens.issued.length)
      (same : tokens.issued[first].life = tokens.issued[second].life ∧
        tokens.issued[first].row = tokens.issued[second].row) : first = second := by
    let pairs := tokens.issued.map fun issue => (issue.life, issue.row)
    have early : first < pairs.length := by rwa [List.length_map]
    have late : second < pairs.length := by rwa [List.length_map]
    have equal : pairs[first] = pairs[second] := by rw [List.getElem_map, List.getElem_map, same.1, same.2]
    exact sound.once.getElem_inj_iff.mp equal
  constructor
  · intro identified
    by_contra wraps
    have last : 2 ^ 64 < tokens.issued.length := Nat.lt_of_not_le wraps
    have first : 0 < tokens.issued.length := Nat.lt_of_le_of_lt (Nat.zero_le _) last
    have same : tokens.issued[0].token = tokens.issued[2 ^ 64].token := by
      rw [sound.token first, sound.token last, Nat.mod_self, Nat.zero_mod]
    have wrapped := alone first last ((identified _ (List.getElem_mem _) _ (List.getElem_mem _)).mp same)
    exact absurd wrapped (by decide)
  · intro bounded first one second two
    obtain ⟨count, inside, rfl⟩ := List.mem_iff_getElem.mp one
    obtain ⟨other, within, rfl⟩ := List.mem_iff_getElem.mp two
    have small : count < 2 ^ 64 := Nat.lt_of_lt_of_le inside bounded
    have little : other < 2 ^ 64 := Nat.lt_of_lt_of_le within bounded
    constructor
    · intro same
      rw [sound.token inside, sound.token within, Nat.mod_eq_of_lt small, Nat.mod_eq_of_lt little] at same
      obtain rfl := occurrence_injective small little same
      exact ⟨rfl, rfl⟩
    · intro same
      obtain rfl := alone inside within same
      rfl

/-- A token names the row that it was minted for, whether the client holds it or not. -/
theorem Sound.resolves (sound : tokens.Sound keys minter) (identified : tokens.Identified) {issue : Issue Sub RowId}
    (inside : issue ∈ tokens.issued) : tokens.resolveOcc keys minter issue.token = .row issue.row := by
  obtain ⟨count, within, equal⟩ := List.mem_iff_getElem.mp inside
  have opened : keys.openOccurrence minter issue.token = some (count % 2 ^ 64) := by
    rw [← equal, sound.token within]
    exact openOccurrence_occurrence (Nat.mod_lt _ (by decide))
  cases first : tokens.issued.reverse.find? fun other => other.token = issue.token with
  | none =>
    have absent := List.find?_eq_none.mp first issue (List.mem_reverse.mpr inside)
    exact absurd (decide_eq_true rfl) absent
  | some other =>
    have chosen := List.find?_some first
    have same : other.token = issue.token := of_decide_eq_true chosen
    have member : other ∈ tokens.issued := List.mem_reverse.mp (List.mem_of_find?_eq_some first)
    have row : other.row = issue.row := ((identified other member issue inside).mp same).2
    rw [resolveOcc, opened, sound.index, first, Option.map_some]
    exact congrArg _ row

end Tokens

end Identity

end Liasse.Live
