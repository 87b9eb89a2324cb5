/-
This file proves what the resolution of the pools of a meter depends on.
-/

import Liasse.Codes.Firsts
import Liasse.Codes.Related
import Liasse.Meter.Resolve
import Liasse.Value.Normal

namespace Liasse.Meter

open Liasse.Codes Liasse.Expr Liasse.Runtime Liasse.Store

section Faces

/-- What the runtime compares of an identity. -/
abbrev IdentityFace := String × ValueClass × Option RowIncarnation

def PoolIdentity.face (identity : PoolIdentity) : IdentityFace :=
  (identity.source, .of identity.key, identity.incarnation)

/-- Identities are equal when the runtime sees no difference. -/
theorem PoolIdentity.cmp_eq_iff {first second : PoolIdentity} :
    first.cmp second = .eq ↔ first.face = second.face := by
  have bytes : compare (first.incarnation.map textBytes) (second.incarnation.map textBytes) = .eq ↔
      first.incarnation = second.incarnation := by
    rw [Std.LawfulEqOrd.compare_eq_iff_eq]
    exact (Option.map_injective fun _ _ same => textBytes_inj same).eq_iff
  rw [cmp, Ordering.then_eq_eq, Ordering.then_eq_eq, bytes, compareText_eq_iff, face, face, Prod.mk.injEq,
    Prod.mk.injEq, ValueClass.of_eq_iff]
  rfl

instance : Std.TransOrd PoolIdentity := by
  have sources : Std.TransCmp fun first second : PoolIdentity => compareText first.source second.source := by
    change Std.TransCmp (compareOn fun identity : PoolIdentity => textBytes identity.source)
    infer_instance
  change Std.TransCmp (compareLex (fun first second : PoolIdentity => compareText first.source second.source)
    (compareLex (compareOn PoolIdentity.key)
      (compareOn fun identity : PoolIdentity => identity.incarnation.map textBytes)))
  infer_instance

theorem sameBy_iff {α β : Type} {cmp : α → α → Ordering} {face : α → β}
    (told : ∀ first second, cmp first second = .eq ↔ face first = face second) {first second : Option α} :
    sameBy cmp first second = true ↔ first.map face = second.map face := by
  cases first <;> cases second <;> simp [sameBy, told]

/-- What the runtime compares of the capacity of a row. -/
def Contribution.capacity (offer : Contribution) : Option ℚ × Option (Int × Int) :=
  (offer.quantity.map BigDecimal.toRat, offer.interval.2.map Timestamp.secondsAndSubnanos)

/-- The pool of a row, as far as the rows of other pools see it. -/
def Contribution.pool (offer : Contribution) : IdentityFace :=
  offer.identity.face

end Faces

section Loop

variable {setting : Setting} {meter : CompiledMeter}

/-- The contributions of some source rows. -/
def offersOf (setting : Setting) (meter : CompiledMeter) (listing : List (CompiledSource × Row)) :
    Except Rejection (List Contribution) :=
  (listing.mapM fun entry => contribution setting meter entry.1 entry.2).map List.reduceOption

/-- The pool that the first of its rows gives. -/
def poolOf (meter : CompiledMeter) (offer : Contribution) : Except Rejection Pool := do
  let keys ← meter.orderKeys offer.poolRow
  pure ⟨offer.identity, offer.quantity, keys⟩

theorem offersOf_snoc {listing : List (CompiledSource × Row)} {entry : CompiledSource × Row}
    {offers : List Contribution} :
    offersOf setting meter (listing ++ [entry]) = .ok offers ↔
      ∃ earlier, offersOf setting meter listing = .ok earlier ∧
        ∃ last, contribution setting meter entry.1 entry.2 = .ok last ∧ offers = earlier ++ last.toList := by
  rw [offersOf, offersOf, map_ok, List.mapM_append]
  constructor
  · rintro ⟨found, all, rfl⟩
    obtain ⟨before, first, rest⟩ := bind_ok.mp all
    obtain ⟨after, single, last⟩ := bind_ok.mp rest
    obtain ⟨answer, _, here, none, rfl⟩ := List.forall₂_cons_left_iff.mp (forall₂_of_mapM single)
    obtain rfl := List.forall₂_nil_left_iff.mp none
    obtain rfl := Except.ok.inj last
    refine ⟨before.reduceOption, map_ok.mpr ⟨before, first, rfl⟩, answer, here, ?_⟩
    rw [List.reduceOption_append]
    cases answer <;> rfl
  · rintro ⟨earlier, all, last, here, rfl⟩
    obtain ⟨before, first, rfl⟩ := map_ok.mp all
    refine ⟨before ++ [last], ?_, ?_⟩
    · rw [first, List.mapM_cons, here]
      rfl
    · rw [List.reduceOption_append]
      cases last <;> rfl

/-- The first row of each pool. -/
abbrev founders (offers : List Contribution) : List Contribution :=
  firsts Contribution.pool offers

/-- A pool is new, or its first row was seen. -/
theorem seenAs_founders (offers : List Contribution) (offer : Contribution) :
    (seenAs (founders offers) offer.identity = none ∧ offer.pool ∉ (founders offers).map Contribution.pool) ∨
      ∃ first ∈ founders offers, first.pool = offer.pool ∧
        seenAs (founders offers) offer.identity = some first := by
  cases found : seenAs (founders offers) offer.identity with
  | none =>
    refine .inl ⟨rfl, fun known => ?_⟩
    obtain ⟨first, inside, same⟩ := List.mem_map.mp known
    exact List.find?_eq_none.mp found first inside (beq_iff_eq.mpr (PoolIdentity.cmp_eq_iff.mpr same))
  | some first =>
    have same := List.find?_some found
    exact .inr ⟨first, List.mem_of_find?_eq_some found, PoolIdentity.cmp_eq_iff.mp (beq_iff_eq.mp same), rfl⟩

/-- One more row is admitted when it agrees with the first row of its pool, and a new pool has an order. -/
theorem add_ok {offers : List Contribution} {offer : Contribution} {pools : List Pool} {next : Resolution} :
    Resolution.add meter ⟨founders offers, pools⟩ offer = .ok next ↔
      (∀ first ∈ founders offers, first.pool = offer.pool → first.capacity = offer.capacity) ∧
        next.seen = founders (offers ++ [offer]) ∧
          ((offer.pool ∈ (founders offers).map Contribution.pool ∧ next.pools = pools) ∨
            (offer.pool ∉ (founders offers).map Contribution.pool ∧
              ∃ pool, poolOf meter offer = .ok pool ∧ next.pools = pools ++ [pool])) := by
  rw [Resolution.add, founders, founders, firsts_snoc, keepFirst]
  obtain ⟨absent, unknown⟩ | ⟨first, inside, same, found⟩ := seenAs_founders offers offer
  · rw [absent, if_neg unknown]
    have fresh : ∀ first ∈ founders offers, first.pool = offer.pool → first.capacity = offer.capacity :=
      fun first inside same => absurd (List.mem_map.mpr ⟨first, inside, same⟩) unknown
    constructor
    · intro added
      obtain ⟨keys, ordered, last⟩ := bind_ok.mp added
      obtain rfl := Except.ok.inj last
      exact ⟨fresh, rfl, .inr ⟨unknown, _, bind_ok.mpr ⟨keys, ordered, rfl⟩, rfl⟩⟩
    · rintro ⟨_, seen, ⟨known, _⟩ | ⟨_, pool, given, listed⟩⟩
      · exact absurd known unknown
      · obtain ⟨keys, ordered, last⟩ := bind_ok.mp given
        obtain rfl := Except.ok.inj last
        obtain ⟨seenNext, poolsNext⟩ := next
        obtain rfl : seenNext = _ := seen
        obtain rfl : poolsNext = _ := listed
        exact bind_ok.mpr ⟨keys, ordered, rfl⟩
  · have known : offer.pool ∈ (founders offers).map Contribution.pool := List.mem_map.mpr ⟨first, inside, same⟩
    have agrees : (sameBy BigDecimal.cmp first.quantity offer.quantity &&
        sameBy Timestamp.cmp first.interval.2 offer.interval.2) = true ↔ first.capacity = offer.capacity := by
      have quantities : sameBy BigDecimal.cmp first.quantity offer.quantity = true ↔
          first.quantity.map BigDecimal.toRat = offer.quantity.map BigDecimal.toRat :=
        @sameBy_iff _ _ BigDecimal.cmp BigDecimal.toRat (fun _ _ => BigDecimal.cmp_eq_iff) _ _
      have stops : sameBy Timestamp.cmp first.interval.2 offer.interval.2 = true ↔
          first.interval.2.map Timestamp.secondsAndSubnanos = offer.interval.2.map Timestamp.secondsAndSubnanos :=
        @sameBy_iff _ _ Timestamp.cmp Timestamp.secondsAndSubnanos (fun _ _ => Timestamp.cmp_eq_iff) _ _
      rw [Bool.and_eq_true, quantities, stops, Contribution.capacity, Contribution.capacity, Prod.mk.injEq]
    have only : ∀ other ∈ founders offers, other.pool = offer.pool → other = first := fun other present equal =>
      List.inj_on_of_nodup_map (nodup_firsts _ offers) present inside (equal.trans same.symm)
    rw [found, if_pos known]
    dsimp only
    constructor
    · intro added
      split at added
      · next agreed =>
          obtain rfl := Except.ok.inj added
          refine ⟨fun other present equal => ?_, rfl, .inl ⟨known, rfl⟩⟩
          rw [only other present equal]
          exact agrees.mp agreed
      · cases added
    · rintro ⟨agreed, seen, ⟨_, listed⟩ | ⟨unknown, _⟩⟩
      · rw [if_pos (agrees.mpr (agreed first inside same))]
        obtain ⟨seenNext, poolsNext⟩ := next
        obtain rfl : seenNext = _ := seen
        obtain rfl : poolsNext = _ := listed
        rfl
      · exact absurd known unknown

/-- The pools of one more row are those before it, with a pool of its own when it is the first one. -/
theorem mapM_founders_snoc {offers : List Contribution} {offer : Contribution} {next : List Pool} :
    (founders (offers ++ [offer])).mapM (poolOf meter) = .ok next ↔
      ∃ pools, (founders offers).mapM (poolOf meter) = .ok pools ∧
        ((offer.pool ∈ (founders offers).map Contribution.pool ∧ next = pools) ∨
          (offer.pool ∉ (founders offers).map Contribution.pool ∧
            ∃ pool, poolOf meter offer = .ok pool ∧ next = pools ++ [pool])) := by
  rw [founders, firsts_snoc, keepFirst]
  split
  · next known =>
      constructor
      · exact fun given => ⟨next, given, .inl ⟨known, rfl⟩⟩
      · rintro ⟨pools, given, ⟨_, rfl⟩ | ⟨unknown, _⟩⟩
        · exact given
        · exact absurd known unknown
  · next unknown =>
      rw [List.mapM_append]
      constructor
      · intro given
        obtain ⟨pools, first, rest⟩ := bind_ok.mp given
        obtain ⟨others, single, last⟩ := bind_ok.mp rest
        obtain ⟨pool, _, here, none, rfl⟩ := List.forall₂_cons_left_iff.mp (forall₂_of_mapM single)
        obtain rfl := List.forall₂_nil_left_iff.mp none
        obtain rfl := Except.ok.inj last
        exact ⟨pools, first, .inr ⟨unknown, pool, here, rfl⟩⟩
      · rintro ⟨pools, given, ⟨known, _⟩ | ⟨_, pool, here, rfl⟩⟩
        · exact absurd known unknown
        · rw [given, List.mapM_cons, here]
          rfl

/-- The loop over the source rows succeeds when the rows of each pool agree on its capacity. It then has the first
row of each pool, and a pool for each. -/
theorem foldlM_step_ok {listing : List (CompiledSource × Row)} {state : Resolution} :
    listing.foldlM (fun state entry => state.step setting meter entry) (⟨[], []⟩ : Resolution) = .ok state ↔
      ∃ offers, offersOf setting meter listing = .ok offers ∧
        Agreeing Contribution.pool Contribution.capacity offers ∧ state.seen = founders offers ∧
          (founders offers).mapM (poolOf meter) = .ok state.pools := by
  induction listing using List.reverseRecOn generalizing state with
  | nil =>
    obtain ⟨seen, pools⟩ := state
    constructor
    · intro done
      obtain ⟨rfl, rfl⟩ := Resolution.mk.inj (Except.ok.inj done)
      exact ⟨[], rfl, fun _ inside => absurd inside List.not_mem_nil, rfl, rfl⟩
    · rintro ⟨offers, none, _, kept, given⟩
      obtain rfl := Except.ok.inj none
      obtain rfl : seen = [] := kept
      obtain rfl : [] = pools := Except.ok.inj given
      rfl
  | append_singleton listing entry ih =>
    rw [List.foldlM_append, bind_ok]
    constructor
    · rintro ⟨⟨seen, pools⟩, before, single⟩
      obtain ⟨offers, offered, agreeing, kept, given⟩ := ih.mp before
      obtain rfl : seen = founders offers := kept
      obtain ⟨next, stepped, last⟩ := bind_ok.mp single
      obtain rfl := Except.ok.inj last
      obtain ⟨answer, here, rest⟩ := bind_ok.mp stepped
      refine ⟨offers ++ answer.toList, offersOf_snoc.mpr ⟨offers, offered, answer, here, rfl⟩, ?_⟩
      cases answer with
      | none =>
        obtain rfl := Except.ok.inj rest
        rw [Option.toList_none, List.append_nil]
        exact ⟨agreeing, rfl, given⟩
      | some offer =>
        obtain ⟨agreed, held, pooled⟩ := add_ok.mp rest
        exact ⟨agreeing_snoc.mpr ⟨agreeing, agreed⟩, held, mapM_founders_snoc.mpr ⟨pools, given, pooled⟩⟩
    · rintro ⟨offers, offered, agreeing, kept, given⟩
      obtain ⟨earlier, before, answer, here, rfl⟩ := offersOf_snoc.mp offered
      cases answer with
      | none =>
        rw [Option.toList_none, List.append_nil] at agreeing kept given
        refine ⟨state, ih.mpr ⟨earlier, before, agreeing, kept, given⟩, ?_⟩
        rw [List.foldlM_cons, Resolution.step, here]
        rfl
      | some offer =>
        obtain ⟨agreed, latest⟩ := agreeing_snoc.mp agreeing
        obtain ⟨pools, first, pooled⟩ := mapM_founders_snoc.mp given
        refine ⟨⟨founders earlier, pools⟩,
          ih.mpr ⟨earlier, before, agreed, rfl, first⟩, ?_⟩
        have added := add_ok.mpr ⟨latest, kept, pooled⟩
        rw [List.foldlM_cons, Resolution.step, here]
        change (Resolution.add meter _ offer >>= _) = _
        rw [added]
        rfl

/-- The resolution succeeds when all rows evaluate, the rows of each pool agree on its capacity and the first row of
each pool has an order. -/
theorem resolveRows_ok {listing : List (CompiledSource × Row)} {pools : List Pool} :
    resolveRows setting meter listing = .ok pools ↔
      ∃ offers, offersOf setting meter listing = .ok offers ∧
        Agreeing Contribution.pool Contribution.capacity offers ∧
          ∃ given, (founders offers).mapM (poolOf meter) = .ok given ∧ pools = sortPools meter.order given := by
  rw [resolveRows, bind_ok]
  constructor
  · rintro ⟨state, done, last⟩
    obtain ⟨offers, offered, agreeing, _, given⟩ := foldlM_step_ok.mp done
    exact ⟨offers, offered, agreeing, state.pools, given, (Except.ok.inj last).symm⟩
  · rintro ⟨offers, offered, agreeing, given, all, rfl⟩
    exact ⟨⟨founders offers, given⟩, foldlM_step_ok.mpr ⟨offers, offered, agreeing, rfl, all⟩, rfl⟩

end Loop

section Order

/-- What the runtime compares of a pool. -/
def Pool.face (pool : Pool) : IdentityFace × Option ℚ × List ValueClass :=
  (pool.identity.face, pool.quantity.map BigDecimal.toRat, pool.orderKeys.map .of)

/-- The order of keys sees the classes of the values alone. -/
theorem compareKeys_of (directions : List Bool) (left right : List Value) :
    Live.compareKeys directions (left.map ValueClass.of) (right.map ValueClass.of) =
      Live.compareKeys directions left right := by
  induction directions generalizing left right with
  | nil => rfl
  | cons descending rest ih =>
    have tails := ih left.tail right.tail
    rw [List.map_tail, List.map_tail] at tails
    rw [Live.compareKeys, Live.compareKeys, tails]
    cases left <;> cases right <;> rfl

theorem compareKeys_swap (directions : List Bool) (left right : List Value) :
    (Live.compareKeys directions left right).swap = Live.compareKeys directions right left := by
  induction directions generalizing left right with
  | nil => rfl
  | cons descending rest ih =>
    rw [Live.compareKeys, Live.compareKeys, Ordering.swap_then, ih]
    congr 1
    cases left.head? <;> cases right.head? <;> cases descending <;>
      simp [← Std.OrientedOrd.eq_swap]

variable (order : List OrderKey)

theorem comparePools_swap (first second : Pool) :
    (comparePools order first second).swap = comparePools order second first := by
  rw [comparePools, comparePools, Live.SortOrder.compare, Live.SortOrder.compare, Ordering.swap_then,
    compareKeys_swap, ← Std.OrientedOrd.eq_swap]

/-- Pools that look the same compare the same. -/
theorem comparePools_congr {first second one other : Pool} (left : first.face = one.face)
    (right : second.face = other.face) : comparePools order first second = comparePools order one other := by
  obtain ⟨firstIdentity, firstRest⟩ := Prod.mk.inj left
  obtain ⟨secondIdentity, secondRest⟩ := Prod.mk.inj right
  rw [comparePools, comparePools, Live.SortOrder.compare, Live.SortOrder.compare, ← compareKeys_of,
    ← compareKeys_of _ one.orderKeys, (Prod.mk.inj firstRest).2, (Prod.mk.inj secondRest).2]
  have identities : compare first.identity second.identity = compare one.identity other.identity := by
    rw [Std.TransCmp.congr_left (PoolIdentity.cmp_eq_iff.mpr firstIdentity : compare _ _ = .eq),
      Std.TransCmp.congr_right (PoolIdentity.cmp_eq_iff.mpr secondIdentity : compare _ _ = .eq)]
  rw [identities]

theorem nodup_sortPools {pools : List Pool} (distinct : (pools.map fun pool => pool.identity.face).Nodup) :
    ((sortPools order pools).map fun pool => pool.identity.face).Nodup :=
  ((List.mergeSort_perm _ _).map _).nodup_iff.mpr distinct

/-- The pools of distinct identities with a value for each key of the order are drained in one strict order. -/
theorem strict_sortPools {pools : List Pool} (complete : ∀ pool ∈ pools, order.length ≤ pool.orderKeys.length)
    (distinct : (pools.map fun pool => pool.identity.face).Nodup) :
    (sortPools order pools).Pairwise fun first second => comparePools order first second = .lt := by
  have transitive : Std.TransCmp fun first second : {pool : Pool // order.length ≤ pool.orderKeys.length} =>
      comparePools order first.1 second.1 := by
    let directions : Live.SortOrder := ⟨order.map OrderKey.descending⟩
    let view (pool : {pool : Pool // order.length ≤ pool.orderKeys.length}) :
        {keys : List Value // directions.descending.length ≤ keys.length} × PoolIdentity :=
      (⟨pool.1.orderKeys, (List.length_map _).trans_le pool.2⟩, pool.1.identity)
    exact Live.transCmp_on (Live.transCmp_compare directions) view
  have sorted := ordered_mergeSort transitive complete
  have apart := nodup_sortPools order distinct
  rw [List.Nodup, List.pairwise_map] at apart
  refine (sorted.and apart).imp fun {first second} ⟨below, different⟩ => ?_
  cases verdict : comparePools order first second with
  | lt => rfl
  | eq => exact absurd (PoolIdentity.cmp_eq_iff.mp (Ordering.then_eq_eq.mp verdict).2) different
  | gt => exact absurd verdict below

/-- Pools in the strict order that look like others in the strict order look the same one by one. -/
theorem faces_of_strict {first second : List Pool}
    (one : first.Pairwise fun left right => comparePools order left right = .lt)
    (two : second.Pairwise fun left right => comparePools order left right = .lt)
    (same : (first.map Pool.face).Perm (second.map Pool.face)) : first.map Pool.face = second.map Pool.face := by
  let before (left right : IdentityFace × Option ℚ × List ValueClass) : Prop :=
    ∃ first second, Pool.face first = left ∧ Pool.face second = right ∧ comparePools order first second = .lt
  have faced : ∀ {pools : List Pool}, (pools.Pairwise fun left right => comparePools order left right = .lt) →
      (pools.map Pool.face).Pairwise before := fun sorted =>
    List.pairwise_map.mpr (sorted.imp fun below => ⟨_, _, rfl, rfl, below⟩)
  refine same.eq_of_pairwise (fun left right _ _ below above => ?_) (faced one) (faced two)
  obtain ⟨low, high, rfl, rfl, lower⟩ := below
  obtain ⟨upper, under, sameHigh, sameLow, higher⟩ := above
  rw [comparePools_congr order sameHigh sameLow, ← comparePools_swap, lower] at higher
  cases higher

end Order

section Enumeration

variable {setting : Setting} {meter : CompiledMeter} {listing other : List (CompiledSource × Row)}
  {offers : List Contribution} {pools : List Pool}

theorem mem_offersOf (offered : offersOf setting meter listing = .ok offers) {offer : Contribution} :
    offer ∈ offers ↔ ∃ entry ∈ listing, contribution setting meter entry.1 entry.2 = .ok (some offer) := by
  obtain ⟨answers, all, rfl⟩ := map_ok.mp offered
  rw [List.reduceOption_mem_iff]
  constructor
  · exact exists_source_of_mapM all
  · rintro ⟨entry, inside, answered⟩
    obtain ⟨answer, present, same⟩ := exists_of_mapM all inside
    rwa [Except.ok.inj (answered.symm.trans same)]

/-- Another enumeration of the rows has the same contributions. -/
theorem offersOf_perm (perm : other.Perm listing) (offered : offersOf setting meter listing = .ok offers) :
    ∃ others, offersOf setting meter other = .ok others ∧ ∀ offer, offer ∈ others ↔ offer ∈ offers := by
  obtain ⟨answers, all, _⟩ := map_ok.mp offered
  obtain ⟨found, answered⟩ := exists_mapM fun entry inside =>
    (exists_of_mapM all (perm.mem_iff.mp inside)).imp fun _ both => both.2
  have others : offersOf setting meter other = .ok found.reduceOption := map_ok.mpr ⟨found, answered, rfl⟩
  refine ⟨found.reduceOption, others, fun offer => ?_⟩
  rw [mem_offersOf others, mem_offersOf offered]
  exact exists_congr fun entry => and_congr_left fun _ => perm.mem_iff

/-- The values of the order of a row, as the runtime compares them. -/
def Contribution.orderFace (meter : CompiledMeter) (offer : Contribution) : Option (List ValueClass) :=
  (meter.orderKeys offer.poolRow).toOption.map (List.map .of)

/-- Two rows agree on the quantity, the interval, the projected cells and the order of their pool. -/
structure Contribution.Agrees (meter : CompiledMeter) (first second : Contribution) : Prop where
  quantity : first.quantity.map BigDecimal.toRat = second.quantity.map BigDecimal.toRat
  start : first.interval.1.map Timestamp.secondsAndSubnanos = second.interval.1.map Timestamp.secondsAndSubnanos
  stop : first.interval.2.map Timestamp.secondsAndSubnanos = second.interval.2.map Timestamp.secondsAndSubnanos
  cells : sameCells first.row.cells second.row.cells = true
  order : first.orderFace meter = second.orderFace meter

/-- The rows of each pool agree on all of its attributes. -/
def AllAgree (setting : Setting) (meter : CompiledMeter) (listing : List (CompiledSource × Row)) : Prop :=
  ∀ offers, offersOf setting meter listing = .ok offers → ∀ first ∈ offers, ∀ second ∈ offers,
    first.pool = second.pool → first.Agrees meter second

/-- The rows that agree on the quantity and on the end of their pool agree on all of it. Rows are left out that
are rejected in each enumeration: a row fails, two rows of a pool differ in quantity or end, or no row of a pool
has an order. -/
def Unambiguous (setting : Setting) (meter : CompiledMeter) (listing : List (CompiledSource × Row)) : Prop :=
  ∀ offers, offersOf setting meter listing = .ok offers →
    Agreeing Contribution.pool Contribution.capacity offers →
      (∀ offer ∈ offers, ∃ row ∈ offers, row.pool = offer.pool ∧ ∃ keys, meter.orderKeys row.poolRow = .ok keys) →
        ∀ first ∈ offers, ∀ second ∈ offers, first.pool = second.pool → first.Agrees meter second

/-- Two resolutions are rejected, or their pools look the same one by one. -/
inductive SameResolution : Except Rejection (List Pool) → Except Rejection (List Pool) → Prop
  | rejected (first second : Rejection) : SameResolution (.error first) (.error second)
  | resolved {first second : List Pool} : first.map Pool.face = second.map Pool.face →
      SameResolution (.ok first) (.ok second)

/-- The pools are distinct, drained in the declared order and then by identity, and their rows agree. The other
enumerations of the rows have the same resolution. -/
structure WellResolved (setting : Setting) (meter : CompiledMeter) (listing : List (CompiledSource × Row)) :
    Prop where
  distinct : ∀ pools, resolveRows setting meter listing = .ok pools →
    pools.Pairwise fun first second => first.identity.cmp second.identity ≠ .eq
  ordered : ∀ pools, resolveRows setting meter listing = .ok pools →
    pools.Pairwise fun first second => comparePools meter.order first second = .lt
  agreeing : ∀ pools, resolveRows setting meter listing = .ok pools → AllAgree setting meter listing
  stable : ∀ other, other.Perm listing →
    SameResolution (resolveRows setting meter listing) (resolveRows setting meter other)

theorem poolOf_ok {offer : Contribution} {pool : Pool} (given : poolOf meter offer = .ok pool) :
    ∃ keys, meter.orderKeys offer.poolRow = .ok keys ∧ pool = ⟨offer.identity, offer.quantity, keys⟩ := by
  obtain ⟨keys, ordered, last⟩ := bind_ok.mp given
  exact ⟨keys, ordered, (Except.ok.inj last).symm⟩

/-- The pools of the first rows are distinct and complete. -/
theorem given_complete {given : List Pool} (all : (founders offers).mapM (poolOf meter) = .ok given) :
    (given.map fun pool => pool.identity.face) = (founders offers).map Contribution.pool ∧
      ∀ pool ∈ given, meter.order.length ≤ pool.orderKeys.length := by
  have each := forall₂_of_mapM all
  refine ⟨(map_eq_of_forall₂ each fun offer _ pool built => ?_).symm, fun pool inside => ?_⟩
  · obtain ⟨keys, _, rfl⟩ := poolOf_ok built
    rfl
  · obtain ⟨offer, _, built⟩ := exists_source_of_mapM all inside
    obtain ⟨keys, ordered, rfl⟩ := poolOf_ok built
    exact (forall₂_of_mapM ordered).length_eq.le

theorem resolved_strict (resolved : resolveRows setting meter listing = .ok pools) :
    pools.Pairwise fun first second => comparePools meter.order first second = .lt := by
  obtain ⟨offers, _, _, given, all, rfl⟩ := resolveRows_ok.mp resolved
  obtain ⟨identities, complete⟩ := given_complete all
  refine strict_sortPools meter.order complete ?_
  rw [identities]
  exact nodup_firsts _ offers

theorem resolved_distinct (resolved : resolveRows setting meter listing = .ok pools) :
    pools.Pairwise fun first second => first.identity.cmp second.identity ≠ .eq := by
  obtain ⟨offers, _, _, given, all, rfl⟩ := resolveRows_ok.mp resolved
  have identities := nodup_firsts Contribution.pool offers
  rw [← (given_complete all).1] at identities
  have apart := nodup_sortPools meter.order identities
  rw [List.Nodup, List.pairwise_map] at apart
  exact apart.imp fun different same => different (PoolIdentity.cmp_eq_iff.mp same)

/-- The rows of a resolution that succeeds satisfy what an unambiguous listing asks for. -/
theorem Unambiguous.agree (unambiguous : Unambiguous setting meter listing)
    (resolved : resolveRows setting meter listing = .ok pools) : AllAgree setting meter listing := by
  intro offers offered
  obtain ⟨found, same, agreeing, given, all, _⟩ := resolveRows_ok.mp resolved
  obtain rfl : found = offers := Except.ok.inj (same.symm.trans offered)
  refine unambiguous found offered agreeing fun offer inside => ?_
  obtain ⟨first, kept, equal⟩ := exists_first Contribution.pool inside
  obtain ⟨pool, _, built⟩ := exists_of_mapM all kept
  obtain ⟨keys, ordered, _⟩ := poolOf_ok built
  exact ⟨first, mem_of_mem_firsts kept, equal, keys, ordered⟩

theorem Unambiguous.perm (unambiguous : Unambiguous setting meter listing) (perm : other.Perm listing) :
    Unambiguous setting meter other := by
  intro others offered agreeing ordered first inside second present
  obtain ⟨offers, listed, same⟩ := offersOf_perm perm.symm offered
  refine unambiguous offers listed (agreeing.of_mem_iff fun offer => (same offer).symm) (fun offer held => ?_) first
    ((same first).mpr inside) second ((same second).mpr present)
  obtain ⟨row, kept, rest⟩ := ordered offer ((same offer).mp held)
  exact ⟨row, (same row).mpr kept, rest⟩

/-- What the runtime compares of the pool of a row. -/
def Contribution.face (meter : CompiledMeter) (offer : Contribution) : IdentityFace × Option ℚ × List ValueClass :=
  (offer.pool, offer.quantity.map BigDecimal.toRat, (offer.orderFace meter).getD [])

theorem face_poolOf {offer : Contribution} {pool : Pool} (given : poolOf meter offer = .ok pool) :
    offer.face meter = pool.face := by
  obtain ⟨keys, ordered, rfl⟩ := poolOf_ok given
  rw [Contribution.face, Contribution.orderFace, ordered]
  rfl

/-- When the rows of each pool agree, each other enumeration resolves to the same pools. -/
theorem resolve_perm (agree : AllAgree setting meter listing)
    (resolved : resolveRows setting meter listing = .ok pools) (perm : other.Perm listing) :
    ∃ others, resolveRows setting meter other = .ok others ∧ pools.map Pool.face = others.map Pool.face := by
  obtain ⟨offers, offered, agreeing, given, all, rfl⟩ := resolveRows_ok.mp resolved
  obtain ⟨others, listed, same⟩ := offersOf_perm perm offered
  have evaluates : ∀ offer ∈ founders others, ∃ pool, poolOf meter offer = .ok pool := by
    intro offer kept
    have held := (same offer).mp (mem_of_mem_firsts kept)
    obtain ⟨first, before, equal⟩ := exists_first Contribution.pool held
    obtain ⟨pool, _, built⟩ := exists_of_mapM all before
    obtain ⟨keys, ordered, _⟩ := poolOf_ok built
    have orders := (agree offers offered first (mem_of_mem_firsts before) offer held equal).order
    rw [Contribution.orderFace, Contribution.orderFace, ordered] at orders
    cases found : meter.orderKeys offer.poolRow with
    | error fault =>
      rw [found] at orders
      cases orders
    | ok values => exact ⟨⟨offer.identity, offer.quantity, values⟩, bind_ok.mpr ⟨values, found, rfl⟩⟩
  obtain ⟨results, built⟩ := exists_mapM evaluates
  have answered : resolveRows setting meter other = .ok (sortPools meter.order results) :=
    resolveRows_ok.mpr ⟨others, listed, agreeing.of_mem_iff fun offer => (same offer).symm, results, built, rfl⟩
  refine ⟨sortPools meter.order results, answered, ?_⟩
  refine faces_of_strict meter.order (resolved_strict resolved) (resolved_strict answered) ?_
  have faces : ∀ {offers : List Contribution} {given : List Pool},
      (founders offers).mapM (poolOf meter) = .ok given →
        given.map Pool.face = (founders offers).map (Contribution.face meter) := fun all =>
    (map_eq_of_forall₂ (forall₂_of_mapM all) fun _ _ _ built => face_poolOf built).symm
  have determined : ∀ one ∈ offers, ∀ second ∈ offers,
      one.pool = second.pool ↔ one.face meter = second.face meter := by
    intro one inside second present
    refine ⟨fun equal => ?_, fun equal => (Prod.mk.inj equal).1⟩
    have attributes := agree offers offered one inside second present equal
    rw [Contribution.face, Contribution.face, equal, attributes.quantity, attributes.order]
  have sorted := (List.mergeSort_perm given fun first second => comparePools meter.order first second != .gt).map
    Pool.face
  have resorted := (List.mergeSort_perm results fun first second => comparePools meter.order first second != .gt).map
    Pool.face
  have kept := perm_firsts (fun offer => (same offer).symm) determined
  rw [← faces all, ← faces built] at kept
  exact (sorted.trans kept).trans resorted.symm

/-- The contributions of two parts of a listing. -/
theorem offersOf_append {left right : List (CompiledSource × Row)}
    (offered : offersOf setting meter (left ++ right) = .ok offers) :
    ∃ first second, offersOf setting meter left = .ok first ∧ offersOf setting meter right = .ok second ∧
      offers = first ++ second := by
  obtain ⟨answers, all, rfl⟩ := map_ok.mp offered
  rw [List.mapM_append] at all
  obtain ⟨before, first, rest⟩ := bind_ok.mp all
  obtain ⟨after, second, last⟩ := bind_ok.mp rest
  obtain rfl := Except.ok.inj last
  exact ⟨before.reduceOption, after.reduceOption, map_ok.mpr ⟨before, first, rfl⟩, map_ok.mpr ⟨after, second, rfl⟩,
    List.reduceOption_append before after⟩

/-- An enumeration with the rows that have an order in front resolves when any enumeration can. -/
theorem exists_resolved (offered : offersOf setting meter listing = .ok offers)
    (agreeing : Agreeing Contribution.pool Contribution.capacity offers)
    (ordered : ∀ offer ∈ offers, ∃ row ∈ offers, row.pool = offer.pool ∧
      ∃ keys, meter.orderKeys row.poolRow = .ok keys) :
    ∃ other pools, other.Perm listing ∧ resolveRows setting meter other = .ok pools := by
  classical
  let front (entry : CompiledSource × Row) : Bool := decide <| ∃ offer keys,
    contribution setting meter entry.1 entry.2 = .ok (some offer) ∧ meter.orderKeys offer.poolRow = .ok keys
  have perm : (listing.filter front ++ listing.filter fun entry => !front entry).Perm listing :=
    List.filter_append_perm front listing
  obtain ⟨others, listed, same⟩ := offersOf_perm perm offered
  obtain ⟨first, second, leading, _, rfl⟩ := offersOf_append listed
  have evaluates : ∀ offer ∈ founders (first ++ second), ∃ pool, poolOf meter offer = .ok pool := by
    intro offer kept
    obtain ⟨row, held, equal, keys, found⟩ := ordered offer ((same offer).mp (mem_of_mem_firsts kept))
    obtain ⟨entry, inside, contributed⟩ := (mem_offersOf offered).mp held
    have ahead : row ∈ first := by
      refine (mem_offersOf leading).mpr ⟨entry, List.mem_filter.mpr ⟨inside, ?_⟩, contributed⟩
      exact decide_eq_true ⟨row, keys, contributed, found⟩
    have founder := mem_left_of_mem_firsts kept ahead equal.symm
    obtain ⟨source, among, answered⟩ := (mem_offersOf leading).mp founder
    obtain ⟨_, values, again, evaluated⟩ := of_decide_eq_true (List.mem_filter.mp among).2
    obtain rfl := Option.some.inj (Except.ok.inj (answered.symm.trans again))
    exact ⟨_, bind_ok.mpr ⟨values, evaluated, rfl⟩⟩
  obtain ⟨given, built⟩ := exists_mapM evaluates
  exact ⟨_, _, perm, resolveRows_ok.mpr
    ⟨first ++ second, listed, agreeing.of_mem_iff fun offer => (same offer).symm, given, built, rfl⟩⟩

end Enumeration

section Results

variable (setting : Setting) (meter : CompiledMeter)

/-- The rows of all sources in their order, with their sources. -/
def listingOf : List (CompiledSource × List Row) → List (CompiledSource × Row)
  | [] => []
  | (source, rows) :: rest => rows.map (fun row => (source, row)) ++ listingOf rest

variable {setting meter}

/-- The nested loops over the sources and their rows are one loop over all rows. -/
theorem resolvePools_eq {enforcing : Row} (present : setting.enforcing = some enforcing)
    {answers : List (CompiledSource × List Row)} (sources : answers.map Prod.fst = meter.sources)
    (answered : ∀ answer ∈ answers, sourceRows answer.1 (.row enforcing) = .ok answer.2) :
    resolvePools setting meter = resolveRows setting meter (listingOf answers) := by
  have loops : ∀ (answers : List (CompiledSource × List Row)) (state : Resolution),
      (∀ answer ∈ answers, sourceRows answer.1 (.row enforcing) = .ok answer.2) →
        (answers.map Prod.fst).foldlM (fun state source => do
          (← sourceRows source (.row enforcing)).foldlM
            (fun state row => state.step setting meter (source, row)) state) state =
          (listingOf answers).foldlM (fun state entry => state.step setting meter entry) state := by
    intro answers
    induction answers with
    | nil => exact fun _ _ => rfl
    | cons answer rest ih =>
      intro state each
      obtain ⟨source, rows⟩ := answer
      have here := each (source, rows) List.mem_cons_self
      rw [List.map_cons, List.foldlM_cons, listingOf, List.foldlM_append, List.foldlM_map, here]
      exact bind_congr fun next => ih next fun answer inside =>
        each answer (List.mem_cons_of_mem _ inside)
  rw [resolvePools, present, resolveRows, ← loops answers ⟨[], []⟩ answered, sources]

/-- The resolution of a meter is that of all rows of its sources. It does what it should in each enumeration of the
rows exactly when the rows that agree on the quantity and the end of a pool agree on all of it. -/
theorem resolve_pools_iff (setting : Setting) (meter : CompiledMeter) :
    (∀ enforcing answers, setting.enforcing = some enforcing → answers.map Prod.fst = meter.sources →
      (∀ answer ∈ answers, sourceRows answer.1 (.row enforcing) = .ok answer.2) →
        resolvePools setting meter = resolveRows setting meter (listingOf answers)) ∧
      ∀ listing, (∀ other : List (CompiledSource × Row), other.Perm listing → WellResolved setting meter other) ↔
        Unambiguous setting meter listing := by
  refine ⟨fun _ _ present sources answered => resolvePools_eq present sources answered, fun listing => ⟨?_, ?_⟩⟩
  · intro sound offers offered agreeing ordered first inside second present same
    obtain ⟨other, pools, perm, resolved⟩ := exists_resolved offered agreeing ordered
    obtain ⟨others, listed, held⟩ := offersOf_perm perm offered
    exact (sound other perm).agreeing pools resolved others listed first ((held first).mpr inside) second
      ((held second).mpr present) same
  · intro unambiguous other perm
    have transferred := unambiguous.perm perm
    refine ⟨fun _ => resolved_distinct, fun _ => resolved_strict, fun _ => transferred.agree, fun third again => ?_⟩
    cases here : resolveRows setting meter other with
    | ok pools =>
      obtain ⟨others, resolved, same⟩ := resolve_perm (transferred.agree here) here again
      rw [resolved]
      exact .resolved same
    | error fault =>
      cases there : resolveRows setting meter third with
      | error other => exact .rejected fault other
      | ok pools =>
        obtain ⟨others, resolved, _⟩ := resolve_perm ((transferred.perm again).agree there) there again.symm
        rw [here] at resolved
        cases resolved

end Results

section Sample

/-- The cell of a row, if it has one. -/
def readCell (name : String) : Expr.Cell → Except Rejection Expr.Cell
  | .row row => .ok ((row.cell name).getD (.scalar .none))
  | _ => .ok (.scalar .none)

/-- A row of a pool with ten units at a price. -/
def pricedRow (key : String) (price : Int) : Row :=
  .mk [.key (.text key)] (.text key)
    [("$quantity", .scalar (.int 10)), ("price", .scalar (.int price))] []

/-- The pools with the lowest price are drained first. -/
def pricedMeter (gold silver : List Row) : CompiledMeter :=
  ⟨"credits", [⟨"gold", fun _ => .ok (.collection gold), true⟩, ⟨"silver", fun _ => .ok (.collection silver), true⟩],
    none, [⟨readCell "price", false⟩]⟩

def sampleSetting : Setting :=
  ⟨⟨⟨0, Signed.zero_low, Signed.zero_high⟩, .seconds⟩, some (.mk [] .none [] []), [], []⟩

/-- The source labels of the pools in their order. -/
def drained (result : Except Rejection (List Pool)) : Option (List String) :=
  result.toOption.map (List.map fun pool => pool.identity.source)

theorem SameResolution.drained {first second : Except Rejection (List Pool)} (same : SameResolution first second) :
    drained first = drained second := by
  cases same with
  | rejected => rfl
  | @resolved left right faces =>
    have sources := congrArg (List.map fun face => face.1.1) faces
    rw [List.map_map, List.map_map] at sources
    exact congrArg some sources

/-- The rows of two sources. -/
def pricedListing (gold silver : List Row) : List (CompiledSource × Row) :=
  gold.map (fun row => (⟨"gold", fun _ => .ok (.collection []), true⟩, row)) ++
    silver.map fun row => (⟨"silver", fun _ => .ok (.collection []), true⟩, row)

/-- The pools of one gold row and one silver row. -/
def pricedPools (gold silver : Int) : List Pool :=
  [⟨⟨"gold", .text "a", none⟩, some ⟨10, 0⟩, [.int gold]⟩, ⟨⟨"silver", .text "b", none⟩, some ⟨10, 0⟩, [.int silver]⟩]

theorem mergeSort_pair {α : Type} (before : α → α → Bool) (first second : α) :
    [first, second].mergeSort before = if before first second then [first, second] else [second, first] := by
  rw [List.mergeSort]
  simp [List.MergeSort.Internal.splitInTwo, List.merge]

/-- A pool that is listed twice is drained once. -/
theorem resolve_pools_sample :
    WellResolved sampleSetting (pricedMeter [pricedRow "a" 1, pricedRow "a" 1] [pricedRow "b" 2])
      (pricedListing [pricedRow "a" 1, pricedRow "a" 1] [pricedRow "b" 2]) := by
  refine ((resolve_pools_iff sampleSetting _).2 _).mpr (fun offers offered _ _ => ?_) _ (.refl _)
  let gold : Contribution := ⟨⟨"gold", .text "a", none⟩, pricedRow "a" 1, (none, none), some ⟨10, 0⟩⟩
  let silver : Contribution := ⟨⟨"silver", .text "b", none⟩, pricedRow "b" 2, (none, none), some ⟨10, 0⟩⟩
  obtain rfl : [gold, gold, silver] = offers := Except.ok.inj offered
  intro first inside second present same
  simp only [List.mem_cons, List.not_mem_nil, or_false] at inside present
  have apart : gold.pool ≠ silver.pool := fun equal => absurd (Prod.mk.inj equal).1 (by decide)
  have cells : ∀ key price, sameCells (pricedRow key price).cells (pricedRow key price).cells = true := by
    intro key price
    simp [pricedRow, Row.cells, sameCells, Expr.sameMember, Cell.same]
  rcases inside with rfl | rfl | rfl <;> rcases present with rfl | rfl | rfl <;> first
    | exact absurd same apart
    | exact absurd same.symm apart
    | exact ⟨rfl, rfl, rfl, cells _ _, rfl⟩

/-- One pool is listed at two prices. The price that is listed first decides which pool is drained first. -/
theorem price_decides :
    drained (resolvePools sampleSetting
        (pricedMeter [pricedRow "a" 1, pricedRow "a" 3] [pricedRow "b" 2])) = some ["gold", "silver"] ∧
      drained (resolvePools sampleSetting
        (pricedMeter [pricedRow "a" 3, pricedRow "a" 1] [pricedRow "b" 2])) = some ["silver", "gold"] ∧
        ¬ WellResolved sampleSetting (pricedMeter [] [])
          (pricedListing [pricedRow "a" 1, pricedRow "a" 3] [pricedRow "b" 2]) := by
  have ascending : drained (.ok (sortPools [⟨readCell "price", false⟩] (pricedPools 1 2))) =
      some ["gold", "silver"] := by
    rw [sortPools, pricedPools, mergeSort_pair, if_pos (by decide)]
    rfl
  have descending : drained (.ok (sortPools [⟨readCell "price", false⟩] (pricedPools 3 2))) =
      some ["silver", "gold"] := by
    rw [sortPools, pricedPools, mergeSort_pair, if_neg (by decide)]
    rfl
  refine ⟨ascending, descending, fun well => ?_⟩
  have rows := List.Perm.swap (pricedRow "a" 1) (pricedRow "a" 3) []
  have swapped : (pricedListing [pricedRow "a" 3, pricedRow "a" 1] [pricedRow "b" 2]).Perm
      (pricedListing [pricedRow "a" 1, pricedRow "a" 3] [pricedRow "b" 2]) := (rows.map _).append_right _
  have same := (well.stable _ swapped).drained
  change drained (.ok (sortPools _ (pricedPools 1 2))) = drained (.ok (sortPools _ (pricedPools 3 2))) at same
  rw [show (pricedMeter [] []).order = [⟨readCell "price", false⟩] from rfl, ascending, descending] at same
  exact absurd same (by decide)

end Sample

end Liasse.Meter
