/-
This file models how spends are funded from the pools of their meters: exactly, and never over a capacity.
-/

import Liasse.Meter.Pooling
import Mathlib.Algebra.Order.BigOperators.Group.List
import Mathlib.Logic.Relation

namespace Liasse.Meter

open Liasse.Codes Liasse.Runtime Liasse.Store

section Spends

/-- A part of a funding: the level that it clears, the pool that it draws from, and the amount. -/
structure Entry where
  level : String
  pool : PoolIdentity
  amount : ℚ

def Entry.isAt (level : String) (entry : Entry) : Bool :=
  entry.level = level

def Entry.draws (level : String) (pool : IdentityFace) (entry : Entry) : Bool :=
  entry.level = level ∧ entry.pool.face = pool

/-- What the wanted entries hold. -/
def held (wanted : Entry → Bool) (entries : List Entry) : ℚ :=
  ((entries.filter wanted).map Entry.amount).sum

/-- The spends of a state with their fundings. -/
abbrev Ledger := List (RowAddress × List Entry)

/-- What the spends of a state hold of a pool at a level. -/
def allocated (ledger : Ledger) (level : String) (pool : IdentityFace) : ℚ :=
  held (Entry.draws level pool) (ledger.flatMap Prod.snd)

/-- The loop over the pools of a level, with what is still needed and what is planned. -/
def drainPools (ledger : Ledger) (level : String) : List Pool → ℚ → List Entry → ℚ × List Entry
  | [], needed, planned => (needed, planned)
  | pool :: rest, needed, planned =>
    match pool.quantity with
    -- A pool without a capacity only partitions.
    | none => drainPools ledger level rest needed planned
    | some quantity =>
      let drawn := allocated ledger level pool.identity.face + held (Entry.draws level pool.identity.face) planned
      let available := quantity.toRat - drawn
      if available ≤ 0 then drainPools ledger level rest needed planned
      else
        let take := if available < needed then available else needed
        if needed - take = 0 then (needed - take, planned ++ [⟨level, pool.identity, take⟩])
        else drainPools ledger level rest (needed - take) (planned ++ [⟨level, pool.identity, take⟩])

/-- What a spend consumes of one meter: the amount, and the limiting levels with their pools in the order of draining. -/
structure Consume where
  meter : String
  amount : ℚ
  levels : List (String × List Pool)

def drain (ledger : Ledger) (consume : Consume) (level : String × List Pool) (entries : List Entry) :
    Except Rejection (List Entry) :=
  let result := drainPools ledger level.1 level.2 consume.amount []
  if 0 < result.1 then
    .error (.new .evaluation ("meter `" ++ consume.meter ++ "` lacks eligible capacity for the spend (§15.2)"))
  else .ok (entries ++ result.2)

def fundConsume (ledger : Ledger) (address : RowAddress) (entries : List Entry) (consume : Consume) :
    Except Rejection (List Entry) :=
  if consume.amount < 0 then
    .error ((Rejection.new .evaluation ("spend $amount MUST be non-negative for meter `" ++ consume.meter ++ "`")).at
      (.row address))
  else consume.levels.foldlM (fun entries level =>
    if consume.amount = 0 then .ok entries else drain ledger consume level entries) entries

/-- A spend that is deleted gives back what it holds. -/
def release (ledger : Ledger) (address : RowAddress) : Ledger :=
  ledger.filter fun spend => spend.1 ≠ address

/-- A spend that is written gives back what it holds and is funded again. -/
def fundSpend (ledger : Ledger) (address : RowAddress) (consumes : List Consume) : Except Rejection Ledger := do
  let entries ← consumes.foldlM (fundConsume (release ledger address) address) []
  pure ((address, entries) :: release ledger address)

end Spends

section Held

variable {wanted : Entry → Bool} {entries : List Entry}

@[simp] theorem held_append (first second : List Entry) :
    held wanted (first ++ second) = held wanted first + held wanted second := by
  simp [held]

theorem held_nonneg (positive : ∀ entry ∈ entries, 0 < entry.amount) : 0 ≤ held wanted entries := by
  refine List.sum_nonneg fun amount inside => ?_
  obtain ⟨entry, kept, rfl⟩ := List.mem_map.mp inside
  exact (positive entry (List.mem_of_mem_filter kept)).le

theorem held_eq_zero (unwanted : ∀ entry ∈ entries, wanted entry = false) : held wanted entries = 0 := by
  have nothing : entries.filter wanted = [] := by
    simpa [List.filter_eq_nil_iff] using unwanted
  rw [held, nothing]
  rfl

end Held

section Fundings

variable {ledger : Ledger} {capacity : String → IdentityFace → ℚ} {demands : List (String × ℚ)} {entries : List Entry}

/-- Entries fund some amounts at their levels, and no pool over its capacity. -/
structure Funds (ledger : Ledger) (capacity : String → IdentityFace → ℚ) (demands : List (String × ℚ))
    (entries : List Entry) : Prop where
  placed : ∀ entry ∈ entries, entry.level ∈ demands.map Prod.fst
  positive : ∀ entry ∈ entries, 0 < entry.amount
  exact : ∀ demand ∈ demands, held (Entry.isAt demand.1) entries = demand.2
  within : ∀ level pool, allocated ledger level pool + held (Entry.draws level pool) entries ≤ capacity level pool

/-- No pool of a level has more than its capacity. -/
def Capped (capacity : String → IdentityFace → ℚ) (level : String × List Pool) : Prop :=
  ∀ pool ∈ level.2, ∀ quantity, pool.quantity = some quantity → quantity.toRat ≤ capacity level.1 pool.identity.face

/-- A new level has nothing yet. -/
theorem Funds.enter (funds : Funds ledger capacity demands entries) {level : String}
    (new : level ∉ demands.map Prod.fst) : Funds ledger capacity (demands ++ [(level, 0)]) entries := by
  refine ⟨fun entry inside => ?_, funds.positive, fun demand inside => ?_, funds.within⟩
  · rw [List.map_append]
    exact List.mem_append_left _ (funds.placed entry inside)
  · obtain old | last := List.mem_append.mp inside
    · exact funds.exact demand old
    · obtain rfl := List.mem_singleton.mp last
      exact held_eq_zero fun entry inside => decide_eq_false fun (same : entry.level = level) =>
        new (same ▸ funds.placed entry inside)

/-- One part more at the last level stays below the capacity when there is room for it. -/
theorem Funds.take {level : String} {drawn take : ℚ} {pool : PoolIdentity}
    (funds : Funds ledger capacity (demands ++ [(level, drawn)]) entries) (new : level ∉ demands.map Prod.fst)
    (positive : 0 < take)
    (room : allocated ledger level pool.face + held (Entry.draws level pool.face) entries + take ≤
      capacity level pool.face) :
    Funds ledger capacity (demands ++ [(level, drawn + take)]) (entries ++ [⟨level, pool, take⟩]) := by
  refine ⟨?_, ?_, ?_, ?_⟩
  · intro entry inside
    obtain earlier | last := List.mem_append.mp inside
    · simpa using funds.placed entry earlier
    · simp [List.mem_singleton.mp last]
  · intro entry inside
    obtain earlier | last := List.mem_append.mp inside
    · exact funds.positive entry earlier
    · rwa [List.mem_singleton.mp last]
  · intro demand inside
    obtain old | last := List.mem_append.mp inside
    · have other : level ≠ demand.1 := fun same => new (same ▸ List.mem_map_of_mem old)
      simpa [held, Entry.isAt, other] using funds.exact demand (List.mem_append_left _ old)
    · have before : held (Entry.isAt level) entries = drawn := funds.exact (level, drawn) (by simp)
      rw [List.mem_singleton.mp last, held_append, before]
      simp [held, Entry.isAt]
  · intro place face
    have before := funds.within place face
    by_cases same : level = place ∧ pool.face = face
    · obtain ⟨rfl, rfl⟩ := same
      simpa [held, Entry.draws, ← add_assoc] using room
    · simpa [held, Entry.draws, same] using before

/-- The loop over the pools keeps what is drawn and what is needed at the whole amount. -/
theorem Funds.loop {level : String} {amount : ℚ} {pools : List Pool} (capped : Capped capacity (level, pools))
    (new : level ∉ demands.map Prod.fst) (alone : ∀ face, held (Entry.draws level face) entries = 0) {needed : ℚ}
    {planned : List Entry} (positive : 0 < needed)
    (funds : Funds ledger capacity (demands ++ [(level, amount - needed)]) (entries ++ planned)) :
    0 ≤ (drainPools ledger level pools needed planned).1 ∧
      Funds ledger capacity (demands ++ [(level, amount - (drainPools ledger level pools needed planned).1)])
        (entries ++ (drainPools ledger level pools needed planned).2) := by
  induction pools generalizing needed planned with
  | nil => exact ⟨positive.le, funds⟩
  | cons pool rest ih =>
    have others : Capped capacity (level, rest) := fun other inside => capped other (List.mem_cons_of_mem _ inside)
    rw [drainPools]
    cases limit : pool.quantity with
    | none => exact ih others positive funds
    | some quantity =>
      have bound := capped pool List.mem_cons_self quantity limit
      dsimp only
      split
      next => exact ih others positive funds
      next available =>
        generalize taken : (if _ < needed then _ else needed) = take
        have some : 0 < take := by
          split at taken <;> linarith
        have most : take ≤ needed := by
          split at taken <;> linarith
        have room : allocated ledger level pool.identity.face +
            held (Entry.draws level pool.identity.face) (entries ++ planned) + take ≤
              capacity level pool.identity.face := by
          rw [held_append, alone, zero_add]
          split at taken <;> linarith
        have next := funds.take new some room
        rw [show amount - needed + take = amount - (needed - take) by ring, List.append_assoc] at next
        split
        next done => exact ⟨done.ge, next⟩
        next more => exact ih others (lt_of_le_of_ne (sub_nonneg.mpr most) (Ne.symm more)) next

theorem Funds.drained {consume : Consume} {level : String × List Pool} {result : List Entry}
    (funds : Funds ledger capacity demands entries) (new : level.1 ∉ demands.map Prod.fst)
    (capped : Capped capacity level) (positive : 0 < consume.amount)
    (drained : drain ledger consume level entries = .ok result) :
    Funds ledger capacity (demands ++ [(level.1, consume.amount)]) result := by
  have alone : ∀ face, held (Entry.draws level.1 face) entries = 0 := fun face =>
    held_eq_zero fun entry inside => decide_eq_false fun same => new (same.1 ▸ funds.placed entry inside)
  have start : Funds ledger capacity (demands ++ [(level.1, consume.amount - consume.amount)]) (entries ++ []) := by
    rw [sub_self, List.append_nil]
    exact funds.enter new
  obtain ⟨least, spent⟩ := start.loop capped new alone positive
  rw [drain] at drained
  split at drained
  next => cases drained
  next done =>
    cases drained
    rwa [le_antisymm (not_lt.mp done) least, sub_zero] at spent

/-- The amounts that a consumed meter asks of its levels. -/
def Consume.asked (consume : Consume) : List (String × ℚ) :=
  consume.levels.map fun level => (level.1, consume.amount)

theorem Funds.levels {consume : Consume} {levels : List (String × List Pool)} {result : List Entry}
    (nonneg : 0 ≤ consume.amount) (funds : Funds ledger capacity demands entries)
    (distinct : (demands.map Prod.fst ++ levels.map Prod.fst).Nodup) (capped : ∀ level ∈ levels, Capped capacity level)
    (funded : levels.foldlM (fun entries level =>
      if consume.amount = 0 then .ok entries else drain ledger consume level entries) entries = .ok result) :
    Funds ledger capacity (demands ++ levels.map fun level => (level.1, consume.amount)) result := by
  induction levels generalizing demands entries with
  | nil =>
    cases funded
    simpa using funds
  | cons level rest ih =>
    rw [List.foldlM_cons] at funded
    obtain ⟨next, here, later⟩ := bind_ok.mp funded
    have new : level.1 ∉ demands.map Prod.fst := fun inside =>
      List.disjoint_of_nodup_append distinct inside (by simp)
    have step : Funds ledger capacity (demands ++ [(level.1, consume.amount)]) next := by
      split at here
      next zero =>
        cases here
        rw [zero]
        exact funds.enter new
      next some =>
        exact funds.drained new (capped level List.mem_cons_self) (lt_of_le_of_ne nonneg (Ne.symm some)) here
    have rest := ih step (by simpa using distinct) (fun other inside => capped other (List.mem_cons_of_mem _ inside)) later
    simpa using rest

theorem Funds.consumes {address : RowAddress} {consumes : List Consume} {result : List Entry}
    (funds : Funds ledger capacity demands entries)
    (distinct : (demands.map Prod.fst ++ (consumes.flatMap Consume.levels).map Prod.fst).Nodup)
    (capped : ∀ consume ∈ consumes, ∀ level ∈ consume.levels, Capped capacity level)
    (funded : consumes.foldlM (fundConsume ledger address) entries = .ok result) :
    Funds ledger capacity (demands ++ consumes.flatMap Consume.asked) result := by
  induction consumes generalizing demands entries with
  | nil =>
    cases funded
    simpa using funds
  | cons consume rest ih =>
    rw [List.foldlM_cons] at funded
    obtain ⟨next, here, later⟩ := bind_ok.mp funded
    rw [fundConsume] at here
    split at here
    next => cases here
    next nonneg =>
      rw [List.flatMap_cons, List.map_append, ← List.append_assoc] at distinct
      have step := funds.levels (not_lt.mp nonneg) distinct.of_append_left (capped consume List.mem_cons_self) here
      have rest := ih step (by simpa [Function.comp_def] using distinct)
        (fun other inside => capped other (List.mem_cons_of_mem _ inside)) later
      simpa [Consume.asked] using rest

end Fundings

section Runs

variable {capacity : String → IdentityFace → ℚ} {ledger : Ledger} {address : RowAddress}

/-- Each part of a funding is positive, and no pool is held over its capacity. -/
structure Solvent (capacity : String → IdentityFace → ℚ) (ledger : Ledger) : Prop where
  positive : ∀ spend ∈ ledger, ∀ entry ∈ spend.2, 0 < entry.amount
  within : ∀ level pool, allocated ledger level pool ≤ capacity level pool

/-- The levels of a spend are distinct, and their pools are within the capacity. -/
structure Admits (capacity : String → IdentityFace → ℚ) (consumes : List Consume) : Prop where
  distinct : ((consumes.flatMap Consume.levels).map Prod.fst).Nodup
  capped : ∀ consume ∈ consumes, ∀ level ∈ consume.levels, Capped capacity level

theorem Solvent.released (solvent : Solvent capacity ledger) (address : RowAddress) :
    Solvent capacity (release ledger address) := by
  refine ⟨fun spend inside => solvent.positive spend (List.mem_of_mem_filter inside), fun level pool => ?_⟩
  have fewer : ((release ledger address).flatMap Prod.snd).filter (Entry.draws level pool) |>.Sublist
      ((ledger.flatMap Prod.snd).filter (Entry.draws level pool)) :=
    (List.filter_sublist.flatMap Prod.snd).filter _
  refine ((fewer.map Entry.amount).sum_le_sum fun amount inside => ?_).trans (solvent.within level pool)
  obtain ⟨entry, kept, rfl⟩ := List.mem_map.mp inside
  obtain ⟨spend, present, part⟩ := List.mem_flatMap.mp (List.mem_of_mem_filter kept)
  exact (solvent.positive spend present entry part).le

theorem funds_of_fundSpend {consumes : List Consume} {after : Ledger} (solvent : Solvent capacity ledger)
    (admits : Admits capacity consumes) (funded : fundSpend ledger address consumes = .ok after) :
    ∃ entries, after = (address, entries) :: release ledger address ∧
      Funds (release ledger address) capacity (consumes.flatMap Consume.asked) entries := by
  obtain ⟨entries, all, same⟩ := bind_ok.mp funded
  have start : Funds (release ledger address) capacity [] [] :=
    ⟨nofun, nofun, nofun, fun level pool => by simpa [held] using (solvent.released address).within level pool⟩
  exact ⟨entries, (Except.ok.inj same).symm, start.consumes (by simpa using admits.distinct) admits.capped all⟩

/-- A funded spend holds each amount exactly at each level, in positive parts, and nothing changes of other spends. -/
theorem funded_exactly {consumes : List Consume} {after : Ledger} (solvent : Solvent capacity ledger)
    (admits : Admits capacity consumes) (funded : fundSpend ledger address consumes = .ok after) :
    ∃ entries, after = (address, entries) :: release ledger address ∧ (∀ entry ∈ entries, 0 < entry.amount) ∧
      ∀ consume ∈ consumes, ∀ level ∈ consume.levels, held (Entry.isAt level.1) entries = consume.amount := by
  obtain ⟨entries, same, funds⟩ := funds_of_fundSpend solvent admits funded
  refine ⟨entries, same, funds.positive, fun consume inside level part => ?_⟩
  exact funds.exact (level.1, consume.amount) (List.mem_flatMap.mpr ⟨consume, inside, List.mem_map_of_mem part⟩)

/-- A step deletes a spend or funds one. -/
inductive Moves (capacity : String → IdentityFace → ℚ) (before : Ledger) : Ledger → Prop
  | release (address : RowAddress) : Moves capacity before (release before address)
  | fund {address : RowAddress} {consumes : List Consume} {after : Ledger} (admits : Admits capacity consumes)
      (funded : fundSpend before address consumes = .ok after) : Moves capacity before after

/-- No run of spends and releases holds more of a pool than the largest capacity that its resolutions report. -/
theorem solvent_of_moves {last : Ledger} (solvent : Solvent capacity ledger)
    (moves : Relation.ReflTransGen (Moves capacity) ledger last) : Solvent capacity last := by
  induction moves with
  | refl => exact solvent
  | tail _ step ih =>
    cases step with
    | release address => exact ih.released address
    | fund admits funded =>
      obtain ⟨entries, rfl, funds⟩ := funds_of_fundSpend ih admits funded
      refine ⟨fun spend inside => ?_, fun level pool => ?_⟩
      · obtain rfl | old := List.mem_cons.mp inside
        · exact funds.positive
        · exact (ih.released _).positive spend old
      · rw [allocated, List.flatMap_cons, held_append, add_comm]
        exact funds.within level pool

end Runs

section Sample

/-- A pool of credits. -/
def creditPool (source : String) (units : Int) : Pool :=
  ⟨⟨source, .none, none⟩, some ⟨units, 0⟩, []⟩

/-- A spend of three credits, of which the first pool has two. -/
def creditSpend : Consume :=
  ⟨"credits", 3, [("team", [creditPool "gift" 2, creditPool "plan" 10])]⟩

def creditAddress : RowAddress :=
  ⟨⟨"spends", .composite (.bool true) []⟩, []⟩

theorem creditSpend_admits : Admits (fun _ _ => 10) [creditSpend] := by
  constructor
  · decide
  · norm_num [creditSpend, Capped, creditPool, BigDecimal.toRat]

theorem creditSpend_solvent : Solvent (fun _ _ => 10) [] :=
  ⟨nofun, fun _ _ => by norm_num [allocated, held]⟩

theorem creditSpend_funded : fundSpend [] creditAddress [creditSpend] = .ok
    [(creditAddress, [⟨"team", (creditPool "gift" 2).identity, 2⟩, ⟨"team", (creditPool "plan" 10).identity, 1⟩])] := by
  have apart : "gift" ≠ "plan" := by decide
  norm_num [fundSpend, release, creditSpend, fundConsume, drain, drainPools, creditPool, allocated, held, Entry.draws,
    List.filter_cons, PoolIdentity.face, BigDecimal.toRat, apart]

theorem funded_exactly_credits : ∃ entries, fundSpend [] creditAddress [creditSpend] = .ok [(creditAddress, entries)] ∧
    held (Entry.isAt "team") entries = 3 := by
  obtain ⟨entries, same, -, exact⟩ := funded_exactly creditSpend_solvent creditSpend_admits creditSpend_funded
  exact ⟨entries, creditSpend_funded.trans (congrArg _ same), exact creditSpend (by simp) _ List.mem_cons_self⟩

theorem solvent_of_moves_credits : ∃ ledger, fundSpend [] creditAddress [creditSpend] = .ok ledger ∧
    Solvent (fun _ _ => 10) ledger :=
  ⟨_, creditSpend_funded, solvent_of_moves creditSpend_solvent (.single (.fund creditSpend_admits creditSpend_funded))⟩

end Sample

end Liasse.Meter
