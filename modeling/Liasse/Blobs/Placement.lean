/-
This file models the placement plans of blobs. It proves that writes, satisfaction, surplus and serve order agree
on every plan.
-/

import Mathlib

namespace Liasse.Blobs

section Plans

/-- A store identity is its text. -/
abbrev StoreId := String

/-- A bare view requires every store that it yields. The branches compose these requirements. -/
inductive Placement
  | view (stores : List StoreId)
  | all (branches : List Placement)
  | any (branches : List Placement)
  | copies (n : Nat) (source : List StoreId)

/-- The first occurrences of store identities. -/
def dedup (stores : List StoreId) : List StoreId :=
  stores.eraseDups

namespace Placement

mutual

/-- The stores of a plan from left to right, each one as often as it is named. -/
def stores : Placement → List StoreId
  | .view stores => stores
  | .all branches => storesOf branches
  | .any branches => storesOf branches
  | .copies _ source => source
termination_by structural placement => placement

def storesOf : List Placement → List StoreId
  | [] => []
  | branch :: rest => stores branch ++ storesOf rest
termination_by structural branches => branches

end

/-- A store that was not seen is appended. -/
def push (order : List StoreId) (store : StoreId) : List StoreId :=
  if order.contains store then order else order ++ [store]

mutual

def collect : Placement → List StoreId → List StoreId
  | .view stores, order => stores.foldl push order
  | .all branches, order => collectAll branches order
  | .any branches, order => collectAll branches order
  | .copies _ source, order => source.foldl push order
termination_by structural placement => placement

def collectAll : List Placement → List StoreId → List StoreId
  | [], order => order
  | branch :: rest, order => collectAll rest (collect branch order)
termination_by structural branches => branches

end

/-- The stores of a plan from left to right, each one once. -/
def flattened (placement : Placement) : List StoreId :=
  placement.collect []

section Observations

variable (verified : Finset StoreId)

mutual

/-- Verified stores satisfy a view when they contain it, and the branches as their combinators say. -/
def satisfiedBy : Placement → Bool
  | .view stores => (dedup stores).all fun store => decide (store ∈ verified)
  | .all branches => satisfiedAll branches
  | .any branches => satisfiedAny branches
  | .copies n source => decide (n ≤ ((dedup source).filter fun store => decide (store ∈ verified)).length)
termination_by structural placement => placement

def satisfiedAll : List Placement → Bool
  | [] => true
  | branch :: rest => satisfiedBy branch && satisfiedAll rest
termination_by structural branches => branches

def satisfiedAny : List Placement → Bool
  | [] => false
  | branch :: rest => satisfiedBy branch || satisfiedAny rest
termination_by structural branches => branches

end

mutual

/-- The stores that the current policy requires. A choice requires its first satisfied branch, and copies are
required in the order of their view. -/
def requiredFor : Placement → Finset StoreId
  | .view stores => (dedup stores).toFinset
  | .all branches => requiredAll branches
  | .any branches => requiredAny branches
  | .copies n source => (((dedup source).filter fun store => decide (store ∈ verified)).take n).toFinset
termination_by structural placement => placement

def requiredAll : List Placement → Finset StoreId
  | [] => ∅
  | branch :: rest => requiredFor branch ∪ requiredAll rest
termination_by structural branches => branches

def requiredAny : List Placement → Finset StoreId
  | [] => ∅
  | branch :: rest => if branch.satisfiedBy verified then requiredFor branch else requiredAny rest
termination_by structural branches => branches

end

/-- The verified copies outside the required stores, in ascending order. -/
def surplus (placement : Placement) : List StoreId :=
  (verified.sort (· ≤ ·)).filter fun store => decide (store ∉ placement.requiredFor verified)

end Observations

section Writes

variable (writable : StoreId → Bool)

mutual

/-- The stores that a new write must reach. A choice is its first branch that can be fulfilled. -/
def writablePlan : Placement → Option (List StoreId)
  | .view stores => if (dedup stores).all writable then some (dedup stores) else none
  | .all branches => (writableAll branches).map dedup
  | .any branches => writableAny branches
  | .copies n source =>
    let held := (dedup source).filter writable
    if n ≤ held.length then some (held.take n) else none
termination_by structural placement => placement

def writableAll : List Placement → Option (List StoreId)
  | [] => some []
  | branch :: rest => do
      let first ← writablePlan branch
      let others ← writableAll rest
      some (first ++ others)
termination_by structural branches => branches

def writableAny : List Placement → Option (List StoreId)
  | [] => none
  | branch :: rest =>
    match writablePlan branch with
    | some plan => some plan
    | none => writableAny rest
termination_by structural branches => branches

end

end Writes

end Placement

/-- A plan with an optional read order. -/
structure PlacementPolicy where
  plan : Placement
  serve : Option (List StoreId)

namespace PlacementPolicy

/-- The declared stores, and then the remaining stores of the plan. -/
def ordered (policy : PlacementPolicy) : List StoreId :=
  match policy.serve with
  | some serve => policy.plan.flattened.foldl Placement.push (dedup serve)
  | none => policy.plan.flattened

/-- The verified holders in the order of the reads. -/
def serveOrder (policy : PlacementPolicy) (verified : Finset StoreId) : List StoreId :=
  policy.ordered.filter fun store => decide (store ∈ verified)

end PlacementPolicy

end Plans

section Induction

/-- The induction over plans assumes the statement of each branch. -/
theorem Placement.induct {statement : Placement → Prop} (view : ∀ stores, statement (.view stores))
    (all : ∀ branches, (∀ branch ∈ branches, statement branch) → statement (.all branches))
    (any : ∀ branches, (∀ branch ∈ branches, statement branch) → statement (.any branches))
    (copies : ∀ n source, statement (.copies n source)) (placement : Placement) : statement placement := by
  induction size : sizeOf placement using Nat.strong_induction_on generalizing placement with
  | h count earlier =>
    cases placement with
    | view stores => exact view stores
    | copies n source => exact copies n source
    | all branches =>
      refine all branches fun branch inside => earlier (sizeOf branch) ?_ branch rfl
      have smaller : sizeOf branch < sizeOf branches := List.sizeOf_lt_of_mem inside
      rw [← size, Placement.all.sizeOf_spec]
      omega
    | any branches =>
      refine any branches fun branch inside => earlier (sizeOf branch) ?_ branch rfl
      have smaller : sizeOf branch < sizeOf branches := List.sizeOf_lt_of_mem inside
      rw [← size, Placement.any.sizeOf_spec]
      omega

end Induction

section Distinct

theorem mem_dedup {store : StoreId} {stores : List StoreId} : store ∈ dedup stores ↔ store ∈ stores :=
  List.mem_eraseDups

@[simp] theorem dedup_singleton (store : StoreId) : dedup [store] = [store] :=
  rfl

theorem dedup_snoc (stores : List StoreId) (store : StoreId) :
    dedup (stores ++ [store]) = if store ∈ stores then dedup stores else dedup stores ++ [store] := by
  rw [dedup, List.eraseDups_append, ← dedup]
  by_cases seen : store ∈ stores
  · simp [List.removeAll, seen]
  · rw [if_neg seen, show [store].removeAll stores = [store] by simp [List.removeAll, seen]]
    rfl

theorem nodup_dedup (stores : List StoreId) : (dedup stores).Nodup := by
  induction stores using List.reverseRecOn with
  | nil => exact List.nodup_nil
  | append_singleton stores store ih =>
    rw [dedup_snoc]
    split
    · exact ih
    · next fresh => exact ih.append (List.nodup_singleton store) (by simpa [mem_dedup] using fresh)

/-- An appended store is the next one of the distinct stores. -/
theorem push_dedup (stores : List StoreId) (store : StoreId) :
    Placement.push (dedup stores) store = dedup (stores ++ [store]) := by
  rw [Placement.push, dedup_snoc]
  simp only [List.contains_iff_mem, mem_dedup]

theorem foldl_push (before stores : List StoreId) :
    stores.foldl Placement.push (dedup before) = dedup (before ++ stores) := by
  induction stores generalizing before with
  | nil => rw [List.append_nil, List.foldl_nil]
  | cons store rest ih =>
    rw [List.foldl_cons, push_dedup, ih, List.append_assoc, List.singleton_append]

theorem dedup_append (before after : List StoreId) :
    dedup (before ++ after) = dedup before ++ (dedup after).filter fun store => decide (store ∉ before) := by
  induction after using List.reverseRecOn with
  | nil => simp [dedup]
  | append_singleton after store ih =>
    rw [← List.append_assoc, dedup_snoc, dedup_snoc, ih]
    by_cases first : store ∈ before <;> by_cases second : store ∈ after <;> simp [first, second]

theorem dedup_of_nodup {stores : List StoreId} (distinct : stores.Nodup) : dedup stores = stores := by
  induction stores using List.reverseRecOn with
  | nil => rfl
  | append_singleton stores store ih =>
    have apart := List.nodup_append.mp distinct
    have fresh : store ∉ stores := fun inside => apart.2.2 store inside store List.mem_cons_self rfl
    rw [dedup_snoc, if_neg fresh, ih apart.1]

/-- The flattened plan is its distinct stores. -/
theorem flattened_eq (placement : Placement) : placement.flattened = dedup placement.stores := by
  suffices collected : ∀ before, placement.collect (dedup before) = dedup (before ++ placement.stores) from
    collected []
  induction placement using Placement.induct with
  | view stores => exact fun before => foldl_push before stores
  | copies n source => exact fun before => foldl_push before source
  | all branches each | any branches each =>
    intro before
    rw [Placement.collect, Placement.stores]
    induction branches generalizing before with
    | nil => rw [Placement.collectAll, Placement.storesOf, List.append_nil]
    | cons branch rest ih =>
      obtain ⟨first, others⟩ := List.forall_mem_cons.mp each
      rw [Placement.collectAll, Placement.storesOf, first, ih others, List.append_assoc]

end Distinct

/-- The members of a list that are in a sublist are the sublist. -/
theorem filter_mem_of_sublist {stores kept : List StoreId} (distinct : stores.Nodup) (sublist : kept.Sublist stores) :
    (stores.filter fun store => decide (store ∈ kept)) = kept := by
  induction sublist with
  | slnil => rfl
  | cons store sublist ih =>
    obtain ⟨fresh, distinct⟩ := List.nodup_cons.mp distinct
    have missing : store ∉ _ := fun inside => fresh (sublist.subset inside)
    rw [List.filter_cons_of_neg (by simpa using missing), ih distinct]
  | cons_cons store sublist ih =>
    obtain ⟨fresh, distinct⟩ := List.nodup_cons.mp distinct
    rw [List.filter_cons_of_pos (by simp)]
    refine congrArg (store :: ·) (Eq.trans (List.filter_congr fun other inside => ?_) (ih distinct))
    have different : other ≠ store := fun same => fresh (same ▸ inside)
    simp [different]

/-- The distinct stores that are among the first members of a part are these. -/
theorem filter_take (keep : StoreId → Bool) (n : Nat) (stores : List StoreId) :
    ((dedup stores).filter fun store => decide (store ∈ (((dedup stores).filter keep).take n).toFinset)) =
      ((dedup stores).filter keep).take n := by
  simp only [List.mem_toFinset]
  exact filter_mem_of_sublist (nodup_dedup stores) ((List.take_sublist n _).trans List.filter_sublist)

namespace Placement

section Satisfaction

variable {verified larger : Finset StoreId}

theorem satisfiedAll_iff (branches : List Placement) :
    satisfiedAll verified branches = true ↔ ∀ branch ∈ branches, branch.satisfiedBy verified = true := by
  induction branches with
  | nil => simp [satisfiedAll]
  | cons branch rest ih => simp [satisfiedAll, ih]

theorem satisfiedAny_iff (branches : List Placement) :
    satisfiedAny verified branches = true ↔ ∃ branch ∈ branches, branch.satisfiedBy verified = true := by
  induction branches with
  | nil => simp [satisfiedAny]
  | cons branch rest ih => simp [satisfiedAny, ih]

theorem satisfiedBy_view {stores : List StoreId} :
    (view stores).satisfiedBy verified = true ↔ ∀ store ∈ stores, store ∈ verified := by
  simp [satisfiedBy, mem_dedup]

/-- More verified stores satisfy what fewer satisfy. -/
theorem satisfiedBy_mono (more : verified ⊆ larger) (placement : Placement)
    (satisfied : placement.satisfiedBy verified = true) : placement.satisfiedBy larger = true := by
  induction placement using Placement.induct with
  | view stores =>
    rw [satisfiedBy_view] at satisfied ⊢
    exact fun store inside => more (satisfied store inside)
  | all branches each =>
    rw [satisfiedBy, satisfiedAll_iff] at satisfied ⊢
    exact fun branch inside => each branch inside (satisfied branch inside)
  | any branches each =>
    rw [satisfiedBy, satisfiedAny_iff] at satisfied ⊢
    obtain ⟨branch, inside, satisfied⟩ := satisfied
    exact ⟨branch, inside, each branch inside satisfied⟩
  | copies n source =>
    simp only [satisfiedBy, decide_eq_true_eq] at satisfied ⊢
    have kept : ((dedup source).filter fun store => decide (store ∈ verified)).Sublist
        ((dedup source).filter fun store => decide (store ∈ larger)) :=
      List.monotone_filter_right _ fun store inside => decide_eq_true (more (of_decide_eq_true inside))
    exact satisfied.trans kept.length_le

end Satisfaction

section Gathering

variable {writable : StoreId → Bool}

/-- The gathered plans are the plans of the branches. -/
theorem mem_of_writableAll {branches : List Placement} {gathered : List StoreId}
    (found : writableAll writable branches = some gathered) :
    (∀ store ∈ gathered, ∃ branch ∈ branches, ∃ plan, branch.writablePlan writable = some plan ∧ store ∈ plan) ∧
      ∀ branch ∈ branches, ∃ plan, branch.writablePlan writable = some plan ∧ ∀ store ∈ plan, store ∈ gathered := by
  induction branches generalizing gathered with
  | nil =>
    obtain rfl := Option.some.inj found
    simp
  | cons branch rest ih =>
    rw [writableAll] at found
    simp only [Option.bind_eq_bind, Option.bind_eq_some_iff, Option.some.injEq] at found
    obtain ⟨first, here, others, below, rfl⟩ := found
    obtain ⟨origin, contained⟩ := ih below
    constructor
    · intro store inside
      rcases List.mem_append.mp inside with inside | inside
      · exact ⟨branch, List.mem_cons_self, first, here, inside⟩
      · obtain ⟨other, member, plan, planned, inside⟩ := origin store inside
        exact ⟨other, List.mem_cons_of_mem _ member, plan, planned, inside⟩
    · intro other member
      rcases List.mem_cons.mp member with rfl | member
      · exact ⟨first, here, fun store inside => List.mem_append_left _ inside⟩
      · obtain ⟨plan, planned, contained⟩ := contained other member
        exact ⟨plan, planned, fun store inside => List.mem_append_right _ (contained store inside)⟩

theorem exists_of_writableAny {branches : List Placement} {plan : List StoreId}
    (found : writableAny writable branches = some plan) :
    ∃ branch ∈ branches, branch.writablePlan writable = some plan := by
  induction branches with
  | nil => cases found
  | cons branch rest ih =>
    rw [writableAny] at found
    split at found
    · next here => exact ⟨branch, List.mem_cons_self, here.trans found⟩
    · obtain ⟨other, member, planned⟩ := ih found
      exact ⟨other, List.mem_cons_of_mem _ member, planned⟩

end Gathering

section Writes

variable {writable : Finset StoreId}

/-- A new write reaches the stores of a set. -/
abbrev planOver (writable : Finset StoreId) (placement : Placement) : Option (List StoreId) :=
  placement.writablePlan fun store => decide (store ∈ writable)

theorem exists_writableAll (branches : List Placement) :
    (∃ plan, writableAll (fun store => decide (store ∈ writable)) branches = some plan) ↔
      ∀ branch ∈ branches, ∃ plan, branch.planOver writable = some plan := by
  induction branches with
  | nil => simp [writableAll]
  | cons branch rest ih =>
    rw [List.forall_mem_cons, ← ih, writableAll]
    simp only [Option.bind_eq_bind, Option.bind_eq_some_iff, Option.some.injEq]
    constructor
    · intro ⟨_, first, here, others, below, _⟩
      exact ⟨⟨first, here⟩, ⟨others, below⟩⟩
    · intro ⟨⟨first, here⟩, ⟨others, below⟩⟩
      exact ⟨_, first, here, others, below, rfl⟩

theorem exists_writableAny (branches : List Placement) :
    (∃ plan, writableAny (fun store => decide (store ∈ writable)) branches = some plan) ↔
      ∃ branch ∈ branches, ∃ plan, branch.planOver writable = some plan := by
  induction branches with
  | nil => simp [writableAny]
  | cons branch rest ih =>
    rw [writableAny]
    simp only [List.mem_cons, exists_eq_or_imp, ← ih]
    cases found : writablePlan (fun store => decide (store ∈ writable)) branch <;> simp [found]

/-- A plan for a new write exists exactly when the writable stores satisfy the policy. -/
theorem exists_planOver (placement : Placement) :
    (∃ plan, placement.planOver writable = some plan) ↔ placement.satisfiedBy writable = true := by
  induction placement using Placement.induct with
  | view stores => simp [planOver, writablePlan, satisfiedBy]
  | all branches each =>
    have written : (∃ plan, (all branches).planOver writable = some plan) ↔
        ∃ plan, writableAll (fun store => decide (store ∈ writable)) branches = some plan := by
      simp only [planOver, writablePlan, Option.map_eq_some_iff]
      exact ⟨fun ⟨_, plan, found, _⟩ => ⟨plan, found⟩, fun ⟨plan, found⟩ => ⟨_, plan, found, rfl⟩⟩
    rw [satisfiedBy, satisfiedAll_iff, written, exists_writableAll]
    exact forall₂_congr each
  | any branches each =>
    rw [satisfiedBy, satisfiedAny_iff, planOver, writablePlan, exists_writableAny]
    exact exists_congr fun branch => and_congr_right fun inside => each branch inside
  | copies n source => simp [planOver, writablePlan, satisfiedBy]

/-- A plan for a new write names each store once, it names writable stores, and these satisfy the policy. -/
structure Fulfills (placement : Placement) (writable : Finset StoreId) (plan : List StoreId) : Prop where
  nodup : plan.Nodup
  subset : ∀ store ∈ plan, store ∈ writable
  satisfied : placement.satisfiedBy plan.toFinset = true

theorem fulfills_of_planOver {placement : Placement} {plan : List StoreId}
    (found : placement.planOver writable = some plan) : placement.Fulfills writable plan := by
  induction placement using Placement.induct generalizing plan with
  | view stores =>
    rw [planOver, writablePlan] at found
    split at found
    · next held =>
        obtain rfl := Option.some.inj found
        refine ⟨nodup_dedup stores, fun store inside => ?_, ?_⟩
        · exact of_decide_eq_true (List.all_eq_true.mp held store inside)
        · simp [satisfiedBy_view, mem_dedup]
    · cases found
  | all branches each =>
    rw [planOver, writablePlan] at found
    obtain ⟨gathered, gather, rfl⟩ := Option.map_eq_some_iff.mp found
    obtain ⟨origin, contained⟩ := mem_of_writableAll gather
    refine ⟨nodup_dedup gathered, fun store inside => ?_, ?_⟩
    · obtain ⟨branch, member, plan, planned, inside⟩ := origin store (mem_dedup.mp inside)
      exact (each branch member planned).subset store inside
    · rw [satisfiedBy, satisfiedAll_iff]
      intro branch member
      obtain ⟨plan, planned, contained⟩ := contained branch member
      refine satisfiedBy_mono (fun store inside => ?_) branch (each branch member planned).satisfied
      simpa [mem_dedup] using contained store (List.mem_toFinset.mp inside)
  | any branches each =>
    rw [planOver, writablePlan] at found
    obtain ⟨branch, member, planned⟩ := exists_of_writableAny found
    have fulfilled := each branch member planned
    refine ⟨fulfilled.nodup, fulfilled.subset, ?_⟩
    rw [satisfiedBy, satisfiedAny_iff]
    exact ⟨branch, member, fulfilled.satisfied⟩
  | copies n source =>
    simp only [planOver, writablePlan] at found
    split at found
    · next enough =>
        obtain rfl := Option.some.inj found
        have distinct := ((nodup_dedup source).filter fun store => decide (store ∈ writable)).sublist
          (List.take_sublist n _)
        refine ⟨distinct, fun store inside => ?_, ?_⟩
        · simpa using (List.mem_filter.mp (List.mem_of_mem_take inside)).2
        · rw [satisfiedBy, filter_take, decide_eq_true_eq, List.length_take, min_eq_left enough]
    · cases found

end Writes

section Required

variable {verified kept : Finset StoreId}

theorem mem_requiredAll {store : StoreId} (branches : List Placement) :
    store ∈ requiredAll verified branches ↔ ∃ branch ∈ branches, store ∈ branch.requiredFor verified := by
  induction branches with
  | nil => simp [requiredAll]
  | cons branch rest ih => simp [requiredAll, ih]

/-- The first branch that is satisfied is the required one. -/
theorem exists_requiredAny {branches : List Placement} (satisfied : satisfiedAny verified branches = true) :
    ∃ branch ∈ branches, branch.satisfiedBy verified = true ∧
      requiredAny verified branches = branch.requiredFor verified := by
  induction branches with
  | nil => cases satisfied
  | cons branch rest ih =>
    rw [requiredAny]
    by_cases here : branch.satisfiedBy verified = true
    · exact ⟨branch, List.mem_cons_self, here, if_pos here⟩
    · rw [satisfiedAny, Bool.or_eq_true_iff] at satisfied
      obtain ⟨other, member, inside, same⟩ := ih (satisfied.resolve_left here)
      exact ⟨other, List.mem_cons_of_mem _ member, inside, by rw [if_neg here, same]⟩

/-- The required stores of a satisfied policy are verified. -/
theorem requiredFor_subset {placement : Placement} (satisfied : placement.satisfiedBy verified = true) :
    placement.requiredFor verified ⊆ verified := by
  induction placement using Placement.induct with
  | view stores =>
    intro store inside
    rw [requiredFor, List.mem_toFinset, mem_dedup] at inside
    exact satisfiedBy_view.mp satisfied store inside
  | all branches each =>
    rw [satisfiedBy, satisfiedAll_iff] at satisfied
    intro store inside
    rw [requiredFor, mem_requiredAll] at inside
    obtain ⟨branch, member, inside⟩ := inside
    exact each branch member (satisfied branch member) inside
  | any branches each =>
    rw [satisfiedBy] at satisfied
    obtain ⟨branch, member, inside, same⟩ := exists_requiredAny satisfied
    rw [requiredFor, same]
    exact each branch member inside
  | copies n source =>
    intro store inside
    rw [requiredFor, List.mem_toFinset] at inside
    simpa using (List.mem_filter.mp (List.mem_of_mem_take inside)).2

/-- The required stores of a satisfied policy satisfy it. -/
theorem satisfiedBy_requiredFor {placement : Placement} (satisfied : placement.satisfiedBy verified = true) :
    placement.satisfiedBy (placement.requiredFor verified) = true := by
  induction placement using Placement.induct with
  | view stores => simp [satisfiedBy_view, requiredFor, mem_dedup]
  | all branches each =>
    rw [satisfiedBy, satisfiedAll_iff] at satisfied ⊢
    intro branch member
    refine satisfiedBy_mono (fun store inside => ?_) branch (each branch member (satisfied branch member))
    rw [requiredFor, mem_requiredAll]
    exact ⟨branch, member, inside⟩
  | any branches each =>
    rw [satisfiedBy] at satisfied
    obtain ⟨branch, member, inside, same⟩ := exists_requiredAny satisfied
    rw [satisfiedBy, satisfiedAny_iff, requiredFor, same]
    exact ⟨branch, member, each branch member inside⟩
  | copies n source =>
    rw [satisfiedBy, decide_eq_true_eq] at satisfied
    rw [satisfiedBy, requiredFor, filter_take, decide_eq_true_eq, List.length_take, min_eq_left satisfied]

/-- The copies between the required and the verified stores leave the requirement as it is. -/
theorem requiredFor_eq {placement : Placement} (satisfied : placement.satisfiedBy verified = true)
    (required : placement.requiredFor verified ⊆ kept) (fewer : kept ⊆ verified) :
    placement.requiredFor kept = placement.requiredFor verified := by
  induction placement using Placement.induct with
  | view stores => rfl
  | all branches each =>
    rw [satisfiedBy, satisfiedAll_iff] at satisfied
    ext store
    rw [requiredFor, requiredFor, mem_requiredAll, mem_requiredAll]
    refine exists_congr fun branch => and_congr_right fun member => ?_
    rw [each branch member (satisfied branch member) fun other inside => required ?_]
    rw [requiredFor, mem_requiredAll]
    exact ⟨branch, member, inside⟩
  | any branches each =>
    rw [satisfiedBy] at satisfied
    rw [requiredFor] at required
    rw [requiredFor, requiredFor]
    induction branches with
    | nil => rfl
    | cons branch rest ih =>
      obtain ⟨first, others⟩ := List.forall_mem_cons.mp each
      rw [requiredAny] at required
      rw [requiredAny, requiredAny]
      by_cases here : branch.satisfiedBy verified = true
      · rw [if_pos here] at required ⊢
        have still := satisfiedBy_mono required branch (satisfiedBy_requiredFor here)
        rw [if_pos still, first here required]
      · have neither : ¬branch.satisfiedBy kept = true := fun still => here (satisfiedBy_mono fewer branch still)
        rw [if_neg here] at required ⊢
        rw [satisfiedAny, Bool.or_eq_true_iff] at satisfied
        rw [if_neg neither, ih others (satisfied.resolve_left here) required]
  | copies n source =>
    rw [satisfiedBy, decide_eq_true_eq] at satisfied
    rw [requiredFor] at required
    rw [requiredFor, requiredFor]
    generalize held : (dedup source).filter (fun store => decide (store ∈ verified)) = list at satisfied required ⊢
    have part : (dedup source).filter (fun store => decide (store ∈ kept)) =
        list.filter fun store => decide (store ∈ kept) := by
      rw [← held, List.filter_filter]
      exact List.filter_congr fun store _ => by
        simpa using fun inside => fewer inside
    have whole : (list.take n).filter (fun store => decide (store ∈ kept)) = list.take n :=
      List.filter_eq_self.mpr fun store inside => decide_eq_true (required (List.mem_toFinset.mpr inside))
    have front : (list.take n).length = n := by rw [List.length_take, min_eq_left satisfied]
    rw [part, ← List.take_append_drop n list, List.filter_append, whole, List.take_append_drop, List.take_left' front]

end Required

section Surplus

variable {verified drained : Finset StoreId}

theorem mem_surplus {placement : Placement} {store : StoreId} :
    store ∈ placement.surplus verified ↔ store ∈ verified ∧ store ∉ placement.requiredFor verified := by
  simp [surplus]

theorem sort_sdiff (verified drained : Finset StoreId) :
    (verified \ drained).sort (· ≤ ·) = (verified.sort (· ≤ ·)).filter fun store => decide (store ∉ drained) := by
  refine List.Perm.eq_of_pairwise' ((verified \ drained).pairwise_sort _)
    ((verified.pairwise_sort _).filter _) ?_
  refine (List.perm_ext_iff_of_nodup ((verified \ drained).sort_nodup _) ((verified.sort_nodup _).filter _)).mpr ?_
  intro store
  simp

/-- A policy that is satisfied stays satisfied when some of its surplus is drained, and the rest of the surplus
stays as it is. -/
theorem drain {placement : Placement} (satisfied : placement.satisfiedBy verified = true)
    (spare : ∀ store ∈ drained, store ∈ placement.surplus verified) :
    placement.satisfiedBy (verified \ drained) = true ∧
      placement.surplus (verified \ drained) =
        (placement.surplus verified).filter fun store => decide (store ∉ drained) := by
  have required : placement.requiredFor verified ⊆ verified \ drained := by
    intro store inside
    refine Finset.mem_sdiff.mpr ⟨requiredFor_subset satisfied inside, fun gone => ?_⟩
    exact (mem_surplus.mp (spare store gone)).2 inside
  constructor
  · exact satisfiedBy_mono required placement (satisfiedBy_requiredFor satisfied)
  · rw [surplus, surplus, requiredFor_eq satisfied required Finset.sdiff_subset, sort_sdiff,
      List.filter_comm]

/-- No surplus is left when all of it is drained. -/
theorem drain_all {placement : Placement} (satisfied : placement.satisfiedBy verified = true) :
    placement.surplus (verified \ (placement.surplus verified).toFinset) = [] := by
  have left := (drain satisfied fun store inside => List.mem_toFinset.mp inside).2
  rw [left]
  simp

end Surplus

end Placement

namespace PlacementPolicy

section Serving

/-- The declared stores of the read order. -/
def declared (policy : PlacementPolicy) : List StoreId :=
  policy.serve.getD []

/-- The read order is the declared stores and then the other stores of the plan. -/
theorem ordered_eq (policy : PlacementPolicy) :
    policy.ordered = dedup policy.declared ++
      (dedup policy.plan.stores).filter fun store => decide (store ∉ policy.declared) := by
  obtain ⟨plan, serve⟩ := policy
  cases serve with
  | none => simp [ordered, declared, flattened_eq, dedup]
  | some serve =>
    have distinct : dedup (dedup plan.stores) = dedup plan.stores := dedup_of_nodup (nodup_dedup plan.stores)
    rw [ordered, declared, Option.getD_some, flattened_eq]
    dsimp only
    rw [foldl_push, dedup_append, distinct]

theorem nodup_ordered (policy : PlacementPolicy) : policy.ordered.Nodup := by
  rw [ordered_eq]
  refine (nodup_dedup _).append ((nodup_dedup _).filter _) ?_
  intro store first second
  have other := (List.mem_filter.mp second).2
  exact of_decide_eq_true other (mem_dedup.mp first)

theorem mem_ordered {policy : PlacementPolicy} {store : StoreId} :
    store ∈ policy.ordered ↔ store ∈ policy.declared ∨ store ∈ policy.plan.stores := by
  simp only [ordered_eq, List.mem_append, List.mem_filter, mem_dedup, decide_eq_true_eq]
  by_cases first : store ∈ policy.declared <;> simp [first]

end Serving

end PlacementPolicy

section Algebra

/-- The laws that connect the writes, the satisfaction, the surplus and the read order of a policy. -/
structure PlacementPolicy.Lawful (policy : PlacementPolicy) : Prop where
  planned : ∀ writable : Finset StoreId,
    (∃ plan, policy.plan.writablePlan (fun store => decide (store ∈ writable)) = some plan) ↔
      policy.plan.satisfiedBy writable = true
  written : ∀ (writable : Finset StoreId) plan,
    policy.plan.writablePlan (fun store => decide (store ∈ writable)) = some plan →
      policy.plan.Fulfills writable plan
  monotone : ∀ verified larger : Finset StoreId, verified ⊆ larger →
    policy.plan.satisfiedBy verified = true → policy.plan.satisfiedBy larger = true
  drained : ∀ verified : Finset StoreId, policy.plan.satisfiedBy verified = true →
    policy.plan.satisfiedBy (verified \ (policy.plan.surplus verified).toFinset) = true ∧
      policy.plan.surplus (verified \ (policy.plan.surplus verified).toFinset) = []
  partly : ∀ verified drained : Finset StoreId, policy.plan.satisfiedBy verified = true →
    (∀ store ∈ drained, store ∈ policy.plan.surplus verified) →
      policy.plan.surplus (verified \ drained) =
        (policy.plan.surplus verified).filter fun store => decide (store ∉ drained)
  served : ∀ verified : Finset StoreId, ∀ store ∈ policy.plan.stores, store ∈ verified →
    (policy.serveOrder verified).count store = 1
  order : ∀ verified : Finset StoreId, policy.serveOrder verified =
    (dedup policy.declared).filter (fun store => decide (store ∈ verified)) ++
      (dedup policy.plan.stores).filter fun store =>
        decide (store ∉ policy.declared) && decide (store ∈ verified)

/-- Every placement policy keeps the laws. -/
theorem PlacementPolicy.lawful (policy : PlacementPolicy) : policy.Lawful where
  planned writable := policy.plan.exists_planOver
  written writable plan found := Placement.fulfills_of_planOver found
  monotone verified larger more := Placement.satisfiedBy_mono more policy.plan
  drained verified satisfied :=
    ⟨(Placement.drain satisfied fun store inside => List.mem_toFinset.mp inside).1, Placement.drain_all satisfied⟩
  partly verified drained satisfied spare := (Placement.drain satisfied spare).2
  served verified store inside held := by
    refine List.count_eq_one_of_mem (policy.nodup_ordered.filter _) (List.mem_filter.mpr ⟨?_, decide_eq_true held⟩)
    exact mem_ordered.mpr (.inr inside)
  order verified := by
    rw [serveOrder, ordered_eq, List.filter_append, List.filter_filter]
    simp only [Bool.and_comm]

end Algebra

end Liasse.Blobs
