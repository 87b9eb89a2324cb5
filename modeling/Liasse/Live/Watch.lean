/-
This file models a live subscription and the client that folds its deltas. It proves that the client
holds the current result, or the rows of its window, after each step.
-/

import Liasse.Live.Window

namespace Liasse.Live

/-- The change between two results. An unchanged scalar has no value. -/
inductive ViewDelta (RowId Value : Type)
  | init (rows : List (ViewRow RowId Value))
  | patch (ops : List (ViewOp RowId Value))
  | scalar (value : Option Value)

/-- The state of a live subscription that its deltas depend on. -/
structure Watch (RowId Value : Type) where
  frontier : Nat
  last : Option (ViewResult RowId Value)
  window : Option (Window RowId Value)
  windowed : Option (List (ViewRow RowId Value))

/-- A client holds rows or a scalar value. -/
inductive Client (RowId Value : Type)
  | rows (held : List (WireRow RowId (List (String × Value))))
  | scalar (value : Value)

section Deltas

variable {RowId Value : Type} [DecidableEq RowId] [DecidableEq Value]

namespace ViewDelta

/-- The delta from the last result to the next. A first observation or a change of shape delivers the
whole result. -/
def between (prev : Option (ViewResult RowId Value)) (next : ViewResult RowId Value) :
    ViewDelta RowId Value :=
  match prev, next with
  | some (.rows prevRows _), .rows nextRows _ => .patch (diff prevRows nextRows)
  | some (.scalar prevValue), .scalar value =>
    if prevValue = value then .scalar none else .scalar (some value)
  | _, .rows nextRows _ => .init nextRows
  | _, .scalar value => .scalar (some value)

/-- The delta between two slices of a window. -/
def betweenRows (prev : Option (List (ViewRow RowId Value))) (next : List (ViewRow RowId Value)) :
    ViewDelta RowId Value :=
  match prev with
  | some prev => .patch (diff prev next)
  | none => .init next

end ViewDelta

variable [Ord RowId] [Ord Value]

namespace Watch

omit [DecidableEq RowId] [DecidableEq Value] [Ord RowId] [Ord Value] in
/-- A subscription before its first result. -/
def opened (window : Option (Window RowId Value)) (frontier : Nat) : Watch RowId Value :=
  ⟨frontier, none, window, none⟩

/-- The first result of a subscription. A window over rows must open. -/
def init (watch : Watch RowId Value) (result : ViewResult RowId Value) (frontier : Nat) :
    Except WindowError (Watch RowId Value × ViewDelta RowId Value) :=
  match result with
  | .scalar _ =>
    .ok ({ watch with last := some result, frontier }, ViewDelta.between none result)
  | .rows _ _ =>
    match watch.window with
    | some window =>
      match window.openOver result with
      | .ok (window, rows) =>
        .ok ({ last := some result, frontier, window := some window, windowed := some rows },
          ViewDelta.betweenRows none rows)
      | .error error => .error error
    | none => .ok ({ watch with last := some result, frontier }, ViewDelta.between none result)

/-- A later result of a subscription. -/
def advance (watch : Watch RowId Value) (result : ViewResult RowId Value) (frontier : Nat) :
    Watch RowId Value × ViewDelta RowId Value :=
  match result with
  | .scalar _ =>
    ({ watch with last := some result, frontier }, ViewDelta.between watch.last result)
  | .rows _ _ =>
    match watch.window with
    | some window =>
      let (window, refreshed) := window.refresh result
      ({ last := some result, frontier, window := some window, windowed := some refreshed },
        ViewDelta.betweenRows watch.windowed refreshed)
    | none => ({ watch with last := some result, frontier }, ViewDelta.between watch.last result)

end Watch

end Deltas

section Folding

variable {RowId Value : Type} [DecidableEq RowId]

/-- What a client sees of a row. -/
def exposed (row : ViewRow RowId Value) : WireRow RowId (List (String × Value)) :=
  wireRow id id row

/-- The operation as a client sees it. -/
def clientOp : ViewOp RowId Value → PatchOp RowId (List (String × Value)) :=
  wireOp id id fun key => [("$key", key)]

/-- The effect of a delta on a client. A patch applies to rows only. -/
def follow : Option (Client RowId Value) → ViewDelta RowId Value → Option (Client RowId Value)
  | _, .init rows => some (.rows (rows.map exposed))
  | some (.rows held), .patch ops =>
    match apply held (ops.map clientOp) with
    | .ok rows => some (.rows rows)
    | .error _ => none
  | _, .patch _ => none
  | _, .scalar (some value) => some (.scalar value)
  | some (.scalar value), .scalar none => some (.scalar value)
  | _, .scalar none => none

variable [DecidableEq Value] [Ord RowId] [Ord Value]

/-- A subscription and its client after a later result. -/
def step (state : Watch RowId Value × Option (Client RowId Value)) (fed : ViewResult RowId Value × Nat) :
    Watch RowId Value × Option (Client RowId Value) :=
  let (watch, delta) := state.1.advance fed.1 fed.2
  (watch, follow state.2 delta)

/-- A subscription and its client after a sequence of results with their frontiers. -/
def run (request : Option (WindowRequest RowId)) :
    List (ViewResult RowId Value × Nat) →
      Except WindowError (Watch RowId Value × Option (Client RowId Value))
  | [] => .ok (Watch.opened (request.map fun asked => ⟨asked, none⟩) 0, none)
  | (first, frontier) :: rest => do
      let (watch, delta) ←
        (Watch.opened (request.map fun asked => ⟨asked, none⟩) frontier).init first frontier
      return rest.foldl step (watch, follow none delta)

omit [DecidableEq Value] in
/-- What a client should hold at a result after the earlier results, of which the latest comes first. -/
def expected (request : Option (WindowRequest RowId)) (current : ViewResult RowId Value)
    (earlier : List (ViewResult RowId Value)) : Client RowId Value :=
  match current with
  | .scalar value => .scalar value
  | .rows rows order =>
    match request with
    | some asked => .rows ((windowRows asked rows order earlier).map exposed)
    | none => .rows (rows.map exposed)

end Folding

section Tracking

variable {RowId Value : Type} [DecidableEq RowId] [DecidableEq Value] [Ord RowId] [Ord Value]

/-- The slice of the latest row result. -/
def sliceOf (asked : WindowRequest RowId) :
    List (ViewResult RowId Value) → Option (List (ViewRow RowId Value))
  | [] => none
  | .rows rows order :: earlier => some (windowRows asked rows order earlier)
  | .scalar _ :: earlier => sliceOf asked earlier

/-- A subscription tracks its results when it holds the latest one, the gap that its anchor left, and the
slice of the latest row result. -/
structure Tracks (request : Option (WindowRequest RowId)) (history : List (ViewResult RowId Value))
    (watch : Watch RowId Value) : Prop where
  last : watch.last = history.head?
  window : watch.window = request.map fun asked => ⟨asked, gapAfter asked history⟩
  windowed : ∀ asked, request = some asked → watch.windowed = sliceOf asked history

/-- The delta of a result after the earlier ones. -/
def deltaOf (request : Option (WindowRequest RowId)) (history : List (ViewResult RowId Value))
    (result : ViewResult RowId Value) : ViewDelta RowId Value :=
  match request, result with
  | some asked, .rows rows order =>
    ViewDelta.betweenRows (sliceOf asked history) (windowRows asked rows order history)
  | _, _ => ViewDelta.between history.head? result

omit [DecidableEq Value] [Ord RowId] [Ord Value] in
theorem gapAfter_scalar (asked : WindowRequest RowId) (value : Value)
    (history : List (ViewResult RowId Value)) :
    gapAfter asked (.scalar value :: history) = gapAfter asked history := by
  unfold gapAfter
  split
  · rfl
  · rfl
  · rfl

variable [Std.TransOrd RowId] [Std.TransOrd Value]

/-- A result advances a tracking subscription to a tracking one. -/
theorem advance_tracks {request : Option (WindowRequest RowId)} {order : SortOrder}
    {history : List (ViewResult RowId Value)} {watch : Watch RowId Value}
    (tracks : Tracks request history watch) (wellFormed : ∀ result ∈ history, result.WellFormed order)
    {result : ViewResult RowId Value} (shaped : result.WellFormed order) (frontier : Nat) :
    Tracks request (result :: history) (watch.advance result frontier).1 ∧
      (watch.advance result frontier).2 = deltaOf request history result := by
  obtain ⟨last, window, windowed⟩ := tracks
  cases result with
  | scalar value =>
    refine ⟨⟨rfl, ?_, windowed⟩, ?_⟩
    · simp only [gapAfter_scalar]
      exact window
    · cases request <;> exact congrArg (ViewDelta.between · _) last
  | rows rows own =>
    obtain ⟨rfl, ordered⟩ := shaped
    cases request with
    | none =>
      rw [Option.map_none] at window
      rw [Watch.advance, window]
      exact ⟨⟨rfl, rfl, fun asked same => absurd same (by simp)⟩,
        congrArg (ViewDelta.between · _) last⟩
    | some asked =>
      have held := windowed asked rfl
      obtain ⟨kept, selected⟩ := select_eq ordered asked wellFormed
      rw [Watch.advance, window, Option.map_some]
      refine ⟨⟨rfl, congrArg some kept, fun other same => ?_⟩, ?_⟩
      · obtain rfl := Option.some.inj same
        exact congrArg some selected
      · change ViewDelta.betweenRows watch.windowed _ = ViewDelta.betweenRows _ _
        rw [held]
        exact congrArg _ selected

/-- The first result of an opened subscription is tracked. -/
theorem init_tracks {request : Option (WindowRequest RowId)} {order : SortOrder}
    {result : ViewResult RowId Value} (shaped : result.WellFormed order) {frontier : Nat}
    {watch : Watch RowId Value} {delta : ViewDelta RowId Value}
    (opens : (Watch.opened (request.map fun asked => ⟨asked, none⟩) frontier).init result frontier =
      .ok (watch, delta)) :
    Tracks request [result] watch ∧ delta = deltaOf request [] result := by
  cases result with
  | scalar value =>
    obtain ⟨rfl, rfl⟩ := Prod.mk.inj (Except.ok.inj opens)
    refine ⟨⟨rfl, ?_, fun _ _ => rfl⟩, ?_⟩
    · cases request with
      | none => rfl
      | some asked =>
        obtain ⟨size, anchor, slide⟩ := asked
        cases anchor <;> rfl
    · cases request <;> rfl
  | rows rows own =>
    obtain ⟨rfl, ordered⟩ := shaped
    cases request with
    | none =>
      obtain ⟨rfl, rfl⟩ := Prod.mk.inj (Except.ok.inj opens)
      exact ⟨⟨rfl, rfl, fun _ same => absurd same (by simp)⟩, rfl⟩
    | some asked =>
      have fresh : (⟨asked, none⟩ : Window RowId Value) = ⟨asked, gapAfter asked []⟩ := by
        obtain ⟨size, anchor, slide⟩ := asked
        cases anchor <;> rfl
      have unseen : ∀ result ∈ ([] : List (ViewResult RowId Value)), result.WellFormed own :=
        fun _ inside => absurd inside List.not_mem_nil
      obtain ⟨kept, selected⟩ := select_eq ordered asked unseen
      rw [← fresh] at kept selected
      simp only [Watch.init, Watch.opened, Option.map_some, Window.openOver] at opens
      cases selection : (⟨asked, none⟩ : Window RowId Value).select (.rows rows own) with
      | mk window listed =>
        rw [selection] at kept selected opens
        cases listed with
        | none => exact absurd opens (by simp)
        | some held =>
          obtain ⟨rfl, rfl⟩ := Prod.mk.inj (Except.ok.inj opens)
          refine ⟨⟨rfl, congrArg some kept, fun other same => ?_⟩, ?_⟩
          · obtain rfl := Option.some.inj same
            exact congrArg some selected
          · exact congrArg ViewDelta.init selected

omit [Ord RowId] [Ord Value] [Std.TransOrd RowId] [Std.TransOrd Value] in
theorem follow_diff {prev next : List (ViewRow RowId Value)} (oldRows : DistinctIds prev)
    (newRows : DistinctIds next) :
    follow (some (.rows (prev.map exposed))) (.patch (diff prev next)) =
      some (.rows (next.map exposed)) := by
  have plain : Faithful (id : List (String × Value) → _) prev next := fun before _ after _ _ => eq_comm
  have renamed := diffRows_wireRows Function.injective_id (id : List (String × Value) → _)
    (fun key => [("$key", key)]) newRows plain
  have applied := apply_diffRows (distinct_wireRows Function.injective_id id oldRows)
    (distinct_wireRows Function.injective_id (id : List (String × Value) → _) newRows)
  rw [renamed] at applied
  change (match apply (prev.map exposed) ((diff prev next).map clientOp) with
    | .ok rows => some (Client.rows rows)
    | .error _ => none) = _
  rw [show apply (prev.map exposed) ((diff prev next).map clientOp) = .ok (next.map exposed) from applied]

omit [Std.TransOrd RowId] [Std.TransOrd Value] in
/-- A client holds what it should at the first result. -/
theorem follow_first (request : Option (WindowRequest RowId)) (result : ViewResult RowId Value) :
    follow none (deltaOf request [] result) = some (expected request result []) := by
  cases result <;> cases request <;> rfl

omit [DecidableEq Value] [Std.TransOrd RowId] [Std.TransOrd Value] in
theorem sliceOf_eq_none {asked : WindowRequest RowId} {history : List (ViewResult RowId Value)} :
    sliceOf asked history = none ↔ ∀ result ∈ history, ∃ value, result = .scalar value := by
  induction history with
  | nil => simp [sliceOf]
  | cons result history ih =>
    cases result with
    | scalar value => simp [sliceOf, ih]
    | rows rows order => simp [sliceOf]

omit [DecidableEq Value] [Std.TransOrd RowId] [Std.TransOrd Value] in
theorem sliceOf_length {asked : WindowRequest RowId} {history : List (ViewResult RowId Value)}
    {held : List (ViewRow RowId Value)} (kept : sliceOf asked history = some held) :
    held.length ≤ asked.size := by
  induction history with
  | nil => cases kept
  | cons result history ih =>
    cases result with
    | scalar value => exact ih kept
    | rows rows own =>
      obtain rfl := Option.some.inj kept
      exact windowRows_length asked rows own history

omit [Std.TransOrd RowId] [Std.TransOrd Value] in
/-- A client that holds what it should follows a delta to what it should hold next, unless the delta
patches the rows of a window that a scalar replaced. -/
theorem follow_steady {request : Option (WindowRequest RowId)} {order : SortOrder}
    {current result : ViewResult RowId Value} {earlier : List (ViewResult RowId Value)}
    (wellFormed : ∀ result ∈ current :: earlier, result.WellFormed order)
    (shaped : result.WellFormed order)
    (steady : ∀ asked, request = some asked → ∀ value, current = .scalar value →
      ∀ rows own, result = .rows rows own → sliceOf asked earlier = none) :
    follow (some (expected request current earlier)) (deltaOf request (current :: earlier) result) =
      some (expected request result (current :: earlier)) := by
  have now := wellFormed current List.mem_cons_self
  cases result with
  | scalar value =>
    cases current with
    | scalar old =>
      by_cases same : old = value
      · cases request <;> simp [deltaOf, ViewDelta.between, expected, follow, same]
      · cases request <;> simp [deltaOf, ViewDelta.between, expected, follow, same]
    | rows rows own => cases request <;> rfl
  | rows rows own =>
    have distinct := shaped.2.distinct
    cases request with
    | none =>
      cases current with
      | scalar old => rfl
      | rows old oldOrder => exact follow_diff now.2.distinct distinct
    | some asked =>
      have slices := distinct.sublist
        ((windowRows_sublist asked rows own (current :: earlier)).map ViewRow.id)
      cases current with
      | scalar old =>
        have none := steady asked rfl old rfl rows own rfl
        simp only [deltaOf, sliceOf, none]
        rfl
      | rows old oldOrder =>
        have held := now.2.distinct.sublist ((windowRows_sublist asked old oldOrder earlier).map _)
        exact follow_diff held slices

end Tracking

section Runs

variable {RowId Value : Type} [DecidableEq RowId] [DecidableEq Value] [Ord RowId] [Ord Value]

/-- The results of a run, of which the latest comes first. -/
def seen (fed : List (ViewResult RowId Value × Nat)) : List (ViewResult RowId Value) :=
  (fed.map Prod.fst).reverse

omit [DecidableEq RowId] [DecidableEq Value] [Ord RowId] [Ord Value] in
theorem seen_snoc (before : List (ViewResult RowId Value × Nat)) (current : ViewResult RowId Value × Nat) :
    seen (before ++ [current]) = current.1 :: seen before := by
  simp [seen]

omit [DecidableEq RowId] [DecidableEq Value] in
theorem seen_wellFormed {order : SortOrder} {fed : List (ViewResult RowId Value × Nat)}
    (wellFormed : ∀ result ∈ fed, result.1.WellFormed order) :
    ∀ result ∈ seen fed, result.WellFormed order := by
  intro result inside
  obtain ⟨member, present, rfl⟩ := List.mem_map.mp (List.mem_reverse.mp inside)
  exact wellFormed member present

/-- No row result comes after a scalar that came after a row result. -/
def Steady (fed : List (ViewResult RowId Value × Nat)) : Prop :=
  ∀ early value rows order late,
    fed.map Prod.fst = early ++ .scalar value :: .rows rows order :: late →
      ∀ result ∈ early, ∃ value, result = .scalar value

/-- The client of a run holds what it should after each of its results. -/
def Coherent (request : Option (WindowRequest RowId)) (fed : List (ViewResult RowId Value × Nat)) : Prop :=
  ∀ before current after, fed = before ++ current :: after →
    ∃ watch, run request (before ++ [current]) =
      .ok (watch, some (expected request current.1 (seen before)))

theorem run_snoc (request : Option (WindowRequest RowId)) {before : List (ViewResult RowId Value × Nat)}
    (nonempty : before ≠ []) (current : ViewResult RowId Value × Nat) :
    run request (before ++ [current]) = (run request before).map fun state => step state current := by
  cases before with
  | nil => exact absurd rfl nonempty
  | cons first before =>
    obtain ⟨result, frontier⟩ := first
    simp only [List.cons_append, run, List.foldl_append, List.foldl_cons, List.foldl_nil]
    cases (Watch.opened (request.map fun asked => ⟨asked, none⟩) frontier).init result frontier <;> rfl

variable [Std.TransOrd RowId] [Std.TransOrd Value]

/-- The subscription of a run tracks its results. -/
theorem run_tracks {request : Option (WindowRequest RowId)} {order : SortOrder}
    (fed : List (ViewResult RowId Value × Nat))
    (wellFormed : ∀ result ∈ fed, result.1.WellFormed order) (nonempty : fed ≠ [])
    {watch : Watch RowId Value} {client : Option (Client RowId Value)}
    (reached : run request fed = .ok (watch, client)) : Tracks request (seen fed) watch := by
  induction fed using List.reverseRecOn generalizing watch client with
  | nil => exact absurd rfl nonempty
  | append_singleton before current ih =>
    have shaped := wellFormed current (by simp)
    cases before with
    | nil =>
      obtain ⟨⟨opened, delta⟩, opens, same⟩ := Codes.bind_ok.mp reached
      obtain ⟨rfl, rfl⟩ := Prod.mk.inj (Except.ok.inj same)
      exact (init_tracks shaped opens).1
    | cons first before =>
      rw [run_snoc request (List.cons_ne_nil first before)] at reached
      cases ran : run request (first :: before) with
      | error error => rw [ran] at reached; cases reached
      | ok state =>
        rw [ran] at reached
        obtain ⟨same, _⟩ := Prod.mk.inj (Except.ok.inj reached)
        have tracks := ih
          (fun result inside => wellFormed result (List.mem_append_left _ inside)) (by simp) ran
        have past := seen_wellFormed fun result inside =>
          wellFormed result (List.mem_append_left _ inside)
        rw [seen_snoc, ← same]
        exact (advance_tracks tracks past shaped current.2).1

/-- The client of a steady run holds what it should after each result. -/
theorem coherent_of_steady {request : Option (WindowRequest RowId)} {order : SortOrder}
    (fed : List (ViewResult RowId Value × Nat))
    (wellFormed : ∀ result ∈ fed, result.1.WellFormed order)
    (opens : ∃ state, run request fed = .ok state) (steady : request = none ∨ Steady fed) :
    Coherent request fed := by
  intro before
  induction before using List.reverseRecOn with
  | nil =>
    rintro current after rfl
    obtain ⟨state, reached⟩ := opens
    obtain ⟨⟨watch, delta⟩, opened, _⟩ := Codes.bind_ok.mp reached
    obtain ⟨_, rfl⟩ := init_tracks (wellFormed current (by simp)) opened
    refine ⟨watch, ?_⟩
    rw [List.nil_append, run, opened]
    exact congrArg (fun client => Except.ok (watch, client)) (follow_first request current.1)
  | append_singleton prior last ih =>
    rintro current after listed
    obtain ⟨watch, reached⟩ := ih last (current :: after) (by simpa using listed)
    have member : ∀ result ∈ prior ++ [last], result ∈ fed := fun result inside =>
      listed ▸ List.mem_append_left _ inside
    have earlier := fun result inside => wellFormed result (member result inside)
    have shaped : current.1.WellFormed order := wellFormed current (by simp [listed])
    have past := seen_wellFormed earlier
    have tracks := run_tracks (prior ++ [last]) earlier (by simp) reached
    obtain ⟨_, delta⟩ := advance_tracks tracks past shaped current.2
    rw [seen_snoc] at past delta
    have followed : follow (some (expected request _ _)) (deltaOf request (_ :: _) _) =
        some (expected request _ (_ :: _)) := follow_steady past shaped fun asked same value scalar rows own
      result => sliceOf_eq_none.mpr fun other inside => by
        obtain steady | steady := steady
        · rw [steady] at same
          cases same
        · refine steady (prior.map Prod.fst) value rows own (after.map Prod.fst) ?_ other
            (List.mem_reverse.mp inside)
          rw [listed, ← scalar, ← result]
          simp
    refine ⟨(watch.advance current.1 current.2).1, ?_⟩
    rw [run_snoc request (by simp), reached, seen_snoc, ← followed, ← delta]
    rfl

/-- A window whose client is coherent meets its results in a steady order. -/
theorem steady_of_coherent {asked : WindowRequest RowId} {order : SortOrder}
    (fed : List (ViewResult RowId Value × Nat))
    (wellFormed : ∀ result ∈ fed, result.1.WellFormed order) (coherent : Coherent (some asked) fed) :
    Steady fed := by
  intro early value rows own late listed
  obtain ⟨before, behind, rfl, rfl, tail⟩ := List.map_eq_append_iff.mp listed
  obtain ⟨scalar, behind, rfl, shape, tail⟩ := List.map_eq_cons_iff.mp tail
  obtain ⟨current, after, rfl, result, rfl⟩ := List.map_eq_cons_iff.mp tail
  obtain ⟨watch, reached⟩ := coherent before scalar (current :: after) rfl
  obtain ⟨next, advanced⟩ := coherent (before ++ [scalar]) current after (by simp)
  have earlier : ∀ result ∈ before ++ [scalar], result.1.WellFormed order := fun other inside =>
    wellFormed other (by rcases List.mem_append.mp inside with inside | inside <;> simp_all)
  have tracks := run_tracks (before ++ [scalar]) earlier (by simp) reached
  obtain ⟨_, delta⟩ := advance_tracks tracks (seen_wellFormed earlier) (wellFormed current (by simp)) current.2
  rw [run_snoc _ (by simp), reached] at advanced
  have held := congrArg Prod.snd (Except.ok.inj advanced)
  change follow (some (expected (some asked) scalar.1 (seen before)))
    (watch.advance current.1 current.2).2 = some _ at held
  rw [delta, seen_snoc, shape, result] at held
  have quiet : sliceOf asked (seen before) = none := by
    cases kept : sliceOf asked (seen before) with
    | none => rfl
    | some slice =>
      simp only [deltaOf, sliceOf, kept] at held
      cases held
  exact fun other inside => sliceOf_eq_none.mp quiet other (List.mem_reverse.mpr inside)

/-- The client of a subscription holds the current result, or the rows of its window, after each step
if and only if there is no window or the results come in a steady order. A window holds at most its
size. -/
theorem coherent_iff {request : Option (WindowRequest RowId)} {order : SortOrder}
    (fed : List (ViewResult RowId Value × Nat))
    (wellFormed : ∀ result ∈ fed, result.1.WellFormed order)
    (opens : ∃ state, run request fed = .ok state) :
    (Coherent request fed ↔ request = none ∨ Steady fed) ∧
      ∀ asked, request = some asked → ∀ watch client, run request fed = .ok (watch, client) →
        ∀ rows, watch.windowed = some rows → rows.length ≤ asked.size := by
  refine ⟨⟨fun coherent => ?_, coherent_of_steady fed wellFormed opens⟩, ?_⟩
  · cases request with
    | none => exact Or.inl rfl
    | some asked => exact Or.inr (steady_of_coherent fed wellFormed coherent)
  · rintro asked rfl watch client reached rows held
    by_cases empty : fed = []
    · subst empty
      obtain ⟨rfl, _⟩ := Prod.mk.inj (Except.ok.inj reached)
      cases held
    · rw [(run_tracks fed wellFormed empty reached).windowed asked rfl] at held
      exact sliceOf_length held

/-- A window of one row loses its anchor, and it goes on at the next row. -/
theorem coherent_iff_gap :
    Coherent (some ⟨1, .row 2, false⟩)
      ([(.rows [⟨1, [], []⟩, ⟨2, [], []⟩, ⟨3, [], []⟩] ⟨[]⟩, 1), (.rows [⟨1, [], []⟩, ⟨3, [], []⟩] ⟨[]⟩, 2)] :
        List (ViewResult Nat Nat × Nat)) := by
  have wellFormed : ∀ result ∈ ([(.rows [⟨1, [], []⟩, ⟨2, [], []⟩, ⟨3, [], []⟩] ⟨[]⟩, 1),
      (.rows [⟨1, [], []⟩, ⟨3, [], []⟩] ⟨[]⟩, 2)] : List (ViewResult Nat Nat × Nat)),
      result.1.WellFormed ⟨[]⟩ := by decide
  refine (coherent_iff _ wellFormed ⟨_, rfl⟩).1.mpr (Or.inr ?_)
  intro early value rows order late listed
  have scalar : ViewResult.scalar value ∈ early ++ .scalar value :: .rows rows order :: late := by simp
  rw [← listed] at scalar
  simp at scalar

/-- A window over a view that turns into a scalar and back patches rows that its client no longer
holds. -/
theorem scalar_incoherent :
    let fed : List (ViewResult Nat Nat × Nat) :=
      [(.rows [⟨1, [], []⟩] ⟨[]⟩, 1), (.scalar 7, 2), (.rows [⟨1, [], []⟩] ⟨[]⟩, 3)]
    (∀ result ∈ fed, result.1.WellFormed ⟨[]⟩) ∧
      (run (some ⟨1, .first, false⟩) fed).map Prod.snd = .ok none :=
  ⟨by decide, rfl⟩

end Runs

end Liasse.Live
