/-
  LimitOrderBook.ReferenceInvariants

  The levels of the reference engine, those that hold only cancelled orders
  included, and `verify_invariants`.

  An order rests only after the loop has erased every opposite level that it
  crosses, whatever the level holds, so the bid keys stay below the ask keys even
  where no order is live.  The check fails on one kind of input: its bounds, 0
  for asks and the greatest price for bids, are themselves accepted as prices,
  and `process_order` does not look at the price of a Limit order.
-/
import LimitOrderBook.ReferenceCalls
import LimitOrderBook.Runs

namespace LimitOrderBook

open Lib MatchingEngine

namespace ReferenceEngine

/-- The prices of the levels of a side. -/
def keys (self : ReferenceEngine) (side : Side) : List Int := (self.levels side).map Prod.fst

-- ============================================================================
-- What the loops erase
-- ============================================================================

section Loops

variable {side : Side} {st : RefMatchState} {price : Int} {level : List RefNode}
  {levels : RefLevels} {order : IncomingOrder}

/-- A level that does not use up the order is erased. -/
theorem matchLevel_erases (M : RefMatcher) (h : 0 < (matchLevel M level st).2.order.quantity) :
    (matchLevel M level st).1 = [] := by
  induction level generalizing st with
  | nil => rfl
  | cons x rest ih =>
      by_cases hpos : st.order.quantity > 0
      · cases hlive : x.live with
        | false =>
            rw [matchLevel, if_pos hpos, hlive] at h ⊢
            exact ih h
        | true =>
            rw [matchLevel, if_pos hpos, hlive] at h ⊢
            simp only [Bool.not_true, Bool.false_eq_true, if_false] at h ⊢
            split at h
            · next hfilled =>
                rw [if_pos hfilled]
                exact ih h
            · next hpartial =>
                -- the order is used up before its maker is
                rw [matchLevel_done _ _ (by show st.order.quantity - _ ≤ 0; omega)] at h
                exact absurd h (by show ¬ 0 < st.order.quantity - _; omega)
      · rw [matchLevel_done _ _ (by omega)] at h
        exact absurd h hpos

/-- An order that is not used up crosses no level that stays. -/
theorem matchLevels_beyond (hside : order.side = side)
    (hst : ∃ q, st.order = { order with quantity := q })
    (hsorted : (levels.map Prod.fst).Pairwise side.opposite.better)
    (hplaced : PlacedIn side.opposite levels)
    (h : 0 < (matchLevels (refMatcher side) levels st).2.order.quantity) :
    ∀ k ∈ (matchLevels (refMatcher side) levels st).1.map Prod.fst, order.crosses k = false := by
  refine @matchLevels_rule side st levels order hside
    (fun levels _ levels' st' => (levels.map Prod.fst).Pairwise side.opposite.better →
      0 < st'.order.quantity → ∀ k ∈ levels'.map Prod.fst, order.crosses k = false)
    ?_ ?_ ?_ ?_ hst hplaced hsorted h
  · exact fun _ _ _ k hk => absurd hk List.not_mem_nil
  · exact fun levels st _ hdone _ hpos => absurd hpos (by omega)
  · intro price level rest st _ hc hsorted _ k hk
    obtain ⟨hbetter, -⟩ := List.pairwise_cons.mp hsorted
    rcases List.mem_cons.mp hk with rfl | hk
    · exact hc
    · exact Book.crosses_of_better hc (by rw [hside]; exact hbetter k hk)
  · intro price level rest st level' st₁ rest' st₂ _ _ _ hr hs hnext hsorted hpos
    have hleft : 0 < st₁.order.quantity := by
      by_contra hnot
      rw [matchLevels_done _ _ (by omega)] at hs
      obtain ⟨-, rfl⟩ := Prod.mk.inj hs
      exact hnot hpos
    have hnil : level' = [] := by
      have herases := @matchLevel_erases st level (refMatcher side) (by rw [hr]; exact hleft)
      rwa [hr] at herases
    rw [hnil]
    exact hnext (List.pairwise_cons.mp hsorted).2 hpos

end Loops

-- ============================================================================
-- What a call does to the levels
-- ============================================================================

section Calls

variable {self engine : ReferenceEngine} {order : IncomingOrder} {side : Side} {event : MatchEvent}

/-- The levels that the matching half of a call leaves on the opposite side. -/
def sweptLevels (self : ReferenceEngine) (order : IncomingOrder) : RefLevels :=
  (matchLevels (refMatcher order.side) (self.levels order.side.opposite)
    ⟨order, {}, self.orderMap⟩).1

theorem matchOrder_levels (self : ReferenceEngine) (order : IncomingOrder) :
    (self.matchOrder order).1.levels =
      Function.update self.levels order.side.opposite (self.sweptLevels order) := by
  rw [matchOrder_eq, runMatcher, refMatcher_restingSide]
  exact update_levels self order.side.opposite (self.sweptLevels order)
    (matchLevels (refMatcher order.side) (self.levels order.side.opposite)
      ⟨order, {}, self.orderMap⟩).2.orderMap self.nextAddress

/-- What a call that is not refused does: it matches, and it rests what is left of
    a Limit order. -/
theorem processOrder_accepted (h : self.Wellformed) (hv : ¬ (order.quantity ≤ 0 ∨ order.id = 0)) :
    ∃ engine left, engine.Wellformed ∧ left = (self.book.matched order order.quantity).left ∧
      0 ≤ left ∧ engine.levels =
        Function.update self.levels order.side.opposite (self.sweptLevels order) ∧
      (0 < left → ∀ k ∈ (self.sweptLevels order).map Prod.fst, order.crosses k = false) ∧
      (self.processOrder order).1 =
        if left ≠ 0 ∧ order.type = .limit then engine.insertOrder (restingOrder order left)
        else engine := by
  have hnonneg : 0 ≤ (self.book.matched order order.quantity).left :=
    Supply.sweep_left_nonneg (by omega)
  have hle := @Book.matched_left_le _ order _ (book_positive h) (by omega : 0 ≤ order.quantity)
  obtain ⟨engine, hmatch, hwf, -⟩ := matchOrder_spec h order
  have hlevels := matchOrder_levels self order
  rw [hmatch] at hlevels
  refine ⟨engine, _, hwf, rfl, hnonneg, hlevels, fun hleft => ?_, ?_⟩
  · apply matchLevels_beyond rfl ⟨order.quantity, rfl⟩ (h.sorted _) (h.placed _)
    have hquantity := congrArg (fun r => r.2.1.quantity) hmatch
    rw [matchOrder_eq, runMatcher, refMatcher_restingSide] at hquantity
    rw [show _ = _ from hquantity]
    exact hleft
  · rw [processOrder_eq hv hmatch hle]

theorem processOrder_refused (hv : order.quantity ≤ 0 ∨ order.id = 0) :
    (self.processOrder order).1 = self := by
  rw [processOrder, if_pos hv]

/-- The matching half only takes levels away. -/
theorem sweptLevels_sublist (h : self.Wellformed) (order : IncomingOrder) :
    ((self.sweptLevels order).map Prod.fst).Sublist (self.keys order.side.opposite) :=
  (@matchLevels_spec order.side ⟨order, {}, self.orderMap⟩ (self.levels order.side.opposite) order
    rfl ⟨order.quantity, rfl⟩ (h.sorted _) (h.placed _)).keys

theorem insertOrder_levels (self : ReferenceEngine) (order : RefOrder) :
    (self.insertOrder order).levels = Function.update self.levels order.side
      (pushToLevels (less order.side) order.price ⟨self.nextAddress, order⟩
        (self.levels order.side)) := update_levels ..

/-- A cancel writes a status and leaves the levels where they are. -/
theorem cancelOrder_levels {id : OrderID} (hcall : self.cancelOrder id = some (engine, event)) :
    (self.orderMap.lookup id = none ∧ engine = self) ∨
    ∃ a, self.orderMap.lookup id = some a ∧
      ∀ side, engine.levels side = setStatusIn a .cancelled (self.levels side) := by
  rw [cancelOrder] at hcall
  cases hlook : self.orderMap.lookup id with
  | none =>
      simp only [hlook, Option.some.injEq, Prod.mk.injEq] at hcall
      exact .inl ⟨rfl, hcall.1.symm⟩
  | some a =>
      refine .inr ⟨a, rfl, fun side => ?_⟩
      simp only [hlook] at hcall
      split at hcall
      · exact absurd hcall (by simp)
      · obtain ⟨rfl, -⟩ := Prod.mk.inj (Option.some.inj hcall)
        cases side <;> rfl

theorem cancelOrder_keys {id : OrderID} (hcall : self.cancelOrder id = some (engine, event))
    (side : Side) : engine.keys side = self.keys side := by
  rcases cancelOrder_levels hcall with ⟨-, rfl⟩ | ⟨a, -, hlevels⟩
  · rfl
  · rw [keys, hlevels, setStatusIn_keys]
    rfl

/-- A call keeps the maps well formed, whatever the price. -/
theorem step_wellformed (h : self.Wellformed) (c : Command) :
    ∃ engine event, self.step c = some (engine, event) ∧ engine.Wellformed := by
  cases c with
  | cancelOrder id =>
      obtain ⟨engine, event, hcall, hwf, -⟩ := cancelOrder_spec h id
      exact ⟨engine, event, hcall, hwf⟩
  | processOrder order =>
      refine ⟨(self.processOrder order).1, (self.processOrder order).2, rfl, ?_⟩
      by_cases hv : order.quantity ≤ 0 ∨ order.id = 0
      · rw [processOrder_refused hv]
        exact h
      · obtain ⟨engine, left, hwf, -, hnonneg, -, -, heq⟩ := processOrder_accepted h hv
        rw [heq]
        split
        · next hrest => exact (insertOrder_spec hwf order (by omega)).1
        · exact hwf

end Calls

-- ============================================================================
-- The check
-- ============================================================================

/-- The price passes the bound that the check starts from. -/
def WithinBound : Side → Int → Prop
  | .buy, price => price < INT64_MAX
  | .sell, price => 0 < price

instance : (side : Side) → (price : Int) → Decidable (WithinBound side price)
  | .buy, price => inferInstanceAs (Decidable (price < INT64_MAX))
  | .sell, price => inferInstanceAs (Decidable (0 < price))

/-- Every bid level is below every ask level. -/
def KeysUncrossed (self : ReferenceEngine) : Prop :=
  ∀ b ∈ self.keys .buy, ∀ a ∈ self.keys .sell, b < a

section Check

variable {self engine : ReferenceEngine} {order : IncomingOrder} {side : Side} {c : Command}
  {levels : RefLevels} {event : MatchEvent}

theorem keysUncrossed_iff (side : Side) : self.KeysUncrossed ↔
    ∀ p ∈ self.keys side, ∀ q ∈ self.keys side.opposite, side.better q p := by
  cases side with
  | buy => exact Iff.rfl
  | sell => exact ⟨fun h a ha b hb => h b hb a ha, fun h b hb a ha => h a ha b hb⟩

/-- A bound on the first key of a sorted side is a bound on all its keys. -/
theorem bound_iff {R : Int → Int → Prop} (htrans : ∀ a b c, R a b → R b c → R a c) {prev x : Int}
    {l : List Int} (hx : ∀ k ∈ l, R x k) : (∀ k ∈ x :: l, R prev k) ↔ R prev x := by
  constructor
  · exact fun hall => hall x (List.mem_cons_self ..)
  · intro hprev k hk
    rcases List.mem_cons.mp hk with rfl | hk
    · exact hprev
    · exact htrans prev x k hprev (hx k hk)

theorem ascending_iff (hsorted : (levels.map Prod.fst).Pairwise Side.sell.better) {prev : Int} :
    ascending prev levels = true ↔ ∀ k ∈ levels.map Prod.fst, prev < k := by
  induction levels generalizing prev with
  | nil => simp [ascending]
  | cons l rest ih =>
      obtain ⟨hbetter, hrest⟩ := List.pairwise_cons.mp hsorted
      rw [List.map_cons, @bound_iff (fun a b => a < b) (fun _ _ _ => Int.lt_trans) _ _ _ hbetter,
        ascending]
      split
      · next hle => exact iff_of_false (by decide) (by omega)
      · next hlt => exact iff_of_true ((ih hrest).mpr hbetter) (by omega)

theorem descending_iff (hsorted : (levels.map Prod.fst).Pairwise Side.buy.better) {prev : Int} :
    descending prev levels = true ↔ ∀ k ∈ levels.map Prod.fst, k < prev := by
  induction levels generalizing prev with
  | nil => simp [descending]
  | cons l rest ih =>
      obtain ⟨hbetter, hrest⟩ := List.pairwise_cons.mp hsorted
      rw [List.map_cons,
        @bound_iff (fun a b => b < a) (fun _ _ _ h h' => Int.lt_trans h' h) _ _ _ hbetter,
        descending]
      split
      · next hge => exact iff_of_false (by decide) (by omega)
      · next hlt => exact iff_of_true ((ih hrest).mpr hbetter) (by omega)

/-- A best price that is not 0 is a level's. -/
theorem bestBid_mem (h : self.bestBid > 0) : self.bestBid ∈ self.keys .buy := by
  rw [bestBid] at h ⊢
  rw [keys, levels]
  cases hbids : self.bids with
  | nil => simp [hbids] at h
  | cons l rest => exact List.mem_cons_self ..

theorem bestAsk_mem (h : self.bestAsk > 0) : self.bestAsk ∈ self.keys .sell := by
  rw [bestAsk] at h ⊢
  rw [keys, levels]
  cases hasks : self.asks with
  | nil => simp [hasks] at h
  | cons l rest => exact List.mem_cons_self ..

/-- The check passes exactly when every key is within its bound. -/
theorem verifyInvariants_iff (h : self.Wellformed) (hun : self.KeysUncrossed) :
    self.verifyInvariants = true ↔ ∀ side, ∀ k ∈ self.keys side, WithinBound side k := by
  have hcross : ¬ (self.bestBid > 0 ∧ self.bestAsk > 0 ∧ self.bestBid ≥ self.bestAsk) := by
    rintro ⟨hb, ha, hge⟩
    have := hun _ (bestBid_mem hb) _ (bestAsk_mem ha)
    omega
  have hasks := @ascending_iff (self.levels .sell) (h.sorted .sell) 0
  have hbids := @descending_iff (self.levels .buy) (h.sorted .buy) INT64_MAX
  have hcheck : self.verifyInvariants =
      (ascending 0 (self.levels .sell) && descending INT64_MAX (self.levels .buy)) := by
    rw [verifyInvariants, if_neg hcross]
    show (if _ then _ else _) = (ascending 0 self.asks && descending INT64_MAX self.bids)
    cases ascending 0 self.asks <;> cases descending INT64_MAX self.bids <;> rfl
  rw [hcheck, Bool.and_eq_true, hasks, hbids]
  constructor
  · rintro ⟨hask, hbid⟩ side
    cases side with
    | buy => exact hbid
    | sell => exact hask
  · exact fun hall => ⟨hall .sell, hall .buy⟩

end Check

-- ============================================================================
-- Orders that rest
-- ============================================================================

/-- The order is accepted and the live orders that it crosses do not fill it. -/
def rests (self : ReferenceEngine) (order : IncomingOrder) : Bool :=
  !decide (order.quantity ≤ 0 ∨ order.id = 0) && order.type = .limit &&
    Entry.supply.total (self.book.crossing order) < order.quantity

/-- The call rests an order at a price that the check does not allow. -/
def restsOutside (self : ReferenceEngine) : Command → Bool
  | .processOrder order => self.rests order && !decide (WithinBound order.side order.price)
  | .cancelOrder _ => false

section Steps

variable {self engine : ReferenceEngine} {order : IncomingOrder} {side : Side} {c : Command}
  {event : MatchEvent}

theorem pushToLevels_mem (side : Side) (price : Int) (node : RefNode) (levels : RefLevels) :
    price ∈ (pushToLevels (less side) price node levels).map Prod.fst := by
  induction levels with
  | nil => exact List.mem_singleton_self _
  | cons l rest ih =>
      rcases pushToLevels_cases side price node l rest with ⟨-, h⟩ | ⟨-, h⟩ | ⟨hkey, h⟩
      · rw [h]
        exact List.mem_cons_self ..
      · rw [h]
        exact List.mem_cons_of_mem _ ih
      · rw [h, ← hkey]
        exact List.mem_cons_self ..

/-- What a call does to the keys: it takes some away on the opposite side, and on
    the side of an order that rests it adds that order's price, which no opposite
    key crosses any more. -/
theorem processOrder_keys (h : self.Wellformed) (order : IncomingOrder) :
    ((self.processOrder order).1.keys order.side.opposite).Sublist
        (self.keys order.side.opposite) ∧
      ((self.rests order = false ∧
          (self.processOrder order).1.keys order.side = self.keys order.side) ∨
        (self.rests order = true ∧
          order.price ∈ (self.processOrder order).1.keys order.side ∧
          (∀ k ∈ (self.processOrder order).1.keys order.side,
            k = order.price ∨ k ∈ self.keys order.side) ∧
          ∀ k ∈ (self.processOrder order).1.keys order.side.opposite,
            order.side.better k order.price)) := by
  by_cases hv : order.quantity ≤ 0 ∨ order.id = 0
  · rw [processOrder_refused hv]
    exact ⟨List.Sublist.refl _, .inl ⟨by simp [rests, hv], rfl⟩⟩
  · obtain ⟨engine, left, -, hleft, hnonneg, hlevels, hbeyond, heq⟩ := processOrder_accepted h hv
    rw [Book.matched_left (book_positive h) (by omega)] at hleft
    have hrests : self.rests order = true ↔ left ≠ 0 ∧ order.type = .limit := by
      rw [rests, decide_eq_false hv, Bool.not_false, Bool.true_and, Bool.and_eq_true,
        decide_eq_true_eq, decide_eq_true_eq]
      constructor
      · exact fun ⟨hl, hlt⟩ => ⟨by omega, hl⟩
      · exact fun ⟨hne, hl⟩ => ⟨hl, by omega⟩
    have hown : engine.levels order.side = self.levels order.side := by
      rw [hlevels, Function.update_of_ne order.side.opposite_ne.symm]
    have hopp : engine.levels order.side.opposite = self.sweptLevels order := by
      rw [hlevels, Function.update_self]
    rw [heq]
    split
    · next hrest =>
        have hside : (restingOrder order left).side = order.side := rfl
        have hown' : (engine.insertOrder (restingOrder order left)).levels order.side =
            pushToLevels (less order.side) order.price ⟨engine.nextAddress, restingOrder order left⟩
              (self.levels order.side) := by
          rw [insertOrder_levels, hside, Function.update_self, hown]
          rfl
        have hopp' : (engine.insertOrder (restingOrder order left)).levels order.side.opposite =
            self.sweptLevels order := by
          rw [insertOrder_levels, hside, Function.update_of_ne order.side.opposite_ne, hopp]
        refine ⟨?_, .inr ⟨hrests.mpr hrest, ?_, fun k hk => ?_, fun k hk => ?_⟩⟩
        · rw [keys, hopp']
          exact sweptLevels_sublist h order
        · rw [keys, hown']
          exact pushToLevels_mem ..
        · rw [keys, hown'] at hk
          exact pushToLevels_keys hk
        · rw [keys, hopp'] at hk
          exact Book.crosses_eq_false (hbeyond (by omega) k hk)
    · next hno =>
        have hnot : self.rests order = false := by
          rw [Bool.eq_false_iff]
          exact fun hr => hno (hrests.mp hr)
        refine ⟨?_, .inl ⟨hnot, ?_⟩⟩
        · rw [keys, hopp]
          exact sweptLevels_sublist h order
        · rw [keys, hown]
          rfl

theorem step_processOrder (hstep : self.step (.processOrder order) = some (engine, event)) :
    engine = (self.processOrder order).1 :=
  (congrArg Prod.fst (Option.some.inj hstep)).symm

/-- A call keeps the bid levels below the ask levels. -/
theorem step_uncrossed (h : self.Wellformed) (hun : self.KeysUncrossed)
    (hstep : self.step c = some (engine, event)) : engine.KeysUncrossed := by
  cases c with
  | cancelOrder id =>
      have hkeys := cancelOrder_keys (show self.cancelOrder id = some (engine, event) from hstep)
      rw [KeysUncrossed, hkeys, hkeys]
      exact hun
  | processOrder order =>
      obtain rfl : engine = (self.processOrder order).1 := step_processOrder hstep
      obtain ⟨hopp, ⟨-, hown⟩ | ⟨-, -, hown, hbeyond⟩⟩ := processOrder_keys h order
      · rw [keysUncrossed_iff order.side] at hun ⊢
        intro p hp q hq
        rw [hown] at hp
        exact hun p hp q (hopp.subset hq)
      · rw [keysUncrossed_iff order.side] at hun ⊢
        intro p hp q hq
        rcases hown p hp with rfl | hp
        · exact hbeyond q hq
        · exact hun p hp q (hopp.subset hq)

/-- A key after a call was there before, or it is the price of the order that the
    call rests. -/
theorem step_keys (h : self.Wellformed) (hstep : self.step c = some (engine, event)) {k : Int}
    (hk : k ∈ engine.keys side) : k ∈ self.keys side ∨
      ∃ order, c = .processOrder order ∧ self.rests order = true ∧ side = order.side ∧
        k = order.price := by
  cases c with
  | cancelOrder id =>
      rw [cancelOrder_keys (show self.cancelOrder id = some (engine, event) from hstep)] at hk
      exact .inl hk
  | processOrder order =>
      obtain rfl : engine = (self.processOrder order).1 := step_processOrder hstep
      obtain ⟨hopp, hcases⟩ := processOrder_keys h order
      rcases Side.eq_or_eq_opposite order.side side with rfl | rfl
      · rcases hcases with ⟨-, hown⟩ | ⟨hrests, -, hown, -⟩
        · rw [hown] at hk
          exact .inl hk
        · rcases hown k hk with hprice | hk
          · exact .inr ⟨order, rfl, hrests, rfl, hprice⟩
          · exact .inl hk
      · exact .inl (hopp.subset hk)

/-- A call that rests no order outside the bounds keeps the keys within them. -/
theorem step_within (h : self.Wellformed)
    (hin : ∀ side, ∀ k ∈ self.keys side, WithinBound side k) (hc : self.restsOutside c = false)
    (hstep : self.step c = some (engine, event)) :
    ∀ side, ∀ k ∈ engine.keys side, WithinBound side k := by
  intro side k hk
  rcases step_keys h hstep hk with hk | ⟨order, rfl, hrests, rfl, rfl⟩
  · exact hin side k hk
  · simpa [restsOutside, hrests] using hc

/-- A call that rests an order outside the bounds adds a key outside them. -/
theorem step_outside (h : self.Wellformed) (hc : self.restsOutside c = true)
    (hstep : self.step c = some (engine, event)) :
    ∃ side, ∃ k ∈ engine.keys side, ¬ WithinBound side k := by
  cases c with
  | cancelOrder id => exact absurd hc (by simp [restsOutside])
  | processOrder order =>
      obtain rfl : engine = (self.processOrder order).1 := step_processOrder hstep
      simp only [restsOutside, Bool.and_eq_true, Bool.not_eq_true', decide_eq_false_iff_not] at hc
      obtain ⟨-, ⟨hno, -⟩ | ⟨-, hmem, -, -⟩⟩ := processOrder_keys h order
      · rw [hc.1] at hno
        exact absurd hno (by decide)
      · exact ⟨order.side, order.price, hmem, hc.2⟩

end Steps

-- ============================================================================
-- Runs
-- ============================================================================

/-- What a run of the reference engine has reached. -/
structure Checked (engine : ReferenceEngine) : Prop where
  wellformed : engine.Wellformed
  uncrossed : engine.KeysUncrossed
  within : ∀ side, ∀ k ∈ engine.keys side, WithinBound side k

theorem checked_empty : ({} : ReferenceEngine).Checked := by
  refine ⟨wellformed_empty, fun b hb => absurd hb List.not_mem_nil, fun side k hk => ?_⟩
  cases side <;> exact absurd hk List.not_mem_nil

/-- A sell at price 0 is accepted and rests. -/
theorem zero_not_verified : ∃ reference events,
    ReferenceEngine.run {} [.processOrder (makeOrder 1 .sell 0 10)] = some (reference, events) ∧
    reference.verifyInvariants = false := by
  obtain ⟨reference, events, hrun, htest⟩ := @exec_test _ _ _ step ({} : ReferenceEngine)
    [.processOrder (makeOrder 1 .sell 0 10)] (fun s => !s.verifyInvariants) (by decide +kernel)
  exact ⟨reference, events, hrun, by simpa using htest⟩

/-- The check passes after every call of a run exactly when no call rests a sell at
    a price up to 0 or a buy at the greatest price. -/
theorem run_verified_iff (cs : List Command) :
    (∀ pre post, cs = pre ++ post → ∃ reference events,
      ReferenceEngine.run {} pre = some (reference, events) ∧
      reference.verifyInvariants = true) ↔
    Along step (fun s c => s.restsOutside c = false) {} cs := by
  apply @exec_prefix_iff _ _ _ step (fun _ _ s => s.Checked)
  · exact checked_empty
  · exact fun _ _ s h => (verifyInvariants_iff h.wellformed h.uncrossed).mpr h.within
  · intro pre c post _ events s h hc
    obtain ⟨t, event, hstep, hwf⟩ := step_wellformed h.wellformed c
    exact ⟨t, event, hstep, hwf, step_uncrossed h.wellformed h.uncrossed hstep,
      step_within h.wellformed h.within hc hstep⟩
  · intro pre c post _ events s h hc t event hstep hverified
    obtain ⟨t', event', hstep', hwf⟩ := step_wellformed h.wellformed c
    obtain ⟨rfl, -⟩ := result_unique hstep' hstep
    have hun := step_uncrossed h.wellformed h.uncrossed hstep
    obtain ⟨side, k, hk, hno⟩ := step_outside h.wellformed (Bool.not_eq_false _ ▸ hc) hstep
    exact hno ((verifyInvariants_iff hwf hun).mp hverified side k hk)

end ReferenceEngine

end LimitOrderBook
