/-
  LimitOrderBook.RestingReport

  When the last report on a Limit order is true.

  A report of status `Resting` says that the residual is linked at its price,
  and a residual that finds no place must leave no trace.  `truthful_iff` says
  for which orders the engine keeps both promises: the report is wrong for an
  order that is parked off the ladder, and the total at a price that outgrows
  `int64_t` has no value.
-/
import LimitOrderBook.OffLadder
import LimitOrderBook.OrderGateway
import LimitOrderBook.Quotes

namespace LimitOrderBook

open Lib MatchingEngine

-- ============================================================================
-- The total at a price
-- ============================================================================

namespace Book

section Totals

variable {B : Book} {order : IncomingOrder} {left price : Int}

theorem total_map {f : Entry → Entry} (hprice : ∀ e, (f e).price = e.price)
    (hremaining : ∀ e, (f e).remaining = e.remaining) (es : List Entry) :
    Entry.supply.total ((es.map f).filter fun e => e.price = price) =
      Entry.supply.total (es.filter fun e => e.price = price) := by
  have hsame : ((fun e : Entry => decide (e.price = price)) ∘ f) =
      fun e : Entry => decide (e.price = price) := by
    funext e
    simp only [Function.comp_apply, hprice]
  have hamount : Entry.supply.amount ∘ f = Entry.supply.amount := funext hremaining
  rw [List.filter_map, hsame, Supply.total, Supply.total, List.map_map, hamount]

/-- Matching does not touch the taker's own side. -/
theorem matched_restingTotal : (B.matched order left).book.restingTotal order.side price =
    B.restingTotal order.side price := by
  rw [restingTotal, matched_own]
  apply total_map
  · intro e
    exact Entry.forgetAll_price ..
  · intro e
    exact Entry.forgetAll_remaining ..

/-- A resting order adds what is left of it to the total at its price, and to no
    other. -/
theorem rest_restingTotal (side : Side) : (B.rest order left).restingTotal side price =
    B.restingTotal side price + if side = order.side ∧ price = order.price then left else 0 := by
  have hforget := fun other => @total_map price (Entry.forget order.id) (Entry.forget_price _)
    (Entry.forget_remaining _) (B.side other)
  rcases Side.eq_or_eq_opposite order.side side with rfl | rfl
  · have hperm := (List.perm_orderedInsert
      (fun a b : Entry => order.side.better a.price b.price)
      ({ id := order.id, price := order.price, quantity := order.quantity, remaining := left,
         mapped := true } : Entry) ((B.side order.side).map (Entry.forget order.id))).filter
      fun e => e.price = price
    have hsum := (hperm.map Entry.supply.amount).sum_eq
    rw [restingTotal, rest, setSide_side, forget_side, Supply.total, hsum, restingTotal,
      ← hforget order.side]
    by_cases hprice : price = order.price
    · rw [List.filter_cons_of_pos (by simp [hprice]), if_pos ⟨rfl, hprice⟩, List.map_cons,
        List.sum_cons, Int.add_comm]
      rfl
    · rw [List.filter_cons_of_neg (by simp [Ne.symm hprice]), if_neg fun hc => hprice hc.2,
        Int.add_zero]
      rfl
  · rw [restingTotal, rest, setSide_side_opposite, forget_side, hforget,
      if_neg fun hc => order.side.opposite_ne hc.1, Int.add_zero]
    rfl

end Totals

end Book

namespace MatchingEngine

-- ============================================================================
-- What the report promises
-- ============================================================================

/-- The order is on the book with the remaining quantity of the report. -/
structure OnBook (before : MatchingEngine) (order : IncomingOrder) (after : MatchingEngine)
    (r : ExecutionReport) : Prop where
  /-- It is linked at its price. -/
  linked : ∃ (i : Nat) (p : Slot), order.price = i ∧ p ∈ after.levelSlots order.side i ∧
    (after.heap p).id = order.id ∧ (after.heap p).price = order.price ∧
    (after.heap p).remaining = r.remainingQuantity
  /-- The quantity at its price is larger by what is left of it. -/
  quantity : ∃ q, before.restingQuantity order.side order.price = some q ∧
    after.restingQuantity order.side order.price = some (q + r.remainingQuantity)
  check : after.verifyInvariants = some true

/-- Nothing is left behind of an order that found no place. -/
structure Undone (before after : MatchingEngine) : Prop where
  map : ∀ id p, after.orderMap.lookup id = some p → before.orderMap.lookup id = some p
  linked : ∀ side, after.sideSlots side ⊆ before.sideSlots side
  /-- Every slot is linked or free. -/
  pool : ∃ free,
    FreeChain (fun p => (after.heap p).poolIndex) UINT32_MAX after.pool.freeHead free ∧
    ((after.sideSlots .buy ++ after.sideSlots .sell) ++ free).Perm
      (List.range (OrderPool.usable after.pool.capacity))

/-- The last report of a call is true: a resting order is on the book, and a
    residual without a place is cancelled and undone. -/
def Truthful (before : MatchingEngine) (order : IncomingOrder) (after : MatchingEngine)
    (event : MatchEvent) : Prop :=
  ∃ r, event.reports.getLast? = some r ∧ r.orderId = order.id ∧
    (r.status = .resting → before.OnBook order after r) ∧
    (r.remainingQuantity ≠ 0 → before.OffLadder order ∨ ¬ before.FindsSlot order →
      r.status = .cancelled ∧ before.Undone after)

section Truthful

variable {self : MatchingEngine} {n capacity : Nat} {L : Layout} {order : IncomingOrder}

theorem Rep.restingQuantity_total (h : self.Rep n capacity L) (side : Side) (price : Int) :
    self.restingQuantity side price =
      if self.book.restingTotal side price ≤ INT64_MAX then
        some (self.book.restingTotal side price)
      else none := by
  rw [h.restingQuantity_eq, Book.restingQuantity_eq h.book_positive]

/-- A sound state has no slot that is neither linked nor free. -/
theorem Sound.undone (h : self.Sound n capacity L) : self.Undone self where
  map _ _ hid := hid
  linked side := List.Subset.refl _
  pool := by
    refine ⟨L.free, h.pool.chain, ?_⟩
    have hslots := h.pool.slots
    rw [Layout.allocated, h.held, List.nil_append] at hslots
    rw [h.sideSlots_eq, h.sideSlots_eq, h.pool.capacity_eq]
    exact hslots

/-- On the ladder the report is true as long as the total at the price fits. -/
theorem Sound.truthful_on (h : self.Sound n capacity L) (hun : self.book.Uncrossed)
    (hv : validateOrder order = true) (hlimit : order.type = .limit)
    (hres : self.LeavesResidual order) (hslot : self.FindsSlot order) (hon : order.price < n) :
    ∃ after event, self.processOrder order = some (after, event) ∧
      (self.Truthful order after event ↔
        self.book.restingTotal order.side order.price +
          (order.quantity - Entry.supply.total (self.book.crossing order)) ≤ INT64_MAX) := by
  have hprice := (validateOrder_pos hv).2.1 hlimit
  obtain ⟨i, hi⟩ : ∃ i : Nat, order.price = i :=
    ⟨order.price.toNat, (Int.toNat_of_nonneg (Int.le_of_lt hprice)).symm⟩
  have hin : i < n := by omega
  obtain ⟨st, L', p, free, hm, hswept, hfree, hleft, hle, heq⟩ :=
    processOrder_placed h.settled hv hlimit hres hslot
  obtain ⟨hstatus, hrep, hbook, -, hentry, -⟩ := restOrder_on hm.rep hfree hi hin hleft hle
  have hamount : st.order.quantity =
      order.quantity - Entry.supply.total (self.book.crossing order) := by
    have hmax := Swept.left_eq h.toRep (Int.le_of_lt (validateOrder_pos hv).1) hswept
    omega
  -- the state after the call is sound and uncrossed
  obtain ⟨after, event, L'', hstep, hs', hbook', hev⟩ :=
    step_spec h (show (Command.processOrder order).LimitBelow n from fun _ => hon)
  have hun' : after.book.Uncrossed :=
    Call.uncrossed ⟨hstep, hbook', L, L'', h, hs', hev⟩ hun
  obtain ⟨rfl, rfl⟩ := result_unique heq hstep
  rw [hstatus] at heq hstep
  have htotal : (st.engine.restOrder order st.order.quantity .resting).1.book.restingTotal
      order.side order.price =
        self.book.restingTotal order.side order.price + st.order.quantity := by
    rw [hbook, Book.rest_restingTotal, if_pos ⟨rfl, rfl⟩, ← hswept.book,
      Book.matched_restingTotal]
  have hafter := hrep.restingQuantity_total order.side order.price
  rw [htotal] at hafter
  refine ⟨_, _, heq, ?_⟩
  rw [← hamount]
  constructor
  · rintro ⟨r, hr, -, hresting, -⟩
    rw [List.getLast?_concat, Option.some.injEq] at hr
    subst hr
    obtain ⟨q, -, hq⟩ := (hresting rfl).quantity
    by_contra hbig
    rw [hafter, if_neg hbig] at hq
    exact absurd hq (by simp)
  · intro hfits
    have hbefore := h.restingQuantity_total order.side order.price
    rw [if_pos (by omega)] at hbefore
    rw [if_pos hfits] at hafter
    refine ⟨_, List.getLast?_concat .., rfl, fun _ => ⟨⟨i, p, hi, ?_, ?_⟩, ?_, ?_⟩, ?_⟩
    · rw [hrep.levelSlots_eq]
      show p ∈ (L'.setQueue order.side i (L'.queue order.side i ++ [p])).queue order.side i
      simp
    · exact ⟨congrArg Entry.id hentry, congrArg Entry.price hentry,
        congrArg Entry.remaining hentry⟩
    · exact ⟨_, hbefore, hafter⟩
    · exact hs'.verifyInvariants hun'
    · rintro - (hoff | hno)
      · have := (h.offLadder_iff hprice).mp hoff
        omega
      · exact absurd hslot hno

/-- The last report on a Limit order is true exactly when nothing is left of the
    order, no slot is found for it, or its price is on the ladder and the total
    there fits `int64_t`. -/
theorem Sound.truthful_iff (h : self.Sound n capacity L) (hun : self.book.Uncrossed)
    (hv : validateOrder order = true) (hlimit : order.type = .limit) :
    ∃ after event, self.processOrder order = some (after, event) ∧
      (self.Truthful order after event ↔
        ¬ self.LeavesResidual order ∨ ¬ self.FindsSlot order ∨
          (order.price < n ∧ self.book.restingTotal order.side order.price +
            (order.quantity - Entry.supply.total (self.book.crossing order)) ≤ INT64_MAX)) := by
  have hprice := (validateOrder_pos hv).2.1 hlimit
  by_cases hres : self.LeavesResidual order
  · by_cases hslot : self.FindsSlot order
    · rw [or_iff_right (not_not.mpr hres), or_iff_right (not_not.mpr hslot)]
      by_cases hon : order.price < n
      · obtain ⟨after, event, hcall, hiff⟩ := h.truthful_on hun hv hlimit hres hslot hon
        exact ⟨after, event, hcall, hiff.trans (and_iff_right hon).symm⟩
      · -- the order is parked
        have hoff : (n : Int) ≤ order.price := by omega
        obtain ⟨after, event, -, -, filled, left, hcall, -, -, -, hlast, hleft⟩ :=
          processOrder_parks h.settled hv hlimit hoff hres hslot
        refine ⟨after, event, hcall, iff_of_false ?_ (fun hin => hon hin.1)⟩
        rintro ⟨r, hr, -, -, hundone⟩
        obtain rfl := Option.some.inj (hlast.symm.trans hr)
        have hcancelled := (hundone hleft (.inl ((h.offLadder_iff hprice).mpr hoff))).1
        exact absurd hcancelled (by simp [takerReport])
    · refine ⟨self, _, processOrder_refused h.settled hv hlimit hslot, iff_of_true ?_ ?_⟩
      · refine ⟨_, rfl, rfl, fun hr => ?_, fun _ _ => ⟨rfl, h.undone⟩⟩
        exact absurd hr (by simp [takerReport])
      · exact .inr (.inl hslot)
  · obtain ⟨st, L', -, -, hz, hcall⟩ := processOrder_filled h.settled hv hres
    refine ⟨_, _, hcall, iff_of_true ?_ (.inl hres)⟩
    refine ⟨_, List.getLast?_concat .., rfl, fun hr => ?_, fun hne => ?_⟩
    · exact absurd hr (by simp [takerReport])
    · exact absurd rfl hne

end Truthful

end MatchingEngine

/-- After a run that parked nothing, for every Limit order that the gateway lets
    through. -/
theorem run_truthful_iff (config : Config) (cs : List Command)
    (h : Along step (fun s c => s.parks c = false) config.engine cs) (order : IncomingOrder)
    (hlimit : order.type = .limit) (hvalid : OrderGateway.validate order = "") :
    ∃ engine events after event, config.engine.run cs = some (engine, events) ∧
      engine.processOrder order = some (after, event) ∧
      (engine.Truthful order after event ↔
        ¬ engine.LeavesResidual order ∨ ¬ engine.FindsSlot order ∨
          (order.price < config.maxLevels ∧
            engine.book.restingTotal order.side order.price +
              (order.quantity - Entry.supply.total (engine.book.crossing order)) ≤
                INT64_MAX)) := by
  obtain ⟨engine, events, hrun, ⟨L, hs⟩, hun⟩ := run_sound config h
  have hv := (OrderGateway.validate_eq_empty.mp hvalid).1
  obtain ⟨after, event, hcall, hiff⟩ := hs.truthful_iff hun hv hlimit
  rw [config.levels_eq] at hiff
  exact ⟨engine, events, after, event, hrun, hcall, hiff⟩

/-- After the sample run an order joins the one that rests at its price. -/
theorem sample_truthful : ∃ engine events after event,
    Config.small.engine.run sampleCommands = some (engine, events) ∧
      engine.processOrder (makeOrder 5 .buy 4 3) = some (after, event) ∧
      (engine.Truthful (makeOrder 5 .buy 4 3) after event ↔
        ¬ engine.LeavesResidual (makeOrder 5 .buy 4 3) ∨
          ¬ engine.FindsSlot (makeOrder 5 .buy 4 3) ∨
          ((4 : Int) < Config.small.maxLevels ∧ engine.book.restingTotal .buy 4 +
            (3 - Entry.supply.total (engine.book.crossing (makeOrder 5 .buy 4 3))) ≤
              INT64_MAX)) :=
  run_truthful_iff Config.small sampleCommands (along_not_of_check (by decide +kernel))
    (makeOrder 5 .buy 4 3) rfl (by decide)

/-- The first order of a run is parked and reported as resting. -/
theorem parked_not_truthful : ∃ after event,
    OrderGateway.validate (makeOrder 1 .buy 10 5) = "" ∧
      Config.small.engine.processOrder (makeOrder 1 .buy 10 5) = some (after, event) ∧
      ¬ Config.small.engine.Truthful (makeOrder 1 .buy 10 5) after event := by
  have htest : (Config.small.engine.processOrder (makeOrder 1 .buy 10 5)).map
      (fun r => decide (r.2.reports.getLast?.map ExecutionReport.status = some .resting) &&
        decide (r.1.verifyInvariants = some false)) = some true := by decide +kernel
  obtain ⟨⟨after, event⟩, hcall, hfacts⟩ := Option.map_eq_some_iff.mp htest
  simp only [Bool.and_eq_true, decide_eq_true_eq] at hfacts
  refine ⟨after, event, by decide, hcall, ?_⟩
  rintro ⟨r, hr, -, hresting, -⟩
  have hstatus : r.status = .resting := by
    have hlast := hfacts.1
    rwa [hr, Option.map_some, Option.some.injEq] at hlast
  have hcheck := (hresting hstatus).check
  rw [hfacts.2] at hcheck
  exact absurd hcheck (by decide)

end LimitOrderBook
