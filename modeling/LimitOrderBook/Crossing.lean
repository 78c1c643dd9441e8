/-
  LimitOrderBook.Crossing

  The predicates of `order.h` on a single order, held against what the engine does.

  `would_cross_buy` and `would_cross_sell` are not called by the matching loops, which
  make their own comparisons.  Against the best price of the other side they say the
  same: an order trades exactly when it would cross, and no order that rests would.
-/
import LimitOrderBook.Invariants
import LimitOrderBook.MarketData
import LimitOrderBook.Priority

namespace LimitOrderBook

open Lib MatchingEngine

namespace MatchingEngine

section

variable {self engine after : MatchingEngine} {n capacity : Nat} {L : Layout} {c : Command}
  {event : MatchEvent} {order : IncomingOrder} {p : Slot}

/-- Only Limit orders are linked. -/
def LimitsOnly (self : MatchingEngine) : Prop :=
  ∀ side i, ∀ p ∈ self.levelSlots side i, (self.heap p).type = .limit

theorem newSlotOf_limit (h : self.newSlotOf (.processOrder order) = some p) :
    order.type = .limit := by
  have hnew : self.newSlot order = some p := h
  cases hv : validateOrder order with
  | false => exact absurd hnew (by simp [newSlot_invalid hv])
  | true =>
      cases hmatch : self.matchOrder order with
      | none => exact absurd hnew (by simp [newSlot, hv, hmatch])
      | some st =>
          rw [newSlot_eq hv hmatch] at hnew
          by_cases hrest : st.order.quantity ≠ 0 ∧ order.type = .limit
          · exact hrest.2
          · exact absurd hnew (by simp [hrest])

theorem Call.limitsOnly (hcall : Call n capacity engine c event after) (h : engine.LimitsOnly) :
    after.LimitsOnly := by
  intro side i p hp
  obtain ⟨kept, hsub, hfresh, hqueue⟩ := hcall.queues side i
  have hold : ∀ r ∈ kept, (after.heap r).type = .limit := by
    intro r hr
    have hsame := (step_submitted hcall.step r).2 (hfresh r hr)
    rw [show (after.heap r).type = (engine.heap r).type from congrArg IncomingOrder.type hsame]
    exact h side i r (hsub.subset hr)
  rcases hqueue with heq | ⟨r, hnew, heq⟩
  · rw [heq] at hp
    exact hold p hp
  · rw [heq, List.mem_append, List.mem_singleton] at hp
    rcases hp with hp | rfl
    · exact hold p hp
    · have hcommand := (step_submitted hcall.step p).1 hnew
      rw [hcommand] at hnew
      exact newSlotOf_limit hnew

end

end MatchingEngine

theorem Config.engine_limitsOnly (config : Config) : config.engine.LimitsOnly := by
  intro side i p hp
  rw [config.engine_sound.levelSlots_eq] at hp
  exact absurd hp List.not_mem_nil

-- ============================================================================
-- Who trades
-- ============================================================================

namespace Book

variable {B : Book} {order : IncomingOrder}

/-- A valid order trades exactly when some opposite order crosses it. -/
theorem matched_trades_iff (hsorted : B.Sorted) (hpos : B.Positive)
    (hquantity : 0 < order.quantity) :
    (B.matched order order.quantity).trades ≠ [] ↔
      ∃ e ∈ B.side order.side.opposite, order.crosses e.price = true := by
  constructor
  · intro hne
    obtain ⟨t, ht⟩ := List.exists_mem_of_ne_nil _ hne
    obtain ⟨fill, hfill, -⟩ := List.mem_map.mp ht
    obtain ⟨hmem, hcross, -⟩ := Supply.sweep_taken (fun e he => hpos _ e he) fill hfill
    exact ⟨fill.1, hmem, hcross⟩
  · rintro ⟨e, he, hcross⟩ hnil
    have hne : B.crossing order ≠ [] := by
      rw [Ne, crossing_eq_nil_iff hsorted]
      intro hnone
      rw [hnone e he] at hcross
      exact absurd hcross Bool.false_ne_true
    have htotal := crossing_total_pos hpos hne
    have htraded := @matched_traded B order order.quantity
    rw [hnil, List.map_nil, List.sum_nil, matched_left hpos (Int.le_of_lt hquantity)] at htraded
    omega

/-- The best price decides whether an order crosses a side. -/
theorem Quoted.crosses_iff {price : Int} (h : B.Quoted order.side.opposite price)
    (hpriced : B.Priced) : (∃ e ∈ B.side order.side.opposite, order.crosses e.price = true) ↔
      price ≠ 0 ∧ order.crosses price = true := by
  rcases h with ⟨hnil, rfl⟩ | ⟨b, hb, rfl, hbest⟩
  · rw [hnil]
    simp
  · have hprice := hpriced _ b.price (List.mem_map_of_mem hb)
    constructor
    · rintro ⟨e, he, hcross⟩
      refine ⟨by omega, ?_⟩
      by_contra hno
      rw [Bool.not_eq_true] at hno
      have hworse := hbest e he
      by_cases heq : e.price = b.price
      · rw [heq, hno] at hcross
        exact absurd hcross Bool.false_ne_true
      · have hbetter : order.side.opposite.better b.price e.price := by
          cases hs : order.side <;>
            simp only [hs, Side.opposite, Side.better] at hworse ⊢ <;> omega
        rw [crosses_of_better hno hbetter] at hcross
        exact absurd hcross Bool.false_ne_true
    · rintro ⟨-, hcross⟩
      exact ⟨b, hb, hcross⟩

end Book

-- ============================================================================
-- The predicates
-- ============================================================================

/-- On the side of the order the predicate is the engine's comparison. -/
theorem wouldCrossBuy_iff {o : Order} {bestAsk : Int} : o.wouldCrossBuy bestAsk = true ↔
    o.side = .buy ∧ o.submitted.crosses bestAsk = true := by
  cases hs : o.side <;> simp [Order.wouldCrossBuy, IncomingOrder.crosses, Order.submitted, hs]

theorem wouldCrossSell_iff {o : Order} {bestBid : Int} : o.wouldCrossSell bestBid = true ↔
    o.side = .sell ∧ o.submitted.crosses bestBid = true := by
  cases hs : o.side <;> simp [Order.wouldCrossSell, IncomingOrder.crosses, Order.submitted, hs]

/-- What the predicates say of a linked order. -/
structure Order.Passive (o : Order) (bestBid bestAsk : Int) : Prop where
  unfilled : o.isFullyFilled = false
  notMarketable : o.isMarketable = false
  noBuy : bestAsk ≠ 0 → o.wouldCrossBuy bestAsk = false
  noSell : bestBid ≠ 0 → o.wouldCrossSell bestBid = false

theorem passive_of_live {o : Order} {side : Side} {i : Nat} {bestBid bestAsk : Int}
    (h : o.Live side i) (htype : o.type = .limit)
    (hask : side = .buy → bestAsk ≠ 0 → o.price < bestAsk)
    (hbid : side = .sell → bestBid ≠ 0 → bestBid < o.price) : o.Passive bestBid bestAsk where
  unfilled := beq_false_of_ne (by have := h.pos; omega)
  notMarketable := by rw [Order.isMarketable, htype]; rfl
  noBuy := by
    intro hne
    rw [← h.side] at hask
    rw [Order.wouldCrossBuy, htype]
    cases hs : o.side with
    | sell => rfl
    | buy =>
        have hlt := hask hs hne
        simp
        omega
  noSell := by
    intro hne
    rw [← h.side] at hbid
    rw [Order.wouldCrossSell, htype]
    cases hs : o.side with
    | buy => rfl
    | sell =>
        have hlt := hbid hs hne
        simp
        omega

namespace MatchingEngine

variable {self : MatchingEngine} {n capacity : Nat} {L : Layout}

theorem Sound.passive (h : self.Sound n capacity L) (hun : self.book.Uncrossed)
    (hlimits : self.LimitsOnly) (side : Side) :
    ∀ p ∈ self.sideSlots side, (self.heap p).Passive self.bestBid self.bestAsk := by
  intro p hp
  have hentry : self.entry p ∈ self.book.side side := by
    rw [MatchingEngine.book_side]
    exact List.mem_map_of_mem hp
  rw [h.sideSlots_eq] at hp
  obtain ⟨i, hi⟩ := h.mem_slots_iff.mp hp
  have hlevel := hi
  rw [← h.levelSlots_eq] at hlevel
  refine passive_of_live (h.live hi) (hlimits side i p hlevel) ?_ ?_
  · rintro rfl hne
    rcases h.bestPrice_quoted .sell with ⟨-, hzero⟩ | ⟨a, ha, hprice, -⟩
    · exact absurd hzero hne
    · rw [show self.bestAsk = a.price from hprice.symm]
      exact hun _ hentry a ha
  · rintro rfl hne
    rcases h.bestPrice_quoted .buy with ⟨-, hzero⟩ | ⟨b, hb, hprice, -⟩
    · exact absurd hzero hne
    · rw [show self.bestBid = b.price from hprice.symm]
      exact hun b hb _ hentry

/-- An order trades exactly when it would cross the best price opposite. -/
theorem Sound.trades_iff (h : self.Sound n capacity L) (hpriced : self.book.Priced) {o : Order}
    (hv : validateOrder o.submitted = true)
    (hbelow : (Command.processOrder o.submitted).LimitBelow n) :
    ∃ after event, self.processOrder o.submitted = some (after, event) ∧
      (event.trades ≠ [] ↔ (self.bestAsk ≠ 0 ∧ o.wouldCrossBuy self.bestAsk = true) ∨
        (self.bestBid ≠ 0 ∧ o.wouldCrossSell self.bestBid = true)) := by
  obtain ⟨after, event, L', hstep, -, hbook, -⟩ := step_spec h hbelow
  refine ⟨after, event, hstep, ?_⟩
  have hevent : (self.book.process (roomIn capacity) o.submitted).2 = event :=
    congrArg Prod.snd hbook
  obtain ⟨status, hprocess, -⟩ := Book.process_cases (roomIn capacity) self.book hv
  rw [← hevent, hprocess]
  have hiff := @Book.matched_trades_iff self.book o.submitted h.book_sorted h.book_positive
    (validateOrder_pos hv).1
  rw [wouldCrossBuy_iff, wouldCrossSell_iff]
  refine hiff.trans ?_
  cases hs : o.side with
  | buy =>
      have hquoted := h.bestPrice_quoted .sell
      have hopposite : o.submitted.side.opposite = .sell := congrArg Side.opposite hs
      rw [← hopposite] at hquoted
      rw [hquoted.crosses_iff hpriced, hopposite]
      simp [bestPrice]
  | sell =>
      have hquoted := h.bestPrice_quoted .buy
      have hopposite : o.submitted.side.opposite = .buy := congrArg Side.opposite hs
      rw [← hopposite] at hquoted
      rw [hquoted.crosses_iff hpriced, hopposite]
      simp [bestPrice]

end MatchingEngine

/-- In every state of every run on the ladder no linked order is filled, marketable or
    would cross the best price opposite, and a valid order that the ladder takes trades
    exactly when it would. -/
theorem run_wouldCross (config : Config) (cs : List Command)
    (h : ∀ c ∈ cs, c.LimitBelow config.maxLevels) :
    ∃ engine events, config.engine.run cs = some (engine, events) ∧
      (∀ side, ∀ p ∈ engine.sideSlots side,
        (engine.heap p).Passive engine.bestBid engine.bestAsk) ∧
      ∀ o : Order, validateOrder o.submitted = true →
        (Command.processOrder o.submitted).LimitBelow config.maxLevels →
        ∃ after event, engine.processOrder o.submitted = some (after, event) ∧
          (event.trades ≠ [] ↔ (engine.bestAsk ≠ 0 ∧ o.wouldCrossBuy engine.bestAsk = true) ∨
            (engine.bestBid ≠ 0 ∧ o.wouldCrossSell engine.bestBid = true)) := by
  obtain ⟨engine, events, hrun, ⟨L, hsound⟩, htrace⟩ := config.run_calls h
  have hkept : engine.book.Uncrossed ∧ engine.book.Priced ∧ engine.LimitsOnly :=
    @Trace.invariant _ _ _ _
      (fun s => s.book.Uncrossed ∧ s.book.Priced ∧ s.LimitsOnly) _ _ _ _
      (fun _ _ _ _ hs hcall => ⟨hcall.uncrossed hs.1, hcall.priced hs.2.1,
        hcall.limitsOnly hs.2.2⟩)
      ⟨config.engine_uncrossed, config.engine_priced, config.engine_limitsOnly⟩ htrace
  refine ⟨engine, events, hrun, hsound.passive hkept.1 hkept.2.2, fun o hv hbelow => ?_⟩
  rw [← config.levels_eq] at hbelow
  exact hsound.trades_iff hkept.2.1 hv hbelow

theorem sample_wouldCross : ∃ engine events,
    Config.small.engine.run sampleCommands = some (engine, events) ∧
      (∀ side, ∀ p ∈ engine.sideSlots side,
        (engine.heap p).Passive engine.bestBid engine.bestAsk) ∧
      ∀ o : Order, validateOrder o.submitted = true →
        (Command.processOrder o.submitted).LimitBelow Config.small.maxLevels →
        ∃ after event, engine.processOrder o.submitted = some (after, event) ∧
          (event.trades ≠ [] ↔ (engine.bestAsk ≠ 0 ∧ o.wouldCrossBuy engine.bestAsk = true) ∨
            (engine.bestBid ≠ 0 ∧ o.wouldCrossSell engine.bestBid = true)) :=
  run_wouldCross Config.small sampleCommands (by decide)

end LimitOrderBook
