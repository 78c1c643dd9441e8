/-
  LimitOrderBook.LimitPrices

  Who trades with whom, and at what price, in every run.

  An entry of the book stands for a Limit order that was submitted on its side, with
  its id, price and quantity: matching reduces what remains of an entry and a map
  update flips its bit, nothing else.  So every trade is between the order of the call
  and a Limit order of an earlier call, at the price of that order.
-/
import LimitOrderBook.MarketData

namespace LimitOrderBook

open Lib MatchingEngine

/-- The submitted order that an entry stands for. -/
structure Entry.StandsFor (e : Entry) (side : Side) (x : IncomingOrder) : Prop where
  valid : validateOrder x = true
  side : x.side = side
  type : x.type = .limit
  id : x.id = e.id
  price : x.price = e.price
  quantity : x.quantity = e.quantity
  le : e.remaining ≤ e.quantity

/-- A trade of an incoming order with a resting one. -/
structure Trade.Between (t : Trade) (taker maker : IncomingOrder) : Prop where
  sides : maker.side = taker.side.opposite
  ids : match taker.side with
    | .buy => t.buyOrderId = taker.id ∧ t.sellOrderId = maker.id
    | .sell => t.buyOrderId = maker.id ∧ t.sellOrderId = taker.id
  /-- The trade is at the limit of the order that rested, -/
  atMaker : maker.type = .limit ∧ t.price = maker.price
  /-- and within the limit of the one that came in. -/
  withinTaker : taker.type = .market ∨ match taker.side with
    | .buy => t.price ≤ taker.price
    | .sell => taker.price ≤ t.price
  positive : 0 < t.quantity
  quantities : t.quantity ≤ taker.quantity ∧ t.quantity ≤ maker.quantity
  timestamp : t.timestamp = taker.timestamp

namespace Book

/-- Every entry stands for an order of these calls. -/
def Backed (B : Book) (cs : List Command) : Prop :=
  ∀ side, ∀ e ∈ B.side side, ∃ x, .processOrder x ∈ cs ∧ e.StandsFor side x

section

variable {B : Book} {cs : List Command} {order : IncomingOrder} {left : Int} {side : Side}
  {room : Nat → Bool}

theorem Backed.mono {ds : List Command} (h : B.Backed cs) (hsub : cs ⊆ ds) : B.Backed ds := by
  intro side e he
  obtain ⟨x, hx, hstands⟩ := h side e he
  exact ⟨x, hsub hx, hstands⟩

theorem standsFor_forget {e : Entry} {x : IncomingOrder} (h : e.StandsFor side x) (id : OrderID) :
    (e.forget id).StandsFor side x where
  valid := h.valid
  side := h.side
  type := h.type
  id := h.id.trans (Entry.forget_id id e).symm
  price := h.price.trans (Entry.forget_price id e).symm
  quantity := h.quantity.trans (Entry.forget_quantity id e).symm
  le := by
    rw [Entry.forget_remaining, Entry.forget_quantity]
    exact h.le

theorem Backed.forget (h : B.Backed cs) (id : OrderID) : (B.forget id).Backed cs := by
  intro side e he
  rw [forget_side] at he
  obtain ⟨e', hmem, rfl⟩ := List.mem_map.mp he
  obtain ⟨x, hx, hstands⟩ := h side e' hmem
  exact ⟨x, hx, standsFor_forget hstands id⟩

theorem Backed.forgetAll (h : B.Backed cs) (ids : List OrderID) : (B.forgetAll ids).Backed cs := by
  induction ids generalizing B with
  | nil => exact h
  | cons id ids ih => exact ih (h.forget id)

theorem Backed.setSide {es : List Entry} (h : B.Backed cs)
    (hes : ∀ e ∈ es, ∃ x, .processOrder x ∈ cs ∧ e.StandsFor side x) :
    (B.setSide side es).Backed cs := by
  intro other e he
  rcases Side.eq_or_eq_opposite side other with rfl | rfl
  · rw [setSide_side] at he
    exact hes e he
  · rw [setSide_side_opposite] at he
    exact h _ e he

theorem Backed.matched (h : B.Backed cs) : (B.matched order left).book.Backed cs := by
  refine (h.setSide fun e he => ?_).forgetAll _
  rcases Supply.sweep_kept e he with hmem | ⟨e', hmem, q, hq, -, rfl⟩
  · exact h _ e hmem
  · obtain ⟨x, hx, hstands⟩ := h _ e' hmem
    have hle := hstands.le
    refine ⟨x, hx, { hstands with le := ?_ }⟩
    show e'.remaining - q ≤ e'.quantity
    omega

theorem Backed.rest (h : B.Backed cs) (hx : .processOrder order ∈ cs)
    (hv : validateOrder order = true) (htype : order.type = .limit) (hle : left ≤ order.quantity) :
    (B.rest order left).Backed cs := by
  refine (h.forget order.id).setSide fun e he => ?_
  rcases List.mem_cons.mp ((List.perm_orderedInsert _ _ _).mem_iff.mp he) with rfl | he
  · exact ⟨order, hx, hv, rfl, htype, rfl, rfl, rfl, hle⟩
  · exact h.forget order.id _ e he

theorem Backed.cancel (h : B.Backed cs) (id : OrderID) : (B.cancel id).1.Backed cs :=
  fun side e he => h side e ((cancel_sublist B id side).subset he)

/-- A call backs what it rests. -/
theorem Backed.step (h : B.Backed cs) (hpos : B.Positive) (c : Command) :
    (B.step room c).1.Backed (cs ++ [c]) := by
  have hmono := h.mono (List.subset_append_left cs [c])
  cases c with
  | cancelOrder id => exact hmono.cancel id
  | processOrder order =>
      rw [Book.step]
      cases hv : validateOrder order with
      | false =>
          rw [process_rejected room B hv]
          exact hmono
      | true =>
          have hle := @matched_left_le B order order.quantity hpos
            (Int.le_of_lt (validateOrder_pos hv).1)
          obtain ⟨status, -, ⟨-, -, hbook⟩ | ⟨-, -, htype, hbook⟩ | ⟨-, -, hbook⟩⟩ :=
            process_cases room B hv
          · rw [hbook]
            exact hmono.matched
          · rw [hbook]
            exact hmono.matched.rest (List.mem_append_right _ (List.mem_singleton_self _)) hv
              htype hle
          · rw [hbook]
            exact hmono.matched

/-- A fill is a trade with the order that its maker stands for. -/
theorem fillTrade_between {fill : Entry × Int} {x : IncomingOrder}
    (hx : fill.1.StandsFor order.side.opposite x) (hcross : order.crosses fill.1.price = true)
    (hpos : 0 < fill.2) (hle : fill.2 ≤ fill.1.remaining) (htaker : fill.2 ≤ order.quantity) :
    (fillTrade order fill).Between order x := by
  have hmaker : fill.2 ≤ x.quantity := by
    rw [hx.quantity]
    exact hle.trans hx.le
  rw [IncomingOrder.crosses, Bool.or_eq_true, decide_eq_true_eq] at hcross
  cases hs : order.side with
  | buy =>
      rw [hs] at hcross
      refine ⟨hx.side.trans (by rw [hs]), ?_, ⟨hx.type, ?_⟩, ?_, ?_, ⟨?_, ?_⟩, ?_⟩
      all_goals simp only [fillTrade, hs]
      · exact ⟨trivial, hx.id.symm⟩
      · exact hx.price.symm
      · exact hcross.imp_right of_decide_eq_true
      · exact hpos
      · exact htaker
      · exact hmaker
  | sell =>
      rw [hs] at hcross
      refine ⟨hx.side.trans (by rw [hs]), ?_, ⟨hx.type, ?_⟩, ?_, ?_, ⟨?_, ?_⟩, ?_⟩
      all_goals simp only [fillTrade, hs]
      · exact ⟨hx.id.symm, trivial⟩
      · exact hx.price.symm
      · exact hcross.imp_right of_decide_eq_true
      · exact hpos
      · exact htaker
      · exact hmaker

theorem sweep_taken_le (hpos : B.Positive) (hleft : 0 ≤ left) :
    ∀ t ∈ (B.sweep order left).taken, t.2 ≤ left := by
  intro t ht
  have hconserves := @Supply.sweep_conserves _ Entry.supply (fun e => order.crosses e.price) left
    (B.side order.side.opposite)
  have hrest := @Supply.sweep_left_nonneg _ Entry.supply (fun e => order.crosses e.price) left
    (B.side order.side.opposite) hleft
  have hnonneg : ∀ q ∈ (B.sweep order left).taken.map Prod.snd, 0 ≤ q := by
    intro q hq
    obtain ⟨u, hu, rfl⟩ := List.mem_map.mp hq
    exact Int.le_of_lt (Supply.sweep_taken (fun e he => hpos _ e he) u hu).2.2.1
  have hone := List.single_le_sum hnonneg t.2 (List.mem_map_of_mem ht)
  rw [sweep] at hone
  omega

/-- Every trade of a call is between its order and one that the calls before it
    submitted. -/
theorem Backed.trades (h : B.Backed cs) (hpos : B.Positive) {c : Command} {t : Trade}
    (ht : t ∈ (B.step room c).2.trades) :
    ∃ taker maker, c = .processOrder taker ∧ .processOrder maker ∈ cs ∧
      validateOrder taker = true ∧ validateOrder maker = true ∧ t.Between taker maker := by
  cases c with
  | cancelOrder id =>
      rcases cancel_cases B id with ⟨-, hnone⟩ | ⟨side, e, -, hcancel⟩
      · rw [Book.step, hnone] at ht
        exact absurd ht List.not_mem_nil
      · rw [Book.step, hcancel] at ht
        exact absurd ht List.not_mem_nil
  | processOrder order =>
      rw [Book.step] at ht
      cases hv : validateOrder order with
      | false =>
          simp only [process, hv, Bool.not_false, if_true] at ht
          exact absurd ht List.not_mem_nil
      | true =>
          obtain ⟨status, hevent, -⟩ := process_cases room B hv
          rw [hevent] at ht
          obtain ⟨fill, hfill, rfl⟩ := List.mem_map.mp ht
          have hquantity := Int.le_of_lt (validateOrder_pos hv).1
          obtain ⟨hmem, hcross, hq, hle⟩ := Supply.sweep_taken (fun e he => hpos _ e he) fill hfill
          obtain ⟨x, hx, hstands⟩ := h _ fill.1 hmem
          exact ⟨order, x, rfl, hx, hv, hstands.valid,
            fillTrade_between hstands hcross hq hle (sweep_taken_le hpos hquantity fill hfill)⟩

end

end Book

-- ============================================================================
-- Runs
-- ============================================================================

section

variable {n capacity : Nat} {s s' : MatchingEngine} {cs : List Command} {events : List MatchEvent}

theorem trace_backed (h : Trace (Call n capacity) s cs events s') (hs : s.book = {}) :
    s'.book.Backed cs := by
  induction h with
  | nil =>
      rw [hs]
      intro side e he
      cases side <;> exact absurd he List.not_mem_nil
  | @snoc cs events t u c event _ hcall ih =>
      have hbook : t.book.step (roomIn capacity) c = (u.book, event) := hcall.book
      have hstep := @Book.Backed.step _ _ (roomIn capacity) ih hcall.positive c
      rwa [hbook] at hstep

/-- A trade of event `k` is between the order of call `k` and an earlier one. -/
theorem trace_trades (h : Trace (Call n capacity) s cs events s') (hs : s.book = {}) {k : Nat}
    {event : MatchEvent} (hk : events[k]? = some event) {t : Trade} (ht : t ∈ event.trades) :
    ∃ taker maker, cs[k]? = some (.processOrder taker) ∧ .processOrder maker ∈ cs.take k ∧
      validateOrder taker = true ∧ validateOrder maker = true ∧ t.Between taker maker := by
  induction h with
  | nil => exact absurd hk (by simp)
  | @snoc cs events r u c last htrace hcall ih =>
      have hlength := htrace.length
      by_cases hlt : k < events.length
      · rw [List.getElem?_append_left hlt] at hk
        rw [List.getElem?_append_left (by omega), List.take_append_of_le_length (by omega)]
        exact ih hk
      · have hlast : k = events.length := by
          have hbound := (List.getElem?_eq_some_iff.mp hk).1
          rw [List.length_append, List.length_singleton] at hbound
          omega
        subst hlast
        rw [List.getElem?_concat_length] at hk
        obtain rfl := Option.some.inj hk
        have hbook : r.book.step (roomIn capacity) c = (u.book, last) := hcall.book
        obtain ⟨taker, maker, rfl, hmaker, hvalid⟩ := @Book.Backed.trades _ _ (roomIn capacity)
          (trace_backed htrace hs) hcall.positive c t (by rw [hbook]; exact ht)
        rw [hlength, List.getElem?_concat_length, List.take_left]
        exact ⟨taker, maker, rfl, hmaker, hvalid⟩

end

/-- No order ever trades worse than its limit: in every run on the ladder, whatever ids
    are used again, each trade is between the order of its call and a Limit order of an
    earlier call on the other side, at the price of the earlier one, for no more than
    either asked. -/
theorem run_withinLimits (config : Config) (cs : List Command)
    (h : ∀ c ∈ cs, c.LimitBelow config.maxLevels) :
    ∃ engine events, config.engine.run cs = some (engine, events) ∧
      (∀ (k : Nat) event, events[k]? = some event → ∀ t ∈ event.trades, ∃ taker maker,
        cs[k]? = some (.processOrder taker) ∧ .processOrder maker ∈ cs.take k ∧
        validateOrder taker = true ∧ validateOrder maker = true ∧ t.Between taker maker) ∧
      ∀ side, ∀ e ∈ engine.book.side side, ∃ x, .processOrder x ∈ cs ∧ e.StandsFor side x := by
  obtain ⟨engine, events, hrun, -, htrace⟩ := config.run_calls h
  exact ⟨engine, events, hrun, fun k event hk t ht => trace_trades htrace config.engine_book hk ht,
    trace_backed htrace config.engine_book⟩

/-- In the sample run the fourth call trades with the first two. -/
theorem sample_withinLimits : ∃ engine events,
    Config.small.engine.run sampleCommands = some (engine, events) ∧
      (∀ (k : Nat) event, events[k]? = some event → ∀ t ∈ event.trades, ∃ taker maker,
        sampleCommands[k]? = some (.processOrder taker) ∧
        .processOrder maker ∈ sampleCommands.take k ∧
        validateOrder taker = true ∧ validateOrder maker = true ∧ t.Between taker maker) ∧
      ∀ side, ∀ e ∈ engine.book.side side, ∃ x, .processOrder x ∈ sampleCommands ∧
        e.StandsFor side x :=
  run_withinLimits Config.small sampleCommands (by decide)

end LimitOrderBook
