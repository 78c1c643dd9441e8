/-
  LimitOrderBook.PoolExhaustion

  When an order is cancelled because the pool has no slot for it.

  A residual after a fill means that the crossing makers were consumed, and each
  of them freed its slot inside the loop.  So an order that traded always finds a
  slot, and one that finds none has not touched the book: the call leaves the
  engine as it was.
-/
import LimitOrderBook.OffLadder

namespace LimitOrderBook

open Lib MatchingEngine

namespace MatchingEngine

/-- The number of orders linked on the two ladders. -/
def linked (self : MatchingEngine) : Nat :=
  (self.sideSlots .buy).length + (self.sideSlots .sell).length

theorem book_size_eq (self : MatchingEngine) : self.book.size = self.linked := by
  simp [linked, Book.size, book]

section

variable {self : MatchingEngine} {n capacity : Nat} {L : Layout} {order : IncomingOrder}

/-- Every slot is linked exactly when none is free. -/
theorem Sound.linked_iff (h : self.Sound n capacity L) (hcap : capacity < 2 ^ 32) :
    self.linked = capacity ↔ self.pool.freeHead = UINT32_MAX := by
  have hsize := h.book_size
  have husable : OrderPool.usable capacity = capacity := by
    rw [OrderPool.usable, UINT32_MAX]
    omega
  rw [husable, h.held, List.length_nil, book_size_eq] at hsize
  rw [h.pool.chain.top_eq_nil, ← List.length_eq_zero_iff]
  omega

/-- A residual finds no slot exactly when every slot is linked and nothing crosses. -/
theorem Sound.not_findsSlot_iff (h : self.Sound n capacity L) (hcap : capacity < 2 ^ 32) :
    ¬ self.FindsSlot order ↔
      (∀ e ∈ self.book.side order.side.opposite, order.crosses e.price = false) ∧
        self.linked = capacity := by
  rw [h.linked_iff hcap, ← Book.crossing_eq_nil_iff h.book_sorted, FindsSlot, not_or, not_not,
    not_not]
  exact and_comm

/-- What a valid Limit order's call reports of the order itself. -/
theorem Sound.processOrder_limit (h : self.Sound n capacity L) (hv : validateOrder order = true)
    (hlimit : order.type = .limit) :
    ∃ engine event status filled left, self.processOrder order = some (engine, event) ∧
      event.reports.getLast? = some (takerReport order status filled left) ∧
      (status = .cancelled ↔ ¬ self.FindsSlot order) ∧
      (status = .cancelled → event.trades = [] ∧ filled = 0 ∧ engine = self) ∧
      (event.trades ≠ [] → left ≠ 0 →
        ∃ st, self.matchOrder order = some st ∧ st.engine.pool.allocate.isSome = true) := by
  by_cases hslot : self.FindsSlot order
  · by_cases hres : self.LeavesResidual order
    · have hpos := Int.le_of_lt (validateOrder_pos hv).1
      obtain ⟨st, L', hmatch, hm, hswept⟩ := matchOrder_spec h.settled hpos
      have hleft := (Swept.pos_iff h.toRep hpos hswept).mpr hres
      obtain ⟨p, free, hfree⟩ := List.exists_cons_of_ne_nil
        ((Matching.free_ne_nil h.toRep hm.held hm.rep hswept hleft).mpr hslot)
      have hstatus : (st.engine.restOrder order st.order.quantity .resting).2 = .resting := by
        rw [restOrder_some hm.rep hfree]
      refine ⟨_, _, _, _, _, processOrder_rest hv hmatch (by omega) hlimit,
        List.getLast?_concat .., ?_, ?_, ?_⟩
      · rw [hstatus]
        exact iff_of_false (by decide) (not_not.mpr hslot)
      · rw [hstatus]
        exact fun hc => absurd hc (by decide)
      · intro _ _
        exact ⟨st, hmatch, by rw [(hm.rep.allocate hfree).1]; rfl⟩
    · obtain ⟨st, L', -, -, -, hstep⟩ := processOrder_filled h.settled hv hres
      refine ⟨_, _, _, _, _, hstep, List.getLast?_concat .., ?_, ?_, ?_⟩
      · exact iff_of_false (by decide) (not_not.mpr hslot)
      · exact fun hc => absurd hc (by decide)
      · exact fun _ hc => absurd rfl hc
  · refine ⟨_, _, _, _, _, processOrder_refused h.settled hv hlimit hslot, rfl, ?_, ?_, ?_⟩
    · exact iff_of_true rfl hslot
    · exact fun _ => ⟨rfl, rfl, rfl⟩
    · exact fun hc => absurd rfl hc

end

end MatchingEngine

/-- In every state of a run on the ladder, the call of a valid Limit order reports
    it as cancelled exactly when it crosses nothing and every slot of the pool is
    linked; then nothing has changed.  An order that trades and keeps a residual
    gets a slot.  The order's own price need not be on the ladder for this. -/
theorem run_exhausted (config : Config) (hcap : config.poolCapacity < 2 ^ 32) (cs : List Command)
    (h : ∀ c ∈ cs, c.LimitBelow config.maxLevels) (order : IncomingOrder)
    (hv : validateOrder order = true) (hlimit : order.type = .limit) :
    ∃ engine events engine' event taker,
      config.engine.run cs = some (engine, events) ∧
      engine.processOrder order = some (engine', event) ∧
      event.reports.getLast? = some taker ∧ taker.orderId = order.id ∧
      (taker.status = .cancelled ↔
        (∀ e ∈ engine.book.side order.side.opposite, order.crosses e.price = false) ∧
          engine.linked = config.poolCapacity) ∧
      (taker.status = .cancelled →
        event.trades = [] ∧ taker.filledQuantity = 0 ∧ engine' = engine) ∧
      (event.trades ≠ [] → taker.remainingQuantity ≠ 0 →
        ∃ st, engine.matchOrder order = some st ∧ st.engine.pool.allocate.isSome = true) := by
  obtain ⟨engine, events, hrun, ⟨L, hs⟩, -⟩ := config.run_calls h
  obtain ⟨engine', event, status, filled, left, hstep, hlast, hiff, hsame, hroom⟩ :=
    hs.processOrder_limit hv hlimit
  refine ⟨engine, events, engine', event, _, hrun, hstep, hlast, rfl, ?_, hsame, hroom⟩
  rw [← hs.not_findsSlot_iff hcap]
  exact hiff

/-- Three bids fill the pool. -/
def fullCommands : List Command :=
  [.processOrder (makeOrder 1 .buy 4 10), .processOrder (makeOrder 2 .buy 5 10),
    .processOrder (makeOrder 3 .buy 5 10)]

/-- A sell that takes the best bids from the full pool. -/
theorem full_exhausted : ∃ engine events engine' event taker,
    Config.small.engine.run fullCommands = some (engine, events) ∧
    engine.processOrder (makeOrder 4 .sell 5 25) = some (engine', event) ∧
    event.reports.getLast? = some taker ∧ taker.orderId = 4 ∧
    (taker.status = .cancelled ↔
      (∀ e ∈ engine.book.side .buy, (makeOrder 4 .sell 5 25).crosses e.price = false) ∧
        engine.linked = 3) ∧
    (taker.status = .cancelled →
      event.trades = [] ∧ taker.filledQuantity = 0 ∧ engine' = engine) ∧
    (event.trades ≠ [] → taker.remainingQuantity ≠ 0 →
      ∃ st, engine.matchOrder (makeOrder 4 .sell 5 25) = some st ∧
        st.engine.pool.allocate.isSome = true) :=
  run_exhausted Config.small (by decide) fullCommands (by decide) (makeOrder 4 .sell 5 25) rfl rfl

end LimitOrderBook
