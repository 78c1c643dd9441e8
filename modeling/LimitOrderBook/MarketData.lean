/-
  LimitOrderBook.MarketData

  `market_data.h`: the top-of-book snapshot.

  A best price is 0 when its side is empty, and 0 is also a level of the ladder
  at which a quantity can be asked for.  The snapshot is right because no order
  rests at price 0: the engine takes Limit orders with a positive price only.
-/
import LimitOrderBook.Invariants

namespace LimitOrderBook

open Lib MatchingEngine

/-- Top-of-book snapshot. -/
structure TopOfBook where
  bestBid : Int := 0
  bidQuantity : Int := 0
  bestAsk : Int := 0
  askQuantity : Int := 0
  spread : Int := 0
  deriving DecidableEq, Repr

/-- The snapshot of an engine; no value when a quantity overflows. -/
def getTopOfBook (engine : MatchingEngine) : Option TopOfBook := do
  let bestBid := engine.bestBid
  let bestAsk := engine.bestAsk
  let spread := engine.spread
  let bidQuantity ← engine.restingQuantity .buy bestBid
  let askQuantity ← engine.restingQuantity .sell bestAsk
  return { bestBid, bidQuantity, bestAsk, askQuantity, spread }

/-- The snapshot says what is at the top of the book. -/
structure TopOfBook.Exact (tob : TopOfBook) (B : Book) : Prop where
  /-- The highest bid, or 0 without bids. -/
  bestBid : B.Quoted .buy tob.bestBid
  /-- The lowest ask, or 0 without asks. -/
  bestAsk : B.Quoted .sell tob.bestAsk
  bidQuantity : tob.bidQuantity = B.restingTotal .buy tob.bestBid
  askQuantity : tob.askQuantity = B.restingTotal .sell tob.bestAsk
  bids : (B.bids ≠ [] → 0 < tob.bidQuantity) ∧ (B.bids = [] → tob.bidQuantity = 0)
  asks : (B.asks ≠ [] → 0 < tob.askQuantity) ∧ (B.asks = [] → tob.askQuantity = 0)
  spread : (B.bids ≠ [] ∧ B.asks ≠ [] → tob.spread = tob.bestAsk - tob.bestBid ∧ 0 < tob.spread) ∧
    (B.bids = [] ∨ B.asks = [] → tob.spread = 0)

/-- The total at each price fits `int64_t`. -/
def Book.Fits (B : Book) : Prop := ∀ side price, B.restingTotal side price ≤ INT64_MAX

-- ============================================================================
-- No order rests at price 0
-- ============================================================================

namespace Book

/-- Every resting order has a positive price. -/
def Priced (B : Book) : Prop := ∀ side, ∀ p ∈ (B.side side).map Entry.price, 0 < p

section

variable {B : Book} {order : IncomingOrder} {left : Int}

theorem matched_priced (h : B.Priced) : (B.matched order left).book.Priced := by
  intro side
  rcases Side.eq_or_eq_opposite order.side side with rfl | rfl
  · rw [matched_own_price]
    exact h order.side
  · intro p hp
    exact h order.side.opposite p (matched_opposite_price.subset hp)

theorem rest_priced (h : B.Priced) (hprice : 0 < order.price) : (B.rest order left).Priced := by
  intro side p hp
  have hforget : ∀ other, ((B.side other).map (Entry.forget order.id)).map Entry.price =
      (B.side other).map Entry.price := by
    intro other
    rw [List.map_map]
    exact List.map_congr_left fun e _ => Entry.forget_price ..
  rcases Side.eq_or_eq_opposite order.side side with rfl | rfl
  · rw [rest, setSide_side, forget_side] at hp
    obtain ⟨e, he, rfl⟩ := List.mem_map.mp hp
    rcases (List.mem_orderedInsert _).mp he with rfl | he
    · exact hprice
    · exact h order.side e.price (hforget order.side ▸ List.mem_map_of_mem he)
  · rw [rest, setSide_side_opposite, forget_side, hforget] at hp
    exact h order.side.opposite p hp

/-- A call keeps the prices positive, for an order rests only if its price is. -/
theorem step_priced {room : Nat → Bool} {c : Command} (h : B.Priced) :
    (B.step room c).1.Priced := by
  cases c with
  | cancelOrder id =>
      intro side p hp
      exact h side p (((cancel_sublist B id side).map Entry.price).subset hp)
  | processOrder order =>
      rw [step]
      cases hv : validateOrder order with
      | false =>
          rw [process_rejected room B hv]
          exact h
      | true =>
          obtain ⟨status, -, ⟨-, -, hbook⟩ | ⟨-, -, hlimit, hbook⟩ | ⟨-, -, hbook⟩⟩ :=
            process_cases room B hv
          · rw [hbook]
            exact matched_priced h
          · rw [hbook]
            exact rest_priced (matched_priced h) ((validateOrder_pos hv).2.1 hlimit)
          · rw [hbook]
            exact matched_priced h

/-- The total at the best price of a side is positive when the side has orders. -/
theorem Quoted.total_pos {side : Side} {price : Int} (h : B.Quoted side price)
    (hpos : B.Positive) (hne : B.side side ≠ []) : 0 < B.restingTotal side price := by
  rcases h with ⟨hnil, -⟩ | ⟨e, he, hprice, -⟩
  · exact absurd hnil hne
  · apply Supply.total_pos
    · intro x hx
      exact hpos side x (List.mem_filter.mp hx).1
    · exact List.ne_nil_of_mem (List.mem_filter.mpr ⟨he, decide_eq_true hprice⟩)

theorem restingTotal_of_nil {side : Side} {price : Int} (h : B.side side = []) :
    B.restingTotal side price = 0 := by
  rw [restingTotal, h]
  rfl

/-- The best price of a side with orders is the price of one of them. -/
theorem Quoted.pos {side : Side} {price : Int} (h : B.Quoted side price) (hpriced : B.Priced)
    (hne : B.side side ≠ []) : 0 < price := by
  rcases h with ⟨hnil, -⟩ | ⟨e, he, rfl, -⟩
  · exact absurd hnil hne
  · exact hpriced side e.price (List.mem_map_of_mem he)

theorem Quoted.zero {side : Side} {price : Int} (h : B.Quoted side price)
    (hnil : B.side side = []) : price = 0 := by
  rcases h with ⟨-, hzero⟩ | ⟨e, he, -⟩
  · exact hzero
  · rw [hnil] at he
    exact absurd he List.not_mem_nil

/-- The best bid is below the best ask. -/
theorem Quoted.lt {bid ask : Int} (hbid : B.Quoted .buy bid) (hask : B.Quoted .sell ask)
    (hun : B.Uncrossed) (hbids : B.bids ≠ []) (hasks : B.asks ≠ []) : bid < ask := by
  rcases hbid with ⟨hnil, -⟩ | ⟨b, hb, rfl, -⟩
  · exact absurd hnil hbids
  · rcases hask with ⟨hnil, -⟩ | ⟨a, ha, rfl, -⟩
    · exact absurd hnil hasks
    · exact hun b hb a ha

end

end Book

-- ============================================================================
-- The snapshot of a sound engine
-- ============================================================================

namespace MatchingEngine

section

variable {self : MatchingEngine} {n capacity : Nat} {L : Layout}

/-- While the totals fit, a quantity is the total at its price. -/
theorem Rep.restingQuantity_of_fits (h : self.Rep n capacity L) (hfits : self.book.Fits)
    (side : Side) (price : Int) :
    self.restingQuantity side price = some (self.book.restingTotal side price) := by
  rw [h.restingQuantity_eq, Book.restingQuantity_eq h.book_positive, if_pos (hfits side price)]

theorem Rep.getTopOfBook_eq (h : self.Rep n capacity L) (hfits : self.book.Fits) :
    getTopOfBook self = some
      { bestBid := self.bestBid, bidQuantity := self.book.restingTotal .buy self.bestBid,
        bestAsk := self.bestAsk, askQuantity := self.book.restingTotal .sell self.bestAsk,
        spread := self.spread } := by
  simp only [getTopOfBook, h.restingQuantity_of_fits hfits]
  rfl

theorem Rep.spread_eq (h : self.Rep n capacity L) (hun : self.book.Uncrossed)
    (hpriced : self.book.Priced) :
    (self.book.bids ≠ [] ∧ self.book.asks ≠ [] →
      self.spread = self.bestAsk - self.bestBid ∧ 0 < self.spread) ∧
    (self.book.bids = [] ∨ self.book.asks = [] → self.spread = 0) := by
  have hbid := h.bestPrice_quoted .buy
  have hask := h.bestPrice_quoted .sell
  simp only [bestPrice] at hbid hask
  rw [spread]
  constructor
  · rintro ⟨hbids, hasks⟩
    have hlt := hbid.lt hask hun hbids hasks
    have hbpos := hbid.pos hpriced hbids
    rw [if_neg (by omega)]
    omega
  · rintro (hbids | hasks)
    · exact if_pos (.inl (hbid.zero hbids))
    · exact if_pos (.inr (hask.zero hasks))

theorem Sound.topOfBook (h : self.Sound n capacity L) (hun : self.book.Uncrossed)
    (hpriced : self.book.Priced) (hfits : self.book.Fits) :
    ∃ tob, getTopOfBook self = some tob ∧ tob.Exact self.book := by
  have hbid := h.bestPrice_quoted .buy
  have hask := h.bestPrice_quoted .sell
  refine ⟨_, h.getTopOfBook_eq hfits, hbid, hask, rfl, rfl, ?_, ?_, h.spread_eq hun hpriced⟩
  · exact ⟨hbid.total_pos h.book_positive, fun hnil => @Book.restingTotal_of_nil _ .buy _ hnil⟩
  · exact ⟨hask.total_pos h.book_positive, fun hnil => @Book.restingTotal_of_nil _ .sell _ hnil⟩

theorem Call.priced {s s' : MatchingEngine} {c : Command} {event : MatchEvent}
    (hcall : Call n capacity s c event s') (h : s.book.Priced) : s'.book.Priced := by
  have hstep : s.book.step (roomIn capacity) c = (s'.book, event) := hcall.book
  have hpriced := @Book.step_priced _ (roomIn capacity) c h
  rwa [hstep] at hpriced

end

end MatchingEngine

theorem Config.engine_priced (config : Config) : config.engine.book.Priced := by
  intro side p hp
  rw [config.engine_book] at hp
  cases side <;> exact absurd hp List.not_mem_nil

/-- After every run with prices on the ladder the snapshot is exact, if the totals
    of the levels fit `int64_t`. -/
theorem run_topOfBook (config : Config) (cs : List Command)
    (h : ∀ c ∈ cs, c.LimitBelow config.maxLevels) :
    ∃ engine events, config.engine.run cs = some (engine, events) ∧
      (engine.book.Fits → ∃ tob, getTopOfBook engine = some tob ∧ tob.Exact engine.book) := by
  obtain ⟨engine, events, hrun, ⟨L, hsound⟩, htrace⟩ := config.run_calls h
  have hkept := @Trace.invariant _ _ _ _ (fun s => s.book.Uncrossed ∧ s.book.Priced) _ _ _ _
    (fun s c event t hs hcall => ⟨hcall.uncrossed hs.1, hcall.priced hs.2⟩)
    ⟨config.engine_uncrossed, config.engine_priced⟩ htrace
  exact ⟨engine, events, hrun, hsound.topOfBook hkept.1 hkept.2⟩

/-- The sample run leaves a bid of 7 at 4 and an ask of 15 at 5. -/
theorem sample_topOfBook : ∃ engine events tob,
    Config.small.engine.run sampleCommands = some (engine, events) ∧
      getTopOfBook engine = some tob ∧ tob.Exact engine.book := by
  obtain ⟨engine, events, hrun, hexact⟩ := run_topOfBook Config.small sampleCommands (by decide)
  obtain ⟨engine', events', hrun', hbook⟩ := @exec_test _ _ _ step Config.small.engine
    sampleCommands (fun s => s.book ==
      ⟨[⟨2, 4, 7, 7, true⟩], [⟨2, 5, 30, 15, false⟩]⟩) (by decide +kernel)
  obtain ⟨rfl, rfl⟩ := result_unique hrun hrun'
  have hfits : engine.book.Fits := by
    rw [eq_of_beq hbook]
    intro side price
    cases side <;> simp only [Book.restingTotal, Book.side, List.filter_cons,
      List.filter_nil] <;> split <;> decide
  obtain ⟨tob, htob, hall⟩ := hexact hfits
  exact ⟨engine, events, tob, hrun, htob, hall⟩

end LimitOrderBook
