/-
  LimitOrderBook.LevelTotals

  When the running sum at a price stays within `int64_t`.

  The validators bound each order by itself and nothing bounds what rests at one
  price together.  The total at a price grows only when an order rests there
  (`overfills` is the call that takes it out of range), so a run in which no call
  overfills a level has exact quantities throughout.
-/
import LimitOrderBook.DuplicateIds
import LimitOrderBook.MarketData
import LimitOrderBook.RestingReport

namespace LimitOrderBook

open Lib MatchingEngine

-- ============================================================================
-- The totals of a book along a call
-- ============================================================================

namespace Book

section

variable {B : Book} {order : IncomingOrder} {left price : Int}

theorem restingTotal_nonneg (hpos : B.Positive) (side : Side) (price : Int) :
    0 ≤ B.restingTotal side price :=
  Supply.total_nonneg fun e he => hpos side e (List.mem_filter.mp he).1

/-- The total at a price is at least what any one order has left there. -/
theorem remaining_le_restingTotal (hpos : B.Positive) {side : Side} {e : Entry}
    (he : e ∈ B.side side) : e.remaining ≤ B.restingTotal side e.price := by
  have hmem : e ∈ (B.side side).filter fun x => x.price = e.price :=
    List.mem_filter.mpr ⟨he, decide_eq_true rfl⟩
  obtain ⟨xs, ys, hsplit⟩ := List.append_of_mem hmem
  have hpart : ∀ zs : List Entry, zs ⊆ (B.side side).filter (fun x => x.price = e.price) →
      0 ≤ Entry.supply.total zs := by
    intro zs hzs
    exact Supply.total_nonneg fun x hx => hpos side x (List.mem_filter.mp (hzs hx)).1
  have hxs := hpart xs (by rw [hsplit]; simp)
  have hys := hpart ys (by rw [hsplit]; simp)
  have hamount : Entry.supply.amount e = e.remaining := rfl
  have htotal : B.restingTotal side e.price =
      Entry.supply.total xs + (e.remaining + Entry.supply.total ys) := by
    rw [restingTotal, hsplit, Supply.total, List.map_append, List.sum_append, List.map_cons,
      List.sum_cons, hamount]
    rfl
  omega

/-- Matching adds to no total. -/
theorem matched_restingTotal_le (hpos : B.Positive) (side : Side) :
    (B.matched order left).book.restingTotal side price ≤ B.restingTotal side price := by
  rcases Side.eq_or_eq_opposite order.side side with rfl | rfl
  · exact Int.le_of_eq matched_restingTotal
  · rw [restingTotal, matched_opposite, total_map (fun e => Entry.forgetAll_price ..)
      (fun e => Entry.forgetAll_remaining ..)]
    apply Supply.sweep_kept_total_le
    · intro e q
      rfl
    · intro e q hq
      show e.remaining - q ≤ e.remaining
      omega
    · exact hpos order.side.opposite

/-- Unless the order rests, the book is what matching leaves. -/
theorem process_matched {room : Nat → Bool} (hv : validateOrder order = true)
    (hno : ¬ ((B.matched order order.quantity).left ≠ 0 ∧ order.type = .limit ∧
      room (B.matched order order.quantity).book.size = true)) :
    (B.process room order).1 = (B.matched order order.quantity).book := by
  simp only [process, hv, Bool.not_true, Bool.false_eq_true, if_false]
  split
  · rfl
  · next hleft => rw [if_neg fun hrest => hno ⟨hleft, hrest⟩]

/-- A cancel adds to no total. -/
theorem cancel_restingTotal_le (hpos : B.Positive) (id : OrderID) (side : Side) :
    (B.cancel id).1.restingTotal side price ≤ B.restingTotal side price := by
  have hsub := ((cancel_sublist B id side).filter fun e => e.price = price).map
    Entry.supply.amount
  apply hsub.sum_le_sum
  intro amount hamount
  obtain ⟨e, he, rfl⟩ := List.mem_map.mp hamount
  exact Int.le_of_lt (hpos side e (List.mem_filter.mp he).1)

end

end Book

namespace MatchingEngine

/-- The call rests an order at a price whose total it takes out of `int64_t`. -/
def overfills (self : MatchingEngine) : Command → Bool
  | .processOrder order =>
      validateOrder order && order.type = .limit && self.LeavesResidual order &&
        self.FindsSlot order &&
        decide (INT64_MAX < self.book.restingTotal order.side order.price +
          (order.quantity - Entry.supply.total (self.book.crossing order)))
  | .cancelOrder _ => false

/-- Every quantity is the total at its price, and the snapshot publishes it. -/
structure TotalsExact (engine : MatchingEngine) : Prop where
  quantity : ∀ side price, ∃ q, engine.restingQuantity side price = some q ∧
    q = engine.book.restingTotal side price ∧ 0 ≤ q ∧
    ∀ e ∈ engine.book.side side, e.price = price → e.remaining ≤ q
  published : ∃ tob, getTopOfBook engine = some tob ∧
    tob.bidQuantity = engine.book.restingTotal .buy tob.bestBid ∧
    tob.askQuantity = engine.book.restingTotal .sell tob.bestAsk

section

variable {self : MatchingEngine} {n capacity : Nat} {L : Layout} {c : Command}

theorem Sound.totalsExact (h : self.Sound n capacity L) (hfits : self.book.Fits) :
    self.TotalsExact := by
  refine ⟨?_, _, h.getTopOfBook_eq hfits, rfl, rfl⟩
  intro side price
  refine ⟨_, h.restingQuantity_of_fits hfits side price, rfl, ?_, ?_⟩
  · exact Book.restingTotal_nonneg h.book_positive side price
  · rintro e he rfl
    exact Book.remaining_le_restingTotal h.book_positive he

/-- What is left of an order that rests. -/
theorem Sound.matched_left_eq (h : self.Sound n capacity L) {order : IncomingOrder}
    (hv : validateOrder order = true) (hres : self.LeavesResidual order) :
    (self.book.matched order order.quantity).left =
      order.quantity - Entry.supply.total (self.book.crossing order) := by
  have hpos := (validateOrder_pos hv).1
  rw [LeavesResidual] at hres
  rw [Book.matched_left h.book_positive (Int.le_of_lt hpos)]
  omega

/-- A call that does not overfill a level keeps the totals in range. -/
theorem Sound.step_fits (h : self.Sound n capacity L) (hfits : self.book.Fits)
    (hc : self.overfills c = false) : (self.book.step (roomIn capacity) c).1.Fits := by
  intro side price
  have hold := hfits side price
  cases c with
  | cancelOrder id =>
      exact (Book.cancel_restingTotal_le h.book_positive id side).trans hold
  | processOrder order =>
      have hmatched := @Book.matched_restingTotal_le self.book order order.quantity price
        h.book_positive side
      cases hv : validateOrder order with
      | false =>
          rw [Book.step, Book.process_rejected _ _ hv]
          exact hold
      | true =>
          by_cases hrests : order.type = .limit ∧ self.LeavesResidual order ∧ self.FindsSlot order
          · obtain ⟨hlimit, hres, hslot⟩ := hrests
            rw [h.book_rests hv hlimit hres hslot, Book.rest_restingTotal,
              h.matched_left_eq hv hres]
            split
            · next hat =>
                simp only [overfills, hv, hlimit, hres, hslot, decide_true, Bool.and_true] at hc
                have hle := of_decide_eq_false hc
                rw [← hat.1, ← hat.2] at hle
                omega
            · omega
          · have hbook : (self.book.process (roomIn capacity) order).1 =
                (self.book.matched order order.quantity).book := by
              apply Book.process_matched hv
              rintro ⟨hleft, hlimit, hroom⟩
              exact hrests ⟨hlimit, (h.rests_iff (validateOrder_pos hv).1).mp ⟨hleft, hroom⟩⟩
            rw [Book.step, hbook]
            exact hmatched.trans hold

/-- After a call that overfills a level the total there is out of range. -/
theorem Sound.step_not_fits (h : self.Sound n capacity L) (hc : self.overfills c = true) :
    ∃ side price, INT64_MAX <
      (self.book.step (roomIn capacity) c).1.restingTotal side price := by
  cases c with
  | cancelOrder id => exact absurd hc (by simp [overfills])
  | processOrder order =>
      simp only [overfills, Bool.and_eq_true, decide_eq_true_eq] at hc
      obtain ⟨⟨⟨⟨hv, hlimit⟩, hres⟩, hslot⟩, hbig⟩ := hc
      refine ⟨order.side, order.price, ?_⟩
      rw [h.book_rests hv hlimit hres hslot, Book.rest_restingTotal, if_pos ⟨rfl, rfl⟩,
        Book.matched_restingTotal, h.matched_left_eq hv hres]
      exact hbig

end

end MatchingEngine

-- ============================================================================
-- Runs
-- ============================================================================

/-- The largest quantity there is, bid twice at one price. -/
def overfullCommands : List Command :=
  [.processOrder (makeOrder 1 .buy 5 INT64_MAX), .processOrder (makeOrder 2 .buy 5 INT64_MAX)]

/-- Both orders rest, and the quantity at their price has no value. -/
theorem overfull_not_exact : ∃ engine events,
    Config.small.engine.run overfullCommands = some (engine, events) ∧
      engine.restingQuantity .buy 5 = none ∧ ¬ engine.TotalsExact := by
  obtain ⟨engine, events, hrun, htest⟩ := @exec_test _ _ _ step Config.small.engine
    overfullCommands (fun s => (s.restingQuantity .buy 5).isNone) (by decide +kernel)
  have hnone := Option.isNone_iff_eq_none.mp htest
  refine ⟨engine, events, hrun, hnone, fun hexact => ?_⟩
  obtain ⟨q, hq, -⟩ := hexact.quantity .buy 5
  rw [hnone] at hq
  exact absurd hq (by simp)

/-- At every point of a run all quantities are exact and published, exactly when no
    call of the run overfills a level. -/
theorem run_totalsExact_iff (config : Config) (cs : List Command)
    (hcs : ∀ c ∈ cs, c.LimitBelow config.maxLevels) :
    (∀ pre post, cs = pre ++ post → ∃ engine events,
      config.engine.run pre = some (engine, events) ∧ engine.TotalsExact) ↔
    Along step (fun s c => s.overfills c = false) config.engine cs := by
  rw [← config.levels_eq] at hcs
  have hbelow : ∀ pre c post, cs = pre ++ c :: post → c.LimitBelow config.levels :=
    fun pre c post hsplit => hcs c (by rw [hsplit]; simp)
  apply @exec_prefix_iff _ _ _ step (fun _ _ s =>
    (∃ L, s.Sound config.levels config.poolCapacity L) ∧ s.book.Fits)
  · refine ⟨⟨_, config.engine_sound⟩, ?_⟩
    intro side price
    rw [config.engine_book]
    cases side <;> exact (by decide : (0 : Int) ≤ INT64_MAX)
  · rintro pre events s ⟨⟨L, hs⟩, hfits⟩
    exact hs.totalsExact hfits
  · rintro pre c post hsplit events s ⟨⟨L, hs⟩, hfits⟩ hc
    obtain ⟨t, event, L', hstep, ht, hbook, -⟩ := step_spec hs (hbelow pre c post hsplit)
    have hfirst : (s.book.step (roomIn config.poolCapacity) c).1 = t.book := congrArg Prod.fst hbook
    exact ⟨t, event, hstep, ⟨L', ht⟩, hfirst ▸ hs.step_fits hfits hc⟩
  · rintro pre c post hsplit events s ⟨⟨L, hs⟩, -⟩ hc t event hstep hexact
    obtain ⟨t', event', L', hstep', ht, hbook, -⟩ := step_spec hs (hbelow pre c post hsplit)
    obtain ⟨rfl, rfl⟩ := result_unique hstep hstep'
    have hfirst : (s.book.step (roomIn config.poolCapacity) c).1 = t.book := congrArg Prod.fst hbook
    obtain ⟨side, price, hbig⟩ := hs.step_not_fits (Bool.not_eq_false _ ▸ hc)
    obtain ⟨q, hq, -⟩ := hexact.quantity side price
    rw [hfirst] at hbig
    rw [ht.restingQuantity_total, if_neg (by omega)] at hq
    exact absurd hq (by simp)

/-- No call of the sample run overfills a level. -/
theorem sample_totalsExact : ∃ engine events,
    Config.small.engine.run sampleCommands = some (engine, events) ∧ engine.TotalsExact :=
  (run_totalsExact_iff Config.small sampleCommands (by decide)).mpr
    (along_not_of_check (by decide +kernel)) sampleCommands [] (List.append_nil _).symm

end LimitOrderBook
