/-
  LimitOrderBook.PartialFills

  Which resting orders can be partly filled.

  Two things fill an order in part: a taker that ends on it, which makes it the best of
  its side, and its own matching before it rests, after which its whole side is worse.
  So in every run, with any ids, an order that stands behind another one of its price
  has its full quantity left.
-/
import LimitOrderBook.LimitPrices
import LimitOrderBook.Invariants

namespace LimitOrderBook

open Lib MatchingEngine

/-- What an order leaves on the book. -/
def IncomingOrder.entry (x : IncomingOrder) (left : Int) : Entry :=
  { id := x.id, price := x.price, quantity := x.quantity, remaining := left, mapped := true }

/-- Of two entries of one price, the one behind is untouched. -/
def Entry.Before (a b : Entry) : Prop := a.price = b.price → b.remaining = b.quantity

namespace Book

/-- Only the first order of a price can be partly filled. -/
def FrontPartial (B : Book) : Prop := ∀ side, (B.side side).Pairwise Entry.Before

section

variable {B : Book} {order : IncomingOrder} {left : Int} {room : Nat → Bool}

/-- A map update does not show. -/
theorem before_forgetAll (ids : List OrderID) {l : List Entry} (h : l.Pairwise Entry.Before) :
    (l.map (Entry.forgetAll ids)).Pairwise Entry.Before := by
  refine List.pairwise_map.mpr (h.imp fun {a b} hab => ?_)
  rw [Entry.Before, Entry.forgetAll_price, Entry.forgetAll_price, Entry.forgetAll_remaining,
    Entry.forgetAll_quantity]
  exact hab

theorem matched_frontPartial (h : B.FrontPartial) :
    (B.matched order left).book.FrontPartial := by
  intro side
  rcases Side.eq_or_eq_opposite order.side side with rfl | rfl
  · rw [matched_own]
    exact before_forgetAll _ (h order.side)
  · rw [matched_opposite]
    exact before_forgetAll _ (Supply.sweep_kept_pairwise (fun _ _ _ hxy => hxy)
      (h order.side.opposite))

/-- A priced order crosses no price beyond its own. -/
theorem crosses_of_beyond {price : Int} (htype : order.type ≠ .market)
    (h : order.side.better price order.price) : order.crosses price = false := by
  rw [IncomingOrder.crosses, decide_eq_false htype, Bool.false_or]
  cases hs : order.side with
  | buy =>
      rw [hs] at h
      exact decide_eq_false (Int.not_le.mpr h)
  | sell =>
      rw [hs] at h
      exact decide_eq_false (Int.not_le.mpr h)

/-- An order that finds its own price on its side trades nothing. -/
theorem matched_join (huncrossed : B.Uncrossed) (htype : order.type ≠ .market) {e : Entry}
    (he : e ∈ B.side order.side) (hprice : e.price = order.price) :
    B.matched order left = ⟨B, [], [], left⟩ := by
  apply matched_of_taken_nil
  refine Supply.sweep_unwanted fun x hx => crosses_of_beyond htype ?_
  rw [← hprice]
  exact (uncrossed_iff order.side).mp huncrossed _ (List.mem_map_of_mem he) _
    (List.mem_map_of_mem hx)

theorem forget_frontPartial (h : B.FrontPartial) (id : OrderID) : (B.forget id).FrontPartial := by
  intro side
  rw [forget_side]
  exact before_forgetAll [id] (h side)

/-- What rests is untouched, or has its price for itself. -/
theorem rest_frontPartial (hsorted : B.Sorted) (h : B.FrontPartial)
    (hleft : ∀ e ∈ B.side order.side, e.price = order.price → left = order.quantity) :
    (B.rest order left).FrontPartial := by
  intro side
  have hforget := forget_frontPartial h order.id
  rcases Side.eq_or_eq_opposite order.side side with rfl | rfl
  · rw [rest, setSide_side]
    refine Buckets.orderedInsert_pairwise_of (better_trans_price order.side)
      ((forget_sorted order.id hsorted).pairwise order.side) (hforget order.side) ?_ ?_
    · intro a ha hnot hprice
      rw [forget_side] at ha
      obtain ⟨e, he, rfl⟩ := List.mem_map.mp ha
      exact hleft e he ((Entry.forget_price ..).symm.trans hprice)
    · -- what stands behind it is worse
      intro b hb hbetter hprice
      rw [hprice] at hbetter
      exact absurd hbetter (order.side.better_asymm _ _ hbetter)
  · rw [rest, setSide_side_opposite]
    exact hforget order.side.opposite

/-- A call keeps partial fills to the front of their price. -/
theorem step_frontPartial (hsorted : B.Sorted) (huncrossed : B.Uncrossed) (h : B.FrontPartial)
    (c : Command) : (B.step room c).1.FrontPartial := by
  cases c with
  | cancelOrder id => exact fun side => (h side).sublist (cancel_sublist B id side)
  | processOrder order =>
      rw [step]
      cases hv : validateOrder order with
      | false =>
          rw [process_rejected room B hv]
          exact h
      | true =>
          have hm := @matched_frontPartial B order order.quantity h
          obtain ⟨status, -, ⟨-, -, hbook⟩ | ⟨-, -, htype, hbook⟩ | ⟨-, -, hbook⟩⟩ :=
            process_cases room B hv
          · rw [hbook]
            exact hm
          · rw [hbook]
            refine rest_frontPartial (matched_sorted order _ hsorted) hm fun e he hprice => ?_
            rw [matched_own] at he
            obtain ⟨x, hx, rfl⟩ := List.mem_map.mp he
            rw [matched_join huncrossed (by rw [htype]; decide) hx
              ((Entry.forgetAll_price ..).symm.trans hprice)]
          · rw [hbook]
            exact hm

end

end Book

-- ============================================================================
-- Runs
-- ============================================================================

theorem trace_frontPartial {n capacity : Nat} {s s' : MatchingEngine} {cs : List Command}
    {events : List MatchEvent} (h : Trace (Call n capacity) s cs events s') (hs : s.book = {}) :
    s'.book.Uncrossed ∧ s'.book.FrontPartial := by
  refine @Trace.invariant _ _ _ _ (fun s => s.book.Uncrossed ∧ s.book.FrontPartial) _ _ _ _
    ?_ ?_ h
  · rintro s c event t ⟨huncrossed, hfront⟩ hcall
    obtain ⟨L, -, hsound, -⟩ := hcall.sound
    have hstep : s.book.step (roomIn capacity) c = (t.book, event) := hcall.book
    have hnext := @Book.step_frontPartial _ (roomIn capacity) hsound.book_sorted huncrossed hfront c
    rw [hstep] at hnext
    exact ⟨hcall.uncrossed huncrossed, hnext⟩
  · rw [hs]
    refine ⟨fun b hb => absurd hb List.not_mem_nil, fun side => ?_⟩
    cases side <;> exact List.Pairwise.nil

/-- In every run on the ladder, an order behind another one of its price has its full
    quantity left, and every partly filled order is the first of its price. -/
theorem run_frontPartial (config : Config) (cs : List Command)
    (h : ∀ c ∈ cs, c.LimitBelow config.maxLevels) :
    ∃ engine events, config.engine.run cs = some (engine, events) ∧
      ∀ side before e behind, engine.book.side side = before ++ e :: behind →
        (∃ x ∈ before, x.price = e.price) → e.remaining = e.quantity := by
  obtain ⟨engine, events, hrun, -, htrace⟩ := config.run_calls h
  refine ⟨engine, events, hrun, fun side before e behind hside hx => ?_⟩
  obtain ⟨x, hx, hprice⟩ := hx
  have hpair := (trace_frontPartial htrace config.engine_book).2 side
  rw [hside] at hpair
  exact (List.pairwise_append.mp hpair).2.2 x hx e (List.mem_cons_self ..) hprice

/-- A buy that ends on the second ask, and one more ask behind it. -/
def joinCommands : List Command :=
  sampleCommands.take 4 ++ [.processOrder (makeOrder 5 .sell 5 8)]

/-- The ask behind the one that was filled in part is untouched. -/
theorem join_frontPartial : ∃ engine events,
    Config.small.engine.run joinCommands = some (engine, events) ∧
      ∀ side before e behind, engine.book.side side = before ++ e :: behind →
        (∃ x ∈ before, x.price = e.price) → e.remaining = e.quantity :=
  run_frontPartial Config.small joinCommands (by decide)

end LimitOrderBook
