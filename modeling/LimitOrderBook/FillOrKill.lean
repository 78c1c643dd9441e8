/-
  LimitOrderBook.FillOrKill

  Fill-or-kill orders.

  The engine matches an order of type `FOK` like an `IOC` order: it trades
  against whatever crosses and cancels the rest.  So the order is all or nothing
  exactly when what crosses is enough for it, or is nothing at all.
-/
import LimitOrderBook.OffLadder

namespace LimitOrderBook

open Lib MatchingEngine

/-- The whole order is traded and reported as filled, or it is reported as
    cancelled and nothing has happened. -/
def AllOrNothing (before : MatchingEngine) (order : IncomingOrder) (after : MatchingEngine)
    (event : MatchEvent) : Prop :=
  ((event.trades.map Trade.quantity).sum = order.quantity ∧
      event.reports.getLast? = some (takerReport order .filled order.quantity 0)) ∨
    (event.trades = [] ∧
      event.reports.getLast? = some (takerReport order .cancelled 0 order.quantity) ∧
      after.book = before.book ∧ after.orderMap = before.orderMap)

namespace MatchingEngine

section

variable {self : MatchingEngine} {n capacity : Nat} {L : Layout} {order : IncomingOrder}

/-- A valid fill-or-kill order is all or nothing exactly when nothing crosses it or
    the crossing orders fill it. -/
theorem Settled.allOrNothing_iff (h : self.Settled n capacity L)
    (hv : validateOrder order = true) (hfok : order.type = .fok) :
    ∃ after event, self.processOrder order = some (after, event) ∧
      (AllOrNothing self order after event ↔ self.book.crossing order = [] ∨
        order.quantity ≤ Entry.supply.total (self.book.crossing order)) := by
  have hpos := (validateOrder_pos hv).1
  have hno : order.type ≠ .limit := by
    rw [hfok]
    decide
  by_cases hall : order.quantity ≤ Entry.supply.total (self.book.crossing order)
  · obtain ⟨st, L', -, hswept, hz, hcall⟩ :=
      processOrder_filled h hv (show ¬ self.LeavesResidual order from Int.not_lt.mpr hall)
    have htraded := @Book.matched_traded self.book order order.quantity
    rw [hswept.trades, hswept.left, hz, Int.sub_zero] at htraded
    refine ⟨_, _, hcall, iff_of_true (.inl ⟨htraded, ?_⟩) (.inr hall)⟩
    exact List.getLast?_concat ..
  · by_cases hnone : self.book.crossing order = []
    · have hcall := processOrder_done hv (matchOrder_idle h (Int.le_of_lt hpos) hnone) (.inr hno)
      refine ⟨_, _, hcall, iff_of_true (.inr ⟨rfl, ?_, rfl, rfl⟩) (.inl hnone)⟩
      have hne : order.quantity ≠ 0 := by omega
      simp [hne]
    · -- some of it is traded before the rest is cancelled
      obtain ⟨st, L', hmatch, -, hswept⟩ := matchOrder_spec h (Int.le_of_lt hpos)
      have hleft := Swept.left_eq h.rep (Int.le_of_lt hpos) hswept
      have htotal := Book.crossing_total_pos h.rep.book_positive hnone
      have hcond : ¬ (self.book.crossing order = [] ∨
          order.quantity ≤ Entry.supply.total (self.book.crossing order)) :=
        not_or.mpr ⟨hnone, hall⟩
      refine ⟨_, _, processOrder_done hv hmatch (.inr hno), iff_of_false ?_ hcond⟩
      rw [AllOrNothing, List.getLast?_concat]
      rintro (⟨-, hlast⟩ | ⟨-, hlast, -⟩)
      · have hremaining := congrArg ExecutionReport.remainingQuantity (Option.some.inj hlast)
        simp only [takerReport] at hremaining
        omega
      · have hfilled := congrArg ExecutionReport.filledQuantity (Option.some.inj hlast)
        simp only [takerReport] at hfilled
        omega

end

/-- A run that cancels no parked order keeps the invariant, whatever it parks. -/
theorem run_settled (config : Config) {cs : List Command}
    (h : Along MatchingEngine.step (fun s c => s.cancelsParked c = false) config.engine cs) :
    ∃ engine events, config.engine.run cs = some (engine, events) ∧
      ∃ L, engine.Settled config.levels config.poolCapacity L := by
  apply @exec_along _ _ _ MatchingEngine.step
    (fun s => ∃ L, s.Settled config.levels config.poolCapacity L)
    (fun s c => s.cancelsParked c = false)
  · rintro s c ⟨L, hs⟩ hc
    obtain ⟨t, event, L', hstep, ht⟩ := hs.step hc
    exact ⟨t, event, hstep, L', ht⟩
  · exact ⟨_, config.engine_sound.settled⟩
  · exact h

end MatchingEngine

/-- After every run that cancels no parked order. -/
theorem run_allOrNothing_iff (config : Config) (cs : List Command)
    (h : Along step (fun s c => s.cancelsParked c = false) config.engine cs)
    (order : IncomingOrder) (hv : validateOrder order = true) (hfok : order.type = .fok) :
    ∃ engine events after event, config.engine.run cs = some (engine, events) ∧
      engine.processOrder order = some (after, event) ∧
      (AllOrNothing engine order after event ↔ engine.book.crossing order = [] ∨
        order.quantity ≤ Entry.supply.total (engine.book.crossing order)) := by
  obtain ⟨engine, events, hrun, L, hs⟩ := run_settled config h
  obtain ⟨after, event, hcall, hiff⟩ := hs.allOrNothing_iff hv hfok
  exact ⟨engine, events, after, event, hrun, hcall, hiff⟩

/-- After the sample run, which leaves 15 at the best ask. -/
theorem sample_allOrNothing : ∃ engine events after event,
    Config.small.engine.run sampleCommands = some (engine, events) ∧
      engine.processOrder (makeOrder 6 .buy 5 15 .fok) = some (after, event) ∧
      (AllOrNothing engine (makeOrder 6 .buy 5 15 .fok) after event ↔
        engine.book.crossing (makeOrder 6 .buy 5 15 .fok) = [] ∨
          (15 : Int) ≤
            Entry.supply.total (engine.book.crossing (makeOrder 6 .buy 5 15 .fok))) :=
  run_allOrNothing_iff Config.small sampleCommands (along_not_of_check (by decide +kernel))
    (makeOrder 6 .buy 5 15 .fok) (by decide) rfl

/-- A fill-or-kill order for 30 trades the 20 that are there. -/
theorem partial_not_allOrNothing : ∃ engine events after event,
    Config.small.engine.run [.processOrder (makeOrder 1 .sell 5 20)] = some (engine, events) ∧
      validateOrder (makeOrder 2 .buy 5 30 .fok) = true ∧
      engine.processOrder (makeOrder 2 .buy 5 30 .fok) = some (after, event) ∧
      ¬ AllOrNothing engine (makeOrder 2 .buy 5 30 .fok) after event := by
  obtain ⟨engine, events, hrun, htest⟩ := @exec_test _ _ _ step Config.small.engine
    [.processOrder (makeOrder 1 .sell 5 20)]
    (fun s => (s.processOrder (makeOrder 2 .buy 5 30 .fok)).map
      (fun r => (r.2.trades.map Trade.quantity).sum) = some 20) (by decide +kernel)
  obtain ⟨⟨after, event⟩, hcall, hsum⟩ := Option.map_eq_some_iff.mp (of_decide_eq_true htest)
  refine ⟨engine, events, after, event, hrun, by decide, hcall, ?_⟩
  rintro (⟨hall, -⟩ | ⟨hnone, -⟩)
  · rw [hall] at hsum
    exact absurd hsum (by decide)
  · simp only [hnone] at hsum
    exact absurd hsum (by decide)

end LimitOrderBook
