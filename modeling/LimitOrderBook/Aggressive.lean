/-
  LimitOrderBook.Aggressive

  What the type and the price of an incoming order decide.

  They enter the matching only through the prices that the order crosses.  Of two
  orders that differ in nothing else, the one that crosses more makes the trades of the
  other first and then goes on (`Supply.sweep_taken_prefix`), so it is never filled for
  less.  Orders that cross the same prices, such as an IOC and a FOK order at one price,
  make the same trades.
-/
import LimitOrderBook.Runs

namespace LimitOrderBook

open Lib MatchingEngine

/-- `y` is `x` but for type and price, and crosses every price that `x` crosses. -/
structure MoreAggressive (x y : IncomingOrder) : Prop where
  id : y.id = x.id
  side : y.side = x.side
  quantity : y.quantity = x.quantity
  timestamp : y.timestamp = x.timestamp
  crosses : ∀ price, x.crosses price = true → y.crosses price = true

/-- The second event goes on where the first one ends. -/
structure MatchEvent.Extends (ex ey : MatchEvent) : Prop where
  trades : ex.trades <+: ey.trades
  /-- The makers are reported before the order itself. -/
  makers : ex.reports.dropLast <+: ey.reports.dropLast
  taker : ∃ rx ry, ex.reports.getLast? = some rx ∧ ey.reports.getLast? = some ry ∧
    rx.filledQuantity ≤ ry.filledQuantity ∧ ry.remainingQuantity ≤ rx.remainingQuantity

theorem moreAggressive_market (x : IncomingOrder) : MoreAggressive x { x with type := .market } :=
  ⟨rfl, rfl, rfl, rfl, fun _ _ => rfl⟩

namespace Book

section

variable {B : Book} {x y : IncomingOrder} {left : Int} {room : Nat → Bool}

theorem fillTrade_same (h : MoreAggressive x y) : fillTrade y = fillTrade x := by
  funext fill
  rw [fillTrade, fillTrade, h.side, h.id, h.timestamp]

theorem taken_begins (h : MoreAggressive x y) (B : Book) (left : Int) :
    (B.sweep x left).taken <+: (B.sweep y left).taken := by
  rw [sweep, sweep, h.side]
  exact Supply.sweep_taken_prefix fun e _ => h.crosses e.price

theorem trades_begin (h : MoreAggressive x y) (B : Book) (left : Int) :
    (B.matched x left).trades <+: (B.matched y left).trades := by
  rw [matched, matched, fillTrade_same h]
  exact (taken_begins h B left).map _

theorem makers_begin (h : MoreAggressive x y) (B : Book) (left : Int) :
    (B.matched x left).reports <+: (B.matched y left).reports := by
  rw [matched, matched, consumed, consumed, h.side]
  exact (((taken_begins h B left).filter _).map _).map _

theorem left_le (h : MoreAggressive x y) (hpos : B.Positive) (left : Int) :
    (B.matched y left).left ≤ (B.matched x left).left := by
  have hprefix := taken_begins h B left
  rw [sweep, sweep, h.side] at hprefix
  rw [matched, matched, sweep, sweep, h.side]
  exact Supply.sweep_left_le (fun e he => hpos _ e he) hprefix

/-- Orders that cross the same prices match alike. -/
theorem matched_same (h : MoreAggressive x y) (h' : MoreAggressive y x) (B : Book) (left : Int) :
    B.matched x left = B.matched y left := by
  have hsweep : B.sweep x left = B.sweep y left := by
    rw [sweep, sweep, h.side]
    apply Supply.sweep_congr
    intro e _
    rw [Bool.eq_iff_iff]
    exact ⟨h.crosses e.price, h'.crosses e.price⟩
  rw [matched, matched, consumed, consumed, hsweep, fillTrade_same h, h.side]

/-- The event of a valid order: that of its matching, and a report on the order. -/
theorem process_valid (room : Nat → Bool) (B : Book) (hv : validateOrder x = true) :
    ∃ status, (B.process room x).2 =
      { trades := (B.matched x x.quantity).trades
        reports := (B.matched x x.quantity).reports ++ [takerReport x status
          (x.quantity - (B.matched x x.quantity).left) (B.matched x x.quantity).left] } := by
  obtain ⟨status, hevent, -⟩ := process_cases room B hv
  exact ⟨status, hevent⟩

theorem process_extends (h : MoreAggressive x y) (hpos : B.Positive)
    (hx : validateOrder x = true) (hy : validateOrder y = true) :
    (B.process room x).2.Extends (B.process room y).2 := by
  obtain ⟨status, hex⟩ := process_valid room B hx
  obtain ⟨status', hey⟩ := process_valid room B hy
  have hle := left_le h hpos x.quantity
  rw [h.quantity] at hey
  rw [hex, hey]
  refine ⟨trades_begin h B x.quantity, ?_, _, _, List.getLast?_concat .., List.getLast?_concat ..,
    ?_, hle⟩
  · rw [List.dropLast_concat, List.dropLast_concat]
    exact makers_begin h B x.quantity
  · show x.quantity - (B.matched x x.quantity).left ≤ x.quantity - (B.matched y x.quantity).left
    omega

/-- A valid order that is not Limit leaves the book of its matching. -/
theorem process_book (hv : validateOrder x = true) (htype : x.type ≠ .limit) :
    (B.process room x).1 = (B.matched x x.quantity).book := by
  obtain ⟨status, -, ⟨-, -, hbook⟩ | ⟨-, -, hlimit, -⟩ | ⟨-, -, hbook⟩⟩ := process_cases room B hv
  · exact hbook
  · exact absurd hlimit htype
  · exact hbook

end

end Book

-- ============================================================================
-- Runs
-- ============================================================================

/-- After every run on the ladder, the more aggressive of two orders that the ladder
    takes makes the trades of the other first, fills the same makers first and is filled
    for no less.  Two orders that cross the same prices make the same trades and fill the
    same makers, and when neither may rest they leave the same book. -/
theorem run_aggressive (config : Config) (cs : List Command)
    (h : ∀ c ∈ cs, c.LimitBelow config.maxLevels) :
    ∃ engine events, config.engine.run cs = some (engine, events) ∧
      ∀ x y : IncomingOrder, MoreAggressive x y →
        validateOrder x = true → validateOrder y = true →
        (Command.processOrder x).LimitBelow config.maxLevels →
        (Command.processOrder y).LimitBelow config.maxLevels →
        ∃ s ex t ey, engine.processOrder x = some (s, ex) ∧ engine.processOrder y = some (t, ey) ∧
          ex.Extends ey ∧
          (MoreAggressive y x → ex.trades = ey.trades ∧ ex.reports.dropLast = ey.reports.dropLast ∧
            (x.type ≠ .limit → y.type ≠ .limit → s.book = t.book)) := by
  obtain ⟨engine, events, hrun, ⟨L, hs⟩, -⟩ := config.run_calls h
  refine ⟨engine, events, hrun, fun x y hxy hx hy hbelow hbelow' => ?_⟩
  rw [← config.levels_eq] at hbelow hbelow'
  obtain ⟨s, ex, -, hstep, -, hB, -⟩ := step_spec hs hbelow
  obtain ⟨t, ey, -, hstep', -, hB', -⟩ := step_spec hs hbelow'
  have hprocess : engine.book.process (roomIn config.poolCapacity) x = (s.book, ex) := hB
  have hprocess' : engine.book.process (roomIn config.poolCapacity) y = (t.book, ey) := hB'
  have hextends := @Book.process_extends engine.book x y (roomIn config.poolCapacity) hxy
    hs.book_positive hx hy
  rw [hprocess, hprocess'] at hextends
  refine ⟨s, ex, t, ey, hstep, hstep', hextends, fun hyx => ?_⟩
  have hback := @Book.process_extends engine.book y x (roomIn config.poolCapacity) hyx
    hs.book_positive hy hx
  rw [hprocess, hprocess'] at hback
  refine ⟨hextends.trades.eq_of_length_le hback.trades.length_le,
    hextends.makers.eq_of_length_le hback.makers.length_le, fun htype htype' => ?_⟩
  have hbook := @Book.process_book engine.book x (roomIn config.poolCapacity) hx htype
  have hbook' := @Book.process_book engine.book y (roomIn config.poolCapacity) hy htype'
  rw [hprocess] at hbook
  rw [hprocess', hxy.quantity, ← Book.matched_same hxy hyx] at hbook'
  exact hbook.trans hbook'.symm

/-- After the sample run, an IOC sell of 9 at 4 and one at market. -/
theorem sample_aggressive : ∃ engine events s ex t ey,
    Config.small.engine.run sampleCommands = some (engine, events) ∧
      engine.processOrder (makeOrder 7 .sell 4 9 .ioc) = some (s, ex) ∧
      engine.processOrder (makeOrder 7 .sell 4 9 .market) = some (t, ey) ∧ ex.Extends ey := by
  obtain ⟨engine, events, hrun, hall⟩ := run_aggressive Config.small sampleCommands (by decide)
  obtain ⟨s, ex, t, ey, hstep, hstep', hextends, -⟩ := hall (makeOrder 7 .sell 4 9 .ioc)
    (makeOrder 7 .sell 4 9 .market) (moreAggressive_market _) rfl rfl (by decide) (by decide)
  exact ⟨engine, events, s, ex, t, ey, hrun, hstep, hstep', hextends⟩

end LimitOrderBook
