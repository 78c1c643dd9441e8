/-
  LimitOrderBook.Relabel

  What the engine's answers depend on.

  Ids are compared for equality only, prices for their order, quantities are
  subtracted from each other, and timestamps are copied.  So a run with other ids, other
  prices in the same order, another unit of quantity and any other timestamps, on an
  engine with another number of price levels, gives the relabeled events.  The pool's
  size is all of the configuration that shows.
-/
import LimitOrderBook.Runs

namespace LimitOrderBook

open Lib MatchingEngine

/-- Other names for ids, prices and timestamps, and another unit of quantity. -/
structure Relabeling where
  id : OrderID → OrderID
  price : Int → Int
  time : Timestamp → Timestamp
  unit : Int
  id_injective : Function.Injective id
  id_zero : id 0 = 0
  price_lt : ∀ p q, p < q → price p < price q
  price_zero : price 0 = 0
  unit_pos : 0 < unit

section

variable (f : Relabeling)

def IncomingOrder.relabel (order : IncomingOrder) : IncomingOrder :=
  { order with
    id := f.id order.id
    price := f.price order.price
    quantity := f.unit * order.quantity
    timestamp := f.time order.timestamp }

def Command.relabel : Command → Command
  | .processOrder order => .processOrder (order.relabel f)
  | .cancelOrder id => .cancelOrder (f.id id)

def Entry.relabel (e : Entry) : Entry :=
  { e with
    id := f.id e.id
    price := f.price e.price
    quantity := f.unit * e.quantity
    remaining := f.unit * e.remaining }

def Book.relabel (B : Book) : Book :=
  { bids := B.bids.map (Entry.relabel f), asks := B.asks.map (Entry.relabel f) }

def Trade.relabel (t : Trade) : Trade where
  buyOrderId := f.id t.buyOrderId
  sellOrderId := f.id t.sellOrderId
  price := f.price t.price
  quantity := f.unit * t.quantity
  timestamp := f.time t.timestamp

def ExecutionReport.relabel (r : ExecutionReport) : ExecutionReport :=
  { r with
    orderId := f.id r.orderId
    price := f.price r.price
    filledQuantity := f.unit * r.filledQuantity
    remainingQuantity := f.unit * r.remainingQuantity }

def MatchEvent.relabel (event : MatchEvent) : MatchEvent where
  trades := event.trades.map (Trade.relabel f)
  reports := event.reports.map (ExecutionReport.relabel f)

end

-- ============================================================================
-- Orders and entries
-- ============================================================================

section

variable {f : Relabeling} {order : IncomingOrder}

namespace Relabeling

theorem id_eq_zero (i : OrderID) : f.id i = 0 ↔ i = 0 := by
  constructor
  · intro h
    exact f.id_injective (h.trans f.id_zero.symm)
  · rintro rfl
    exact f.id_zero

theorem price_lt_iff (p q : Int) : f.price p < f.price q ↔ p < q := by
  constructor
  · intro h
    by_contra hge
    rcases Int.lt_or_eq_of_le (Int.not_lt.mp hge) with hlt | rfl
    · exact absurd h (Int.lt_asymm (f.price_lt q p hlt))
    · exact absurd h (Int.lt_irrefl _)
  · exact f.price_lt p q

theorem price_le_iff (p q : Int) : f.price p ≤ f.price q ↔ p ≤ q := by
  rw [← Int.not_lt, ← Int.not_lt, f.price_lt_iff]

theorem price_nonpos (p : Int) : f.price p ≤ 0 ↔ p ≤ 0 := by
  rw [← f.price_zero, f.price_le_iff, f.price_zero]

theorem scaled_nonpos (q : Int) : f.unit * q ≤ 0 ↔ q ≤ 0 := by
  rw [← Int.not_lt, ← Int.not_lt, not_iff_not]
  exact ⟨fun h => Int.pos_of_mul_pos_right h f.unit_pos, Int.mul_pos f.unit_pos⟩

theorem scaled_eq_zero (q : Int) : f.unit * q = 0 ↔ q = 0 := by
  rw [Int.mul_eq_zero]
  exact or_iff_right (Int.ne_of_gt f.unit_pos)

theorem scaled_inj (q r : Int) : f.unit * q = f.unit * r ↔ q = r :=
  ⟨Int.eq_of_mul_eq_mul_left (Int.ne_of_gt f.unit_pos), congrArg (f.unit * ·)⟩

end Relabeling

theorem Side.better_relabel (side : Side) (p q : Int) :
    side.better (f.price p) (f.price q) ↔ side.better p q := by
  cases side <;> simp only [Side.better, f.price_lt_iff]

theorem relabel_valid : validateOrder (order.relabel f) = validateOrder order := by
  simp only [validateOrder, IncomingOrder.relabel, f.price_nonpos, f.scaled_nonpos, f.id_eq_zero]

theorem relabel_crosses (order : IncomingOrder) (p : Int) :
    (order.relabel f).crosses (f.price p) = order.crosses p := by
  cases hs : order.side <;> simp only [IncomingOrder.crosses, IncomingOrder.relabel, hs, ge_iff_le,
    f.price_le_iff]

theorem fillTrade_relabel (fill : Entry × Int) :
    fillTrade (order.relabel f) (fill.1.relabel f, f.unit * fill.2) =
      (fillTrade order fill).relabel f := by
  cases hs : order.side <;> simp only [fillTrade, IncomingOrder.relabel, hs] <;> rfl

theorem makerReport_relabel (side : Side) (e : Entry) :
    makerReport side (e.relabel f) = (makerReport side e).relabel f := by
  simp only [makerReport, Entry.relabel, ExecutionReport.relabel, Int.mul_zero]

theorem takerReport_relabel (status : OrderStatus) (filled left : Int) :
    takerReport (order.relabel f) status (f.unit * filled) (f.unit * left) =
      (takerReport order status filled left).relabel f := rfl

theorem relabel_forget (id : OrderID) (e : Entry) :
    (e.forget id).relabel f = (e.relabel f).forget (f.id id) := by
  by_cases h : e.id = id
  · have h' : (e.relabel f).id = f.id id := congrArg f.id h
    rw [Entry.forget, Entry.forget, if_pos h, if_pos h']
    rfl
  · have h' : ¬ (e.relabel f).id = f.id id := fun hc => h (f.id_injective hc)
    rw [Entry.forget, Entry.forget, if_neg h, if_neg h']

theorem relabel_isTarget (id : OrderID) (e : Entry) :
    (e.relabel f).isTarget (f.id id) = e.isTarget id := by
  have hid : ((e.relabel f).id == f.id id) = (e.id == id) := by
    rw [Bool.eq_iff_iff, beq_iff_eq, beq_iff_eq]
    exact f.id_injective.eq_iff
  rw [Entry.isTarget, Entry.isTarget, hid]
  rfl

end

-- ============================================================================
-- The book
-- ============================================================================

namespace Book

section

variable {f : Relabeling} {B : Book} {order : IncomingOrder} {left : Int}

theorem relabel_side (B : Book) (side : Side) :
    (B.relabel f).side side = (B.side side).map (Entry.relabel f) := by
  cases side <;> rfl

theorem relabel_setSide (B : Book) (side : Side) (l : List Entry) :
    (B.setSide side l).relabel f = (B.relabel f).setSide side (l.map (Entry.relabel f)) := by
  cases side <;> rfl

theorem relabel_size (B : Book) : (B.relabel f).size = B.size := by
  simp only [size, relabel, List.length_map]

theorem relabel_forget (B : Book) (id : OrderID) :
    (B.forget id).relabel f = (B.relabel f).forget (f.id id) := by
  apply ext_side
  intro side
  rw [relabel_side, forget_side, forget_side, relabel_side, List.map_map, List.map_map]
  exact List.map_congr_left fun e _ => LimitOrderBook.relabel_forget id e

theorem relabel_forgetAll (B : Book) (ids : List OrderID) :
    (B.forgetAll ids).relabel f = (B.relabel f).forgetAll (ids.map f.id) := by
  induction ids generalizing B with
  | nil => rfl
  | cons id ids ih => rw [forgetAll_cons, List.map_cons, forgetAll_cons, ih, relabel_forget]

theorem sweep_relabel : (B.relabel f).sweep (order.relabel f) (f.unit * left) =
    ⟨(B.sweep order left).taken.map fun t => (t.1.relabel f, f.unit * t.2),
      (B.sweep order left).kept.map (Entry.relabel f), f.unit * (B.sweep order left).left⟩ := by
  have hside : (B.relabel f).side (order.relabel f).side.opposite =
      (B.side order.side.opposite).map (Entry.relabel f) := relabel_side B order.side.opposite
  rw [sweep, hside]
  apply Supply.sweep_scale f.unit_pos
  · exact fun _ => rfl
  · exact fun e => relabel_crosses order e.price
  · intro e q
    simp only [Entry.supply, Entry.relabel, Int.mul_sub]

theorem consumed_relabel : (B.relabel f).consumed (order.relabel f) (f.unit * left) =
    (B.consumed order left).map (Entry.relabel f) := by
  have hsame : (consumes ∘ fun t : Entry × Int => (t.1.relabel f, f.unit * t.2)) = consumes := by
    funext t
    simp only [Function.comp_apply, consumes, Entry.relabel, f.scaled_inj]
  rw [consumed, sweep_relabel, consumed, List.filter_map, hsame, List.map_map, List.map_map]
  rfl

theorem matched_relabel : (B.relabel f).matched (order.relabel f) (f.unit * left) =
    { book := (B.matched order left).book.relabel f
      trades := (B.matched order left).trades.map (Trade.relabel f)
      reports := (B.matched order left).reports.map (ExecutionReport.relabel f)
      left := f.unit * (B.matched order left).left } := by
  have hids : ((B.consumed order left).map (Entry.relabel f)).map Entry.id =
      ((B.consumed order left).map Entry.id).map f.id := by
    rw [List.map_map, List.map_map]
    rfl
  have htrades : (((B.sweep order left).taken.map fun t => (t.1.relabel f, f.unit * t.2)).map
      (fillTrade (order.relabel f))) =
      ((B.sweep order left).taken.map (fillTrade order)).map (Trade.relabel f) := by
    rw [List.map_map, List.map_map]
    exact List.map_congr_left fun t _ => fillTrade_relabel t
  have hreports : ((B.consumed order left).map (Entry.relabel f)).map
      (makerReport order.side.opposite) =
      ((B.consumed order left).map (makerReport order.side.opposite)).map
        (ExecutionReport.relabel f) := by
    rw [List.map_map, List.map_map]
    exact List.map_congr_left fun e _ => makerReport_relabel order.side.opposite e
  have hside : (order.relabel f).side = order.side := rfl
  simp only [matched, consumed_relabel, sweep_relabel, hids, hside, htrades, hreports,
    relabel_forgetAll, relabel_setSide]

theorem rest_relabel : (B.rest order left).relabel f =
    (B.relabel f).rest (order.relabel f) (f.unit * left) := by
  have hinsert := @List.map_orderedInsert _ _
    (fun a b : Entry => order.side.better a.price b.price)
    (fun a b : Entry => order.side.better a.price b.price) _ _ (Entry.relabel f)
    ((B.forget order.id).side order.side)
    { id := order.id, price := order.price, quantity := order.quantity,
      remaining := left, mapped := true }
    (fun a _ => (Side.better_relabel order.side ..).symm)
    (fun a _ => (Side.better_relabel order.side ..).symm)
  have hside : ((B.relabel f).forget (f.id order.id)).side order.side =
      ((B.forget order.id).side order.side).map (Entry.relabel f) := by
    rw [← relabel_forget, relabel_side]
  simp only [rest, relabel_setSide, relabel_forget, hinsert, ← hside]
  rfl

theorem process_relabel (room : Nat → Bool) :
    (B.relabel f).process room (order.relabel f) =
      ((B.process room order).1.relabel f, (B.process room order).2.relabel f) := by
  have hquantity : (order.relabel f).quantity = f.unit * order.quantity := rfl
  have htype : (order.relabel f).type = order.type := rfl
  have hrejected := @takerReport_relabel f order .cancelled 0 order.quantity
  rw [Int.mul_zero] at hrejected
  simp only [process, relabel_valid, matched_relabel, hquantity, htype, relabel_size,
    f.scaled_eq_zero, ← Int.mul_sub, takerReport_relabel, hrejected]
  generalize B.matched order order.quantity = m
  have hevent : ∀ status, MatchEvent.relabel f
      { trades := m.trades
        reports := m.reports ++ [takerReport order status (order.quantity - m.left) m.left] } =
      { trades := m.trades.map (Trade.relabel f)
        reports := m.reports.map (ExecutionReport.relabel f) ++
          [(takerReport order status (order.quantity - m.left) m.left).relabel f] } := by
    intro status
    rw [MatchEvent.relabel, List.map_append]
    rfl
  split
  · rfl
  · split
    · rw [hevent]
    · split
      · rw [hevent, rest_relabel]
      · rw [hevent]

theorem find_relabel (id : OrderID) (side : Side) :
    ((B.relabel f).side side).find? (Entry.isTarget (f.id id)) =
      ((B.side side).find? (Entry.isTarget id)).map (Entry.relabel f) := by
  have hsame : Entry.isTarget (f.id id) ∘ Entry.relabel f = Entry.isTarget id :=
    funext (relabel_isTarget id)
  rw [relabel_side, List.find?_map, hsame]

theorem erase_relabel (id : OrderID) (l : List Entry) :
    (l.map (Entry.relabel f)).eraseP (Entry.isTarget (f.id id)) =
      (l.eraseP (Entry.isTarget id)).map (Entry.relabel f) := by
  have hsame : Entry.isTarget (f.id id) ∘ Entry.relabel f = Entry.isTarget id :=
    funext (relabel_isTarget id)
  rw [List.eraseP_map, hsame]

theorem cancelReport_relabel (side : Side) (e : Entry) :
    cancelReport side (e.relabel f) = (cancelReport side e).relabel f := by
  simp only [cancelReport, Entry.relabel, ExecutionReport.relabel, Int.mul_sub]

theorem cancel_relabel (id : OrderID) : (B.relabel f).cancel (f.id id) =
    ((B.cancel id).1.relabel f, (B.cancel id).2.relabel f) := by
  have hbids := @find_relabel f B id .buy
  have hasks := @find_relabel f B id .sell
  simp only [side_buy, side_sell] at hbids hasks
  cases hb : B.bids.find? (Entry.isTarget id) with
  | some e =>
      rw [hb, Option.map_some] at hbids
      simp only [cancel, hb, hbids, cancelReport_relabel]
      simp only [relabel, erase_relabel]
      rfl
  | none =>
      rw [hb, Option.map_none] at hbids
      cases ha : B.asks.find? (Entry.isTarget id) with
      | some e =>
          rw [ha, Option.map_some] at hasks
          simp only [cancel, hb, ha, hbids, hasks, cancelReport_relabel]
          simp only [relabel, erase_relabel]
          rfl
      | none =>
          rw [ha, Option.map_none] at hasks
          simp only [cancel, hb, ha, hbids, hasks]
          rfl

/-- A call commutes with the relabeling. -/
theorem step_relabel (room : Nat → Bool) (c : Command) :
    (B.relabel f).step room (c.relabel f) =
      ((B.step room c).1.relabel f, (B.step room c).2.relabel f) := by
  cases c with
  | processOrder order => exact process_relabel room
  | cancelOrder id => exact cancel_relabel id

end

end Book

-- ============================================================================
-- Runs
-- ============================================================================

namespace MatchingEngine

/-- Two engines whose books are relabelings of each other answer relabeled runs with
    relabeled events. -/
theorem Sound.relabeled {f : Relabeling} {n n' capacity : Nat} {self other : MatchingEngine}
    {L L' : Layout} {cs : List Command} (h : self.Sound n capacity L)
    (h' : other.Sound n' capacity L') (hbook : other.book = self.book.relabel f)
    (hcs : ∀ c ∈ cs, c.LimitBelow n) (hcs' : ∀ c ∈ cs, (c.relabel f).LimitBelow n') :
    ∃ engine engine' events, self.run cs = some (engine, events) ∧
      other.run (cs.map (Command.relabel f)) =
        some (engine', events.map (MatchEvent.relabel f)) ∧
      engine'.book = engine.book.relabel f := by
  induction cs generalizing self other L L' with
  | nil => exact ⟨self, other, [], rfl, rfl, hbook⟩
  | cons c cs ih =>
      obtain ⟨s, event, M, hstep, hs, hB, -⟩ := step_spec h (hcs c (List.mem_cons_self ..))
      obtain ⟨s', event', M', hstep', hs', hB', -⟩ :=
        step_spec h' (hcs' c (List.mem_cons_self ..))
      have hrelabel := @Book.step_relabel f self.book (roomIn capacity) c
      rw [← hbook, show self.book.step (roomIn capacity) c = (s.book, event) from hB,
        show other.book.step (roomIn capacity) (c.relabel f) = (s'.book, event') from hB']
        at hrelabel
      obtain ⟨hbook', rfl⟩ := Prod.mk.inj hrelabel
      obtain ⟨engine, engine', events, hrun, hrun', hend⟩ := ih hs hs' hbook'
        (fun d hd => hcs d (List.mem_cons_of_mem _ hd))
        (fun d hd => hcs' d (List.mem_cons_of_mem _ hd))
      exact ⟨engine, engine', event :: events, exec_cons hstep hrun, exec_cons hstep' hrun', hend⟩

end MatchingEngine

/-- A run on the ladder under other names, with another unit of quantity and on any number
    of levels that takes its new prices, returns the same events under those names. -/
theorem run_relabel (f : Relabeling) (config config' : Config)
    (hpool : config'.poolCapacity = config.poolCapacity) (cs : List Command)
    (h : ∀ c ∈ cs, c.LimitBelow config.maxLevels)
    (h' : ∀ c ∈ cs, (c.relabel f).LimitBelow config'.maxLevels) :
    ∃ engine engine' events, config.engine.run cs = some (engine, events) ∧
      config'.engine.run (cs.map (Command.relabel f)) =
        some (engine', events.map (MatchEvent.relabel f)) ∧
      engine'.book = engine.book.relabel f := by
  have hstart' := config'.engine_sound
  rw [hpool] at hstart'
  rw [← config.levels_eq] at h
  rw [← config'.levels_eq] at h'
  refine config.engine_sound.relabeled hstart' ?_ h h'
  rw [config.engine_book, config'.engine_book]
  rfl

/-- Ids three times as large, prices doubled, lots of a hundred, no timestamps. -/
def sampleRelabeling : Relabeling where
  id i := 3 * i
  price p := 2 * p
  time _ := 0
  unit := 100
  id_injective := fun _ _ hij => Nat.eq_of_mul_eq_mul_left (Nat.succ_pos 2) hij
  id_zero := rfl
  price_lt := fun _ _ hpq => Int.mul_lt_mul_of_pos_left hpq (Int.succ_ofNat_pos 1)
  price_zero := rfl
  unit_pos := Int.succ_ofNat_pos 99

/-- Twenty levels in place of ten. -/
def Config.twenty : Config :=
  { Config.small with maxPriceLevels := 20, levels_le := by decide }

theorem sample_relabel : ∃ engine engine' events,
    Config.small.engine.run sampleCommands = some (engine, events) ∧
      Config.twenty.engine.run (sampleCommands.map (Command.relabel sampleRelabeling)) =
        some (engine', events.map (MatchEvent.relabel sampleRelabeling)) ∧
      engine'.book = engine.book.relabel sampleRelabeling :=
  run_relabel sampleRelabeling Config.small Config.twenty rfl sampleCommands (by decide)
    (by decide)

end LimitOrderBook
