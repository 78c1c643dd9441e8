/-
  LimitOrderBook.Mirror

  The buy and the sell side are mirror images of each other.

  The mirror exchanges the sides and sends a price `p` to `max_levels - p`, which
  turns the scan for the lowest ask into the scan for the highest bid.  Every
  operation of the book commutes with it, so a mirrored run gives mirrored
  events, and finds the pool empty at the same calls.

  A Market order has no price of its own: the mirror leaves its field alone.
-/
import LimitOrderBook.Replay

namespace LimitOrderBook

open Lib MatchingEngine

-- ============================================================================
-- The mirror
-- ============================================================================

section

variable (maxLevels : Int)

def IncomingOrder.mirror (order : IncomingOrder) : IncomingOrder :=
  { order with
    side := order.side.opposite
    price := if order.type = .market then order.price else maxLevels - order.price }

def Command.mirror : Command → Command
  | .processOrder order => .processOrder (order.mirror maxLevels)
  | .cancelOrder id => .cancelOrder id

def Entry.mirror (e : Entry) : Entry := { e with price := maxLevels - e.price }

def Book.mirror (B : Book) : Book :=
  { bids := B.asks.map (Entry.mirror maxLevels), asks := B.bids.map (Entry.mirror maxLevels) }

def Trade.mirror (trade : Trade) : Trade :=
  { trade with
    buyOrderId := trade.sellOrderId
    sellOrderId := trade.buyOrderId
    price := maxLevels - trade.price }

def ExecutionReport.mirror (report : ExecutionReport) : ExecutionReport :=
  { report with side := report.side.opposite, price := maxLevels - report.price }

/-- The report of an order without a price: only the side changes. -/
def ExecutionReport.exchange (report : ExecutionReport) : ExecutionReport :=
  { report with side := report.side.opposite }

/-- The mirror of what a call reports.  The report of the incoming order is the
    last one. -/
def Command.mirrorReports : Command → List ExecutionReport → List ExecutionReport
  | .processOrder order, reports =>
      if order.type = .market then
        reports.dropLast.map (ExecutionReport.mirror maxLevels) ++
          reports.getLast?.toList.map ExecutionReport.exchange
      else reports.map (ExecutionReport.mirror maxLevels)
  | .cancelOrder _, reports => reports.map (ExecutionReport.mirror maxLevels)

/-- The mirror of the event of a call. -/
def Command.mirrorEvent (c : Command) (event : MatchEvent) : MatchEvent :=
  { trades := event.trades.map (Trade.mirror maxLevels)
    reports := c.mirrorReports maxLevels event.reports }

/-- Every order that has a price has it strictly between 0 and `max_levels`. -/
def Command.Priced : Command → Prop
  | .processOrder order => order.type ≠ .market → 0 < order.price ∧ order.price < maxLevels
  | .cancelOrder _ => True

end

instance (maxLevels : Int) : (c : Command) → Decidable (c.Priced maxLevels)
  | .processOrder order =>
      inferInstanceAs
        (Decidable (order.type ≠ .market → 0 < order.price ∧ order.price < maxLevels))
  | .cancelOrder _ => inferInstanceAs (Decidable True)

-- ============================================================================
-- Orders and entries
-- ============================================================================

section

variable {maxLevels : Int} {order : IncomingOrder}

theorem Command.Priced.limitBelow {c : Command} (h : c.Priced maxLevels) :
    c.LimitBelow maxLevels := by
  cases c with
  | cancelOrder id => trivial
  | processOrder order =>
      intro hlimit
      exact (h (by rw [hlimit]; decide)).2

theorem Command.Priced.mirror {c : Command} (h : c.Priced maxLevels) :
    (c.mirror maxLevels).Priced maxLevels := by
  cases c with
  | cancelOrder id => trivial
  | processOrder order =>
      intro hpriced
      have hprice := h hpriced
      have hmirror : (order.mirror maxLevels).price = maxLevels - order.price := if_neg hpriced
      rw [hmirror]
      omega

theorem Side.better_mirror (side : Side) (p q : Int) :
    side.opposite.better (maxLevels - p) (maxLevels - q) ↔ side.better p q := by
  cases side <;> simp only [Side.opposite, Side.better] <;> omega

/-- The mirrored order crosses the mirrored prices. -/
theorem IncomingOrder.mirror_crosses (order : IncomingOrder) (p : Int) :
    (order.mirror maxLevels).crosses (maxLevels - p) = order.crosses p := by
  by_cases hmarket : order.type = .market
  · simp [crosses, mirror, hmarket]
  · cases hs : order.side <;>
      simp only [crosses, mirror, hmarket, hs, Side.opposite, if_false, decide_false,
        Bool.false_or, decide_eq_decide, ge_iff_le] <;> omega

theorem mirror_valid (h : (Command.processOrder order).Priced maxLevels) :
    validateOrder (order.mirror maxLevels) = validateOrder order := by
  have hcheck : ((order.mirror maxLevels).price ≤ 0 ∧ (order.mirror maxLevels).type = .limit) ↔
      (order.price ≤ 0 ∧ order.type = .limit) := by
    by_cases hlimit : order.type = .limit
    · have hprice := h (by rw [hlimit]; decide)
      have hmirror : (order.mirror maxLevels).price = maxLevels - order.price :=
        if_neg (by rw [hlimit]; decide)
      rw [hmirror]
      omega
    · exact iff_of_false (fun hc => hlimit hc.2) (fun hc => hlimit hc.2)
  simp only [validateOrder, hcheck]
  rfl

theorem fillTrade_mirror (fill : Entry × Int) :
    fillTrade (order.mirror maxLevels) (fill.1.mirror maxLevels, fill.2) =
      (fillTrade order fill).mirror maxLevels := by
  cases hs : order.side <;> simp only [fillTrade, IncomingOrder.mirror, hs, Side.opposite] <;> rfl

theorem makerReport_mirror (side : Side) (e : Entry) :
    makerReport side.opposite (e.mirror maxLevels) =
      (makerReport side e).mirror maxLevels := rfl

/-- The reports of a call: those of the makers and that of the incoming order. -/
theorem mirrorReports_processOrder (order : IncomingOrder) (status : OrderStatus)
    (filled left : Int) (reports : List ExecutionReport) :
    (Command.processOrder order).mirrorReports maxLevels
        (reports ++ [takerReport order status filled left]) =
      reports.map (ExecutionReport.mirror maxLevels) ++
        [takerReport (order.mirror maxLevels) status filled left] := by
  by_cases hmarket : order.type = .market
  · simp [Command.mirrorReports, hmarket, ExecutionReport.exchange, takerReport,
      IncomingOrder.mirror]
  · simp [Command.mirrorReports, hmarket, ExecutionReport.mirror, takerReport,
      IncomingOrder.mirror]

end

-- ============================================================================
-- The book
-- ============================================================================

namespace Book

section

variable {maxLevels : Int} {B : Book} {order : IncomingOrder} {left : Int}

theorem mirror_side (B : Book) (side : Side) :
    (B.mirror maxLevels).side side = (B.side side.opposite).map (Entry.mirror maxLevels) := by
  cases side <;> rfl

theorem mirror_setSide (B : Book) (side : Side) (l : List Entry) :
    (B.setSide side l).mirror maxLevels =
      (B.mirror maxLevels).setSide side.opposite (l.map (Entry.mirror maxLevels)) := by
  cases side <;> rfl

theorem mirror_size (B : Book) : (B.mirror maxLevels).size = B.size := by
  simp only [size, mirror, List.length_map]
  omega

theorem mirror_forget (B : Book) (id : OrderID) :
    (B.forget id).mirror maxLevels = (B.mirror maxLevels).forget id := by
  have hentry : Entry.mirror maxLevels ∘ Entry.forget id =
      Entry.forget id ∘ Entry.mirror maxLevels := by
    funext e
    by_cases h : e.id = id <;> simp [Entry.mirror, Entry.forget, h]
  apply ext_side
  intro side
  rw [mirror_side, forget_side, forget_side, mirror_side, List.map_map, List.map_map, hentry]

theorem mirror_forgetAll (B : Book) (ids : List OrderID) :
    (B.forgetAll ids).mirror maxLevels = (B.mirror maxLevels).forgetAll ids := by
  induction ids generalizing B with
  | nil => rfl
  | cons id ids ih => rw [forgetAll_cons, forgetAll_cons, ih, mirror_forget]

/-- The mirrored order sweeps the mirrored side. -/
theorem sweep_mirror : (B.mirror maxLevels).sweep (order.mirror maxLevels) left =
    ⟨(B.sweep order left).taken.map fun t => (t.1.mirror maxLevels, t.2),
      (B.sweep order left).kept.map (Entry.mirror maxLevels), (B.sweep order left).left⟩ := by
  have hside : (B.mirror maxLevels).side (order.mirror maxLevels).side.opposite =
      (B.side order.side.opposite).map (Entry.mirror maxLevels) := by
    rw [mirror_side]
    show (B.side order.side.opposite.opposite.opposite).map _ = _
    rw [Side.opposite_opposite]
  rw [sweep, hside]
  apply Supply.sweep_map
  · exact fun _ => rfl
  · exact fun e => IncomingOrder.mirror_crosses order e.price
  · exact fun _ _ => rfl

theorem consumed_mirror : (B.mirror maxLevels).consumed (order.mirror maxLevels) left =
    (B.consumed order left).map (Entry.mirror maxLevels) := by
  have hsame : (consumes ∘ fun t : Entry × Int => (t.1.mirror maxLevels, t.2)) = consumes := rfl
  rw [consumed, sweep_mirror, consumed, List.filter_map, hsame, List.map_map, List.map_map]
  rfl

/-- Matching commutes with the mirror. -/
theorem matched_mirror : (B.mirror maxLevels).matched (order.mirror maxLevels) left =
    { book := (B.matched order left).book.mirror maxLevels
      trades := (B.matched order left).trades.map (Trade.mirror maxLevels)
      reports := (B.matched order left).reports.map (ExecutionReport.mirror maxLevels)
      left := (B.matched order left).left } := by
  have hids : ((B.consumed order left).map (Entry.mirror maxLevels)).map Entry.id =
      (B.consumed order left).map Entry.id := by
    rw [List.map_map]
    rfl
  have htrades : (((B.sweep order left).taken.map fun t => (t.1.mirror maxLevels, t.2)).map
      (fillTrade (order.mirror maxLevels))) =
      ((B.sweep order left).taken.map (fillTrade order)).map (Trade.mirror maxLevels) := by
    rw [List.map_map, List.map_map]
    exact List.map_congr_left fun t _ => fillTrade_mirror t
  have hreports : ((B.consumed order left).map (Entry.mirror maxLevels)).map
      (makerReport (order.mirror maxLevels).side.opposite) =
      ((B.consumed order left).map (makerReport order.side.opposite)).map
        (ExecutionReport.mirror maxLevels) := by
    rw [List.map_map, List.map_map]
    exact List.map_congr_left fun e _ => makerReport_mirror order.side.opposite e
  simp only [matched, consumed_mirror, sweep_mirror, hids, htrades, hreports, mirror_forgetAll,
    mirror_setSide]
  rfl

/-- Resting commutes with the mirror: the price order of one side is that of the
    other. -/
theorem rest_mirror (hpriced : order.type ≠ .market) :
    (B.rest order left).mirror maxLevels =
      (B.mirror maxLevels).rest (order.mirror maxLevels) left := by
  have hprice : (order.mirror maxLevels).price = maxLevels - order.price := if_neg hpriced
  have hinsert := @List.map_orderedInsert _ _
    (fun a b : Entry => order.side.better a.price b.price)
    (fun a b : Entry => order.side.opposite.better a.price b.price) _ _ (Entry.mirror maxLevels)
    ((B.forget order.id).side order.side)
    { id := order.id, price := order.price, quantity := order.quantity,
      remaining := left, mapped := true }
    (fun a _ => (Side.better_mirror order.side ..).symm)
    (fun a _ => (Side.better_mirror order.side ..).symm)
  have hside : ((B.mirror maxLevels).forget order.id).side order.side.opposite =
      ((B.forget order.id).side order.side).map (Entry.mirror maxLevels) := by
    rw [← mirror_forget, mirror_side, Side.opposite_opposite]
  simp only [rest, mirror_setSide, mirror_forget, hinsert, ← hside]
  simp only [Entry.mirror, ← hprice]
  rfl

/-- Processing an order commutes with the mirror. -/
theorem process_mirror (room : Nat → Bool) (h : (Command.processOrder order).Priced maxLevels) :
    (B.mirror maxLevels).process room (order.mirror maxLevels) =
      ((B.process room order).1.mirror maxLevels,
        (Command.processOrder order).mirrorEvent maxLevels (B.process room order).2) := by
  have hquantity : (order.mirror maxLevels).quantity = order.quantity := rfl
  have htype : (order.mirror maxLevels).type = order.type := rfl
  simp only [process, mirror_valid h, matched_mirror, hquantity, htype, mirror_size]
  generalize B.matched order order.quantity = m
  have hevent : ∀ status, (Command.processOrder order).mirrorEvent maxLevels
      { trades := m.trades
        reports := m.reports ++ [takerReport order status (order.quantity - m.left) m.left] } =
      { trades := m.trades.map (Trade.mirror maxLevels)
        reports := m.reports.map (ExecutionReport.mirror maxLevels) ++
          [takerReport (order.mirror maxLevels) status (order.quantity - m.left) m.left] } := by
    intro status
    rw [Command.mirrorEvent, mirrorReports_processOrder]
  split
  · rw [Command.mirrorEvent]
    have hreport := @mirrorReports_processOrder maxLevels order .cancelled 0 order.quantity []
    rw [List.nil_append] at hreport
    rw [hreport]
    rfl
  · split
    · rw [hevent]
    · split
      · next hrest =>
          rw [hevent, rest_mirror (by rw [hrest.1]; decide)]
      · rw [hevent]

/-- No id leads to entries of both sides. -/
def OneSided (B : Book) : Prop :=
  ∀ id side, ((B.side side).find? (Entry.isTarget id)).isSome →
    (B.side side.opposite).find? (Entry.isTarget id) = none

theorem find_mirror (id : OrderID) (side : Side) :
    ((B.mirror maxLevels).side side).find? (Entry.isTarget id) =
      ((B.side side.opposite).find? (Entry.isTarget id)).map (Entry.mirror maxLevels) := by
  rw [mirror_side, List.find?_map]
  rfl

/-- A cancel looks at the bids first; the mirrored one at what were the asks. -/
theorem cancel_mirror (hone : B.OneSided) (id : OrderID) :
    (B.mirror maxLevels).cancel id = ((B.cancel id).1.mirror maxLevels,
      (Command.cancelOrder id).mirrorEvent maxLevels (B.cancel id).2) := by
  rcases cancel_cases B id with ⟨hnone, hcancel⟩ | ⟨side, e, he, -⟩
  · have hnone' : ∀ side, ((B.mirror maxLevels).side side).find? (Entry.isTarget id) = none := by
      intro side
      rw [find_mirror, hnone]
      rfl
    rw [hcancel, cancel_of_find_none hnone']
    rfl
  · have hother := hone id side (by rw [he]; rfl)
    have he' : ((B.mirror maxLevels).side side.opposite).find? (Entry.isTarget id) =
        some (e.mirror maxLevels) := by
      rw [find_mirror, Side.opposite_opposite, he]
      rfl
    have hother' : ((B.mirror maxLevels).side side.opposite.opposite).find?
        (Entry.isTarget id) = none := by
      rw [Side.opposite_opposite, find_mirror, hother]
      rfl
    have herase : ((B.mirror maxLevels).side side.opposite).eraseP (Entry.isTarget id) =
        ((B.side side).eraseP (Entry.isTarget id)).map (Entry.mirror maxLevels) := by
      rw [mirror_side, Side.opposite_opposite, List.eraseP_map]
      rfl
    rw [cancel_of_find he hother, cancel_of_find he' hother', herase, mirror_setSide]
    rfl

/-- A call commutes with the mirror. -/
theorem step_mirror (room : Nat → Bool) (hone : B.OneSided) {c : Command}
    (h : c.Priced maxLevels) :
    (B.mirror maxLevels).step room (c.mirror maxLevels) =
      ((B.step room c).1.mirror maxLevels, c.mirrorEvent maxLevels (B.step room c).2) := by
  cases c with
  | processOrder order => exact process_mirror room h
  | cancelOrder id => exact cancel_mirror hone id

/-- A call and its mirror lack room together. -/
theorem lacksRoom_mirror (room : Nat → Bool) {c : Command} (h : c.Priced maxLevels) :
    (B.mirror maxLevels).lacksRoom room (c.mirror maxLevels) = B.lacksRoom room c := by
  cases c with
  | cancelOrder id => rfl
  | processOrder order =>
      have hquantity : (order.mirror maxLevels).quantity = order.quantity := rfl
      have htype : (order.mirror maxLevels).type = order.type := rfl
      simp only [Command.mirror, lacksRoom, mirror_valid h, matched_mirror, hquantity, htype,
        mirror_size]

end

end Book

-- ============================================================================
-- Mirrored runs
-- ============================================================================

namespace MatchingEngine

section

variable {self other : MatchingEngine} {n capacity : Nat} {L L' : Layout} {c : Command}
  {cs : List Command}

theorem Sound.book_oneSided (h : self.Sound n capacity L) : self.book.OneSided := by
  intro id side hsome
  rw [List.find?_eq_none]
  intro e he htarget
  obtain ⟨e', he'⟩ := Option.isSome_iff_exists.mp hsome
  have hmem := List.mem_of_find?_eq_some he'
  have htarget' := List.find?_some he'
  rw [h.book_side] at he hmem
  obtain ⟨p, hp, rfl⟩ := List.mem_map.mp he
  obtain ⟨q, hq, rfl⟩ := List.mem_map.mp hmem
  rw [isTarget_entry h.map, decide_eq_true_eq] at htarget htarget'
  obtain rfl : q = p := Option.some.inj (htarget'.symm.trans htarget)
  obtain ⟨i, hi⟩ := h.mem_slots_iff.mp hp
  obtain ⟨j, hj⟩ := h.mem_slots_iff.mp hq
  exact side.opposite_ne (h.queue_unique hj hi).1

/-- Two engines whose books are mirror images answer mirrored runs with mirrored
    events. -/
theorem Sound.mirrored (h : self.Sound n capacity L) (h' : other.Sound n capacity L')
    (hbook : other.book = self.book.mirror n) (hcs : ∀ c ∈ cs, c.Priced n) :
    ∃ engine engine' events, self.run cs = some (engine, events) ∧
      other.run (cs.map (Command.mirror n)) =
        some (engine', List.zipWith (Command.mirrorEvent n) cs events) ∧
      events.length = cs.length ∧ (∃ L, engine.Sound n capacity L) ∧
      (∃ L, engine'.Sound n capacity L) ∧ engine'.book = engine.book.mirror n := by
  induction cs generalizing self other L L' with
  | nil => exact ⟨self, other, [], rfl, rfl, rfl, ⟨L, h⟩, ⟨L', h'⟩, hbook⟩
  | cons c cs ih =>
      have hc := hcs c (List.mem_cons_self ..)
      obtain ⟨s, event, M, hstep, hs, hB, -⟩ := step_spec h hc.limitBelow
      obtain ⟨s', event', M', hstep', hs', hB', -⟩ := step_spec h' hc.mirror.limitBelow
      have hmirror := Book.step_mirror (roomIn capacity) h.book_oneSided hc
      rw [← hbook, show self.book.step (roomIn capacity) c = (s.book, event) from hB,
        show other.book.step (roomIn capacity) (c.mirror n) = (s'.book, event') from hB']
        at hmirror
      obtain ⟨hbook', rfl⟩ := Prod.mk.inj hmirror
      obtain ⟨engine, engine', events, hrun, hrun', hlength, hend⟩ :=
        ih hs hs' hbook' fun d hd => hcs d (List.mem_cons_of_mem _ hd)
      exact ⟨engine, engine', event :: events, exec_cons hstep hrun, exec_cons hstep' hrun',
        congrArg (· + 1) hlength, hend⟩

end

end MatchingEngine

/-- The mirrored run returns the mirrored events, and the pool runs out in the
    mirrored run exactly at the calls at which it runs out in the original. -/
theorem run_mirror (config : Config) (cs : List Command)
    (h : ∀ c ∈ cs, c.Priced config.maxLevels) :
    ∃ engine engine' events, config.engine.run cs = some (engine, events) ∧
      config.engine.run (cs.map (Command.mirror config.maxLevels)) =
        some (engine', List.zipWith (Command.mirrorEvent config.maxLevels) cs events) ∧
      events.length = cs.length ∧
      ∀ pre c post, cs = pre ++ c :: post → ∀ s s' outs outs',
        config.engine.run pre = some (s, outs) →
        config.engine.run (pre.map (Command.mirror config.maxLevels)) = some (s', outs') →
        s'.runsOut (c.mirror config.maxLevels) = s.runsOut c := by
  have hstart := config.engine_sound
  have hself : config.engine.book = config.engine.book.mirror config.levels := by
    rw [config.engine_book]
    rfl
  rw [← config.levels_eq] at h ⊢
  obtain ⟨engine, engine', events, hrun, hrun', hlength, -⟩ :=
    hstart.mirrored hstart hself h
  refine ⟨engine, engine', events, hrun, hrun', hlength, ?_⟩
  rintro pre c post rfl s s' outs outs' hs hs'
  have hpre : ∀ d ∈ pre, d.Priced config.levels := fun d hd => h d (by simp [hd])
  obtain ⟨t, t', answers, ht, ht', -, ⟨M, hsound⟩, ⟨M', hsound'⟩, hbook⟩ :=
    hstart.mirrored hstart hself hpre
  obtain rfl := (result_unique hs ht).1
  obtain rfl := (result_unique hs' ht').1
  rw [hsound'.runsOut_eq, hsound.runsOut_eq, hbook]
  exact Book.lacksRoom_mirror (roomIn config.poolCapacity) (h c (by simp))

/-- The sample run against its image. -/
theorem sample_mirror : ∃ engine engine' events,
    Config.small.engine.run sampleCommands = some (engine, events) ∧
    Config.small.engine.run (sampleCommands.map (Command.mirror 10)) =
      some (engine', List.zipWith (Command.mirrorEvent 10) sampleCommands events) := by
  obtain ⟨engine, engine', events, hrun, hrun', -, -⟩ :=
    run_mirror Config.small sampleCommands (by decide)
  exact ⟨engine, engine', events, hrun, hrun'⟩

end LimitOrderBook
