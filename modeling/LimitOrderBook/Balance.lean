/-
  LimitOrderBook.Balance

  Two balances of a whole run, with no condition on ids.

  In quantities: all that was submitted on a side was traded, is open on the book, or
  is in the report of a cancellation.  In numbers: a submission pays for one trade or
  one place on the book, so matching takes constant work a submission however the
  orders are arranged, and the reports are at most two a submission.
-/
import LimitOrderBook.Commuting
import LimitOrderBook.PoolExhaustion

namespace LimitOrderBook

open Lib MatchingEngine

/-- What a call submits on a side, valid or not. -/
def Command.quantityOn (side : Side) : Command → Int
  | .processOrder order => if order.side = side then order.quantity else 0
  | .cancelOrder _ => 0

def Command.isSubmission : Command → Bool
  | .processOrder _ => true
  | .cancelOrder _ => false

/-- What an event trades. -/
def MatchEvent.volume (event : MatchEvent) : Int := (event.trades.map Trade.quantity).sum

/-- What a report gives up of an order of this side. -/
def ExecutionReport.droppedOn (side : Side) (r : ExecutionReport) : Int :=
  if r.status = .cancelled ∧ r.side = side then r.remainingQuantity else 0

/-- What an event's cancellations give up of a side. -/
def MatchEvent.droppedOn (side : Side) (event : MatchEvent) : Int :=
  (event.reports.map (ExecutionReport.droppedOn side)).sum

namespace Book

/-- What is open on a side. -/
def openOn (B : Book) (side : Side) : Int := Entry.supply.total (B.side side)

section

variable {B B' : Book} {order : IncomingOrder} {left : Int} {room : Nat → Bool} {c : Command}
  {event : MatchEvent}

theorem total_map_remaining {f : Entry → Entry} (h : ∀ e, (f e).remaining = e.remaining)
    (es : List Entry) : Entry.supply.total (es.map f) = Entry.supply.total es := by
  have hamount : Entry.supply.amount ∘ f = Entry.supply.amount := funext h
  rw [Supply.total, List.map_map, hamount, Supply.total]

-- ============================================================================
-- Quantities
-- ============================================================================

theorem matched_open_own : (B.matched order left).book.openOn order.side = B.openOn order.side := by
  rw [openOn, matched_own]
  exact total_map_remaining (fun e => Entry.forgetAll_remaining ..) _

theorem matched_open_opposite : ((B.matched order left).trades.map Trade.quantity).sum +
    (B.matched order left).book.openOn order.side.opposite = B.openOn order.side.opposite := by
  have htotal := @Supply.sweep_total _ Entry.supply (fun e => order.crosses e.price) left
    (B.side order.side.opposite) (fun _ _ => rfl)
  have hconserves := @Supply.sweep_conserves _ Entry.supply (fun e => order.crosses e.price)
    left (B.side order.side.opposite)
  have hkept : (B.matched order left).book.openOn order.side.opposite =
      Entry.supply.total (B.sweep order left).kept := by
    rw [openOn, matched_opposite]
    exact total_map_remaining (fun e => Entry.forgetAll_remaining ..) _
  rw [matched_traded, hkept]
  show left - (B.sweep order left).left + Entry.supply.total (B.sweep order left).kept = _
  rw [sweep, openOn]
  omega

theorem rest_open (side : Side) : (B.rest order left).openOn side =
    B.openOn side + if order.side = side then left else 0 := by
  rcases Side.eq_or_eq_opposite order.side side with rfl | rfl
  · have hperm := List.perm_orderedInsert
      (fun a b : Entry => order.side.better a.price b.price)
      ({ id := order.id, price := order.price, quantity := order.quantity, remaining := left,
         mapped := true } : Entry) ((B.side order.side).map (Entry.forget order.id))
    have hforget := total_map_remaining (Entry.forget_remaining order.id) (B.side order.side)
    rw [openOn, rest, setSide_side, forget_side, Supply.total,
      (hperm.map Entry.supply.amount).sum_eq, List.map_cons, List.sum_cons, if_pos rfl,
      Int.add_comm]
    exact congrArg (· + left) hforget
  · rw [openOn, rest, setSide_side_opposite, forget_side,
      total_map_remaining (Entry.forget_remaining order.id),
      if_neg order.side.opposite_ne.symm, Int.add_zero]
    rfl

theorem eraseP_open {p : Entry → Bool} {es : List Entry} {e : Entry} (h : es.find? p = some e) :
    Entry.supply.total (es.eraseP p) + e.remaining = Entry.supply.total es := by
  induction es with
  | nil => exact absurd h (by simp)
  | cons x es ih =>
      by_cases hx : p x = true
      · rw [List.find?_cons_of_pos hx] at h
        obtain rfl := Option.some.inj h
        rw [List.eraseP_cons_of_pos hx, Supply.total_cons, Int.add_comm]
        rfl
      · rw [List.find?_cons_of_neg hx] at h
        rw [List.eraseP_cons_of_neg hx, Supply.total_cons, Supply.total_cons, Int.add_assoc, ih h]

theorem cancel_open (id : OrderID) (side : Side) :
    (B.cancel id).2.droppedOn side + (B.cancel id).1.openOn side = B.openOn side := by
  rcases cancel_cases B id with ⟨-, hnone⟩ | ⟨s, e, hfind, hcancel⟩
  · rw [hnone]
    exact Int.zero_add _
  · rw [hcancel]
    have herase := eraseP_open hfind
    rcases Side.eq_or_eq_opposite s side with rfl | rfl
    · rw [openOn, setSide_side]
      simp only [MatchEvent.droppedOn, List.map_cons, List.map_nil, List.sum_cons, List.sum_nil,
        ExecutionReport.droppedOn, cancelReport, and_self, if_true, openOn]
      omega
    · rw [openOn, setSide_side_opposite]
      simp [MatchEvent.droppedOn, ExecutionReport.droppedOn, cancelReport, openOn,
        s.opposite_ne.symm]

/-- A filled maker gives nothing up. -/
theorem matched_dropped (side : Side) :
    ((B.matched order left).reports.map (ExecutionReport.droppedOn side)).sum = 0 := by
  apply List.sum_eq_zero
  intro q hq
  obtain ⟨r, hr, rfl⟩ := List.mem_map.mp hq
  obtain ⟨e, -, rfl⟩ := List.mem_map.mp hr
  simp [ExecutionReport.droppedOn, makerReport]

/-- The quantities of one call balance. -/
theorem step_balance (room : Nat → Bool) (B : Book) (c : Command) (side : Side) :
    c.quantityOn side + B.openOn side = (B.step room c).2.volume +
      (B.step room c).2.droppedOn side + (B.step room c).1.openOn side := by
  cases c with
  | cancelOrder id =>
      have hvolume : (B.cancel id).2.volume = 0 := by
        rcases cancel_cases B id with ⟨-, hnone⟩ | ⟨s, e, -, hcancel⟩
        · rw [hnone]; rfl
        · rw [hcancel]; rfl
      rw [step, hvolume, Int.zero_add, cancel_open]
      exact Int.zero_add _
  | processOrder order =>
      rw [step]
      cases hv : validateOrder order with
      | false =>
          rw [process_rejected room B hv]
          simp [process, hv, Command.quantityOn, MatchEvent.volume, MatchEvent.droppedOn,
            ExecutionReport.droppedOn, takerReport]
      | true =>
          obtain ⟨status, hevent, hbook⟩ := process_cases room B hv
          have htraded := @matched_traded B order order.quantity
          have hvolume : (B.process room order).2.volume =
              ((B.matched order order.quantity).trades.map Trade.quantity).sum := by
            rw [hevent]
            rfl
          have hdropped : (B.process room order).2.droppedOn side =
              if status = .cancelled ∧ order.side = side then
                (B.matched order order.quantity).left else 0 := by
            rw [hevent, MatchEvent.droppedOn, List.map_append, List.sum_append, matched_dropped]
            simp [ExecutionReport.droppedOn, takerReport]
          rw [hdropped, hvolume, Command.quantityOn]
          rcases Side.eq_or_eq_opposite order.side side with rfl | rfl
          · have hown := @matched_open_own B order order.quantity
            rcases hbook with ⟨hz, rfl, hbook⟩ | ⟨-, rfl, -, hbook⟩ | ⟨-, rfl, hbook⟩
            · rw [hbook, if_pos rfl, if_neg (by simp)]
              omega
            · rw [hbook, rest_open, if_pos rfl, if_pos rfl, if_neg (by simp)]
              omega
            · rw [hbook, if_pos rfl, if_pos ⟨rfl, rfl⟩]
              omega
          · have hopposite := @matched_open_opposite B order order.quantity
            have hne : ¬ order.side = order.side.opposite := order.side.opposite_ne.symm
            rw [if_neg hne, if_neg fun hc => hne hc.2]
            rcases hbook with ⟨-, -, hbook⟩ | ⟨-, -, -, hbook⟩ | ⟨-, -, hbook⟩
            · rw [hbook]
              omega
            · rw [hbook, rest_open, if_neg hne]
              omega
            · rw [hbook]
              omega

-- ============================================================================
-- Numbers
-- ============================================================================

/-- A sweep takes out the makers that it fills, and trades with one more at most. -/
theorem matched_counts :
    (B.matched order left).book.size + (B.matched order left).reports.length = B.size ∧
      (B.matched order left).trades.length ≤ (B.matched order left).reports.length + 1 ∧
      (0 < (B.matched order left).left →
        (B.matched order left).trades.length = (B.matched order left).reports.length) := by
  obtain ⟨hkept, hle, heq⟩ := @Supply.sweep_length _ Entry.supply
    (fun e => order.crosses e.price) left (B.side order.side.opposite)
  have hreports : (B.matched order left).reports.length =
      ((B.sweep order left).taken.filter consumes).length := by
    rw [matched, consumed, List.length_map, List.length_map]
  have htrades : (B.matched order left).trades.length = (B.sweep order left).taken.length :=
    List.length_map _
  have hown := congrArg List.length (@matched_own B order left)
  have hopp := congrArg List.length (@matched_opposite B order left)
  rw [List.length_map] at hown hopp
  rw [hreports, htrades, size_eq _ order.side, size_eq B order.side, hown, hopp]
  refine ⟨?_, hle, heq⟩
  rw [Nat.add_assoc]
  exact congrArg _ hkept

/-- A submission pays for one trade or one place on the book. -/
theorem step_counts (room : Nat → Bool) (c : Command) (hpos : B.Positive) :
    (B.step room c).2.trades.length + (B.step room c).1.size ≤ B.size + c.isSubmission.toNat ∧
      (B.step room c).2.reports.length + (B.step room c).1.size ≤
        B.size + 2 * c.isSubmission.toNat := by
  cases c with
  | cancelOrder id =>
      rcases cancel_cases B id with ⟨-, hnone⟩ | ⟨side, e, hfind, hcancel⟩
      · rw [step, hnone]
        simp [Command.isSubmission]
      · have hmem := List.mem_of_find?_eq_some hfind
        have hp := List.find?_some hfind
        have hlength := List.length_eraseP_of_mem hmem hp
        have hlt := List.length_pos_of_mem hmem
        rw [step, hcancel, size_eq _ side, size_eq B side, setSide_side, setSide_side_opposite,
          hlength]
        simp only [List.length_nil, List.length_singleton, Command.isSubmission, Bool.toNat_false]
        omega
  | processOrder order =>
      rw [step]
      cases hv : validateOrder order with
      | false =>
          rw [process_rejected room B hv]
          simp [process, hv, Command.isSubmission]
          omega
      | true =>
          obtain ⟨status, hevent, hbook⟩ := process_cases room B hv
          obtain ⟨hsize, hle, heq⟩ := @matched_counts B order order.quantity
          have hleft : 0 ≤ (B.matched order order.quantity).left := by
            rw [matched_left hpos (Int.le_of_lt (validateOrder_pos hv).1)]
            exact Int.le_max_left ..
          rw [hevent]
          simp only [List.length_append, List.length_singleton, Command.isSubmission,
            Bool.toNat_true]
          rcases hbook with ⟨-, -, hbook⟩ | ⟨hne, -, -, hbook⟩ | ⟨-, -, hbook⟩
          · rw [hbook]
            omega
          · have hall := heq (by omega)
            rw [hbook, rest_size]
            omega
          · rw [hbook]
            omega

end

end Book

-- ============================================================================
-- Runs
-- ============================================================================

section

variable {n capacity : Nat} {s s' : MatchingEngine} {cs : List Command} {events : List MatchEvent}

theorem trace_balance (h : Trace (Call n capacity) s cs events s') (side : Side) :
    (cs.map (Command.quantityOn side)).sum + s.book.openOn side =
      (events.map MatchEvent.volume).sum + (events.map (MatchEvent.droppedOn side)).sum +
        s'.book.openOn side := by
  induction h with
  | nil => simp
  | @snoc cs events t u c event _ hcall ih =>
      have hbook : t.book.step (roomIn capacity) c = (u.book, event) := hcall.book
      have hstep := Book.step_balance (roomIn capacity) t.book c side
      simp only [hbook] at hstep
      simp only [List.map_append, List.sum_append, List.map_cons, List.map_nil, List.sum_cons,
        List.sum_nil]
      omega

theorem trace_counts (h : Trace (Call n capacity) s cs events s') :
    (events.flatMap MatchEvent.trades).length + s'.book.size ≤
        s.book.size + cs.countP Command.isSubmission ∧
      (events.flatMap MatchEvent.reports).length + s'.book.size ≤
        s.book.size + 2 * cs.countP Command.isSubmission := by
  induction h with
  | nil => simp
  | @snoc cs events t u c event _ hcall ih =>
      have hbook : t.book.step (roomIn capacity) c = (u.book, event) := hcall.book
      have hstep := Book.step_counts (roomIn capacity) c hcall.positive
      simp only [hbook] at hstep
      have hone : [c].countP Command.isSubmission = c.isSubmission.toNat := by
        cases c <;> rfl
      simp only [List.countP_append, hone, List.flatMap_append, List.flatMap_cons,
        List.flatMap_nil, List.length_append, List.length_nil]
      omega

end

/-- In every run on the ladder, whatever ids are used again, what was submitted on a side
    is what was traded, what the cancellations gave up and what is linked on that side. -/
theorem run_balance (config : Config) (cs : List Command)
    (h : ∀ c ∈ cs, c.LimitBelow config.maxLevels) :
    ∃ engine events, config.engine.run cs = some (engine, events) ∧ ∀ side,
      (cs.map (Command.quantityOn side)).sum =
        (events.map MatchEvent.volume).sum + (events.map (MatchEvent.droppedOn side)).sum +
          ((engine.sideSlots side).map fun p => (engine.heap p).remaining).sum := by
  obtain ⟨engine, events, hrun, -, htrace⟩ := config.run_calls h
  refine ⟨engine, events, hrun, fun side => ?_⟩
  have hbalance := trace_balance htrace side
  have hstart : config.engine.book.openOn side = 0 := by
    rw [config.engine_book]
    cases side <;> rfl
  have hlast : engine.book.openOn side =
      ((engine.sideSlots side).map fun p => (engine.heap p).remaining).sum := by
    rw [Book.openOn, MatchingEngine.book_side, Supply.total, List.map_map]
    rfl
  rw [hstart, hlast] at hbalance
  omega

theorem sample_balance : ∃ engine events,
    Config.small.engine.run sampleCommands = some (engine, events) ∧ ∀ side,
      (sampleCommands.map (Command.quantityOn side)).sum =
        (events.map MatchEvent.volume).sum + (events.map (MatchEvent.droppedOn side)).sum +
          ((engine.sideSlots side).map fun p => (engine.heap p).remaining).sum :=
  run_balance Config.small sampleCommands (by decide)

/-- In every run on the ladder there are at most as many trades, each an iteration of
    the inner loop, and linked orders as submissions, and twice as many reports: matching
    is paid for when an order is submitted. -/
theorem run_amortized (config : Config) (cs : List Command)
    (h : ∀ c ∈ cs, c.LimitBelow config.maxLevels) :
    ∃ engine events, config.engine.run cs = some (engine, events) ∧
      (events.flatMap MatchEvent.trades).length + engine.linked ≤ cs.countP Command.isSubmission ∧
      (events.flatMap MatchEvent.reports).length + engine.linked ≤
        2 * cs.countP Command.isSubmission := by
  obtain ⟨engine, events, hrun, -, htrace⟩ := config.run_calls h
  have hcounts := trace_counts htrace
  have hstart : config.engine.book.size = 0 := by
    rw [config.engine_book]
    rfl
  rw [hstart, Nat.zero_add, Nat.zero_add, book_size_eq] at hcounts
  exact ⟨engine, events, hrun, hcounts⟩

theorem sample_amortized : ∃ engine events,
    Config.small.engine.run sampleCommands = some (engine, events) ∧
      (events.flatMap MatchEvent.trades).length + engine.linked ≤ 5 ∧
      (events.flatMap MatchEvent.reports).length + engine.linked ≤ 10 :=
  run_amortized Config.small sampleCommands (by decide)

end LimitOrderBook
