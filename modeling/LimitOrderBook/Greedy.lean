/-
  LimitOrderBook.Greedy

  `process_order` is the greedy price-time sweep.

  `GreedySweep` says it without the engine's or the book's own functions for a
  call: a pure sweep of the crossing prefix of the opposite list, the residual
  appended behind all orders of its price, and the reports that follow from
  that.
-/
import LimitOrderBook.Invariants
import Mathlib.Data.List.TakeWhile

namespace LimitOrderBook

open Lib MatchingEngine

/-- Take from every order in turn until the demand is met. -/
def greedy (demand : Int) (orders : List Entry) : Supply.Swept Entry :=
  Entry.supply.sweep (fun _ => true) demand orders

/-- The residual of an order rests: a Limit order, and a slot is free. -/
def rests (room : Nat → Bool) (B : Book) (order : IncomingOrder)
    (swept : Supply.Swept Entry) : Bool :=
  decide (swept.left ≠ 0) && decide (order.type = .limit) &&
    room ((swept.kept ++ B.beyond order).length + (B.side order.side).length)

/-- The call takes the greedy sweep from `before` to `after`. -/
structure GreedySweep (room : Nat → Bool) (before after : Book) (order : IncomingOrder)
    (event : MatchEvent) (swept : Supply.Swept Entry) : Prop where
  swept_eq : swept = greedy order.quantity (before.crossing order)
  trades : event.trades = swept.taken.map (fillTrade order)
  quantity : ∀ pre fill post, swept.taken = pre ++ fill :: post →
    fill.2 = min (order.quantity - (pre.map Prod.snd).sum) fill.1.remaining ∧ 0 < fill.2 ∧
      fill.1 ∈ before.crossing order
  opposite : (after.side order.side.opposite).map Entry.view =
    (swept.kept ++ before.beyond order).map Entry.view
  own : rests room before order swept = false →
    (after.side order.side).map Entry.view = (before.side order.side).map Entry.view
  residual : rests room before order swept = true →
    ∃ ahead behind, (before.side order.side).map Entry.view = ahead ++ behind ∧
      (after.side order.side).map Entry.view =
        ahead ++ (order.id, order.price, order.quantity, swept.left) :: behind ∧
      (∀ e ∈ ahead, ¬ order.side.better order.price e.2.1) ∧
      ∀ e ∈ behind, order.side.better order.price e.2.1
  reports : event.reports =
    ((swept.taken.filter consumes).map Prod.fst).map (makerReport order.side.opposite) ++
      [{ orderId := order.id
         status := if swept.left = 0 then .filled
           else if rests room before order swept then .resting else .cancelled
         side := order.side
         price := order.price
         filledQuantity := order.quantity - swept.left
         remainingQuantity := swept.left }]

namespace Book

variable {B : Book} {order : IncomingOrder} {room : Nat → Bool}

@[simp] theorem forgetAll_view (ids : List OrderID) (e : Entry) :
    (e.forgetAll ids).view = e.view := by
  simp [Entry.view]

@[simp] theorem forget_view (id : OrderID) (e : Entry) : (e.forget id).view = e.view := by
  simp [Entry.view]

/-- The sweep of the whole side is the greedy sweep of its crossing prefix. -/
theorem sweep_greedy (B : Book) (order : IncomingOrder) (left : Int) :
    B.sweep order left =
      ⟨(greedy left (B.crossing order)).taken,
        (greedy left (B.crossing order)).kept ++ B.beyond order,
        (greedy left (B.crossing order)).left⟩ := by
  have hall : Entry.supply.sweep (fun e => order.crosses e.price) left
      ((B.side order.side.opposite).takeWhile fun e => order.crosses e.price) =
        greedy left (B.crossing order) :=
    Supply.sweep_congr fun e he =>
      @List.mem_takeWhile_imp _ (fun e : Entry => order.crosses e.price) _ e he
  rw [sweep, Supply.sweep_takeWhile, hall, beyond]

/-- Sorted insertion splits a sorted list where the new price belongs. -/
theorem orderedInsert_split {side : Side} {e : Entry} {l : List Entry} {l' : List Entry}
    (hview : l'.map Entry.view = l.map Entry.view)
    (hsorted : (l.map Entry.price).Pairwise fun p q => ¬ side.better q p) :
    ∃ ahead behind, l.map Entry.view = ahead ++ behind ∧
      (l'.orderedInsert (fun a b => side.better a.price b.price) e).map Entry.view =
        ahead ++ e.view :: behind ∧
      (∀ v ∈ ahead, ¬ side.better e.price v.2.1) ∧ ∀ v ∈ behind, side.better e.price v.2.1 := by
  induction l generalizing l' with
  | nil =>
      obtain rfl := List.map_eq_nil_iff.mp hview
      exact ⟨[], [], rfl, rfl, by simp, by simp⟩
  | cons a l ih =>
      obtain ⟨a', l'', rfl, ha, hl⟩ := List.map_eq_cons_iff.mp hview
      obtain ⟨hbefore, hsorted'⟩ := List.pairwise_cons.mp hsorted
      have hprice : a'.price = a.price := congrArg (fun v => v.2.1) ha
      by_cases hr : side.better e.price a'.price
      · refine ⟨[], (a :: l).map Entry.view, rfl, ?_, by simp, ?_⟩
        · rw [List.orderedInsert, if_pos hr, List.map_cons, hview, List.nil_append]
        · intro v hv
          obtain ⟨b, hb, rfl⟩ := List.mem_map.mp hv
          show side.better e.price b.price
          rw [hprice] at hr
          rcases List.mem_cons.mp hb with rfl | hb
          · exact hr
          · have hnot := hbefore b.price (List.mem_map_of_mem hb)
            cases side <;> simp only [Side.better] at hr hnot ⊢ <;> omega
      · obtain ⟨ahead, behind, hsplit, hins, hahead, hbehind⟩ := ih hl hsorted'
        refine ⟨a.view :: ahead, behind, ?_, ?_, ?_, hbehind⟩
        · rw [List.map_cons, hsplit, List.cons_append]
        · rw [List.orderedInsert, if_neg hr, List.map_cons, hins, ha, List.cons_append]
        · intro v hv
          rcases List.mem_cons.mp hv with rfl | hv
          · show ¬ side.better e.price a.price
            rwa [hprice] at hr
          · exact hahead v hv

/-- The abstract call is the greedy sweep. -/
theorem process_greedy (hsorted : B.Sorted) (hpos : B.Positive)
    (hv : validateOrder order = true) :
    GreedySweep room B (B.process room order).1 order (B.process room order).2
      (greedy order.quantity (B.crossing order)) := by
  have hcrossing : ∀ e ∈ B.crossing order, 0 < Entry.supply.amount e := fun e he =>
    hpos _ e ((List.takeWhile_sublist _).subset he)
  have hsweep := sweep_greedy B order order.quantity
  generalize hg : greedy order.quantity (B.crossing order) = swept at hsweep
  have hconsumed : B.consumed order order.quantity =
      (swept.taken.filter consumes).map Prod.fst := by rw [consumed, hsweep]
  have hm : B.matched order order.quantity =
      { book := (B.setSide order.side.opposite (swept.kept ++ B.beyond order)).forgetAll
          ((B.consumed order order.quantity).map Entry.id)
        trades := swept.taken.map (fillTrade order)
        reports := ((swept.taken.filter consumes).map Prod.fst).map
          (makerReport order.side.opposite)
        left := swept.left } := by rw [matched, hsweep, hconsumed]
  generalize hmb : (B.setSide order.side.opposite (swept.kept ++ B.beyond order)).forgetAll
    ((B.consumed order order.quantity).map Entry.id) = mb at hm
  have hopp : (mb.side order.side.opposite).map Entry.view =
      (swept.kept ++ B.beyond order).map Entry.view := by
    rw [← hmb, forgetAll_side, setSide_side, List.map_map]
    exact List.map_congr_left fun e _ => forgetAll_view ..
  have hown : (mb.side order.side).map Entry.view = (B.side order.side).map Entry.view := by
    rw [← hmb, forgetAll_side, setSide_opposite_side, List.map_map]
    exact List.map_congr_left fun e _ => forgetAll_view ..
  have hsize : mb.size = (swept.kept ++ B.beyond order).length + (B.side order.side).length := by
    have ho := congrArg List.length hopp
    have hw := congrArg List.length hown
    rw [List.length_map, List.length_map] at ho hw
    rw [size_eq mb order.side, ho, hw, Nat.add_comm]
  have hfills : ∀ pre fill post, swept.taken = pre ++ fill :: post →
      fill.2 = min (order.quantity - (pre.map Prod.snd).sum) fill.1.remaining ∧ 0 < fill.2 ∧
        fill.1 ∈ B.crossing order := by
    intro pre fill post hfill
    rw [← hg] at hfill
    have hin : fill ∈ (greedy order.quantity (B.crossing order)).taken := by
      rw [hfill]
      simp
    obtain ⟨hmem, -, hlt, -⟩ := Supply.sweep_taken hcrossing fill hin
    exact ⟨Supply.sweep_taken_min hcrossing hfill, hlt, hmem⟩
  have hprocess : B.process room order =
      (if rests room B order swept then mb.rest order swept.left else mb,
        { trades := swept.taken.map (fillTrade order)
          reports := ((swept.taken.filter consumes).map Prod.fst).map
            (makerReport order.side.opposite) ++
              [takerReport order (if swept.left = 0 then .filled
                else if rests room B order swept then .resting else .cancelled)
                (order.quantity - swept.left) swept.left] }) := by
    simp only [process, hv, Bool.not_true, Bool.false_eq_true, if_false, hm, rests, hsize]
    by_cases hz : swept.left = 0
    · simp [hz]
    · by_cases hl : order.type = .limit
      · by_cases hroom : room ((swept.kept ++ B.beyond order).length +
            (B.side order.side).length) = true
        · simp only [hz, hl, hroom, if_false, and_self, if_true, ne_eq, not_false_eq_true,
            decide_true, Bool.and_self]
        · simp only [hz, hl, hroom, if_false, and_false, Bool.and_false, Bool.false_eq_true]
      · simp [hz, hl]
  rw [hprocess]
  refine ⟨hg.symm, rfl, hfills, ?_, fun hno => ?_, fun hyes => ?_, rfl⟩
  · show ((if rests room B order swept then mb.rest order swept.left else mb).side
      order.side.opposite).map Entry.view = _
    split
    · rw [rest, setSide_side_opposite, forget_side, List.map_map, ← hopp]
      exact List.map_congr_left fun e _ => forget_view ..
    · exact hopp
  · show ((if rests room B order swept then mb.rest order swept.left else mb).side
      order.side).map Entry.view = _
    rw [hno]
    exact hown
  · show ∃ ahead behind, _ ∧ ((if rests room B order swept then mb.rest order swept.left
      else mb).side order.side).map Entry.view = _ ∧ _
    rw [if_pos hyes, rest, setSide_side, forget_side]
    refine orderedInsert_split ?_ (hsorted order.side)
    rw [List.map_map, ← hown]
    exact List.map_congr_left fun e _ => forget_view ..

end Book

/-- For every reachable state and every valid order whose residual the ladder can
    take, `process_order` returns and is the greedy sweep. -/
theorem processOrder_greedy (config : Config) (cs : List Command)
    (h : ∀ c ∈ cs, c.LimitBelow config.maxLevels) (order : IncomingOrder)
    (hvalid : validateOrder order = true)
    (hprice : order.type = .limit → order.price < config.maxLevels) :
    ∃ engine events engine' event,
      config.engine.run cs = some (engine, events) ∧
      engine.processOrder order = some (engine', event) ∧
      GreedySweep (roomIn config.poolCapacity) engine.book engine'.book order event
        (greedy order.quantity (engine.book.crossing order)) := by
  obtain ⟨engine, events, hrun, ⟨L, hsound⟩, -⟩ := config.run_calls h
  rw [← config.levels_eq] at hprice
  obtain ⟨engine', event, L', hstep, -, hbook, -⟩ :=
    @step_spec engine _ _ L (.processOrder order) hsound hprice
  refine ⟨engine, events, engine', event, hrun, hstep, ?_⟩
  have hprocess : engine.book.process (roomIn config.poolCapacity) order =
      (engine'.book, event) := hbook
  have hgreedy := @Book.process_greedy _ order (roomIn config.poolCapacity) hsound.book_sorted
    hsound.book_positive hvalid
  rwa [hprocess] at hgreedy

/-- The sample run, continued by a sell that sweeps the bid and rests. -/
theorem sample_greedy : ∃ engine events engine' event,
    Config.small.engine.run sampleCommands = some (engine, events) ∧
      engine.processOrder (makeOrder 5 .sell 3 9) = some (engine', event) ∧
      GreedySweep (roomIn 3) engine.book engine'.book (makeOrder 5 .sell 3 9) event
        (greedy 9 (engine.book.crossing (makeOrder 5 .sell 3 9))) :=
  processOrder_greedy Config.small sampleCommands (by decide) (makeOrder 5 .sell 3 9)
    (by decide) (by decide)

end LimitOrderBook
