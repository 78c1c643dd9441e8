/-
  LimitOrderBook.CancelReplace

  Cancel an order and submit it again.

  After a cancel that found its order, a Limit order for what the order had left finds
  room and nothing to trade with.  The two calls cost the order its place in the queue
  of its price, and change nothing else on the book.
-/
import LimitOrderBook.QueueOrder
import LimitOrderBook.ReachableBooks

namespace LimitOrderBook

open Lib MatchingEngine

/-- The Limit order that asks for what an entry has left. -/
def Entry.again (e : Entry) (side : Side) (timestamp : Timestamp) : IncomingOrder :=
  { id := e.id, side, type := .limit, price := e.price, quantity := e.remaining, timestamp }

namespace Book

section

variable {B : Book} {side : Side} {e : Entry} {xs ys : List Entry} {room : Nat → Bool}

/-- A map update of an id that leads nowhere. -/
theorem forget_untargeted {id : OrderID}
    (h : ∀ side, ∀ e ∈ B.side side, e.isTarget id = false) : B.forget id = B := by
  refine ext_side fun side => ?_
  rw [forget_side]
  refine (List.map_congr_left fun e he => ?_).trans (List.map_id' _)
  have hnot := h side e he
  rw [Entry.forget]
  split
  · next hid =>
      rw [Entry.isTarget, beq_iff_eq.mpr hid, Bool.and_true] at hnot
      rw [← hnot]
  · rfl

/-- Once an order is taken out, asking for what it had left puts it behind its price. -/
theorem process_again (hside : B.side side = xs ++ e :: ys) (hsorted : B.Sorted)
    (huncrossed : B.Uncrossed) (hv : validateOrder (e.again side 0) = true)
    (hnone : ∀ other, ∀ x ∈ (B.setSide side (xs ++ ys)).side other, x.isTarget e.id = false)
    (hroom : room (B.setSide side (xs ++ ys)).size = true) (timestamp : Timestamp) :
    ∃ B', (B.setSide side (xs ++ ys)).process room (e.again side timestamp) =
        (B', { reports := [takerReport (e.again side timestamp) .resting 0 e.remaining] }) ∧
      (∀ other price, other ≠ side ∨ price ≠ e.price →
        B'.level other price = B.level other price) ∧
      ∃ ahead behind, B.level side e.price = ahead ++ e :: behind ∧
        B'.level side e.price =
          ahead ++ behind ++ [(e.again side timestamp).entry e.remaining] := by
  have htaken : ((B.setSide side (xs ++ ys)).sweep (e.again side timestamp)
      (e.again side timestamp).quantity).taken = [] := by
    refine congrArg Supply.Swept.taken (Supply.sweep_unwanted fun x hx => ?_)
    have hx' : x ∈ B.side side.opposite := by
      rw [← @setSide_side_opposite B side (xs ++ ys)]
      exact hx
    refine crosses_of_beyond (by exact OrderType.noConfusion) ?_
    exact (uncrossed_iff side).mp huncrossed e.price (List.mem_map_of_mem (by rw [hside]; simp))
      x.price (List.mem_map_of_mem hx')
  have hsorted' : (B.setSide side (xs ++ ys)).Sorted := by
    intro other
    rcases side.eq_or_eq_opposite other with rfl | rfl
    · rw [setSide_side]
      refine (hsorted other).sublist (List.Sublist.map _ ?_)
      rw [hside]
      exact (List.sublist_cons_self e ys).append_left xs
    · rw [setSide_side_opposite]
      exact hsorted side.opposite
  have hforget := forget_untargeted hnone
  refine ⟨_, process_of_taken_nil hv rfl htaken hroom, fun other price hother => ?_, ?_⟩
  · rw [rest_level_other hother, show (e.again side timestamp).id = e.id from rfl, hforget]
    rcases side.eq_or_eq_opposite other with rfl | rfl
    · have hprice : price ≠ e.price := hother.elim (fun hs => absurd rfl hs) id
      rw [setSide_level, level, hside, List.filter_append, List.filter_append,
        List.filter_cons_of_neg]
      exact fun h => hprice (of_decide_eq_true h).symm
    · rw [setSide_level_opposite]
  · refine ⟨xs.filter fun x => x.price = e.price, ys.filter fun x => x.price = e.price, ?_, ?_⟩
    · rw [level, hside, List.filter_append,
        List.filter_cons_of_pos (by exact decide_eq_true rfl)]
    · have hlevel := @rest_level_own _ (e.again side timestamp) e.remaining hsorted'
      rw [show (e.again side timestamp).id = e.id from rfl, hforget] at hlevel
      refine hlevel.trans ?_
      show (B.setSide side (xs ++ ys)).level side e.price ++ _ = _
      rw [setSide_level, List.filter_append]

end

/-- Where a cancel takes its order out. -/
theorem split_target {l : List Entry} {id : OrderID} (h : l.find? (Entry.isTarget id) = some e) :
    ∃ xs ys, l = xs ++ e :: ys ∧ l.eraseP (Entry.isTarget id) = xs ++ ys ∧ e.id = id := by
  obtain ⟨htarget, xs, ys, rfl, hxs⟩ := List.find?_eq_some_iff_append.mp h
  refine ⟨xs, ys, rfl, ?_, Entry.id_of_isTarget htarget⟩
  rw [List.eraseP_append_right _ fun x hx => by simpa using hxs x hx,
    List.eraseP_cons_of_pos htarget]

end Book

-- ============================================================================
-- Runs
-- ============================================================================

namespace MatchingEngine

variable {self : MatchingEngine} {n capacity : Nat} {L : Layout} {id : OrderID}

/-- A cancel that reports takes out the order that it reports, and its id leads nowhere. -/
theorem Sound.cancelOrder_found (h : self.Sound n capacity L)
    (hreports : (self.cancelOrder id).2.reports ≠ []) :
    ∃ side e xs ys L', self.book.side side = xs ++ e :: ys ∧ e.id = id ∧
      (self.cancelOrder id).2 = { reports := [Book.cancelReport side e] } ∧
      (self.cancelOrder id).1.book = self.book.setSide side (xs ++ ys) ∧
      (self.cancelOrder id).1.Sound n capacity L' ∧
      ∀ other, ∀ x ∈ (self.cancelOrder id).1.book.side other, x.isTarget id = false := by
  cases hid : self.orderMap.lookup id with
  | none =>
      rw [cancelOrder_none hid] at hreports
      exact absurd rfl hreports
  | some p =>
      obtain ⟨side, i, qs, rs, hq⟩ := h.queued hid
      obtain ⟨hset, hbook, hmap, -, -⟩ := cancelOrder_spec h.settled hid hq
      have hs : (self.cancelOrder id).1.Sound n capacity
          { L.setQueue side i (qs ++ rs) with free := p :: L.free } := ⟨hset.rep, h.held⟩
      have hnone : ∀ other, ∀ x ∈ (self.cancelOrder id).1.book.side other,
          x.isTarget id = false := by
        intro other x hx
        have hlook := hs.mem_orderMap id
        rw [hmap, AList.lookup_erase] at hlook
        rw [Bool.eq_false_iff]
        exact fun htarget => absurd (hlook.mpr ⟨other, x, hx, htarget⟩) Bool.false_ne_true
      rcases Book.cancel_cases self.book id with ⟨-, hcancel⟩ | ⟨side', e, hfind, hcancel⟩
      · rw [hbook, Prod.mk.injEq] at hcancel
        rw [hcancel.2] at hreports
        exact absurd rfl hreports
      · rw [hbook, Prod.mk.injEq] at hcancel
        obtain ⟨xs, ys, hside, herase, heid⟩ := Book.split_target hfind
        rw [herase] at hcancel
        exact ⟨side', e, xs, ys, _, hside, heid, hcancel.2, hcancel.1, hs, hnone⟩

end MatchingEngine

/-- After every run on the ladder, cancelling an order and submitting what it had left
    trades nothing, finds room, and only moves the order behind all others of its price. -/
theorem run_cancelReplace (config : Config) (cs : List Command)
    (h : ∀ c ∈ cs, c.LimitBelow config.maxLevels) :
    ∃ engine events, config.engine.run cs = some (engine, events) ∧
      ∀ id timestamp, (engine.cancelOrder id).2.reports ≠ [] →
        ∃ side e s, (engine.cancelOrder id).2 = { reports := [Book.cancelReport side e] } ∧
          (engine.cancelOrder id).1.processOrder (e.again side timestamp) =
            some (s, { reports := [takerReport (e.again side timestamp) .resting 0 e.remaining] }) ∧
          (∀ other price, other ≠ side ∨ price ≠ e.price →
            s.book.level other price = engine.book.level other price) ∧
          ∃ ahead behind, engine.book.level side e.price = ahead ++ e :: behind ∧
            s.book.level side e.price =
              ahead ++ behind ++ [(e.again side timestamp).entry e.remaining] := by
  obtain ⟨engine, events, hrun, ⟨L, hsound⟩, htrace⟩ := config.run_calls h
  have huncrossed := (trace_frontPartial htrace config.engine_book).1
  refine ⟨engine, events, hrun, fun id timestamp hreports => ?_⟩
  obtain ⟨side, e, xs, ys, L', hside, rfl, hevent, hbook, hs, hnone⟩ :=
    hsound.cancelOrder_found hreports
  have hmem : e ∈ engine.book.side side := by rw [hside]; simp
  obtain ⟨x, hx, hstands⟩ := trace_backed htrace config.engine_book side e hmem
  obtain ⟨-, hprice, hid⟩ := validateOrder_pos hstands.valid
  have hv : validateOrder (e.again side 0) = true := by
    have hpositive := hsound.book_positive side e hmem
    have hlimit := hprice hstands.type
    rw [hstands.price] at hlimit
    rw [hstands.id] at hid
    rw [validateOrder, if_neg (by exact Int.not_le.mpr hpositive),
      if_neg fun hc => absurd hc.1 (Int.not_le.mpr hlimit), if_neg (by exact hid)]
  have hroom : roomIn config.poolCapacity (engine.book.setSide side (xs ++ ys)).size = true := by
    have hsize := hsound.book_size
    have htake := Book.take_size hside
    exact decide_eq_true (by omega)
  rw [hbook] at hnone
  obtain ⟨B', hprocess, hother, hlevel⟩ := Book.process_again hside hsound.book_sorted huncrossed
    hv hnone hroom timestamp
  have hbelow : (Command.processOrder (e.again side timestamp)).LimitBelow config.levels := by
    intro _
    show e.price < config.levels
    rw [config.levels_eq, ← hstands.price]
    exact h _ hx hstands.type
  obtain ⟨s, event, -, hstep, -, hB, -⟩ := step_spec hs hbelow
  have hprocess' : (engine.cancelOrder e.id).1.book.process (roomIn config.poolCapacity)
      (e.again side timestamp) = (s.book, event) := hB
  rw [hbook, hprocess, Prod.mk.injEq] at hprocess'
  obtain ⟨rfl, rfl⟩ := hprocess'
  exact ⟨side, e, s, hevent, hstep, hother, hlevel⟩

/-- The ask that was filled in part goes behind the one that joined it. -/
theorem join_cancelReplace : ∃ engine events side e s,
    Config.small.engine.run joinCommands = some (engine, events) ∧
      (engine.cancelOrder 2).1.processOrder (e.again side 9) =
          some (s, { reports := [takerReport (e.again side 9) .resting 0 e.remaining] }) ∧
      ∃ ahead behind, engine.book.level side e.price = ahead ++ e :: behind ∧
        s.book.level side e.price = ahead ++ behind ++ [(e.again side 9).entry e.remaining] := by
  obtain ⟨engine, events, hrun, hall⟩ := run_cancelReplace Config.small joinCommands (by decide)
  obtain ⟨engine', events', hrun', hfound⟩ := @exec_test _ _ _ MatchingEngine.step
    Config.small.engine joinCommands (fun s => !(s.cancelOrder 2).2.reports.isEmpty)
    (by decide +kernel)
  obtain ⟨rfl, -⟩ := result_unique hrun hrun'
  have hreports : (engine.cancelOrder 2).2.reports ≠ [] := by
    simpa using hfound
  obtain ⟨side, e, s, -, hprocess, -, hlevel⟩ := hall 2 9 hreports
  exact ⟨engine, events, side, e, s, hrun, hprocess, hlevel⟩

end LimitOrderBook
