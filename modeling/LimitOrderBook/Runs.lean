/-
  LimitOrderBook.Runs

  Every run whose Limit prices are below `max_levels` returns, keeps the
  representation invariant with nothing held, and is step by step a run of the
  book: the same commands, the same events, and the view of the last state is
  the last book.
-/
import LimitOrderBook.Calls

namespace LimitOrderBook

open Lib MatchingEngine

/-- One more order finds a slot. -/
def roomIn (capacity size : Nat) : Bool := decide (size < OrderPool.usable capacity)

namespace MatchingEngine

/-- The slot that a call writes a new order into. -/
def newSlotOf (self : MatchingEngine) : Command → Option Slot
  | .processOrder order => self.newSlot order
  | .cancelOrder _ => none

/-- The invariant of a run: the ladder takes every order that rests. -/
structure Sound (engine : MatchingEngine) (n capacity : Nat) (L : Layout) : Prop
    extends engine.Rep n capacity L where
  held : L.held = []

section

variable {self self' : MatchingEngine} {n capacity : Nat} {L : Layout} {c : Command}
  {event : MatchEvent}

theorem Sound.settled (h : self.Sound n capacity L) : self.Settled n capacity L :=
  ⟨h.toRep, fun p hp => absurd hp (by rw [h.held]; simp)⟩

/-- Every map entry leads to a queued slot. -/
theorem Sound.queued (h : self.Sound n capacity L) {id : OrderID} {p : Slot}
    (hid : self.orderMap.lookup id = some p) :
    ∃ side i xs ys, L.queue side i = xs ++ p :: ys := by
  obtain ⟨-, hmem⟩ := h.map id p hid
  rcases Layout.mem_allocated.mp hmem with hheld | ⟨side, hp⟩
  · rw [h.held] at hheld
    exact absurd hheld (by simp)
  · obtain ⟨i, hi⟩ := h.mem_slots_iff.mp hp
    obtain ⟨xs, ys, hq⟩ := List.append_of_mem hi
    exact ⟨side, i, xs, ys, hq⟩

/-- One call: it returns, keeps the invariant, and does to the book what it should. -/
theorem step_spec (h : self.Sound n capacity L) (hc : c.LimitBelow n) :
    ∃ self' event L', self.step c = some (self', event) ∧ self'.Sound n capacity L' ∧
      self.book.Step (roomIn capacity) c event self'.book ∧ L.Evolves L' (self.newSlotOf c) := by
  cases c with
  | processOrder order =>
      obtain ⟨self', event, L', hstep, hset, hheld, hbook, hev⟩ := processOrder_spec h.settled hc
      refine ⟨self', event, L', hstep, ⟨hset.rep, hheld.trans h.held⟩, ?_, hev⟩
      rw [h.held] at hbook
      exact hbook
  | cancelOrder id =>
      cases hid : self.orderMap.lookup id with
      | none =>
          refine ⟨self, {}, L, ?_, h, ?_, .of_sublist fun _ _ => List.Sublist.refl _⟩
          · rw [step, cancelOrder_none hid]
          · refine Book.cancel_of_find_none fun side => ?_
            rw [h.book_side]
            exact Book.find_target_none fun r _ => by simp [isTarget_entry h.map, hid]
      | some p =>
          obtain ⟨side, i, xs, ys, hq⟩ := h.queued hid
          obtain ⟨hset, hbook, -, -, -⟩ := cancelOrder_spec h.settled hid hq
          refine ⟨_, _, _, rfl, ⟨hset.rep, h.held⟩, hbook, .of_sublist fun other j => ?_⟩
          show ((L.setQueue side i (xs ++ ys)).queue other j).Sublist (L.queue other j)
          by_cases hs : other = side
          · subst hs
            by_cases hj : j = i
            · subst hj
              rw [Layout.setQueue_queue_self, hq]
              exact (List.sublist_cons_self p ys).append_left xs
            · simp [hj]
          · rw [Layout.setQueue_queue_of_ne _ _ _ hs]

end

/-- One sound call. -/
structure Call (n capacity : Nat) (s : MatchingEngine) (c : Command) (event : MatchEvent)
    (s' : MatchingEngine) : Prop where
  step : s.step c = some (s', event)
  book : s.book.Step (roomIn capacity) c event s'.book
  sound : ∃ L L', s.Sound n capacity L ∧ s'.Sound n capacity L' ∧ L.Evolves L' (s.newSlotOf c)

theorem Call.positive {n capacity : Nat} {s s' : MatchingEngine} {c : Command}
    {event : MatchEvent} (h : Call n capacity s c event s') : s.book.Positive := by
  obtain ⟨L, -, hs, -⟩ := h.sound
  exact hs.book_positive

end MatchingEngine

-- ============================================================================
-- Runs from the constructor
-- ============================================================================

namespace Config

variable (config : Config)

theorem engine_sound : config.engine.Sound config.levels config.poolCapacity
    (emptyLayout config.poolCapacity) := ⟨config.engine_rep.1, rfl⟩

theorem engine_book : config.engine.book = {} := by
  refine Book.ext_side fun side => ?_
  rw [config.engine_rep.1.book_side, emptyLayout_slots]
  cases side <;> rfl

/-- A run with prices on the ladder returns, and is made of sound calls. -/
theorem run_calls {cs : List Command} (h : ∀ c ∈ cs, c.LimitBelow config.maxLevels) :
    ∃ engine events, config.engine.run cs = some (engine, events) ∧
      (∃ L, engine.Sound config.levels config.poolCapacity L) ∧
      Trace (Call config.levels config.poolCapacity) config.engine cs events engine := by
  rw [← config.levels_eq] at h
  have hcall : ∀ s c, (∃ L, s.Sound config.levels config.poolCapacity L) →
      c.LimitBelow config.levels →
      ∃ s' event, s.step c = some (s', event) ∧
        (∃ L, s'.Sound config.levels config.poolCapacity L) ∧
        Call config.levels config.poolCapacity s c event s' := by
    rintro s c ⟨L, hs⟩ hc
    obtain ⟨s', event, L', hstep, hs', hbook, hev⟩ := step_spec hs hc
    exact ⟨s', event, hstep, ⟨L', hs'⟩, ⟨hstep, hbook, L, L', hs, hs', hev⟩⟩
  have hstart : ∃ L, config.engine.Sound config.levels config.poolCapacity L :=
    ⟨_, config.engine_sound⟩
  obtain ⟨engine, events, hrun, -⟩ :=
    @exec_total _ _ _ MatchingEngine.step
      (fun s => ∃ L, s.Sound config.levels config.poolCapacity L) _
      (fun s c hs hc => by
        obtain ⟨s', event, hstep, hs', -⟩ := hcall s c hs hc
        exact ⟨s', event, hstep, hs'⟩)
      cs config.engine hstart h
  refine ⟨engine, events, hrun, @Trace.refine _ _ _ _ _
    (fun s => ∃ L, s.Sound config.levels config.poolCapacity L) _ _ _ _ ?_ hstart
    (exec_trace h hrun)⟩
  rintro s c event t hs ⟨hc, hstep⟩
  obtain ⟨s', event', hstep', hs', hcalled⟩ := hcall s c hs hc
  rw [hstep', Option.some.injEq, Prod.mk.injEq] at hstep
  obtain ⟨rfl, rfl⟩ := hstep
  exact ⟨hs', hcalled⟩

end Config

-- ============================================================================
-- A small engine
-- ============================================================================

/-- Ten levels and three slots. -/
def Config.small : Config := ⟨10, 3, by decide, by decide, by decide⟩

/-- An order as the tests build it. -/
def makeOrder (id : OrderID) (side : Side) (price quantity : Int) (type : OrderType := .limit) :
    IncomingOrder :=
  { id, side, type, price, quantity, timestamp := id }

/-- Two asks at one price and one above; a buy that fills the first and half of
    the second; a cancel; an id that is used again. -/
def sampleCommands : List Command :=
  [.processOrder (makeOrder 1 .sell 5 20), .processOrder (makeOrder 2 .sell 5 30),
    .processOrder (makeOrder 3 .sell 6 10), .processOrder (makeOrder 4 .buy 5 35),
    .cancelOrder 3, .processOrder (makeOrder 2 .buy 4 7)]

end LimitOrderBook
