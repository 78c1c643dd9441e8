/-
  LimitOrderBook.Parking

  Runs with Limit orders off the ladder.

  A residual that no level can hold keeps its slot and takes the map entry of its id,
  and nothing else is left of it: it is matched by no order and shown by no quote.
  `ParkedBook` is the machine that says so, a book and the number of slots that are
  lost in this way.  The engine refines it over every run, whatever the prices, in
  which no call cancels a parked order (`run_parked`): what is linked, parked and free
  is the pool, and what is parked stays parked.
-/
import LimitOrderBook.PoolExhaustion

namespace LimitOrderBook

open Lib MatchingEngine

/-- A book and the number of slots that orders off the ladder hold. -/
structure ParkedBook where
  book : Book := {}
  parked : Nat := 0

namespace ParkedBook

/-- One more order finds a slot. -/
def room (capacity : Nat) (P : ParkedBook) (size : Nat) : Bool :=
  decide (size + P.parked < OrderPool.usable capacity)

/-- The call leaves a residual that no level can hold, and there is a slot for it. -/
def parks (n capacity : Nat) (P : ParkedBook) (order : IncomingOrder) : Bool :=
  let m := P.book.matched order order.quantity
  validateOrder order && order.type = .limit && decide ((n : Int) ≤ order.price) &&
    m.left ≠ 0 && P.room capacity m.book.size

/-- One call: a parked order is reported as one that rests, but only its id is kept. -/
def step (n capacity : Nat) (P : ParkedBook) : Command → ParkedBook × MatchEvent
  | .processOrder order =>
      let r := P.book.process (P.room capacity) order
      if P.parks n capacity order then
        (⟨(P.book.matched order order.quantity).book.forget order.id, P.parked + 1⟩, r.2)
      else (⟨r.1, P.parked⟩, r.2)
  | .cancelOrder id =>
      let r := P.book.cancel id
      (⟨r.1, P.parked⟩, r.2)

def machine (n capacity : Nat) (P : ParkedBook) (c : Command) :
    Option (ParkedBook × MatchEvent) := some (P.step n capacity c)

section

variable {n capacity : Nat} {P : ParkedBook} {order : IncomingOrder}

theorem step_of_not_parks (h : P.parks n capacity order = false) :
    P.step n capacity (.processOrder order) =
      (⟨(P.book.process (P.room capacity) order).1, P.parked⟩,
        (P.book.process (P.room capacity) order).2) := by
  rw [step, if_neg (ne_true_of_eq_false h)]

/-- Nothing gives a parked slot back. -/
theorem step_parked_le (P : ParkedBook) (c : Command) :
    P.parked ≤ (P.step n capacity c).1.parked := by
  cases c with
  | cancelOrder id => exact Nat.le_refl _
  | processOrder order =>
      rw [step]
      split
      · exact Nat.le_succ _
      · exact Nat.le_refl _

theorem run_parked_le {Q : ParkedBook} {cs : List Command} {events : List MatchEvent}
    (h : exec (machine n capacity) P cs = some (Q, events)) : P.parked ≤ Q.parked := by
  induction cs generalizing P events with
  | nil =>
      obtain ⟨rfl, -⟩ := Prod.mk.inj (Option.some.inj h)
      exact Nat.le_refl _
  | cons c cs ih =>
      obtain ⟨R, event, events', hstep, hrun, -⟩ := exec_cons_inv h
      have hR : P.step n capacity c = (R, event) := Option.some.inj hstep
      have hle := @step_parked_le n capacity P c
      rw [hR] at hle
      exact hle.trans (ih hrun)

/-- The sides stay apart, for a parked order is on neither. -/
theorem step_uncrossed {c : Command} (hsorted : P.book.Sorted) (h : P.book.Uncrossed) :
    (P.step n capacity c).1.book.Uncrossed := by
  cases c with
  | cancelOrder id =>
      exact @Book.step_uncrossed P.book (P.room capacity) (.cancelOrder id) hsorted h
  | processOrder order =>
      rw [step]
      split
      · have hm := Book.matched_uncross order order.quantity h
        intro b hb a ha
        obtain ⟨b', hb', rfl⟩ := List.mem_map.mp hb
        obtain ⟨a', ha', rfl⟩ := List.mem_map.mp ha
        rw [Entry.forget_price, Entry.forget_price]
        exact hm b' hb' a' ha'
      · exact Book.process_uncrossed hsorted h

/-- Only a Limit order off the ladder is parked. -/
theorem parks_false (h : order.type = .limit → order.price < n) :
    P.parks n capacity order = false := by
  by_cases hlimit : order.type = .limit
  · have hprice := h hlimit
    have hnot : ¬ (n : Int) ≤ order.price := by omega
    simp [parks, hnot]
  · simp [parks, hlimit]

end

end ParkedBook

-- ============================================================================
-- One call
-- ============================================================================

namespace MatchingEngine

section

variable {self : MatchingEngine} {n capacity : Nat} {L : Layout} {order : IncomingOrder}
  {c : Command} {p : Slot} {free : List Slot} {left : Int}

/-- What the resting path of an order off the ladder leaves of the book. -/
theorem Rep.restOrder_off_book (h : self.Rep n capacity L) (hfree : L.free = p :: free)
    (hoff : (n : Int) ≤ order.price) :
    (self.restOrder order left .resting).1.book = self.book.forget order.id := by
  obtain ⟨-, hrep, hmap, -, hother, -⟩ :=
    @restOrder_off self n capacity L order left p free h hfree hoff
  apply Book.ext_side
  intro side
  have hslots : ({ L with held := p :: L.held, free } : Layout).slots n side = L.slots n side := rfl
  rw [hrep.book_side, hslots, Book.forget_side, h.book_side, List.map_map]
  apply List.map_congr_left
  intro r hr
  have hne : r ≠ p := by
    rintro rfl
    exact h.not_allocated_of_free (by rw [hfree]; exact List.mem_cons_self ..)
      (Layout.mem_allocated.mpr (.inr ⟨side, hr⟩))
  exact entry_of_insert hne (by rw [hother r hne]) hmap

/-- The engine of a state as a book with parked orders. -/
def parkedBook (self : MatchingEngine) (L : Layout) : ParkedBook := ⟨self.book, L.held.length⟩

/-- A Limit order off the ladder is filled, refused or parked. -/
theorem Settled.processOrder_off (h : self.Settled n capacity L)
    (hlimit : order.type = .limit) (hoff : (n : Int) ≤ order.price) :
    ∃ self' event L', self.processOrder order = some (self', event) ∧
      self'.Settled n capacity L' ∧ (self.parkedBook L).step n capacity (.processOrder order) =
        (self'.parkedBook L', event) := by
  cases hv : validateOrder order with
  | false =>
      refine ⟨self, _, L, processOrder_invalid hv, h, ?_⟩
      rw [ParkedBook.step_of_not_parks (by simp [ParkedBook.parks, hv])]
      simp only [parkedBook, Book.process, hv, Bool.not_false, if_true]
  | true =>
      have hpos := (validateOrder_pos hv).1
      obtain ⟨st, L₁, hmatch, hm, hswept⟩ := matchOrder_spec h (Int.le_of_lt hpos)
      have hmatched := hswept.eq
      have hsize := hm.rep.book_size
      rw [hm.held] at hsize
      by_cases hz : st.order.quantity = 0
      · refine ⟨_, _, L₁, processOrder_done hv hmatch (.inl hz), hm.toSettled, ?_⟩
        rw [ParkedBook.step_of_not_parks (by simp [ParkedBook.parks, parkedBook, hmatched, hz])]
        simp only [parkedBook, Book.process, hv, Bool.not_true, hmatched, hz, if_true,
          Bool.false_eq_true, if_false, hm.held]
      · cases hfree : L₁.free with
        | nil =>
            have hroom : (self.parkedBook L).room capacity st.engine.book.size = false := by
              rw [hfree, List.length_nil] at hsize
              exact decide_eq_false (by simp only [parkedBook]; omega)
            refine ⟨_, _, L₁, processOrder_rest hv hmatch hz hlimit, ?_, ?_⟩
            · rw [restOrder_none hm.rep hfree]
              exact hm.toSettled
            · simp only [parkedBook] at hroom
              rw [restOrder_none hm.rep hfree, ParkedBook.step_of_not_parks
                (by simp [ParkedBook.parks, parkedBook, hmatched, hroom])]
              simp only [parkedBook, Book.process, hv, Bool.not_true, hmatched, hz, hroom,
                Bool.false_eq_true, if_false, and_false, hm.held]
        | cons p free =>
            have hroom : (self.parkedBook L).room capacity st.engine.book.size = true := by
              rw [hfree, List.length_cons] at hsize
              exact decide_eq_true (by simp only [parkedBook]; omega)
            obtain ⟨hstatus, hrep, -, hprice, hother, -⟩ :=
              @restOrder_off st.engine n capacity L₁ order st.order.quantity p free hm.rep hfree
                hoff
            refine ⟨_, _, { L₁ with held := p :: L₁.held, free },
              processOrder_rest hv hmatch hz hlimit, ⟨hrep, fun r hr => ?_⟩, ?_⟩
            · by_cases hrp : r = p
              · rw [hrp, hprice]
                exact hoff
              · rw [hother r hrp]
                exact hm.parked r ((List.mem_cons.mp hr).resolve_left hrp)
            · simp only [parkedBook] at hroom
              have hparks : (self.parkedBook L).parks n capacity order = true := by
                simp [ParkedBook.parks, parkedBook, hv, hlimit, hoff, hmatched, hz, hroom]
              rw [ParkedBook.step, if_pos hparks, hstatus]
              simp only [parkedBook, Book.process, hv, Bool.not_true, hmatched, hz, hroom, hlimit,
                Bool.false_eq_true, if_false, and_self, if_true,
                hm.rep.restOrder_off_book hfree hoff, List.length_cons, hm.held]

/-- Every call but the cancel of a parked order is a call of the book with parked
    orders, whatever the prices. -/
theorem Settled.step_parked (h : self.Settled n capacity L) (hc : self.cancelsParked c = false) :
    ∃ self' event L', self.step c = some (self', event) ∧ self'.Settled n capacity L' ∧
      (self.parkedBook L).step n capacity c = (self'.parkedBook L', event) := by
  cases c with
  | cancelOrder id =>
      cases hid : self.orderMap.lookup id with
      | none =>
          have hnone : self.book.cancel id = (self.book, {}) := by
            refine Book.cancel_of_find_none fun side => ?_
            rw [h.rep.book_side]
            exact Book.find_target_none fun r _ => by simp [isTarget_entry h.rep.map, hid]
          refine ⟨self, {}, L, by rw [MatchingEngine.step, cancelOrder_none hid], h, ?_⟩
          rw [ParkedBook.step, parkedBook, hnone]
      | some p =>
          obtain ⟨side, i, xs, ys, hq⟩ := h.queued hid hc
          obtain ⟨hset, hbook, -, -, -⟩ := cancelOrder_spec h hid hq
          refine ⟨_, _, _, rfl, hset, ?_⟩
          rw [ParkedBook.step, parkedBook, hbook]
          rfl
  | processOrder order =>
      rcases limitBelow_or n (.processOrder order) with hon | ⟨order', he, hlimit, hoff⟩
      · obtain ⟨self', event, L', hstep, hset, hheld, hbook, -⟩ := processOrder_spec h hon
        refine ⟨self', event, L', hstep, hset, ?_⟩
        have hprocess : self.book.process ((self.parkedBook L).room capacity) order =
            (self'.book, event) := hbook
        rw [ParkedBook.step_of_not_parks (ParkedBook.parks_false hon)]
        simp only [parkedBook] at hprocess
        simp only [parkedBook, hheld, hprocess]
      · obtain rfl : order = order' := Command.processOrder.inj he
        exact h.processOrder_off hlimit hoff

/-- The ledger of the pool: what is linked, what is parked and what is free. -/
theorem Settled.ledger (h : self.Settled n capacity L) :
    self.linked + L.held.length ≤ OrderPool.usable capacity ∧
      (self.pool.allocate = none ↔
        self.linked + L.held.length = OrderPool.usable capacity) := by
  have hsize := h.rep.book_size
  rw [book_size_eq] at hsize
  rw [h.rep.allocate_none, ← List.length_eq_zero_iff]
  omega

end

end MatchingEngine

-- ============================================================================
-- Runs
-- ============================================================================

/-- What is linked, what is parked and what is free is the pool. -/
structure PoolLedger (engine : MatchingEngine) (capacity parked : Nat) : Prop where
  le : engine.linked + parked ≤ OrderPool.usable capacity
  full : engine.pool.allocate = none ↔ engine.linked + parked = OrderPool.usable capacity

/-- Every run in which no call cancels a parked order, whatever the prices, returns the
    events of the book with parked orders and ends in its book.  The sides are apart, the
    ladders pass their check, and the pool is short of the slots of the parked orders,
    which no later call gives back. -/
theorem run_parked (config : Config) (cs : List Command)
    (h : Along step (fun s c => s.cancelsParked c = false) config.engine cs) :
    ∃ engine events P, config.engine.run cs = some (engine, events) ∧
      exec (ParkedBook.machine config.levels config.poolCapacity) {} cs = some (P, events) ∧
      engine.book = P.book ∧ P.book.Uncrossed ∧
      (∀ side, (engine.ladder side).verifyInvariants engine.heap engine.pool.capacity =
        some true) ∧
      PoolLedger engine config.poolCapacity P.parked ∧
      ∀ pre post, cs = pre ++ post → ∃ Q events',
        exec (ParkedBook.machine config.levels config.poolCapacity) {} pre = some (Q, events') ∧
        Q.parked ≤ P.parked := by
  have hstart : config.engine.parkedBook (emptyLayout config.poolCapacity) = {} := by
    rw [parkedBook, config.engine_book]
    rfl
  obtain ⟨engine, events, hrun, L, hset, hun, hP⟩ := @exec_along_history _ _ _ step
    (fun pre events s => ∃ L, s.Settled config.levels config.poolCapacity L ∧ s.book.Uncrossed ∧
      exec (ParkedBook.machine config.levels config.poolCapacity) {} pre =
        some (s.parkedBook L, events))
    (fun s c => s.cancelsParked c = false) config.engine cs
    ⟨_, config.engine_sound.settled, config.engine_uncrossed, by rw [hstart]; rfl⟩
    (by
      rintro pre c post - events s ⟨L, hset, hun, hP⟩ hc
      obtain ⟨s', event, L', hstep, hset', hbook⟩ := hset.step_parked hc
      have hun' := @ParkedBook.step_uncrossed config.levels config.poolCapacity (s.parkedBook L) c
        hset.rep.book_sorted hun
      rw [hbook] at hun'
      exact ⟨s', event, hstep, L', hset', hun',
        exec_append hP (exec_cons (congrArg some hbook) rfl)⟩) h
  refine ⟨engine, events, engine.parkedBook L, hrun, hP, rfl, hun,
    hset.rep.ladder_verifyInvariants, ⟨hset.ledger.1, hset.ledger.2⟩, ?_⟩
  rintro pre post rfl
  obtain ⟨Q, events₁, events₂, hpre, hpost, -⟩ := exec_append_inv hP
  exact ⟨Q, events₁, hpre, ParkedBook.run_parked_le hpost⟩

/-- A sell off the ladder, a bid that rests, a buy off the ladder under its id, and a
    sell that takes the bid. -/
def strayCommands : List Command :=
  [.processOrder (makeOrder 1 .sell 10 5), .processOrder (makeOrder 2 .buy 4 8),
    .processOrder (makeOrder 2 .buy 12 6), .processOrder (makeOrder 3 .sell 4 8),
    .cancelOrder 3]

theorem stray_parked : ∃ engine events P,
    Config.small.engine.run strayCommands = some (engine, events) ∧
      exec (ParkedBook.machine Config.small.levels 3) {} strayCommands = some (P, events) ∧
      engine.book = P.book ∧ P.book.Uncrossed ∧
      (∀ side, (engine.ladder side).verifyInvariants engine.heap engine.pool.capacity =
        some true) ∧
      PoolLedger engine 3 P.parked ∧
      ∀ pre post, strayCommands = pre ++ post → ∃ Q events',
        exec (ParkedBook.machine Config.small.levels 3) {} pre = some (Q, events') ∧
        Q.parked ≤ P.parked :=
  run_parked Config.small strayCommands
    (along_not_of_check (by decide +kernel))

end LimitOrderBook
