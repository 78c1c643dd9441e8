/-
  LimitOrderBook.OffLadder

  Limit orders whose price is not below `max_levels`.

  The engine matches such an order like any other.  When something is left of it
  and the pool has a slot, the order is parked: it takes the slot and a map
  entry, and is reported as resting, but is on no level.  `parks` is that case,
  told from the state before the call.  Until an order is parked the state is
  sound, and `cancel_order` touches only its target; from then on it does not,
  because the cancel of a parked order frees the slot and leaves the map entry.
-/
import LimitOrderBook.Invariants

namespace LimitOrderBook

open Lib MatchingEngine

namespace MatchingEngine

/-- The crossing orders do not fill the order. -/
def LeavesResidual (self : MatchingEngine) (order : IncomingOrder) : Prop :=
  Entry.supply.total (self.book.crossing order) < order.quantity

/-- A slot is free, or a maker that is filled will free one. -/
def FindsSlot (self : MatchingEngine) (order : IncomingOrder) : Prop :=
  self.pool.freeHead ≠ UINT32_MAX ∨ self.book.crossing order ≠ []

/-- The price is on no level of the ladder. -/
def OffLadder (self : MatchingEngine) (order : IncomingOrder) : Prop :=
  (self.ladder order.side).priceToIndex order.price = none

instance (self : MatchingEngine) (order : IncomingOrder) : Decidable (self.LeavesResidual order) :=
  inferInstanceAs (Decidable (_ < _))

instance (self : MatchingEngine) (order : IncomingOrder) : Decidable (self.FindsSlot order) :=
  inferInstanceAs (Decidable (_ ∨ _))

instance (self : MatchingEngine) (order : IncomingOrder) : Decidable (self.OffLadder order) :=
  inferInstanceAs (Decidable (_ = _))

/-- The call takes a slot for an order that no level can hold. -/
def parks (self : MatchingEngine) : Command → Bool
  | .processOrder order =>
      validateOrder order && order.type = .limit && self.OffLadder order &&
        self.LeavesResidual order && self.FindsSlot order
  | .cancelOrder _ => false

/-- The call cancels an order that no level holds. -/
def cancelsParked (self : MatchingEngine) : Command → Bool
  | .processOrder _ => false
  | .cancelOrder id =>
      match self.orderMap.lookup id with
      | none => false
      | some p => ((self.ladder (self.heap p).side).priceToIndex (self.heap p).price).isNone

-- ============================================================================
-- What is left of an order
-- ============================================================================

section Process

variable {self : MatchingEngine} {n capacity : Nat} {L L' start : Layout} {order : IncomingOrder}
  {st : MatchState}

theorem Rep.offLadder_iff (h : self.Rep n capacity L) (hpos : 0 < order.price) :
    self.OffLadder order ↔ (n : Int) ≤ order.price := by
  rw [OffLadder, (h.ladder order.side).ticks.priceToIndex]
  split
  · next hin =>
      constructor
      · intro hc
        exact absurd hc (by simp)
      · omega
  · next hout =>
      refine ⟨fun _ => ?_, fun _ => rfl⟩
      by_contra hlt
      exact hout ⟨by omega, by omega⟩

theorem Swept.left_eq (h : self.Rep n capacity L) (hpos : 0 ≤ order.quantity)
    (hswept : st.Swept (self.book.matched order order.quantity)) :
    st.order.quantity =
      max 0 (order.quantity - Entry.supply.total (self.book.crossing order)) := by
  rw [← Book.matched_left h.book_positive hpos, hswept.left]

/-- A residual is what the crossing orders do not hold. -/
theorem Swept.pos_iff (h : self.Rep n capacity L) (hpos : 0 ≤ order.quantity)
    (hswept : st.Swept (self.book.matched order order.quantity)) :
    0 < st.order.quantity ↔ self.LeavesResidual order := by
  rw [Swept.left_eq h hpos hswept, LeavesResidual]
  omega

/-- The slots that matching frees for a residual are those of the crossing orders. -/
theorem Matching.free_length (h : self.Rep n capacity L) (hL : L'.held = L.held)
    (hrep : st.engine.Rep n capacity L')
    (hswept : st.Swept (self.book.matched order order.quantity)) (hleft : 0 < st.order.quantity) :
    L'.free.length = L.free.length + (self.book.crossing order).length := by
  have hmatched := @Book.matched_size self.book order order.quantity
    (by rw [hswept.left]; exact hleft)
  rw [hswept.book] at hmatched
  have hbefore := h.book_size
  have hafter := hrep.book_size
  rw [hL] at hafter
  omega

/-- A residual finds a slot exactly when one is free or will be freed. -/
theorem Matching.free_ne_nil (h : self.Rep n capacity L) (hL : L'.held = L.held)
    (hrep : st.engine.Rep n capacity L')
    (hswept : st.Swept (self.book.matched order order.quantity)) (hleft : 0 < st.order.quantity) :
    L'.free ≠ [] ↔ self.FindsSlot order := by
  have hlen := Matching.free_length h hL hrep hswept hleft
  have htop : self.pool.freeHead ≠ UINT32_MAX ↔ L.free ≠ [] := not_congr h.pool.chain.top_eq_nil
  rw [FindsSlot, htop, ← List.length_pos_iff, ← List.length_pos_iff, ← List.length_pos_iff, hlen]
  omega

/-- A call that leaves no residual ends with the matching. -/
theorem processOrder_filled (h : self.Settled n capacity L) (hv : validateOrder order = true)
    (hno : ¬ self.LeavesResidual order) :
    ∃ st L', Matching n capacity order.side L (self.book.matched order order.quantity) st L' ∧
      st.Swept (self.book.matched order order.quantity) ∧ st.order.quantity = 0 ∧
      self.processOrder order = some (st.engine, { st.event with
        reports := st.event.reports ++ [takerReport order .filled order.quantity 0] }) := by
  have hpos := Int.le_of_lt (validateOrder_pos hv).1
  obtain ⟨st, L', hmatch, hm, hswept⟩ := matchOrder_spec h hpos
  have hz : st.order.quantity = 0 := by
    have hnonneg := hm.nonneg
    have hiff := Swept.pos_iff h.rep hpos hswept
    by_contra hne
    exact hno (hiff.mp (by omega))
  refine ⟨st, L', hm, hswept, hz, ?_⟩
  rw [processOrder_done hv hmatch (.inl hz), hz, if_pos rfl, Int.sub_zero]

/-- Without a slot the call of a Limit order with a residual changes nothing. -/
theorem processOrder_refused (h : self.Settled n capacity L) (hv : validateOrder order = true)
    (hlimit : order.type = .limit) (hno : ¬ self.FindsSlot order) :
    self.processOrder order =
      some (self, { reports := [takerReport order .cancelled 0 order.quantity] }) := by
  have hpos := (validateOrder_pos hv).1
  rw [FindsSlot, not_or, not_not, not_not] at hno
  have hmatch := matchOrder_idle h (Int.le_of_lt hpos) hno.2
  have hfree : L.free = [] := h.rep.pool.chain.top_eq_nil.mp hno.1
  have hrest := processOrder_rest hv hmatch (show order.quantity ≠ 0 by omega) hlimit
  rw [restOrder_none h.rep hfree] at hrest
  rw [hrest]
  simp

/-- With a slot it goes through the resting path. -/
theorem processOrder_placed (h : self.Settled n capacity L) (hv : validateOrder order = true)
    (hlimit : order.type = .limit) (hres : self.LeavesResidual order)
    (hslot : self.FindsSlot order) :
    ∃ st L' p free,
      Matching n capacity order.side L (self.book.matched order order.quantity) st L' ∧
      st.Swept (self.book.matched order order.quantity) ∧ L'.free = p :: free ∧
      0 < st.order.quantity ∧ st.order.quantity ≤ order.quantity ∧
      self.processOrder order =
        some ((st.engine.restOrder order st.order.quantity .resting).1, { st.event with
          reports := st.event.reports ++
            [takerReport order (st.engine.restOrder order st.order.quantity .resting).2
              (order.quantity - st.order.quantity) st.order.quantity] }) := by
  have hpos := Int.le_of_lt (validateOrder_pos hv).1
  obtain ⟨st, L', hmatch, hm, hswept⟩ := matchOrder_spec h hpos
  have hleft := (Swept.pos_iff h.rep hpos hswept).mpr hres
  have hle := (Matching.left_le h hpos hswept hm).2
  have hfree := (Matching.free_ne_nil h.rep hm.held hm.rep hswept hleft).mpr hslot
  obtain ⟨p, free, hp⟩ := List.exists_cons_of_ne_nil hfree
  exact ⟨st, L', p, free, hm, hswept, hp, hleft, hle,
    processOrder_rest hv hmatch (by omega) hlimit⟩

/-- A parked order holds its slot, has a map entry and is reported as resting. -/
theorem processOrder_parks (h : self.Settled n capacity L) (hv : validateOrder order = true)
    (hlimit : order.type = .limit) (hoff : (n : Int) ≤ order.price)
    (hres : self.LeavesResidual order) (hslot : self.FindsSlot order) :
    ∃ self' event L' p filled left, self.processOrder order = some (self', event) ∧
      self'.Settled n capacity L' ∧ p ∈ L'.held ∧ self'.orderMap.lookup order.id = some p ∧
      event.reports.getLast? = some (takerReport order .resting filled left) ∧ left ≠ 0 := by
  obtain ⟨st, L', p, free, hm, -, hfree, hleft, -, heq⟩ :=
    processOrder_placed h hv hlimit hres hslot
  obtain ⟨hstatus, hrep, hmap, hprice, hother, -⟩ :=
    @restOrder_off st.engine n capacity L' order st.order.quantity p free hm.rep hfree hoff
  rw [hstatus] at heq
  refine ⟨_, _, _, p, _, _, heq, ⟨hrep, fun r hr => ?_⟩, List.mem_cons_self .., ?_,
    List.getLast?_concat .., by omega⟩
  · by_cases hrp : r = p
    · rw [hrp, hprice]
      exact hoff
    · rw [hother r hrp]
      exact hm.parked r ((List.mem_cons.mp hr).resolve_left hrp)
  · rw [hmap, AList.lookup_insert]

end Process

-- ============================================================================
-- The invariant for all prices
-- ============================================================================

section Steps

variable {self : MatchingEngine} {n capacity : Nat} {L : Layout} {c : Command}

/-- A call that is not a Limit order off the ladder has its price on it. -/
theorem limitBelow_or (n : Nat) (c : Command) : c.LimitBelow n ∨
    ∃ order, c = .processOrder order ∧ order.type = .limit ∧ (n : Int) ≤ order.price := by
  cases c with
  | cancelOrder id => exact .inl trivial
  | processOrder order =>
      by_cases hl : order.type = .limit
      · by_cases hp : order.price < n
        · exact .inl fun _ => hp
        · exact .inr ⟨order, rfl, hl, by omega⟩
      · exact .inl fun hc => absurd hc hl

/-- A mapped slot that is held makes its cancel the cancel of a parked order. -/
theorem Settled.queued (h : self.Settled n capacity L) {id : OrderID} {p : Slot}
    (hid : self.orderMap.lookup id = some p)
    (hc : self.cancelsParked (.cancelOrder id) = false) :
    ∃ side i xs ys, L.queue side i = xs ++ p :: ys := by
  obtain ⟨-, hmem⟩ := h.rep.map id p hid
  rcases Layout.mem_allocated.mp hmem with hheld | ⟨side, hp⟩
  · have hoff := (h.rep.ladder (self.heap p).side).ticks.priceToIndex_none (h.parked p hheld)
    simp only [cancelsParked, hid, hoff, Option.isNone_none] at hc
    exact absurd hc (by decide)
  · obtain ⟨i, hi⟩ := h.rep.mem_slots_iff.mp hp
    obtain ⟨xs, ys, hq⟩ := List.append_of_mem hi
    exact ⟨side, i, xs, ys, hq⟩

/-- Every call but the cancel of a parked order keeps the invariant, whatever the
    prices. -/
theorem Settled.step (h : self.Settled n capacity L) (hc : self.cancelsParked c = false) :
    ∃ self' event L', self.step c = some (self', event) ∧ self'.Settled n capacity L' := by
  cases c with
  | cancelOrder id =>
      cases hid : self.orderMap.lookup id with
      | none => exact ⟨self, {}, L, by rw [MatchingEngine.step, cancelOrder_none hid], h⟩
      | some p =>
          obtain ⟨side, i, xs, ys, hq⟩ := h.queued hid hc
          exact ⟨_, _, _, rfl, (cancelOrder_spec h hid hq).1⟩
  | processOrder order =>
      rcases limitBelow_or n (.processOrder order) with hon | ⟨order', he, hlimit, hoff⟩
      · obtain ⟨self', event, L', hstep, hset, -⟩ := processOrder_spec h hon
        exact ⟨self', event, L', hstep, hset⟩
      · obtain rfl : order = order' := Command.processOrder.inj he
        cases hv : validateOrder order with
        | false => exact ⟨self, _, L, processOrder_invalid hv, h⟩
        | true =>
            by_cases hres : self.LeavesResidual order
            · by_cases hslot : self.FindsSlot order
              · obtain ⟨self', event, L', -, -, -, hstep, hset, -⟩ :=
                  processOrder_parks h hv hlimit hoff hres hslot
                exact ⟨self', event, L', hstep, hset⟩
              · exact ⟨self, _, L, processOrder_refused h hv hlimit hslot, h⟩
            · obtain ⟨st, L', hm, -, -, hstep⟩ := processOrder_filled h hv hres
              exact ⟨_, _, L', hstep, hm.toSettled⟩

/-- A call that parks nothing keeps the invariant of runs on the ladder. -/
theorem Sound.step_of_not_parks (h : self.Sound n capacity L) (hun : self.book.Uncrossed)
    (hc : self.parks c = false) :
    ∃ self' event, self.step c = some (self', event) ∧ (∃ L', self'.Sound n capacity L') ∧
      self'.book.Uncrossed := by
  rcases limitBelow_or n c with hon | ⟨order, rfl, hlimit, hoff⟩
  · obtain ⟨self', event, L', hstep, hs', hbook, hev⟩ := step_spec h hon
    exact ⟨self', event, hstep, ⟨L', hs'⟩,
      Call.uncrossed ⟨hstep, hbook, L, L', h, hs', hev⟩ hun⟩
  · cases hv : validateOrder order with
    | false => exact ⟨self, _, processOrder_invalid hv, ⟨L, h⟩, hun⟩
    | true =>
        have hprice := (validateOrder_pos hv).2.1 hlimit
        have hoff' := (h.offLadder_iff hprice).mpr hoff
        by_cases hres : self.LeavesResidual order
        · have hslot : ¬ self.FindsSlot order := by
            intro hslot
            simp [parks, hv, hlimit, hoff', hres, hslot] at hc
          exact ⟨self, _, processOrder_refused h.settled hv hlimit hslot, ⟨L, h⟩, hun⟩
        · obtain ⟨st, L', hm, hswept, -, hstep⟩ := processOrder_filled h.settled hv hres
          have hbook := Book.matched_uncross order order.quantity hun
          rw [hswept.book] at hbook
          exact ⟨_, _, hstep, ⟨L', hm.rep, hm.held.trans h.held⟩, hbook⟩

/-- A run in which nothing is parked is a run of sound states. -/
theorem run_sound (config : Config) {cs : List Command}
    (h : Along MatchingEngine.step (fun s c => s.parks c = false) config.engine cs) :
    ∃ engine events, config.engine.run cs = some (engine, events) ∧
      (∃ L, engine.Sound config.levels config.poolCapacity L) ∧ engine.book.Uncrossed := by
  apply @exec_along _ _ _ MatchingEngine.step
    (fun s => (∃ L, s.Sound config.levels config.poolCapacity L) ∧ s.book.Uncrossed)
    (fun s c => s.parks c = false)
  · rintro s c ⟨⟨L, hs⟩, hun⟩ hc
    exact hs.step_of_not_parks hun hc
  · exact ⟨⟨_, config.engine_sound⟩, config.engine_uncrossed⟩
  · exact h

end Steps

-- ============================================================================
-- What a cancel touches
-- ============================================================================

/-- A cancel touches only the order it names, and finds it once. -/
structure CancelLocal (engine : MatchingEngine) (id : OrderID) : Prop where
  /-- It does nothing, or makes one report, on that order. -/
  report : engine.cancelOrder id = (engine, {}) ∨
    ∃ r, (engine.cancelOrder id).2 = { reports := [r] } ∧ r.orderId = id
  /-- The id is not in the map any more. -/
  gone : (engine.cancelOrder id).1.orderMap.lookup id = none
  /-- A second cancel makes no report. -/
  again : ((engine.cancelOrder id).1.cancelOrder id).2.reports = []
  /-- The entries of the other ids stay. -/
  others : ∀ k, k ≠ id → (engine.cancelOrder id).1.orderMap.lookup k = engine.orderMap.lookup k
  /-- Every level keeps its other orders in their places. -/
  places : ∀ side i, (engine.cancelOrder id).1.levelSlots side i =
    (engine.levelSlots side i).filter fun p => engine.orderMap.lookup id ≠ some p
  /-- No order that stays on the book is written to. -/
  orders : ∀ side i, ∀ p ∈ (engine.cancelOrder id).1.levelSlots side i,
    ((engine.cancelOrder id).1.heap p).core = (engine.heap p).core

section Cancel

variable {self : MatchingEngine} {n capacity : Nat} {L : Layout}

/-- The cancel of an unknown id. -/
theorem CancelLocal.of_none {id : OrderID} (h : self.orderMap.lookup id = none) :
    self.CancelLocal id := by
  have heq := cancelOrder_none h
  refine ⟨.inl heq, ?_, ?_, ?_, ?_, ?_⟩ <;> rw [heq]
  · exact h
  · rw [heq]
  · intro k _
    rfl
  · intro side i
    rw [h]
    simp
  · intro side i p _
    rfl

theorem filter_ne_of_notMem {xs : List Slot} {p : Slot} (h : p ∉ xs) :
    xs.filter (fun r => p ≠ r) = xs := by
  rw [List.filter_eq_self]
  intro r hr
  simpa using (ne_of_mem_of_not_mem hr h).symm

/-- A queue without one of its slots. -/
theorem filter_ne_of_split {xs ys : List Slot} {p : Slot} (h : (xs ++ p :: ys).Nodup) :
    (xs ++ p :: ys).filter (fun r => p ≠ r) = xs ++ ys := by
  have hkeep := filter_ne_of_notMem (List.nodup_cons.mp (List.nodup_middle.mp h)).1
  rw [List.filter_append] at hkeep ⊢
  rw [List.filter_cons_of_neg (by simp), hkeep]

theorem Sound.cancelLocal (h : self.Sound n capacity L) (id : OrderID) : self.CancelLocal id := by
  cases hid : self.orderMap.lookup id with
  | none => exact .of_none hid
  | some p =>
      obtain ⟨side, i, xs, ys, hq⟩ := h.queued hid
      obtain ⟨hset, -, hmap, hcore, hevent⟩ := cancelOrder_spec h.settled hid hq
      have hgone : (self.cancelOrder id).1.orderMap.lookup id = none := by
        rw [hmap, AList.lookup_erase]
      have hplaces : ∀ other j, (self.cancelOrder id).1.levelSlots other j =
          (self.levelSlots other j).filter fun r => p ≠ r := by
        intro other j
        rw [hset.rep.levelSlots_eq, h.levelSlots_eq]
        show (L.setQueue side i (xs ++ ys)).queue other j = _
        have hp : p ∈ L.queue side i := by rw [hq]; simp
        by_cases hsame : other = side ∧ j = i
        · obtain ⟨rfl, rfl⟩ := hsame
          have hnodup := ((h.ladder other).list j).nodup
          rw [hq] at hnodup ⊢
          rw [Layout.setQueue_queue_self, filter_ne_of_split hnodup]
        · have hnotin : p ∉ L.queue other j := fun hin => hsame (h.queue_unique hp hin)
          rw [filter_ne_of_notMem hnotin]
          by_cases hs : other = side
          · subst hs
            rw [Layout.setQueue_queue, Function.update_of_ne fun hj => hsame ⟨rfl, hj⟩]
          · rw [Layout.setQueue_queue_of_ne _ _ _ hs]
      refine ⟨.inr ⟨_, hevent, (h.map id p hid).1⟩, hgone, ?_, ?_, ?_, ?_⟩
      · rw [cancelOrder_none hgone]
      · intro k hk
        rw [hmap, AList.lookup_erase_ne hk]
      · intro other j
        rw [hplaces, hid]
        simp only [ne_eq, Option.some.injEq]
      · intro other j r hr
        rw [hplaces, List.mem_filter] at hr
        exact hcore r (Ne.symm (of_decide_eq_true hr.2))

/-- The cancel of a parked order leaves its map entry. -/
theorem not_cancelLocal_of_parked (h : self.Settled n capacity L) {id : OrderID} {p : Slot}
    (hid : self.orderMap.lookup id = some p) (hp : p ∈ L.held) : ¬ self.CancelLocal id := by
  intro hlocal
  have hoff := (h.rep.ladder (self.heap p).side).ticks.priceToIndex_none (h.parked p hp)
  have hkept : (self.cancelOrder id).1.orderMap = self.orderMap := by
    simp only [cancelOrder, hid, removeOrderFromBook, hoff, deallocate_orderMap]
  have hgone := hlocal.gone
  rw [hkept, hid] at hgone
  exact absurd hgone (by simp)

end Cancel

end MatchingEngine

/-- A Limit order off the ladder. -/
def parkedCommands : List Command := [.processOrder (makeOrder 1 .buy 10 5)]

/-- Its cancel reports it, keeps its map entry, and so reports it again. -/
theorem parked_not_cancelLocal : ∃ engine events,
    Config.small.engine.run parkedCommands = some (engine, events) ∧ ¬ engine.CancelLocal 1 := by
  obtain ⟨engine, events, hexec, htwice⟩ := @exec_test _ _ _ step Config.small.engine parkedCommands
    (fun s => ((s.cancelOrder 1).1.cancelOrder 1).2.reports.length == 1) (by decide +kernel)
  refine ⟨engine, events, hexec, fun hlocal => ?_⟩
  rw [hlocal.again] at htwice
  exact absurd htwice Bool.false_ne_true

/-- In a run every cancel of every id touches only the order it names, at every
    point of the run, exactly when no call of the run parks an order. -/
theorem run_cancelLocal_iff (config : Config) (cs : List Command) :
    (∀ pre post, cs = pre ++ post → ∃ engine events,
      config.engine.run pre = some (engine, events) ∧ ∀ id, engine.CancelLocal id) ↔
    Along step (fun s c => s.parks c = false) config.engine cs := by
  apply @exec_prefix_iff _ _ _ step (fun _ _ s =>
    (∃ L, s.Sound config.levels config.poolCapacity L) ∧ s.book.Uncrossed)
  · exact ⟨⟨_, config.engine_sound⟩, config.engine_uncrossed⟩
  · rintro pre events s ⟨⟨L, hs⟩, -⟩
    exact hs.cancelLocal
  · rintro pre c post - events s ⟨⟨L, hs⟩, hun⟩ hc
    exact hs.step_of_not_parks hun hc
  · rintro pre c post - events s ⟨⟨L, hs⟩, -⟩ hparks t event hstep hlocal
    cases c with
    | cancelOrder id => exact hparks rfl
    | processOrder order =>
        simp only [parks, Bool.not_eq_false, Bool.and_eq_true, decide_eq_true_eq] at hparks
        obtain ⟨⟨⟨⟨hv, hlimit⟩, hoff⟩, hres⟩, hslot⟩ := hparks
        have hprice := (validateOrder_pos hv).2.1 hlimit
        obtain ⟨t', event', L', p, -, -, hstep', hset, hheld, hmap, -⟩ :=
          processOrder_parks hs.settled hv hlimit ((hs.offLadder_iff hprice).mp hoff) hres hslot
        obtain ⟨rfl, -⟩ := result_unique hstep hstep'
        exact not_cancelLocal_of_parked hset hmap hheld (hlocal order.id)

end LimitOrderBook
