/-
  LimitOrderBook.Calls

  One call of the engine: `process_order` and `cancel_order` keep the
  representation invariant and do to the book what `Book.process` and
  `Book.cancel` say.

  An order whose price is off the ladder is allocated a slot and left held:
  `restOrder_off` says what the source makes of it.
-/
import LimitOrderBook.Matching

namespace LimitOrderBook

open Lib

namespace MatchingEngine

section Rest

variable {self : MatchingEngine} {n capacity : Nat} {L : Layout} {order : IncomingOrder}
  {left : Int} {p : Slot} {free : List Slot} {status : OrderStatus}

theorem keeps_restingOrder : Order.Keeps (restingOrder order left status) :=
  ⟨fun _ => rfl, fun _ => rfl, fun _ => rfl⟩

/-- The engine with the order written into a slot that is still held. -/
def written (self : MatchingEngine) (order : IncomingOrder) (left : Int) (status : OrderStatus)
    (p : Slot) : MatchingEngine :=
  MatchingEngine.modifyOrder { self with pool := self.pool.handOut p } p
    (restingOrder order left status)

theorem restOrder_none (h : self.Rep n capacity L) (hfree : L.free = []) :
    self.restOrder order left status = (self, .cancelled) := by
  simp only [restOrder, h.allocate_none.mpr hfree]

theorem restOrder_some (h : self.Rep n capacity L) (hfree : L.free = p :: free) :
    self.restOrder order left status =
      ((((self.written order left status p).insertOrder p).assignId
        (((self.written order left status p).insertOrder p).heap p).id p), status) := by
  simp only [restOrder, (h.allocate hfree).1, written]

theorem written_rep (h : self.Rep n capacity L) (hfree : L.free = p :: free) :
    (self.written order left status p).Rep n capacity
      { L with held := p :: L.held, free } := by
  refine (h.allocate hfree).2.modify_held (List.mem_cons_self ..) keeps_restingOrder (.inr ?_)
  exact h.not_mapped_of_free (by rw [hfree]; exact List.mem_cons_self ..)

theorem written_heap_self : ∃ o, (self.written order left status p).heap p =
    restingOrder order left status o := ⟨_, by rw [written, modifyOrder_heap, Heap.modify_self]⟩

theorem written_heap_of_ne {r : Slot} (hr : r ≠ p) :
    (self.written order left status p).heap r = self.heap r := by
  rw [written, modifyOrder_heap, Heap.modify_of_ne hr]
  show (self.pool.handOut p).pool r = self.heap r
  rw [OrderPool.handOut_pool, Heap.modify_of_ne hr]
  rfl

@[simp] theorem written_orderMap :
    (self.written order left status p).orderMap = self.orderMap := rfl

@[simp] theorem written_ladder : (self.written order left status p).ladder = self.ladder := by
  funext side
  cases side <;> rfl

/-- The resting path up to the insertion: the order is in its slot, and nothing
    else has changed. -/
theorem restOrder_written (h : self.Rep n capacity L) (hfree : L.free = p :: free) :
    ∃ (w : MatchingEngine) (o : Order),
      self.restOrder order left status =
        ((w.insertOrder p).assignId ((w.insertOrder p).heap p).id p, status) ∧
      w.Rep n capacity { L with held := p :: L.held, free } ∧
      w.heap p = restingOrder order left status o ∧ (∀ r, r ≠ p → w.heap r = self.heap r) ∧
      w.orderMap = self.orderMap ∧ w.ladder = self.ladder := by
  obtain ⟨o, ho⟩ : ∃ o, (self.written order left status p).heap p =
    restingOrder order left status o := written_heap_self
  exact ⟨_, o, restOrder_some h hfree, written_rep h hfree, ho,
    fun r hr => written_heap_of_ne hr, rfl, written_ladder⟩

/-- Appending to the queue of a level is a sorted insertion into the side. -/
theorem slots_orderedInsert {f : Slot → Entry} {e : Entry} {side : Side} {i : Nat} (hi : i < n)
    (hp : f p = e) (he : e.price = i)
    (hprice : ∀ j, ∀ r ∈ L.queue side j, (f r).price = j) :
    ((L.setQueue side i (L.queue side i ++ [p])).slots n side).map f =
      ((L.slots n side).map f).orderedInsert (fun a b => side.better a.price b.price) e := by
  obtain ⟨pre, post, hsplit, hpre, hpost⟩ :=
    Buckets.split_of_mem (ladderOrder_nodup side n) (mem_ladderOrder.mpr hi)
  have hpair := ladderOrder_pairwise side n
  rw [hsplit] at hpair
  obtain ⟨-, hpair', hbefore⟩ := List.pairwise_append.mp hpair
  have hafter := (List.pairwise_cons.mp hpair').1
  have hnew : (L.setQueue side i (L.queue side i ++ [p])).slots n side =
      pre.flatMap (L.queue side) ++ L.queue side i ++ p :: post.flatMap (L.queue side) := by
    rw [Layout.slots, hsplit, Layout.setQueue_queue, Buckets.flatMap_update hpre hpost]
    simp only [List.append_assoc, List.singleton_append]
  have hold : L.slots n side =
      pre.flatMap (L.queue side) ++ L.queue side i ++ post.flatMap (L.queue side) := by
    rw [Layout.slots, hsplit, List.flatMap_append, List.flatMap_cons, List.append_assoc]
  have hmap : ((L.slots n side).map f) =
      (pre.flatMap (L.queue side) ++ L.queue side i).map f ++
        (post.flatMap (L.queue side)).map f := by rw [hold, List.map_append]
  rw [hnew, hmap, List.map_append, List.map_cons, hp]
  symm
  apply Buckets.orderedInsert_append
  · intro a ha
    obtain ⟨r, hr, rfl⟩ := List.mem_map.mp ha
    rcases List.mem_append.mp hr with hr | hr
    · obtain ⟨j, hj, hrj⟩ := List.mem_flatMap.mp hr
      have hlt := hbefore j hj i (List.mem_cons_self ..)
      rw [he, hprice j r hrj]
      cases side <;> simp only [Side.better] at hlt ⊢ <;> omega
    · rw [he, hprice i r hr]
      cases side <;> simp only [Side.better] <;> omega
  · intro b hb
    obtain ⟨r, hr, rfl⟩ := List.mem_map.mp hb
    obtain ⟨j, hj, hrj⟩ := List.mem_flatMap.mp hr
    rw [he, hprice j r hrj]
    exact hafter j hj

/-- An order on the ladder joins its queue, and its id leads to it. -/
theorem restOrder_on (h : self.Rep n capacity L) (hfree : L.free = p :: free) {i : Nat}
    (hprice : order.price = i) (hi : i < n) (hpos : 0 < left) (hle : left ≤ order.quantity) :
    (self.restOrder order left .resting).2 = .resting ∧
      (self.restOrder order left .resting).1.Rep n capacity
        { L.setQueue order.side i (L.queue order.side i ++ [p]) with free } ∧
      (self.restOrder order left .resting).1.book = self.book.rest order left ∧
      (self.restOrder order left .resting).1.orderMap = self.orderMap.insert order.id p ∧
      (self.restOrder order left .resting).1.entry p =
        { id := order.id, price := order.price, quantity := order.quantity, remaining := left,
          mapped := true } ∧
      ∀ r, r ≠ p →
        ((self.restOrder order left .resting).1.heap r).core = (self.heap r).core := by
  obtain ⟨w, o, heq, hw, ho, hother, hmapw, hladderw⟩ :=
    @restOrder_written _ _ _ _ order left p free .resting h hfree
  rw [heq]
  have hcore : ∀ r, (((w.pushToLevel order.side i p).markOccupied order.side i).heap r).core =
      (w.heap r).core := by
    intro r
    rw [markOccupied_heap, pushToLevel_heap, PriceLevelList.pushBack_core]
  have hid : (((w.pushToLevel order.side i p).markOccupied order.side i).heap p).id = order.id := by
    rw [Order.proj_eq Order.id (fun _ => rfl) (hcore p), ho]
    rfl
  have hindex : (self.ladder order.side).priceToIndex order.price = some i := by
    rw [hprice]
    exact (h.ladder order.side).ticks.priceToIndex_natCast hi
  have hins : w.insertOrder p =
      ((w.pushToLevel order.side i p).markOccupied order.side i).assignId order.id p := by
    simp only [insertOrder, ho, hladderw]
    rw [show (restingOrder order left .resting o).side = order.side from rfl,
      show (restingOrder order left .resting o).price = order.price from rfl, hindex]
    simp only [hid]
  have hlive : (w.heap p).Live order.side i := by
    rw [ho]
    exact ⟨rfl, hprice, hpos, hle, .inl rfl⟩
  have hlink := hw.link rfl hi hlive
  rw [hins, assignId_heap, hid, assignId_assignId]
  have hrep := hlink.assignId hid (Layout.mem_allocated.mpr (.inr ⟨order.side,
    hlink.mem_slots (show p ∈ (L.setQueue order.side i (L.queue order.side i ++ [p])).queue
      order.side i by simp)⟩))
  have hnotin : ∀ side j, p ∉ L.queue side j := fun side j hin =>
    h.not_allocated_of_free (hfree ▸ List.mem_cons_self ..) (h.mem_allocated hin)
  obtain ⟨final, hfinal⟩ : ∃ final, final =
    ((w.pushToLevel order.side i p).markOccupied order.side i).assignId order.id p := ⟨_, rfl⟩
  have hold : ∀ side, ∀ r ∈ L.slots n side, final.entry r = (self.entry r).forget order.id := by
    intro side r hr
    obtain ⟨j, hj⟩ := h.mem_slots_iff.mp hr
    have hne : r ≠ p := ne_of_mem_of_not_mem hj (hnotin side j)
    rw [hfinal]
    refine entry_of_insert hne ?_ ?_
    · rw [assignId_heap, hcore r, hother r hne]
    · rw [assignId_orderMap, markOccupied_orderMap, pushToLevel_orderMap, hmapw]
  have hnew : final.entry p =
      { id := order.id, price := order.price, quantity := order.quantity, remaining := left,
        mapped := true } := by
    obtain ⟨v, w', heq⟩ := Order.eq_of_core (hcore p)
    rw [hfinal, entry, assignId_heap, heq, ho, assignId_orderMap]
    simp [restingOrder, AList.lookup_insert]
  rw [← hfinal] at hrep ⊢
  refine ⟨rfl, hrep, Book.ext_side fun other => ?_, ?_, hnew, fun r hr => ?_⟩
  case refine_2 =>
    rw [hfinal, assignId_orderMap, markOccupied_orderMap, pushToLevel_orderMap, hmapw]
  case refine_3 => rw [hfinal, assignId_heap, hcore r, hother r hr]
  rw [hrep.book_side]
  rcases Side.eq_or_eq_opposite order.side other with rfl | rfl
  · show ((L.setQueue order.side i (L.queue order.side i ++ [p])).slots n order.side).map _ = _
    rw [slots_orderedInsert hi hnew hprice, Book.rest, Book.setSide_side, Book.forget_side,
      h.book_side, List.map_map]
    · rw [List.map_congr_left (hold order.side)]
      rfl
    · intro j r hr
      rw [hold order.side r (h.mem_slots hr), Entry.forget_price]
      exact (h.live hr).price
  · show ((L.setQueue order.side i (L.queue order.side i ++ [p])).slots n
      order.side.opposite).map _ = _
    rw [Layout.setQueue_slots_of_ne _ _ _ _ order.side.opposite_ne, Book.rest,
      Book.setSide_side_opposite, Book.forget_side, h.book_side, List.map_map,
      List.map_congr_left (hold order.side.opposite)]
    rfl

/-- An order off the ladder is marked cancelled, but keeps its slot, gets a map
    entry and is reported as resting. -/
theorem restOrder_off (h : self.Rep n capacity L) (hfree : L.free = p :: free)
    (hprice : (n : Int) ≤ order.price) :
    (self.restOrder order left .resting).2 = .resting ∧
      (self.restOrder order left .resting).1.Rep n capacity
        { L with held := p :: L.held, free } ∧
      (self.restOrder order left .resting).1.orderMap = self.orderMap.insert order.id p ∧
      ((self.restOrder order left .resting).1.heap p).price = order.price ∧
      (∀ r, r ≠ p → (self.restOrder order left .resting).1.heap r = self.heap r) ∧
      ((self.restOrder order left .resting).1.heap p).status = .cancelled := by
  obtain ⟨w, o, heq, hw, ho, hother, hmapw, hladderw⟩ :=
    @restOrder_written _ _ _ _ order left p free .resting h hfree
  rw [heq]
  have hindex : (self.ladder order.side).priceToIndex order.price = none :=
    (h.ladder order.side).ticks.priceToIndex_none hprice
  have hins : w.insertOrder p = w.modifyOrder p fun o => { o with status := .cancelled } := by
    simp only [insertOrder, ho, hladderw]
    rw [show (restingOrder order left .resting o).side = order.side from rfl,
      show (restingOrder order left .resting o).price = order.price from rfl, hindex]
  have hid : ((w.insertOrder p).heap p).id = order.id := by
    rw [hins, modifyOrder_heap, Heap.modify_self, ho]
    rfl
  have hmark : (w.insertOrder p).Rep n capacity { L with held := p :: L.held, free } := by
    rw [hins]
    exact hw.modify_held (List.mem_cons_self ..) (keeps_status _) (.inl rfl)
  refine ⟨rfl, ?_, ?_, ?_, fun r hr => ?_, ?_⟩
  · exact hmark.assignId rfl (Layout.mem_allocated.mpr (.inl (List.mem_cons_self ..)))
  · rw [assignId_orderMap, hid, hins, modifyOrder_orderMap, hmapw]
  · rw [assignId_heap, hins, modifyOrder_heap, Heap.modify_self, ho]
    rfl
  · rw [assignId_heap, hins, modifyOrder_heap, Heap.modify_of_ne hr, hother r hr]
  · rw [assignId_heap, hins, modifyOrder_heap, Heap.modify_self]

end Rest

-- ============================================================================
-- `process_order`
-- ============================================================================

/-- The slot that a call writes its order into. -/
def newSlot (self : MatchingEngine) (order : IncomingOrder) : Option Slot :=
  if !validateOrder order then none
  else
    match self.matchOrder order with
    | none => none
    | some st =>
        if (finalStatus order.type (order.quantity - st.order.quantity) st.order.quantity).1 then
          st.engine.pool.allocate.map Prod.fst
        else none

section Process

variable {self : MatchingEngine} {n capacity : Nat} {L : Layout} {order : IncomingOrder}
  {st : MatchState}

/-- A rejected order changes nothing. -/
theorem processOrder_invalid (h : validateOrder order = false) :
    self.processOrder order =
      some (self, { reports := [takerReport order .cancelled 0 order.quantity] }) := by
  simp [processOrder, h]

/-- An order that does not rest. -/
theorem processOrder_done (h : validateOrder order = true)
    (hmatch : self.matchOrder order = some st)
    (hno : st.order.quantity = 0 ∨ order.type ≠ .limit) :
    self.processOrder order = some (st.engine,
      { st.event with
        reports := st.event.reports ++
          [takerReport order (if st.order.quantity = 0 then .filled else .cancelled)
            (order.quantity - st.order.quantity) st.order.quantity] }) := by
  rcases hno with hno | hno
  · simp [processOrder, h, hmatch, finalStatus_eq, hno]
  · by_cases hz : st.order.quantity = 0
    · simp [processOrder, h, hmatch, finalStatus_eq, hz]
    · simp [processOrder, h, hmatch, finalStatus_eq, hno, hz]

/-- A Limit order with a residual goes through the resting path. -/
theorem processOrder_rest (h : validateOrder order = true)
    (hmatch : self.matchOrder order = some st) (hleft : st.order.quantity ≠ 0)
    (hlimit : order.type = .limit) :
    self.processOrder order =
      some ((st.engine.restOrder order st.order.quantity .resting).1,
        { st.event with
          reports := st.event.reports ++
            [takerReport order (st.engine.restOrder order st.order.quantity .resting).2
              (order.quantity - st.order.quantity) st.order.quantity] }) := by
  simp [processOrder, h, hmatch, finalStatus_eq, hlimit, hleft]

/-- What a sound loop state has left is at most what the order asked for. -/
theorem Matching.left_le {start L' : Layout} {side : Side} {order : IncomingOrder}
    (h : self.Settled n capacity L) (hpos : 0 ≤ order.quantity)
    (hswept : st.Swept (self.book.matched order order.quantity))
    (hm : Matching n capacity side start (self.book.matched order order.quantity) st L') :
    0 ≤ st.order.quantity ∧ st.order.quantity ≤ order.quantity := by
  have hle := @Book.matched_left_le _ order _ h.rep.book_positive hpos
  rw [hswept.left] at hle
  exact ⟨hm.nonneg, hle⟩

theorem newSlot_invalid (h : validateOrder order = false) : self.newSlot order = none := by
  simp [newSlot, h]

theorem newSlot_eq (h : validateOrder order = true) (hmatch : self.matchOrder order = some st) :
    self.newSlot order =
      if st.order.quantity ≠ 0 ∧ order.type = .limit then st.engine.pool.allocate.map Prod.fst
      else none := by
  by_cases hz : st.order.quantity = 0
  · simp [newSlot, h, hmatch, finalStatus_eq, hz]
  · by_cases hl : order.type = .limit <;> simp [newSlot, h, hmatch, finalStatus_eq, hz, hl]

/-- Matching takes orders off the front of the opposite queues. -/
theorem Matching.sublist {start L' : Layout} {side : Side} {goal : Book.Matched}
    (hm : Matching n capacity side start goal st L') (other : Side) (i : Nat) :
    (L'.queue other i).Sublist (start.queue other i) := by
  rcases Side.eq_or_eq_opposite side other with rfl | rfl
  · rw [hm.own]
  · exact (hm.opposite i).sublist

/-- A call with a price on the ladder does to the book what it should. -/
theorem processOrder_spec (h : self.Settled n capacity L)
    (hon : order.type = .limit → order.price < n) :
    ∃ self' event L', self.processOrder order = some (self', event) ∧
      self'.Settled n capacity L' ∧ L'.held = L.held ∧
      self.book.process
        (fun size => decide (size + L.held.length < OrderPool.usable capacity)) order
          = (self'.book, event) ∧
      L.Evolves L' (self.newSlot order) := by
  cases hv : validateOrder order with
  | false =>
      refine ⟨self, _, L, processOrder_invalid hv, h, rfl, ?_, ?_⟩
      · simp only [Book.process, hv, Bool.not_false, if_true]
      · rw [newSlot_invalid hv]
        exact .of_sublist fun _ _ => List.Sublist.refl _
  | true =>
      obtain ⟨hpos, hprice, -⟩ := validateOrder_pos hv
      obtain ⟨st, L₁, hmatch, hm, hswept⟩ := matchOrder_spec h (Int.le_of_lt hpos)
      obtain ⟨hnonneg, hle⟩ := Matching.left_le h (Int.le_of_lt hpos) hswept hm
      have hmatched := hswept.eq
      have hsize := hm.rep.book_size
      rw [hm.held] at hsize
      by_cases hz : st.order.quantity = 0
      · refine ⟨_, _, L₁, processOrder_done hv hmatch (.inl hz), hm.toSettled, hm.held, ?_, ?_⟩
        · simp only [Book.process, hv, Bool.not_true, hmatched, hz, if_true, Bool.false_eq_true,
            if_false]
        · rw [newSlot_eq hv hmatch, if_neg fun hc => hc.1 hz]
          exact .of_sublist hm.sublist
      · by_cases hl : order.type = .limit
        · cases hfree : L₁.free with
          | nil =>
              -- the pool is exhausted
              refine ⟨_, _, L₁, processOrder_rest hv hmatch hz hl, ?_, ?_, ?_, ?_⟩
              · rw [restOrder_none hm.rep hfree]
                exact hm.toSettled
              · exact hm.held
              · have hroom : ¬ st.engine.book.size + L.held.length < OrderPool.usable capacity := by
                  rw [hfree] at hsize
                  simp only [List.length_nil] at hsize
                  omega
                rw [restOrder_none hm.rep hfree]
                simp only [Book.process, hv, Bool.not_true, hmatched, hz, hroom, if_false,
                  Bool.false_eq_true, decide_false, and_false]
              · rw [newSlot_eq hv hmatch, if_pos ⟨hz, hl⟩, hm.rep.allocate_none.mpr hfree]
                exact .of_sublist hm.sublist
          | cons p free =>
              obtain ⟨i, hi⟩ : ∃ i : Nat, order.price = i :=
                ⟨order.price.toNat, (Int.toNat_of_nonneg (Int.le_of_lt (hprice hl))).symm⟩
              have hin : i < n := by
                have := hon hl
                omega
              obtain ⟨hstatus, hrep, hbook, -, -, hcore⟩ := restOrder_on hm.rep hfree hi hin
                (by omega : 0 < st.order.quantity) hle
              refine ⟨_, _, _, processOrder_rest hv hmatch hz hl, ⟨hrep, ?_⟩, hm.held, ?_, ?_⟩
              · intro r hr
                have hne : r ≠ p := by
                  rintro rfl
                  exact hm.rep.not_allocated_of_free (hfree ▸ List.mem_cons_self ..)
                    (Layout.mem_allocated.mpr (.inl hr))
                rw [Order.proj_eq Order.price (fun _ => rfl) (hcore r hne)]
                exact hm.parked r hr
              · have hroom : st.engine.book.size + L.held.length < OrderPool.usable capacity := by
                  rw [hfree] at hsize
                  simp only [List.length_cons] at hsize
                  omega
                rw [hstatus, hbook]
                simp only [Book.process, hv, Bool.not_true, hmatched, hz, hroom, hl, if_false,
                  Bool.false_eq_true, decide_true, and_self, if_true]
              · rw [newSlot_eq hv hmatch, if_pos ⟨hz, hl⟩, (hm.rep.allocate hfree).1]
                exact .of_append hm.sublist fun side j hin =>
                  hm.rep.not_allocated_of_free (hfree ▸ List.mem_cons_self ..)
                    (hm.rep.mem_allocated hin)
        · refine ⟨_, _, L₁, processOrder_done hv hmatch (.inr hl), hm.toSettled, hm.held, ?_, ?_⟩
          · simp only [Book.process, hv, Bool.not_true, hmatched, hz, hl, if_false,
              Bool.false_eq_true, false_and]
          · rw [newSlot_eq hv hmatch, if_neg fun hc => hl hc.2]
            exact .of_sublist hm.sublist

end Process

-- ============================================================================
-- `cancel_order`
-- ============================================================================

section Cancel

variable {self : MatchingEngine} {n capacity : Nat} {L : Layout} {id : OrderID} {p r : Slot}
  {side : Side} {i : Nat} {xs ys : List Slot}

/-- An unknown id changes nothing. -/
theorem cancelOrder_none (h : self.orderMap.lookup id = none) :
    self.cancelOrder id = (self, {}) := by
  simp only [cancelOrder, h]

/-- The entry that a cancel finds is the one in the slot the map leads to. -/
theorem isTarget_entry (h : MapRep self.heap self.orderMap (L.allocated n)) (r : Slot) :
    (self.entry r).isTarget id = decide (self.orderMap.lookup id = some r) := by
  by_cases hid : (self.heap r).id = id
  · subst hid
    simp [Entry.isTarget, entry]
  · have hno : self.orderMap.lookup id ≠ some r := fun hr => hid (h id r hr).1
    simp [Entry.isTarget, entry, hid, hno]

/-- That slot is the only one. -/
theorem isTarget_entry_iff (h : MapRep self.heap self.orderMap (L.allocated n))
    (hid : self.orderMap.lookup id = some p) (r : Slot) :
    (self.entry r).isTarget id = true ↔ r = p := by
  rw [isTarget_entry h, hid, decide_eq_true_eq, Option.some.injEq]
  exact eq_comm

/-- Erasing an id changes no entry but that of the slot it leads to. -/
theorem forget_entry_of_ne (h : self.orderMap.lookup id = some p) (hr : r ≠ p) :
    (self.entry r).forget id = self.entry r := by
  by_cases hid : (self.heap r).id = id
  · subst hid
    have hne : p ≠ r := hr.symm
    simp [Entry.forget, entry, h, hne]
  · simp [Entry.forget, entry, hid]

/-- Taking one slot out of its queue takes it out of its side. -/
theorem slots_erase (h : self.Rep n capacity L) (hq : L.queue side i = xs ++ p :: ys) :
    (L.setQueue side i (xs ++ ys)).slots n side = (L.slots n side).erase p := by
  have hp : p ∈ L.queue side i := by rw [hq]; simp
  obtain ⟨pre, post, hsplit, hpre, hpost⟩ :=
    Buckets.split_of_mem (ladderOrder_nodup side n) (mem_ladderOrder.mpr (h.lt_of_mem hp))
  have hold : L.slots n side =
      (pre.flatMap (L.queue side) ++ xs) ++ p :: (ys ++ post.flatMap (L.queue side)) := by
    rw [Layout.slots, hsplit, List.flatMap_append, List.flatMap_cons, hq]
    simp only [List.append_assoc, List.cons_append]
  have hnodup := h.slots_nodup side
  rw [hold] at hnodup
  have hnot : p ∉ pre.flatMap (L.queue side) ++ xs := fun hin =>
    (List.nodup_append.mp hnodup).2.2 p hin p (List.mem_cons_self ..) rfl
  rw [hold, List.erase_append_right _ hnot, List.erase_cons_head, Layout.slots, hsplit,
    Layout.setQueue_queue, Buckets.flatMap_update hpre hpost]
  simp only [List.append_assoc]

theorem modifyOrder_id (self : MatchingEngine) (p : Slot) :
    (self.modifyOrder p fun o => o) = self := by
  simp [modifyOrder, setHeap, heap, Heap.modify]

/-- Cancelling a queued order takes out exactly that order. -/
theorem cancelOrder_spec (h : self.Settled n capacity L)
    (hid : self.orderMap.lookup id = some p) (hq : L.queue side i = xs ++ p :: ys) :
    (self.cancelOrder id).1.Settled n capacity
        { L.setQueue side i (xs ++ ys) with free := p :: L.free } ∧
      self.book.cancel id = ((self.cancelOrder id).1.book, (self.cancelOrder id).2) ∧
      (self.cancelOrder id).1.orderMap = self.orderMap.erase id ∧
      (∀ r, r ≠ p → ((self.cancelOrder id).1.heap r).core = (self.heap r).core) ∧
      (self.cancelOrder id).2 = { reports := [cancelReport (self.heap p)] } := by
  have hp : p ∈ L.queue side i := by rw [hq]; simp
  have hlive := h.rep.live hp
  obtain ⟨engine, hengine⟩ : ∃ engine, engine =
    (self.removeFromLevel side i p).markEmpty side i := ⟨_, rfl⟩
  have hunlink := h.rep.unlink hq ⟨fun _ => rfl, fun _ => rfl, fun _ => rfl⟩ (fun _ => rfl)
  rw [modifyOrder_id, ← hengine] at hunlink
  have hcore : ∀ r, (engine.heap r).core = (self.heap r).core := by
    intro r
    rw [hengine, markEmpty_heap, removeFromLevel_heap, PriceLevelList.remove_core]
  have hmap : engine.orderMap = self.orderMap := by
    rw [hengine, markEmpty_orderMap, removeFromLevel_orderMap]
  have hidp : (engine.heap p).id = id :=
    (Order.proj_eq Order.id (fun _ => rfl) (hcore p)).trans (h.rep.map id p hid).1
  have hremove : self.removeOrderFromBook p = engine.eraseId (engine.heap p).id := by
    have hindex : (self.ladder side).priceToIndex (self.heap p).price = some i := by
      rw [hlive.price]
      exact (h.rep.ladder side).ticks.priceToIndex_natCast (h.rep.lt_of_mem hp)
    simp only [removeOrderFromBook, hlive.side, hindex, hengine]
  have heq : self.cancelOrder id = ((engine.eraseId (engine.heap p).id).deallocate p,
      { reports := [cancelReport (engine.heap p)] }) := by
    simp only [cancelOrder, hid, hremove, eraseId_heap]
  have hrep := hunlink.retire rfl
  have hreport : cancelReport (engine.heap p) = cancelReport (self.heap p) := by
    obtain ⟨v, w, he⟩ := Order.eq_of_core (hcore p)
    rw [he]
    rfl
  rw [heq, hreport]
  obtain ⟨final, hfinal⟩ : ∃ final, final = (engine.eraseId (engine.heap p).id).deallocate p :=
    ⟨_, rfl⟩
  have hcore' : ∀ r, r ≠ p → (final.heap r).core = (self.heap r).core := by
    intro r hr
    rw [hfinal, deallocate_heap, Heap.modify_of_ne hr, eraseId_heap, hcore r]
  have hmap' : final.orderMap = self.orderMap.erase id := by
    rw [hfinal, deallocate_orderMap, eraseId_orderMap, hidp, hmap]
  have hentry : ∀ r, r ≠ p → final.entry r = self.entry r := fun r hr =>
    (entry_of_erase (hcore' r hr) hmap').trans (forget_entry_of_ne hid hr)
  rw [← hfinal] at hrep ⊢
  have hmem : p ∈ L.slots n side := h.rep.mem_slots hp
  have hown : ∀ r ∈ L.slots n side.opposite, r ≠ p := by
    rintro r hr rfl
    obtain ⟨j, hj⟩ := h.rep.mem_slots_iff.mp hr
    exact side.opposite_ne (h.rep.queue_unique hp hj).1
  refine ⟨⟨hrep, fun r hr => ?_⟩, ?_, hmap', hcore', rfl⟩
  · have hne : r ≠ p := by
      rintro rfl
      exact h.rep.not_queued_of_held hr side i hp
    rw [Order.proj_eq Order.price (fun _ => rfl) (hcore' r hne)]
    exact h.parked r hr
  · have hfind : (self.book.side side).find? (Entry.isTarget id) = some (self.entry p) := by
      rw [h.rep.book_side]
      exact Book.find_target (fun r _ => isTarget_entry_iff h.rep.map hid r) hmem
    have hnone : (self.book.side side.opposite).find? (Entry.isTarget id) = none := by
      rw [h.rep.book_side]
      apply Book.find_target_none
      intro r hr
      rw [Bool.eq_false_iff]
      exact fun he => hown r hr ((isTarget_entry_iff h.rep.map hid r).mp he)
    rw [Book.cancel_of_find hfind hnone, Prod.mk.injEq]
    refine ⟨Book.ext_side fun other => ?_, ?_⟩
    · rw [hrep.book_side]
      rcases Side.eq_or_eq_opposite side other with rfl | rfl
      · show _ = ((L.setQueue other i (xs ++ ys)).slots n other).map _
        rw [Book.setSide_side, h.rep.book_side,
          Book.erase_target fun r _ => isTarget_entry_iff h.rep.map hid r, slots_erase h.rep hq]
        refine List.map_congr_left fun r hr => (hentry r ?_).symm
        exact fun he => (h.rep.slots_nodup other).not_mem_erase (he ▸ hr)
      · show _ = ((L.setQueue side i (xs ++ ys)).slots n side.opposite).map _
        rw [Book.setSide_side_opposite, h.rep.book_side,
          Layout.setQueue_slots_of_ne _ _ _ _ side.opposite_ne]
        exact List.map_congr_left fun r hr => (hentry r (hown r hr)).symm
    · rw [Book.cancelReport, cancelReport, hlive.side]
      rfl

end Cancel

end MatchingEngine

end LimitOrderBook
