/-
  LimitOrderBook.Matching

  The two matching loops compute the sweep of the book.

  `MatchState.outcome` is what the sweep makes of a loop state: the events so
  far, continued by the sweep of the current book with the quantity that is
  left.  A round of the inner loop does not change the outcome
  (`fillFront_spec`), and both loops end in a state with nothing left to sweep.
-/
import LimitOrderBook.View

namespace LimitOrderBook

open Lib MatchingEngine

namespace MatchingEngine

-- ============================================================================
-- The two matchers as one
-- ============================================================================

/-- The matcher of an incoming side. -/
def matcher : Side → Matcher
  | .buy => buyMatcher
  | .sell => sellMatcher

theorem matchOrder_eq (self : MatchingEngine) (order : IncomingOrder) :
    self.matchOrder order = matchLoop (matcher order.side) ⟨self, order, {}⟩ := by
  rw [matchOrder]
  cases order.side <;> rfl

@[simp] theorem matcher_restingSide (side : Side) :
    (matcher side).restingSide = side.opposite := by cases side <;> rfl

@[simp] theorem matcher_findBest (side : Side) :
    (matcher side).findBest = PriceLadder.findBest side.opposite := by cases side <;> rfl

theorem matcher_orderCrosses {side : Side} {order : IncomingOrder} (h : order.side = side)
    (best : Int) : (matcher side).orderCrosses order best = order.crosses best := by
  rw [Matcher.orderCrosses, IncomingOrder.crosses, h]
  cases side <;> rfl

theorem matcher_trade {side : Side} {order : IncomingOrder} (h : order.side = side)
    (self : MatchingEngine) (p : Slot) (qty : Int) :
    (matcher side).trade order (self.heap p) qty = fillTrade order (self.entry p, qty) := by
  rw [fillTrade, h]
  cases side <;> rfl

-- ============================================================================
-- One fill
-- ============================================================================

section Fill

variable {n capacity idx : Nat} {L : Layout} {st : MatchState} {side : Side} {p : Slot}
  {ps : List Slot}

/-- What the sweep makes of a loop state. -/
def MatchState.outcome (st : MatchState) : Book.Matched :=
  let m := st.engine.book.matched st.order st.order.quantity
  { m with trades := st.event.trades ++ m.trades, reports := st.event.reports ++ m.reports }

theorem keeps_remaining (q : Int) :
    Order.Keeps fun o : Order => { o with remaining := o.remaining - q } :=
  ⟨fun _ => rfl, fun _ => rfl, fun _ => rfl⟩

theorem keeps_status (status : OrderStatus) : Order.Keeps fun o : Order => { o with status } :=
  ⟨fun _ => rfl, fun _ => rfl, fun _ => rfl⟩

/-- A fill that the front order outlasts. -/
theorem fillFront_partial (h : st.engine.Rep n capacity L)
    (hq : L.queue side.opposite idx = p :: ps) (hpos : 0 < st.order.quantity)
    (hlt : st.order.quantity < (st.engine.heap p).remaining) (hside : st.order.side = side) :
    (fillFront (matcher side) idx p st).engine.Rep n capacity L ∧
      (fillFront (matcher side) idx p st).order = { st.order with quantity := 0 } ∧
      (fillFront (matcher side) idx p st).event =
        { st.event with
          trades := st.event.trades ++
            [fillTrade st.order (st.engine.entry p, st.order.quantity)] } ∧
      (fillFront (matcher side) idx p st).engine.entry p =
        { st.engine.entry p with
          remaining := (st.engine.entry p).remaining - st.order.quantity } ∧
      ∀ r, r ≠ p →
        (fillFront (matcher side) idx p st).engine.entry r = st.engine.entry r := by
  have hp : p ∈ L.queue side.opposite idx := by rw [hq]; exact List.mem_cons_self ..
  have hlive := h.live hp
  have hmin : min st.order.quantity (st.engine.heap p).remaining = st.order.quantity := by omega
  have hrem : ¬ (st.engine.heap p).remaining - st.order.quantity = 0 := by omega
  have heq : fillFront (matcher side) idx p st =
      { engine := (st.engine.modifyOrder p fun o =>
          { o with remaining := o.remaining - st.order.quantity }).modifyOrder p fun o =>
            { o with status := .partiallyFilled }
        order := { st.order with quantity := 0 }
        event := { st.event with
          trades := st.event.trades ++
            [fillTrade st.order (st.engine.entry p, st.order.quantity)] } } := by
    simp only [fillFront, hmin, modifyOrder_heap, Heap.modify_self, hrem, if_false,
      matcher_trade hside, Int.sub_self]
  have hrep : (st.engine.modifyOrder p fun o =>
      { o with remaining := o.remaining - st.order.quantity }).Rep n capacity L := by
    refine h.modify_queued hp (keeps_remaining _) rfl
      ⟨hlive.side, hlive.price, ?_, ?_, hlive.status⟩
    · show 0 < (st.engine.heap p).remaining - st.order.quantity
      omega
    · show (st.engine.heap p).remaining - st.order.quantity ≤ (st.engine.heap p).quantity
      have := hlive.le
      omega
  have hlive' := hrep.live hp
  rw [heq]
  refine ⟨hrep.modify_queued hp (keeps_status _) rfl
    ⟨hlive'.side, hlive'.price, hlive'.pos, hlive'.le, .inr rfl⟩, rfl, rfl, ?_, fun r hr => ?_⟩
  · rw [entry, modifyOrder_heap, Heap.modify_self, modifyOrder_heap, Heap.modify_self]
    rfl
  · refine entry_of_same ?_ rfl
    rw [modifyOrder_heap, modifyOrder_heap, Heap.modify_of_ne hr, Heap.modify_of_ne hr]

/-- A fill that takes all that the front order had left. -/
theorem fillFront_whole (h : st.engine.Rep n capacity L)
    (hq : L.queue side.opposite idx = p :: ps)
    (hle : (st.engine.heap p).remaining ≤ st.order.quantity) (hside : st.order.side = side) :
    (fillFront (matcher side) idx p st).engine.Rep n capacity
        { L.setQueue side.opposite idx ps with free := p :: L.free } ∧
      (fillFront (matcher side) idx p st).order =
        { st.order with quantity := st.order.quantity - (st.engine.entry p).remaining } ∧
      (fillFront (matcher side) idx p st).event =
        { trades := st.event.trades ++
            [fillTrade st.order (st.engine.entry p, (st.engine.entry p).remaining)]
          reports := st.event.reports ++ [makerReport side.opposite (st.engine.entry p)] } ∧
      ∀ r, r ≠ p → (fillFront (matcher side) idx p st).engine.entry r =
        (st.engine.entry r).forget (st.engine.entry p).id := by
  have hp : p ∈ L.queue side.opposite idx := by rw [hq]; exact List.mem_cons_self ..
  have hmin :
      min st.order.quantity (st.engine.heap p).remaining = (st.engine.heap p).remaining := by
    omega
  obtain ⟨engine, hengine⟩ : ∃ engine, engine =
      (((st.engine.modifyOrder p fun o =>
        { o with remaining := o.remaining - (st.engine.heap p).remaining }).removeFromLevel
          side.opposite idx p).markEmpty side.opposite idx).modifyOrder p fun o =>
            { o with status := .filled } := ⟨_, rfl⟩
  have heq : fillFront (matcher side) idx p st =
      { engine := (engine.eraseId (engine.heap p).id).deallocate p
        order := { st.order with quantity := st.order.quantity - (st.engine.heap p).remaining }
        event :=
          { trades := st.event.trades ++
              [fillTrade st.order (st.engine.entry p, (st.engine.heap p).remaining)]
            reports := st.event.reports ++ [filledReport side.opposite (engine.heap p)] } } := by
    rw [hengine]
    simp only [fillFront, hmin, modifyOrder_heap, Heap.modify_self, Int.sub_self, if_true,
      matcher_trade hside, matcher_restingSide, eraseId_heap]
  have hunlink := h.unlink (show L.queue side.opposite idx = [] ++ p :: ps from hq)
    (keeps_remaining (st.engine.heap p).remaining) (fun _ => rfl)
  have hrep : engine.Rep n capacity
      { L.setQueue side.opposite idx ps with held := p :: L.held } := by
    rw [hengine]
    exact hunlink.modify_held (List.mem_cons_self ..) (keeps_status _) (.inl rfl)
  have hcore : ∀ r, r ≠ p → (engine.heap r).core = (st.engine.heap r).core := by
    intro r hr
    rw [hengine, modifyOrder_heap, Heap.modify_of_ne hr, markEmpty_heap, removeFromLevel_heap,
      PriceLevelList.remove_core, modifyOrder_heap, Heap.modify_of_ne hr]
  have hself : (engine.heap p).id = (st.engine.heap p).id ∧
      (engine.heap p).price = (st.engine.heap p).price ∧
      (engine.heap p).quantity = (st.engine.heap p).quantity := by
    rw [hengine, modifyOrder_heap, Heap.modify_self, markEmpty_heap, removeFromLevel_heap]
    have hcore := PriceLevelList.remove_core
      ((st.engine.ladder side.opposite).levelAt idx) (st.engine.heap.modify p fun o =>
        { o with remaining := o.remaining - (st.engine.heap p).remaining }) p p
    have hid := Order.proj_eq Order.id (fun _ => rfl) hcore
    have hprice := Order.proj_eq Order.price (fun _ => rfl) hcore
    have hqty := Order.proj_eq Order.quantity (fun _ => rfl) hcore
    rw [Heap.modify_self] at hid hprice hqty
    exact ⟨hid, hprice, hqty⟩
  have hmap : engine.orderMap = st.engine.orderMap := by
    rw [hengine, modifyOrder_orderMap, markEmpty_orderMap, removeFromLevel_orderMap,
      modifyOrder_orderMap]
  rw [heq]
  refine ⟨hrep.retire rfl, rfl, ?_, fun r hr => ?_⟩
  · simp only [filledReport, makerReport, entry, hself]
  · refine entry_of_erase ?_ ?_
    · rw [deallocate_heap, Heap.modify_of_ne hr, eraseId_heap, hcore r hr]
    · rw [deallocate_orderMap, eraseId_orderMap, hself.1, hmap]
      rfl

end Fill

-- ============================================================================
-- The rounds
-- ============================================================================

/-- What holds at the start of every round of either loop: the invariant, the
    outcome of the whole call, and queues that have only lost orders from the
    front of the opposite side. -/
structure Matching (n capacity : Nat) (side : Side) (start : Layout) (goal : Book.Matched)
    (st : MatchState) (L : Layout) : Prop extends st.engine.Settled n capacity L where
  side_eq : st.order.side = side
  nonneg : 0 ≤ st.order.quantity
  outcome : st.outcome = goal
  opposite : ∀ i, L.queue side.opposite i <:+ start.queue side.opposite i
  own : L.queue side = start.queue side
  held : L.held = start.held

/-- Orders on the opposite side, and one more round while quantity is left. -/
def MatchState.variant (st : MatchState) : Nat :=
  (st.engine.book.side st.order.side.opposite).length + if 0 < st.order.quantity then 1 else 0

section Rounds

variable {n capacity idx : Nat} {side : Side} {start L : Layout} {goal : Book.Matched}
  {st : MatchState} {p : Slot} {ps : List Slot}

/-- The order at the head of the best level heads the book. -/
theorem Matching.front (h : Matching n capacity side start goal st L)
    (hbest : Best (L.queue side.opposite) side.opposite n idx)
    (hq : L.queue side.opposite idx = p :: ps) :
    ∃ rest, L.slots n side.opposite = p :: (ps ++ rest) ∧
      st.engine.book.side side.opposite =
        st.engine.entry p :: (ps ++ rest).map st.engine.entry ∧
      (∀ r ∈ ps ++ rest, r ≠ p) ∧ (∀ r ∈ L.slots n side, r ≠ p) ∧
      (L.setQueue side.opposite idx ps).slots n side.opposite = ps ++ rest ∧
      Best ((L.setQueue side.opposite idx ps).queue side.opposite) side.opposite n idx := by
  obtain ⟨rest, hslots, hset⟩ := hbest.slots
  rw [hq, List.cons_append] at hslots
  have hp : p ∈ L.queue side.opposite idx := by rw [hq]; exact List.mem_cons_self ..
  have hnodup := h.rep.slots_nodup side.opposite
  rw [hslots] at hnodup
  refine ⟨rest, hslots, ?_, ?_, ?_, (hset ps).1, (hset ps).2⟩
  · rw [h.rep.book_side, hslots, List.map_cons]
  · rintro r hr rfl
    exact (List.nodup_cons.mp hnodup).1 hr
  · rintro r hr rfl
    obtain ⟨j, hj⟩ := h.rep.mem_slots_iff.mp hr
    exact side.opposite_ne (h.rep.queue_unique hj hp).1

/-- One fill keeps the outcome and brings the loop closer to its end. -/
theorem fillFront_spec (h : Matching n capacity side start goal st L)
    (hbest : Best (L.queue side.opposite) side.opposite n idx)
    (hq : L.queue side.opposite idx = p :: ps) (hpos : 0 < st.order.quantity)
    (hcross : st.order.crosses idx = true) :
    ∃ L', Matching n capacity side start goal (fillFront (matcher side) idx p st) L' ∧
      Best (L'.queue side.opposite) side.opposite n idx ∧
      (fillFront (matcher side) idx p st).order.crosses idx = true ∧
      (fillFront (matcher side) idx p st).variant < st.variant := by
  have hp : p ∈ L.queue side.opposite idx := by rw [hq]; exact List.mem_cons_self ..
  have hlive := h.rep.live hp
  obtain ⟨rest, hslots, hbook, hne, hown, hset, hbest'⟩ := h.front hbest hq
  have hopp : st.engine.book.side st.order.side.opposite =
      st.engine.entry p :: (ps ++ rest).map st.engine.entry := by rw [h.side_eq]; exact hbook
  have hprice : st.order.crosses (st.engine.entry p).price = true := by
    show st.order.crosses (st.engine.heap p).price = true
    rw [hlive.price]
    exact hcross
  have hparked : ∀ st' : MatchState,
      (∀ r, r ≠ p → (st'.engine.entry r).price = (st.engine.entry r).price) →
      ∀ r ∈ L.held, (n : Int) ≤ (st'.engine.heap r).price := by
    intro st' hsame r hr
    have hne : r ≠ p := by
      rintro rfl
      exact h.rep.not_queued_of_held hr _ _ hp
    exact (h.parked r hr).trans_eq (hsame r hne).symm
  by_cases hle : (st.engine.heap p).remaining ≤ st.order.quantity
  · obtain ⟨hrep, horder, hevent, hentry⟩ := fillFront_whole h.rep hq hle h.side_eq
    generalize fillFront (matcher side) idx p st = st' at *
    have hB : st'.engine.book =
        (st.engine.book.setSide side.opposite ((ps ++ rest).map st.engine.entry)).forget
          (st.engine.entry p).id := by
      refine Book.ext_side fun other => ?_
      rw [hrep.book_side, Book.forget_side]
      rcases Side.eq_or_eq_opposite side other with rfl | rfl
      · show ((L.setQueue other.opposite idx ps).slots n other).map _ = _
        rw [Layout.setQueue_slots_of_ne _ _ _ _ other.opposite_ne.symm,
          Book.setSide_opposite_side, h.rep.book_side, List.map_map]
        exact List.map_congr_left fun r hr => hentry r (hown r hr)
      · show ((L.setQueue side.opposite idx ps).slots n side.opposite).map _ = _
        rw [hset, Book.setSide_side, List.map_map]
        exact List.map_congr_left fun r hr => hentry r (hne r hr)
    have hsame : ∀ r, r ≠ p → (st'.engine.entry r).price = (st.engine.entry r).price :=
      fun r hr => by rw [hentry r hr, Entry.forget_price]
    refine ⟨_, ⟨⟨hrep, hparked st' hsame⟩, ?_, ?_, ?_, ?_, ?_, h.held⟩, hbest', ?_, ?_⟩
    · rw [horder]
      exact h.side_eq
    · rw [horder]
      show 0 ≤ st.order.quantity - (st.engine.heap p).remaining
      omega
    · rw [← h.outcome]
      have hstep := Book.matched_whole (B := st.engine.book) hopp hpos hprice hle
      have hrest : st'.engine.book.matched st'.order st'.order.quantity =
          ((st.engine.book.setSide st.order.side.opposite
            ((ps ++ rest).map st.engine.entry)).forget (st.engine.entry p).id).matched st.order
              (st.order.quantity - (st.engine.entry p).remaining) := by
        rw [hB, horder, h.side_eq]
        rfl
      have hconsumes : consumes (st.engine.entry p, (st.engine.entry p).remaining) = true := by
        simp [consumes]
      rw [MatchState.outcome, MatchState.outcome, hrest, hstep, hevent, Book.Matched.push,
        if_pos hconsumes, h.side_eq]
      simp only [List.append_assoc, List.singleton_append]
    · intro j
      show (L.setQueue side.opposite idx ps).queue side.opposite j <:+ _
      rw [Layout.setQueue_queue]
      by_cases hj : j = idx
      · subst hj
        rw [Function.update_self]
        exact (List.suffix_cons p ps).trans (hq ▸ h.opposite j)
      · rw [Function.update_of_ne hj]
        exact h.opposite j
    · show (L.setQueue side.opposite idx ps).queue side = _
      rw [Layout.setQueue_queue_of_ne _ _ _ side.opposite_ne.symm]
      exact h.own
    · rw [horder]
      exact hcross
    · have hlen : st'.engine.book.side side.opposite =
          ((ps ++ rest).map st.engine.entry).map (Entry.forget (st.engine.entry p).id) := by
        rw [hB, Book.forget_side, Book.setSide_side]
      have hside' : st'.order.side = side := by rw [horder]; exact h.side_eq
      rw [MatchState.variant, MatchState.variant, hside', h.side_eq, hlen, hbook, if_pos hpos]
      simp only [List.length_map, List.length_cons]
      split <;> omega
  · have hlt : st.order.quantity < (st.engine.heap p).remaining := by omega
    obtain ⟨hrep, horder, hevent, hself, hentry⟩ := fillFront_partial h.rep hq hpos hlt h.side_eq
    generalize fillFront (matcher side) idx p st = st' at *
    have hB : st'.engine.book = st.engine.book.setSide side.opposite
        ({ st.engine.entry p with
            remaining := (st.engine.entry p).remaining - st.order.quantity } ::
          (ps ++ rest).map st.engine.entry) := by
      refine Book.ext_side fun other => ?_
      rw [hrep.book_side]
      rcases Side.eq_or_eq_opposite side other with rfl | rfl
      · rw [Book.setSide_opposite_side, h.rep.book_side]
        exact List.map_congr_left fun r hr => hentry r (hown r hr)
      · rw [hslots, Book.setSide_side, List.map_cons, hself]
        exact congrArg _ (List.map_congr_left fun r hr => hentry r (hne r hr))
    have hsame : ∀ r, r ≠ p → (st'.engine.entry r).price = (st.engine.entry r).price :=
      fun r hr => by rw [hentry r hr]
    refine ⟨L, ⟨⟨hrep, hparked st' hsame⟩, ?_, ?_, ?_, h.opposite, h.own, h.held⟩, hbest, ?_, ?_⟩
    · rw [horder]
      exact h.side_eq
    · rw [horder]
    · rw [← h.outcome]
      have hstep := Book.matched_partial (B := st.engine.book) hopp hpos hprice hlt
      have hrest : st'.engine.book.matched st'.order st'.order.quantity =
          ⟨st'.engine.book, [], [], 0⟩ := by
        rw [horder]
        exact Book.matched_done (Int.le_refl 0)
      rw [MatchState.outcome, MatchState.outcome, hrest, hstep, hevent, hB, h.side_eq]
      simp only [List.append_nil]
    · rw [horder]
      exact hcross
    · have hside' : st'.order.side = side := by rw [horder]; exact h.side_eq
      have hq' : ¬ 0 < st'.order.quantity := by rw [horder]; exact Int.lt_irrefl 0
      rw [MatchState.variant, MatchState.variant, hside', h.side_eq, hB, Book.setSide_side, hbook,
        if_pos hpos, if_neg hq']
      simp only [List.length_cons]
      omega

/-- Any sound loop state has fuel for all the rounds it can still make. -/
theorem Matching.variant_lt (h : Matching n capacity side start goal st L) :
    st.variant < st.engine.loopFuel := by
  have hlen := h.rep.book_size
  rw [Book.size_eq _ side] at hlen
  have husable := (OrderPool.usable_bounds capacity).1
  rw [MatchState.variant, h.side_eq, loopFuel, h.rep.pool.capacity_eq]
  split <;> omega

/-- The inner loop's invariant: level `idx` heads its side and crosses. -/
def LevelInv (n capacity : Nat) (side : Side) (start : Layout) (goal : Book.Matched) (idx : Nat)
    (st : MatchState) : Prop :=
  ∃ L, Matching n capacity side start goal st L ∧
    Best (L.queue side.opposite) side.opposite n idx ∧ st.order.crosses idx = true

/-- One round of the inner loop. -/
theorem levelRound_eq (h : Matching n capacity side start goal st L) (idx : Nat) :
    levelRound (matcher side) idx st =
      match L.queue side.opposite idx with
      | [] => some (.stop st)
      | p :: _ =>
          if st.order.quantity > 0 then some (.again (fillFront (matcher side) idx p st))
          else some (.stop st) := by
  have hhead : ((st.engine.ladder side.opposite).levelAt idx).front =
      (L.queue side.opposite idx).head? := ((h.rep.ladder side.opposite).list idx).head
  rw [levelRound, matcher_restingSide, hhead]
  cases L.queue side.opposite idx <;> rfl

theorem levelRound_spec (h : LevelInv n capacity side start goal idx st) :
    (levelRound (matcher side) idx st = some (.stop st)) ∨
    (∃ st', levelRound (matcher side) idx st = some (.again st') ∧
      LevelInv n capacity side start goal idx st' ∧ st'.variant < st.variant) := by
  obtain ⟨L, hm, hbest, hcross⟩ := h
  rw [levelRound_eq hm]
  cases hq : L.queue side.opposite idx with
  | nil => exact .inl rfl
  | cons p ps =>
      by_cases hpos : st.order.quantity > 0
      · obtain ⟨L', hm', hbest', hcross', hlt⟩ := fillFront_spec hm hbest hq hpos hcross
        exact .inr ⟨_, if_pos hpos, ⟨L', hm', hbest', hcross'⟩, hlt⟩
      · exact .inl (if_neg hpos)

/-- The inner loop ends, no further from the end than it began. -/
theorem levelLoop_spec (h : LevelInv n capacity side start goal idx st) {fuel : Nat}
    (hfuel : st.variant < fuel) :
    ∃ st', runLoop (levelRound (matcher side) idx) fuel st = some st' ∧
      LevelInv n capacity side start goal idx st' ∧ st'.variant ≤ st.variant := by
  refine @runLoop_total _ _
    (fun s => LevelInv n capacity side start goal idx s ∧ s.variant ≤ st.variant) _
    MatchState.variant ?_ fuel st ⟨h, Nat.le_refl _⟩ hfuel
  rintro s ⟨hs, hle⟩
  rcases levelRound_spec hs with hstop | ⟨s', hagain, hs', hlt⟩
  · exact .inl ⟨s, hstop, hs, hle⟩
  · exact .inr ⟨s', hagain, ⟨hs', by omega⟩, hlt⟩

/-- Nothing is left to sweep. -/
def MatchState.Swept (st : MatchState) (goal : Book.Matched) : Prop :=
  goal = ⟨st.engine.book, st.event.trades, st.event.reports, st.order.quantity⟩

theorem MatchState.Swept.eq (h : st.Swept goal) :
    goal = ⟨st.engine.book, st.event.trades, st.event.reports, st.order.quantity⟩ := h

theorem MatchState.Swept.book (h : st.Swept goal) : goal.book = st.engine.book :=
  congrArg Book.Matched.book h.eq

theorem MatchState.Swept.trades (h : st.Swept goal) : goal.trades = st.event.trades :=
  congrArg Book.Matched.trades h.eq

theorem MatchState.Swept.left (h : st.Swept goal) : goal.left = st.order.quantity :=
  congrArg Book.Matched.left h.eq

theorem swept_of_matched (h : Matching n capacity side start goal st L)
    (hnone : st.engine.book.matched st.order st.order.quantity =
      ⟨st.engine.book, [], [], st.order.quantity⟩) : st.Swept goal := by
  rw [MatchState.Swept, ← h.outcome, MatchState.outcome, hnone]
  simp only [List.append_nil]

/-- A level that the scan finds. -/
theorem Matching.level (h : Matching n capacity side start goal st L)
    (hbest : PriceLadder.findBest side.opposite (st.engine.ladder side.opposite) = some idx) :
    ∃ p ps, L.queue side.opposite idx = p :: ps ∧
      Best (L.queue side.opposite) side.opposite n idx ∧
      (st.engine.ladder side.opposite).indexToPrice idx = idx := by
  obtain ⟨hne, hb⟩ := (h.rep.ladder side.opposite).findBest_some hbest
  obtain ⟨p, ps, hq⟩ := List.exists_cons_of_ne_nil hne
  exact ⟨p, ps, hq, hb, (h.rep.ladder side.opposite).ticks.indexToPrice idx⟩

/-- One round of the outer loop; only an order that crosses goes round again. -/
theorem matchRound_spec (h : Matching n capacity side start goal st L) :
    (matchRound (matcher side) st = some (.stop st) ∧ st.Swept goal) ∨
    (st.engine.book.crossing st.order ≠ [] ∧
      ∃ st' L', matchRound (matcher side) st = some (.again st') ∧
        Matching n capacity side start goal st' L' ∧ st'.variant < st.variant) := by
  by_cases hpos : st.order.quantity > 0
  · cases hbest : PriceLadder.findBest side.opposite (st.engine.ladder side.opposite) with
    | none =>
        have hempty : st.engine.book.side st.order.side.opposite = [] := by
          rw [h.side_eq, h.rep.book_side, Layout.slots, List.map_eq_nil_iff,
            List.flatMap_eq_nil_iff]
          exact fun j _ => (h.rep.ladder side.opposite).findBest_none hbest j
        refine .inl ⟨?_, swept_of_matched h (Book.matched_empty hempty)⟩
        simp only [matchRound, if_pos hpos, matcher_findBest, matcher_restingSide, hbest]
    | some idx =>
        obtain ⟨p, ps, hq, hb, hprice⟩ := h.level hbest
        obtain ⟨rest, -, hbook, -⟩ := h.front hb hq
        have hp : p ∈ L.queue side.opposite idx := by rw [hq]; exact List.mem_cons_self ..
        by_cases hcross : st.order.crosses idx = true
        · -- the level is not empty, so the inner loop makes a first round
          have hfirst : levelRound (matcher side) idx st =
              some (.again (fillFront (matcher side) idx p st)) := by
            rw [levelRound_eq h, hq]
            exact if_pos hpos
          obtain ⟨L', hm', hb', hcross', hlt⟩ := fillFront_spec h hb hq hpos hcross
          obtain ⟨fuel, hfuel⟩ : ∃ fuel, st.engine.loopFuel = fuel + 1 := ⟨_, rfl⟩
          have hvar := h.variant_lt
          obtain ⟨st', hloop, ⟨L'', hm'', -, -⟩, hle⟩ :=
            levelLoop_spec ⟨L', hm', hb', hcross'⟩ (show _ < fuel by omega)
          refine .inr ⟨?_, st', L'', ?_, hm'', by omega⟩
          · have he : st.order.crosses (st.engine.entry p).price = true := by
              show st.order.crosses (st.engine.heap p).price = true
              rw [(h.rep.live hp).price]
              exact hcross
            exact Book.crossing_ne_nil (h.side_eq ▸ hbook) he
          have hrun : runLoop (levelRound (matcher side) idx) st.engine.loopFuel st = some st' := by
            rw [hfuel, runLoop_again hfirst]
            exact hloop
          simp only [matchRound, if_pos hpos, matcher_findBest, matcher_restingSide, hbest,
            matcher_orderCrosses h.side_eq, hprice, hcross, if_true, hrun]
        · have hno : st.order.crosses (st.engine.entry p).price = false := by
            show st.order.crosses (st.engine.heap p).price = false
            rw [(h.rep.live hp).price]
            exact Bool.eq_false_iff.mpr hcross
          refine .inl ⟨?_, swept_of_matched h (Book.matched_uncrossed (h.side_eq ▸ hbook) hno)⟩
          simp only [matchRound, if_pos hpos, matcher_findBest, matcher_restingSide, hbest,
            matcher_orderCrosses h.side_eq, hprice, hcross, if_false, Bool.false_eq_true]
  · refine .inl ⟨?_, swept_of_matched h (Book.matched_done (by omega))⟩
    simp only [matchRound, if_neg hpos]

/-- The outer loop ends in a state with nothing left to sweep. -/
theorem matchLoop_spec (h : Matching n capacity side start goal st L) :
    ∃ st', matchLoop (matcher side) st = some st' ∧
      (∃ L', Matching n capacity side start goal st' L') ∧ st'.Swept goal := by
  refine @runLoop_total _ _ (fun s => ∃ L', Matching n capacity side start goal s L') _
    MatchState.variant ?_ _ st ⟨L, h⟩ h.variant_lt
  rintro s ⟨L', hs⟩
  rcases matchRound_spec hs with ⟨hstop, hswept⟩ | ⟨-, s', L'', hagain, hs', hlt⟩
  · exact .inl ⟨s, hstop, ⟨L', hs⟩, hswept⟩
  · exact .inr ⟨s', hagain, ⟨L'', hs'⟩, hlt⟩

end Rounds

/-- A call starts in a sound loop state. -/
theorem Matching.init {self : MatchingEngine} {n capacity : Nat} {L : Layout}
    {order : IncomingOrder} (h : self.Settled n capacity L) (hpos : 0 ≤ order.quantity) :
    Matching n capacity order.side L (self.book.matched order order.quantity)
      ⟨self, order, {}⟩ L :=
  ⟨h, rfl, hpos, rfl, fun _ => List.suffix_refl _, rfl, rfl⟩

/-- The matching half of `process_order` computes the sweep of the book. -/
theorem matchOrder_spec {self : MatchingEngine} {n capacity : Nat} {L : Layout}
    {order : IncomingOrder} (h : self.Settled n capacity L) (hpos : 0 ≤ order.quantity) :
    ∃ st L', self.matchOrder order = some st ∧
      Matching n capacity order.side L (self.book.matched order order.quantity) st L' ∧
      st.Swept (self.book.matched order order.quantity) := by
  obtain ⟨st, hloop, ⟨L', hm⟩, hswept⟩ := matchLoop_spec (Matching.init h hpos)
  exact ⟨st, L', by rw [matchOrder_eq]; exact hloop, hm, hswept⟩

/-- An order that crosses nothing leaves everything as it is. -/
theorem matchOrder_idle {self : MatchingEngine} {n capacity : Nat} {L : Layout}
    {order : IncomingOrder} (h : self.Settled n capacity L) (hpos : 0 ≤ order.quantity)
    (hidle : self.book.crossing order = []) :
    self.matchOrder order = some ⟨self, order, {}⟩ := by
  rw [matchOrder_eq]
  rcases matchRound_spec (Matching.init h hpos) with ⟨hstop, -⟩ | ⟨hcross, -⟩
  · exact runLoop_stop hstop
  · exact absurd hidle hcross

end MatchingEngine

end LimitOrderBook
