/-
  LimitOrderBook.Priority

  Price-time priority over whole runs.

  `stamps` gives every resting order the number of the call that submitted it.
  Along a run every queue is in the order of its stamps (`Stamped`), because a
  call only takes orders out of the queues and appends its own.  `TradesAt` is
  the state inside a call in which a trade is generated: there the maker is at
  the front of the level that the bitset scan found, so no order of its side
  comes before it.
-/
import LimitOrderBook.Runs

namespace LimitOrderBook

open Lib MatchingEngine

/-- The order as it was submitted. -/
def Order.submitted (o : Order) : IncomingOrder :=
  { id := o.id, side := o.side, type := o.type, price := o.price, quantity := o.quantity,
    timestamp := o.timestamp }

namespace MatchingEngine

-- ============================================================================
-- A call rewrites no submitted order
-- ============================================================================

section Submitted

variable {self : MatchingEngine} {order : IncomingOrder} {M : Matcher} {idx : Nat} {p r : Slot}
  {st st' : MatchState}

/-- What a round of the inner loop can do. -/
theorem levelRound_inv {r : Round MatchState} (h : levelRound M idx st = some r) :
    r = .stop st ∨
      ∃ p, ((st.engine.ladder M.restingSide).levelAt idx).front = some p ∧
        0 < st.order.quantity ∧ r = .again (fillFront M idx p st) := by
  simp only [levelRound] at h
  split at h
  · exact .inl (Option.some.inj h).symm
  · next p hp =>
      split at h
      · next hpos => exact .inr ⟨p, hp, hpos, (Option.some.inj h).symm⟩
      · exact .inl (Option.some.inj h).symm

/-- The outer loop is about to enter level `idx`. -/
structure Enters (M : Matcher) (st : MatchState) (idx : Nat) : Prop where
  left : 0 < st.order.quantity
  best : M.findBest (st.engine.ladder M.restingSide) = some idx
  crosses : M.orderCrosses st.order ((st.engine.ladder M.restingSide).indexToPrice idx) = true

/-- What a round of the outer loop can do. -/
theorem matchRound_inv {r : Round MatchState} (h : matchRound M st = some r) :
    r = .stop st ∨
      ∃ idx st', Enters M st idx ∧
        runLoop (levelRound M idx) st.engine.loopFuel st = some st' ∧ r = .again st' := by
  simp only [matchRound] at h
  split at h
  · next hpos =>
      split at h
      · exact .inl (Option.some.inj h).symm
      · next idx hbest =>
          split at h
          · next hcross =>
              split at h
              · exact absurd h (by simp)
              · next st' hloop =>
                  exact .inr ⟨idx, st', ⟨hpos, hbest, hcross⟩, hloop, (Option.some.inj h).symm⟩
          · exact .inl (Option.some.inj h).symm
  · exact .inl (Option.some.inj h).symm

theorem modifyOrder_submitted {f : Order → Order} (hf : ∀ o, (f o).submitted = o.submitted) :
    ((self.modifyOrder p f).heap r).submitted = (self.heap r).submitted :=
  Heap.modify_proj Order.submitted hf _ p r

theorem deallocate_submitted :
    ((self.deallocate p).heap r).submitted = (self.heap r).submitted :=
  Heap.modify_proj Order.submitted (by intro o; rfl) _ p r

theorem removeFromLevel_submitted {side : Side} :
    ((self.removeFromLevel side idx p).heap r).submitted = (self.heap r).submitted :=
  Order.proj_eq Order.submitted (fun _ => rfl) (PriceLevelList.remove_core ..)

theorem pushToLevel_submitted {side : Side} :
    ((self.pushToLevel side idx p).heap r).submitted = (self.heap r).submitted :=
  Order.proj_eq Order.submitted (fun _ => rfl) (PriceLevelList.pushBack_core ..)

theorem fillFront_submitted : ((fillFront M idx p st).engine.heap r).submitted =
    (st.engine.heap r).submitted := by
  dsimp only [fillFront]
  split
  · rw [deallocate_submitted, eraseId_heap, modifyOrder_submitted, markEmpty_heap,
      removeFromLevel_submitted, modifyOrder_submitted]
    · intro o
      rfl
    · intro o
      rfl
  · rw [modifyOrder_submitted, modifyOrder_submitted]
    · intro o
      rfl
    · intro o
      rfl

theorem levelVisits_submitted (h : Visits (levelRound M idx) st st') (r : Slot) :
    (st'.engine.heap r).submitted = (st.engine.heap r).submitted := by
  induction h with
  | start => rfl
  | round _ hb ih =>
      rcases levelRound_inv hb with hstop | ⟨p, -, -, hagain⟩
      · exact absurd hstop (by simp)
      · obtain rfl := Round.again.inj hagain
        rw [fillFront_submitted, ih]

/-- The inner loop returns in a state that it visits. -/
theorem levelLoop_visits {fuel : Nat} (h : runLoop (levelRound M idx) fuel st = some st') :
    Visits (levelRound M idx) st st' := by
  obtain ⟨u, hvisits, hstop⟩ := runLoop_visits h
  rcases levelRound_inv hstop with hu | ⟨p, -, -, hagain⟩
  · obtain rfl := Round.stop.inj hu
    exact hvisits
  · exact absurd hagain (by simp)

theorem matchVisits_submitted (h : Visits (matchRound M) st st') (r : Slot) :
    (st'.engine.heap r).submitted = (st.engine.heap r).submitted := by
  induction h with
  | start => rfl
  | round _ hb ih =>
      rcases matchRound_inv hb with hstop | ⟨idx, u, -, hloop, hagain⟩
      · exact absurd hstop (by simp)
      · obtain rfl := Round.again.inj hagain
        rw [levelVisits_submitted (levelLoop_visits hloop), ih]

/-- The outer loop returns in a state that it visits. -/
theorem matchLoop_visits (h : matchLoop M st = some st') : Visits (matchRound M) st st' := by
  obtain ⟨u, hvisits, hstop⟩ := runLoop_visits h
  rcases matchRound_inv hstop with hu | ⟨idx, v, -, -, hagain⟩
  · obtain rfl := Round.stop.inj hu
    exact hvisits
  · exact absurd hagain (by simp)

theorem matchOrder_visits (h : self.matchOrder order = some st) :
    Visits (matchRound (matcher order.side)) ⟨self, order, {}⟩ st := by
  rw [matchOrder_eq] at h
  exact matchLoop_visits h

theorem insertOrder_submitted :
    ((self.insertOrder p).heap r).submitted = (self.heap r).submitted := by
  dsimp only [insertOrder]
  split
  · apply modifyOrder_submitted
    intro o
    rfl
  · rw [assignId_heap, markOccupied_heap, pushToLevel_submitted]

theorem cancelOrder_submitted (id : OrderID) :
    ((self.cancelOrder id).1.heap r).submitted = (self.heap r).submitted := by
  dsimp only [cancelOrder]
  split
  · rfl
  · next p _ =>
      rw [deallocate_submitted]
      dsimp only [removeOrderFromBook]
      split
      · rfl
      · rw [eraseId_heap, markEmpty_heap, removeFromLevel_submitted]

/-- The resting path writes the order into the slot that it is given. -/
theorem restOrder_submitted {left : Int} {pool : OrderPool}
    (h : self.pool.allocate = some (p, pool)) :
    ((self.restOrder order left .resting).1.heap r).submitted =
      if r = p then order else (self.heap r).submitted := by
  have hpool : (pool.pool r).submitted = (self.heap r).submitted := by
    unfold OrderPool.allocate at h
    split at h
    · exact absurd h (by simp)
    · obtain ⟨-, rfl⟩ := Prod.mk.inj (Option.some.inj h)
      exact Heap.modify_proj Order.submitted (by intro o; rfl) _ _ r
  simp only [restOrder, h]
  rw [assignId_heap, insertOrder_submitted, modifyOrder_heap]
  by_cases hr : r = p
  · rw [if_pos hr, hr, Heap.modify_self]
    rfl
  · rw [if_neg hr, Heap.modify_of_ne hr]
    exact hpool

/-- A call writes its order into the slot `newSlotOf`, and rewrites no other. -/
theorem step_submitted {c : Command} {after : MatchingEngine} {event : MatchEvent}
    (h : self.step c = some (after, event)) (r : Slot) :
    (self.newSlotOf c = some r → c = .processOrder (after.heap r).submitted) ∧
      (self.newSlotOf c ≠ some r → (after.heap r).submitted = (self.heap r).submitted) := by
  cases c with
  | cancelOrder id =>
      obtain ⟨rfl, -⟩ := Prod.mk.inj (Option.some.inj h)
      exact ⟨fun hnew => absurd hnew (by simp [newSlotOf]), fun _ => cancelOrder_submitted id⟩
  | processOrder order =>
      have hcall : self.processOrder order = some (after, event) := h
      show (self.newSlot order = some r → _) ∧ (self.newSlot order ≠ some r → _)
      cases hv : validateOrder order with
      | false =>
          rw [processOrder_invalid hv, Option.some.injEq, Prod.mk.injEq] at hcall
          obtain ⟨rfl, -⟩ := hcall
          rw [newSlot_invalid hv]
          exact ⟨fun hnew => absurd hnew (by simp), fun _ => rfl⟩
      | true =>
          cases hmatch : self.matchOrder order with
          | none =>
              simp [processOrder, hv, hmatch] at hcall
          | some st =>
              have hkept := fun r => matchVisits_submitted (matchOrder_visits hmatch) r
              rw [newSlot_eq hv hmatch]
              by_cases hrest : st.order.quantity ≠ 0 ∧ order.type = .limit
              · rw [processOrder_rest hv hmatch hrest.1 hrest.2, Option.some.injEq,
                  Prod.mk.injEq] at hcall
                obtain ⟨rfl, -⟩ := hcall
                rw [if_pos hrest]
                cases halloc : st.engine.pool.allocate with
                | none =>
                    simp only [restOrder, halloc, Option.map_none]
                    exact ⟨fun hnew => absurd hnew (by simp), fun _ => hkept r⟩
                | some got =>
                    obtain ⟨p, pool⟩ := got
                    rw [restOrder_submitted halloc, Option.map_some, Option.some.injEq]
                    constructor
                    · rintro rfl
                      rw [if_pos rfl]
                    · intro hne
                      rw [if_neg fun hr => hne (congrArg some hr.symm)]
                      exact hkept r
              · rw [processOrder_done hv hmatch (by tauto), Option.some.injEq,
                  Prod.mk.injEq] at hcall
                obtain ⟨rfl, -⟩ := hcall
                rw [if_neg hrest]
                exact ⟨fun hnew => absurd hnew (by simp), fun _ => hkept r⟩

end Submitted

-- ============================================================================
-- The moment of a trade
-- ============================================================================

/-- The call is about to trade against the order in slot `p`: the inner loop is at
    level `idx`, with `p` at its front. -/
structure TradesAt (engine : MatchingEngine) (order : IncomingOrder) (st : MatchState)
    (idx : Nat) (p : Slot) : Prop where
  level : ∃ entry, Visits (matchRound (matcher order.side)) ⟨engine, order, {}⟩ entry ∧
    Enters (matcher order.side) entry idx ∧ Visits (levelRound (matcher order.side) idx) entry st
  front : ((st.engine.ladder order.side.opposite).levelAt idx).front = some p
  left : 0 < st.order.quantity

/-- The trade of that moment. -/
def tradeAt (side : Side) (st : MatchState) (p : Slot) : Trade :=
  (matcher side).trade st.order (st.engine.heap p)
    (min st.order.quantity (st.engine.heap p).remaining)

/-- Every trade so far was generated at some moment of the call. -/
def Generated (self : MatchingEngine) (order : IncomingOrder) (st : MatchState) : Prop :=
  ∀ old t new, st.event.trades = old ++ t :: new →
    ∃ st' idx p, self.TradesAt order st' idx p ∧ st'.event.trades = old ∧
      t = tradeAt order.side st' p

section Generated

variable {self after : MatchingEngine} {order : IncomingOrder} {idx : Nat} {p : Slot}
  {st entry : MatchState} {event : MatchEvent}

theorem fillFront_trades (M : Matcher) : (fillFront M idx p st).event.trades =
    st.event.trades ++ [M.trade st.order (st.engine.heap p)
      (min st.order.quantity (st.engine.heap p).remaining)] := by
  dsimp only [fillFront]
  split <;> rfl

theorem Generated.level (henters : Enters (matcher order.side) entry idx)
    (hentry : Visits (matchRound (matcher order.side)) ⟨self, order, {}⟩ entry)
    (hvisits : Visits (levelRound (matcher order.side) idx) entry st)
    (h : self.Generated order entry) : self.Generated order st := by
  induction hvisits with
  | start => exact h
  | @round t u ht hb ih =>
      rcases levelRound_inv hb with hstop | ⟨p, hfront, hleft, hagain⟩
      · exact absurd hstop (by simp)
      · obtain rfl := Round.again.inj hagain
        intro old trade new hsplit
        rw [fillFront_trades] at hsplit
        rcases split_snoc hsplit with ⟨rfl, rfl, -⟩ | ⟨new', hold, -⟩
        · -- the trade of this round
          refine ⟨t, idx, p, ⟨⟨entry, hentry, henters, ht⟩, ?_, hleft⟩, rfl, rfl⟩
          rwa [matcher_restingSide] at hfront
        · exact ih old trade new' hold

theorem Generated.visits (h : Visits (matchRound (matcher order.side)) ⟨self, order, {}⟩ st) :
    self.Generated order st := by
  induction h with
  | start =>
      intro old t new hsplit
      exact absurd hsplit (by simp)
  | @round t u ht hb ih =>
      rcases matchRound_inv hb with hstop | ⟨idx, v, henters, hloop, hagain⟩
      · exact absurd hstop (by simp)
      · obtain rfl := Round.again.inj hagain
        exact ih.level henters ht (levelLoop_visits hloop)

/-- The trades of a call are those of its matching. -/
theorem processOrder_trades (h : self.processOrder order = some (after, event)) :
    event.trades = [] ∨ validateOrder order = true ∧
      ∃ st, self.matchOrder order = some st ∧ event.trades = st.event.trades := by
  cases hv : validateOrder order with
  | false =>
      rw [processOrder_invalid hv, Option.some.injEq, Prod.mk.injEq] at h
      exact .inl (by rw [← h.2])
  | true =>
      simp only [processOrder, hv, Bool.not_true, Bool.false_eq_true, if_false] at h
      split at h
      · exact absurd h (by simp)
      · next st hmatch =>
          simp only [Option.some.injEq, Prod.mk.injEq] at h
          exact .inr ⟨rfl, st, hmatch, by rw [← h.2]⟩

/-- Every trade of an event was generated at some moment of the call. -/
theorem step_generated {c : Command} (h : self.step c = some (after, event))
    {old new : List Trade} {t : Trade} (hsplit : event.trades = old ++ t :: new) :
    ∃ order st idx p, c = .processOrder order ∧ validateOrder order = true ∧
      self.TradesAt order st idx p ∧ st.event.trades = old ∧ t = tradeAt order.side st p := by
  cases c with
  | cancelOrder id =>
      have hnone : event.trades = [] := by
        obtain ⟨-, rfl⟩ := Prod.mk.inj (Option.some.inj h)
        dsimp only [cancelOrder]
        split <;> rfl
      rw [hnone] at hsplit
      exact absurd hsplit (by simp)
  | processOrder order =>
      rcases processOrder_trades h with hnone | ⟨hv, st, hmatch, htrades⟩
      · rw [hnone] at hsplit
        exact absurd hsplit (by simp)
      · rw [htrades] at hsplit
        obtain ⟨st', idx, p, hmoment, hold, ht⟩ :=
          Generated.visits (matchOrder_visits hmatch) old t new hsplit
        exact ⟨order, st', idx, p, rfl, hv, hmoment, hold, ht⟩

end Generated

-- ============================================================================
-- The maker of a trade comes first
-- ============================================================================

/-- No other order of the side has a better price than the one in slot `p`, or the
    same price and an earlier stamp. -/
def First (stamp : Slot → Nat) (engine : MatchingEngine) (side : Side) (p : Slot) : Prop :=
  ∀ i, ∀ r ∈ engine.levelSlots side i, r ≠ p →
    ¬ side.better (engine.heap r).price (engine.heap p).price ∧
      ((engine.heap r).price = (engine.heap p).price → stamp p < stamp r)

section First

variable {self : MatchingEngine} {n capacity : Nat} {L : Layout} {order : IncomingOrder}
  {idx : Nat} {p : Slot} {st : MatchState} {stamp : Slot → Nat}

/-- The outer loop's invariant holds whenever it starts a round. -/
theorem Matching.visits {side : Side} {start : Layout} {goal : Book.Matched}
    {st st' : MatchState} (h : Matching n capacity side start goal st L)
    (hvisits : Visits (matchRound (matcher side)) st st') :
    ∃ L', Matching n capacity side start goal st' L' := by
  refine @Visits.invariant _ _ (fun s => ∃ L', Matching n capacity side start goal s L') _ _ ?_
    ⟨L, h⟩ hvisits
  rintro u v ⟨L', hu⟩ hagain
  rcases matchRound_spec hu with ⟨hstop, -⟩ | ⟨-, v', L'', hagain', hv, -⟩
  · exact absurd (hstop.symm.trans hagain) (by simp)
  · obtain rfl := Round.again.inj (Option.some.inj (hagain'.symm.trans hagain))
    exact ⟨L'', hv⟩

/-- So does the inner loop's. -/
theorem LevelInv.visits {side : Side} {start : Layout} {goal : Book.Matched}
    {st st' : MatchState} (h : LevelInv n capacity side start goal idx st)
    (hvisits : Visits (levelRound (matcher side) idx) st st') :
    LevelInv n capacity side start goal idx st' := by
  refine @Visits.invariant _ _ (LevelInv n capacity side start goal idx) _ _ ?_ h hvisits
  intro u v hu hagain
  rcases levelRound_spec hu with hstop | ⟨v', hagain', hv, -⟩
  · exact absurd (hstop.symm.trans hagain) (by simp)
  · obtain rfl := Round.again.inj (Option.some.inj (hagain'.symm.trans hagain))
    exact hv

/-- A level that the outer loop enters heads its side and crosses. -/
theorem Matching.enters {side : Side} {start : Layout} {goal : Book.Matched}
    (h : Matching n capacity side start goal st L) (henters : Enters (matcher side) st idx) :
    L.queue side.opposite idx ≠ [] ∧ LevelInv n capacity side start goal idx st := by
  have hfound := henters.best
  rw [matcher_findBest, matcher_restingSide] at hfound
  obtain ⟨p, ps, hq, hbest, hprice⟩ := h.level hfound
  have hcross := henters.crosses
  rw [matcher_restingSide, hprice, matcher_orderCrosses h.side_eq] at hcross
  exact ⟨by rw [hq]; exact List.cons_ne_nil _ _, L, h, hbest, hcross⟩

theorem TradesAt.levelInv (h : self.Settled n capacity L) (hpos : 0 ≤ order.quantity)
    (ht : self.TradesAt order st idx p) :
    LevelInv n capacity order.side L (self.book.matched order order.quantity) idx st := by
  obtain ⟨entry, hvisits, henters, hinner⟩ := ht.level
  obtain ⟨L', hm⟩ := Matching.visits (Matching.init h hpos) hvisits
  obtain ⟨-, hinv⟩ := hm.enters henters
  exact hinv.visits hinner

theorem TradesAt.submitted (ht : self.TradesAt order st idx p) (r : Slot) :
    (st.engine.heap r).submitted = (self.heap r).submitted := by
  obtain ⟨entry, hvisits, -, hinner⟩ := ht.level
  rw [levelVisits_submitted hinner, matchVisits_submitted hvisits]

/-- The levels of the resting side have only lost orders from their fronts. -/
theorem TradesAt.suffix (h : self.Settled n capacity L) (hpos : 0 ≤ order.quantity)
    (ht : self.TradesAt order st idx p) (i : Nat) :
    st.engine.levelSlots order.side.opposite i <:+ self.levelSlots order.side.opposite i := by
  obtain ⟨L', hm, -⟩ := ht.levelInv h hpos
  rw [hm.rep.levelSlots_eq, h.rep.levelSlots_eq]
  exact hm.opposite i

theorem TradesAt.first (h : self.Settled n capacity L) (hpos : 0 ≤ order.quantity)
    (ht : self.TradesAt order st idx p)
    (hsorted : ∀ i, (self.levelSlots order.side.opposite i).Pairwise
      fun p r => stamp p < stamp r) :
    First stamp st.engine order.side.opposite p := by
  obtain ⟨L', hm, hbest, -⟩ := ht.levelInv h hpos
  obtain ⟨ps, hq⟩ : ∃ ps, L'.queue order.side.opposite idx = p :: ps := by
    have hhead := ((hm.rep.ladder order.side.opposite).list idx).head
    exact List.head?_eq_some_iff.mp (hhead.symm.trans ht.front)
  have hp : p ∈ L'.queue order.side.opposite idx := by rw [hq]; exact List.mem_cons_self ..
  intro i r hr hne
  rw [hm.rep.levelSlots_eq] at hr
  rw [(hm.rep.live hr).price, (hm.rep.live hp).price]
  by_cases hi : i = idx
  · subst hi
    refine ⟨by cases order.side <;> simp [Side.better, Side.opposite], fun _ => ?_⟩
    have hqueue := (hsorted i).sublist (ht.suffix h hpos i).sublist
    rw [hm.rep.levelSlots_eq, hq] at hqueue
    rw [hq] at hr
    exact (List.pairwise_cons.mp hqueue).1 r ((List.mem_cons.mp hr).resolve_left hne)
  · have hworse := hbest.better (hm.rep.lt_of_mem hr) (List.ne_nil_of_mem hr) hi
    refine ⟨?_, fun heq => absurd (Int.ofNat_inj.mp heq) hi⟩
    revert hworse
    cases order.side <;> simp only [Side.better, Side.opposite] <;> omega

end First

-- ============================================================================
-- The numbers of the submissions
-- ============================================================================

/-- Number the slot that a call writes its order into. -/
def mark (self : MatchingEngine) (k : Nat) (stamp : Slot → Nat) (c : Command) : Slot → Nat :=
  match self.newSlotOf c with
  | none => stamp
  | some p => Function.update stamp p k

/-- For every slot the number of the last call that wrote its order into it. -/
def stampsFrom (self : MatchingEngine) (k : Nat) (stamp : Slot → Nat) : List Command → Slot → Nat
  | [] => stamp
  | c :: cs =>
      match self.step c with
      | none => stamp
      | some (engine, _) => engine.stampsFrom (k + 1) (self.mark k stamp c) cs

def stamps (self : MatchingEngine) (cs : List Command) : Slot → Nat :=
  self.stampsFrom 0 (fun _ => 0) cs

section Stamps

variable {self engine after : MatchingEngine} {n capacity k : Nat} {stamp : Slot → Nat}
  {cs : List Command} {c : Command} {events : List MatchEvent} {event : MatchEvent}

theorem mark_self {p : Slot} (h : engine.newSlotOf c = some p) : engine.mark k stamp c p = k := by
  simp [mark, h]

theorem mark_of_ne {p : Slot} (h : engine.newSlotOf c ≠ some p) :
    engine.mark k stamp c p = stamp p := by
  cases hq : engine.newSlotOf c with
  | none => simp only [mark, hq]
  | some q =>
      have hne : p ≠ q := fun heq => h (heq ▸ hq)
      simp only [mark, hq, Function.update_of_ne hne]

theorem stampsFrom_snoc (hrun : self.run cs = some (engine, events))
    (hstep : engine.step c = some (after, event)) :
    self.stampsFrom k stamp (cs ++ [c]) =
      engine.mark (k + cs.length) (self.stampsFrom k stamp cs) c := by
  induction cs generalizing self k stamp events with
  | nil =>
      obtain ⟨rfl, -⟩ := Prod.mk.inj (Option.some.inj hrun)
      simp only [List.nil_append, stampsFrom, hstep, List.length_nil, Nat.add_zero]
  | cons d cs ih =>
      obtain ⟨t, out, outs, hd, hrest, -⟩ := exec_cons_inv hrun
      simp only [List.cons_append, stampsFrom, hd, List.length_cons]
      rw [ih hrest, Nat.add_assoc, Nat.add_comm 1]

/-- The stamps of an engine after the calls `cs`: every queue is in their order,
    and the stamp of an order is the number of the call that submitted it. -/
structure Stamped (cs : List Command) (stamp : Slot → Nat) (engine : MatchingEngine) : Prop where
  sorted : ∀ side i, (engine.levelSlots side i).Pairwise fun p r => stamp p < stamp r
  submitted : ∀ side i, ∀ p ∈ engine.levelSlots side i,
    cs[stamp p]? = some (.processOrder (engine.heap p).submitted)

/-- What a call does to the queues: the orders that stay keep their places, and a
    new order goes behind them. -/
def KeepsPlaces (engine : MatchingEngine) (c : Command) (after : MatchingEngine) : Prop :=
  ∀ side i, ∃ kept, kept.Sublist (engine.levelSlots side i) ∧
    (∀ p ∈ kept, (after.heap p).submitted = (engine.heap p).submitted) ∧
    (after.levelSlots side i = kept ∨
      ∃ p, c = .processOrder (after.heap p).submitted ∧ after.levelSlots side i = kept ++ [p])

theorem Call.queues (h : Call n capacity engine c event after) (side : Side) (i : Nat) :
    ∃ kept, kept.Sublist (engine.levelSlots side i) ∧
      (∀ p ∈ kept, engine.newSlotOf c ≠ some p) ∧
      (after.levelSlots side i = kept ∨
        ∃ p, engine.newSlotOf c = some p ∧ after.levelSlots side i = kept ++ [p]) := by
  obtain ⟨L, L', hs, hs', hev⟩ := h.sound
  obtain ⟨kept, hsub, hfresh, hqueue⟩ := hev side i
  rw [hs.levelSlots_eq, hs'.levelSlots_eq]
  exact ⟨kept, hsub, fun p hp hnew => hfresh p hnew hp, hqueue⟩

theorem Call.keepsPlaces (h : Call n capacity engine c event after) :
    engine.KeepsPlaces c after := by
  intro side i
  obtain ⟨kept, hsub, hfresh, hqueue⟩ := h.queues side i
  refine ⟨kept, hsub, fun p hp => (step_submitted h.step p).2 (hfresh p hp), ?_⟩
  rcases hqueue with heq | ⟨p, hnew, heq⟩
  · exact .inl heq
  · exact .inr ⟨p, (step_submitted h.step p).1 hnew, heq⟩

/-- A call keeps the queues in the order of their stamps. -/
theorem Stamped.step (h : Stamped cs stamp engine) (hcall : Call n capacity engine c event after) :
    Stamped (cs ++ [c]) (engine.mark cs.length stamp c) after := by
  have hlt : ∀ side i, ∀ p ∈ engine.levelSlots side i, stamp p < cs.length := by
    intro side i p hp
    exact (List.getElem?_eq_some_iff.mp (h.submitted side i p hp)).1
  constructor
  · intro side i
    obtain ⟨kept, hsub, hfresh, hqueue⟩ := hcall.queues side i
    have hkept : kept.Pairwise fun p r =>
        engine.mark cs.length stamp c p < engine.mark cs.length stamp c r := by
      refine ((h.sorted side i).sublist hsub).imp_of_mem fun hp hr hpr => ?_
      rwa [mark_of_ne (hfresh _ hp), mark_of_ne (hfresh _ hr)]
    rcases hqueue with heq | ⟨p, hp, heq⟩
    · rw [heq]
      exact hkept
    · rw [heq, List.pairwise_append]
      refine ⟨hkept, List.pairwise_singleton .., fun r hr q hq => ?_⟩
      obtain rfl := List.mem_singleton.mp hq
      rw [mark_of_ne (hfresh r hr), mark_self hp]
      exact hlt side i r (hsub.subset hr)
  · intro side i
    obtain ⟨kept, hsub, hfresh, hqueue⟩ := hcall.queues side i
    have hkept : ∀ p ∈ kept, (cs ++ [c])[engine.mark cs.length stamp c p]? =
        some (.processOrder (after.heap p).submitted) := by
      intro p hp
      have hin := hsub.subset hp
      rw [mark_of_ne (hfresh p hp), (step_submitted hcall.step p).2 (hfresh p hp),
        List.getElem?_append_left (hlt side i p hin)]
      exact h.submitted side i p hin
    rcases hqueue with heq | ⟨p, hp, heq⟩
    · rw [heq]
      exact hkept
    · intro r hr
      rw [heq, List.mem_append, List.mem_singleton] at hr
      rcases hr with hr | rfl
      · exact hkept r hr
      · rw [mark_self hp, List.getElem?_concat_length, Option.some.injEq]
        exact (step_submitted hcall.step r).1 hp

end Stamps

end MatchingEngine

namespace Config

variable (config : Config)

/-- Along a run the queues are in the order of the submissions. -/
theorem calls_stamped {cs : List Command} {events : List MatchEvent} {engine : MatchingEngine}
    (h : Trace (Call config.levels config.poolCapacity) config.engine cs events engine) :
    Stamped cs (config.engine.stamps cs) engine := by
  induction h with
  | nil =>
      have hnone : ∀ side i, config.engine.levelSlots side i = [] := by
        intro side i
        rw [config.engine_sound.levelSlots_eq]
        rfl
      constructor
      · intro side i
        rw [hnone]
        exact List.Pairwise.nil
      · intro side i p hp
        rw [hnone] at hp
        exact absurd hp (by simp)
  | @snoc cs events engine after c event htrace hcall ih =>
      have hrun : config.engine.run cs = some (engine, events) :=
        htrace.exec fun _ _ _ _ hc => hc.step
      rw [stamps, stampsFrom_snoc hrun hcall.step, Nat.zero_add]
      exact ih.step hcall

end Config

/-- Price-time priority: when a call after a run trades with a resting order, no
    other order on its side has a better price, or the same price and an earlier
    submission; and a call keeps the orders that stay in their places. -/
theorem run_priority (config : Config) (cs : List Command) (c : Command)
    (h : ∀ d ∈ cs ++ [c], d.LimitBelow config.maxLevels) :
    ∃ engine events after event, config.engine.run cs = some (engine, events) ∧
      engine.step c = some (after, event) ∧
      Stamped cs (config.engine.stamps cs) engine ∧
      (∀ old t new, event.trades = old ++ t :: new → ∃ order st idx p,
        c = .processOrder order ∧ engine.TradesAt order st idx p ∧ st.event.trades = old ∧
        t = tradeAt order.side st p ∧
        First (config.engine.stamps cs) st.engine order.side.opposite p ∧
        ∀ i, ∀ r ∈ st.engine.levelSlots order.side.opposite i,
          cs[config.engine.stamps cs r]? = some (.processOrder (st.engine.heap r).submitted)) ∧
      engine.KeepsPlaces c after := by
  obtain ⟨engine, events, hrun, ⟨L, hs⟩, htrace⟩ :=
    config.run_calls fun d hd => h d (List.mem_append_left _ hd)
  have hc : c.LimitBelow config.levels := by
    rw [config.levels_eq]
    exact h c (by simp)
  obtain ⟨after, event, L', hstep, hs', hbook, hev⟩ := step_spec hs hc
  have hstamped := config.calls_stamped htrace
  refine ⟨engine, events, after, event, hrun, hstep, hstamped, ?_,
    Call.keepsPlaces ⟨hstep, hbook, L, L', hs, hs', hev⟩⟩
  intro old t new hsplit
  obtain ⟨order, st, idx, p, hcall, hv, hmoment, hold, ht⟩ := step_generated hstep hsplit
  have hpos := Int.le_of_lt (validateOrder_pos hv).1
  refine ⟨order, st, idx, p, hcall, hmoment, hold, ht, ?_, fun i r hr => ?_⟩
  · exact hmoment.first hs.settled hpos fun i => hstamped.sorted order.side.opposite i
  · rw [hmoment.submitted r]
    exact hstamped.submitted order.side.opposite i r
      ((hmoment.suffix hs.settled hpos i).subset hr)

/-- The sample run trades with its first two orders in turn. -/
theorem sample_priority : ∃ engine events after event,
    Config.small.engine.run (sampleCommands.take 3) = some (engine, events) ∧
      engine.step (.processOrder (makeOrder 4 .buy 5 35)) = some (after, event) ∧
      Stamped (sampleCommands.take 3) (Config.small.engine.stamps (sampleCommands.take 3))
        engine ∧
      (∀ old t new, event.trades = old ++ t :: new → ∃ order st idx p,
        Command.processOrder (makeOrder 4 .buy 5 35) = .processOrder order ∧
        engine.TradesAt order st idx p ∧ st.event.trades = old ∧
        t = tradeAt order.side st p ∧
        First (Config.small.engine.stamps (sampleCommands.take 3)) st.engine
          order.side.opposite p ∧
        ∀ i, ∀ r ∈ st.engine.levelSlots order.side.opposite i,
          (sampleCommands.take 3)[Config.small.engine.stamps (sampleCommands.take 3) r]? =
            some (.processOrder (st.engine.heap r).submitted)) ∧
      engine.KeepsPlaces (.processOrder (makeOrder 4 .buy 5 35)) after :=
  run_priority Config.small (sampleCommands.take 3) (.processOrder (makeOrder 4 .buy 5 35))
    (by decide)

end LimitOrderBook
