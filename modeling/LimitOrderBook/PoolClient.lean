/-
  LimitOrderBook.PoolClient

  The engine keeps its side of the pool's contract.

  `PoolUse` is the pool under any client that gives back only slots that it holds and
  does not write `pool_index`.  The engine is such a client: each of its calls is a run
  of pool calls, and what it holds between calls are the slots that are linked in the
  ladders.  So whatever holds of the pool under every client holds in the engine, and
  the slots that a run uses are the first ones, as many as were linked at once.
-/
import LimitOrderBook.PoolPeak
import LimitOrderBook.PoolExhaustion
import LimitOrderBook.Priority
import Mathlib.Data.List.ReduceOption

namespace LimitOrderBook

open Lib MatchingEngine

-- ============================================================================
-- Writes
-- ============================================================================

/-- Writing all fields of a slot but its `pool_index`. -/
theorem Heap.modify_fields (heap : Heap) (p : Slot) {f : Order → Order}
    (hf : ∀ o, (f o).poolIndex = o.poolIndex) :
    (heap.modify p fun o => { f (heap p) with poolIndex := o.poolIndex }) = heap.modify p f := by
  funext r
  by_cases hr : r = p
  · rw [hr, Heap.modify_self, Heap.modify_self, ← hf]
  · rw [Heap.modify_of_ne hr, Heap.modify_of_ne hr]

/-- The heap after some writes that leave every `pool_index` alone. -/
inductive Heap.Written (heap : Heap) : Heap → Prop where
  | refl : heap.Written heap
  | modify {heap' : Heap} (p : Slot) (f : Order → Order) : heap.Written heap' →
      (∀ o, (f o).poolIndex = o.poolIndex) → heap.Written (heap'.modify p f)

theorem Heap.Written.trans {heap heap' heap'' : Heap} (h : heap.Written heap')
    (h' : heap'.Written heap'') : heap.Written heap'' := by
  induction h' with
  | refl => exact h
  | modify p f _ hf ih => exact ih.modify p f hf

theorem PriceLevelList.pushBack_written (level : PriceLevelList) (heap : Heap) (p : Slot) :
    heap.Written (level.pushBack heap p).2 := by
  have hself := @Heap.Written.modify heap heap p
    (fun o => { o with prev := level.tail, next := none }) .refl (fun _ => rfl)
  dsimp only [pushBack]
  split
  · next t _ => exact hself.modify t (fun o => { o with next := some p }) fun _ => rfl
  · exact hself

theorem PriceLevelList.remove_written (level : PriceLevelList) (heap : Heap) (p : Slot) :
    heap.Written (level.remove heap p).2 := by
  have hprev : ∀ h : Heap, heap.Written h → ∀ z link,
      heap.Written (h.modify z fun o => { o with prev := link }) :=
    fun h hw z link => hw.modify z (fun o => { o with prev := link }) fun _ => rfl
  have hnext : ∀ y link, heap.Written (heap.modify y fun o => { o with next := link }) :=
    fun y link => Heap.Written.refl.modify y (fun o => { o with next := link }) fun _ => rfl
  have hself : ∀ h : Heap, heap.Written h →
      heap.Written (h.modify p fun o => { o with prev := none, next := none }) :=
    fun h hw => hw.modify p (fun o => { o with prev := none, next := none }) fun _ => rfl
  unfold remove
  cases (heap p).prev with
  | none =>
      refine hself _ ?_
      split
      · exact hprev _ .refl _ _
      · exact .refl
  | some y =>
      refine hself _ ?_
      split
      · exact hprev _ (hnext y _) _ _
      · exact hnext y _

-- ============================================================================
-- Pool calls
-- ============================================================================

namespace PoolUse

/-- Calls from the constructor lead to `s`; they have handed out `slots`, in this order. -/
def Reached (capacity : Nat) (s : PoolUse) (slots : List Slot) (mark : Nat) : Prop :=
  ∃ calls answers, Served capacity calls s answers mark ∧ answers.reduceOption = slots

section

variable {capacity mark : Nat} {pool : OrderPool} {held slots allocated free : List Slot} {p : Slot}

theorem Reached.start (hpos : 0 < capacity) :
    Reached capacity ⟨OrderPool.fresh capacity, []⟩ [] 0 :=
  ⟨[], [], Served.start hpos, rfl⟩

theorem Reached.mem_iff {s : PoolUse} (h : Reached capacity s slots mark) :
    p ∈ slots ↔ p < mark := by
  obtain ⟨calls, answers, hserved, rfl⟩ := h
  rw [List.reduceOption_mem_iff, hserved.answers]

theorem Reached.length_le (h : Reached capacity ⟨pool, held⟩ slots mark) : held.length ≤ mark := by
  obtain ⟨calls, answers, hserved, -⟩ := h
  obtain ⟨recycled, hmarked⟩ := hserved.marked
  exact Nat.le.intro hmarked.length

/-- The mark does not fall. -/
theorem Reached.mark_le {s t : PoolUse} {slots' : List Slot} {mark' : Nat}
    (h : Reached capacity s slots mark) (h' : Reached capacity t slots' mark')
    (hsub : slots ⊆ slots') : mark ≤ mark' := by
  by_contra hlt
  have hmem := hsub (h.mem_iff.mpr (Nat.lt_of_not_le hlt))
  exact Nat.lt_irrefl mark' (h'.mem_iff.mp hmem)

/-- The freelist tells which slots the client holds. -/
theorem Reached.perm (h : Reached capacity ⟨pool, held⟩ slots mark)
    (hrep : PoolRep pool capacity allocated free) : held.Perm allocated := by
  obtain ⟨calls, answers, hserved, -⟩ := h
  obtain ⟨recycled, hmarked⟩ := hserved.marked
  have hfree := hmarked.rep.chain.unique hrep.chain
  have hslots := hmarked.rep.slots.trans hrep.slots.symm
  rw [hfree] at hslots
  exact (List.perm_append_right_iff free).mp hslots

/-- A call without an answer leaves the mark where it is. -/
theorem Reached.silent (h : Reached capacity ⟨pool, held⟩ slots mark) {c : PoolCall} {t : PoolUse}
    (hstep : step ⟨pool, held⟩ c = some (t, none)) : Reached capacity t slots mark := by
  obtain ⟨calls, answers, hserved, rfl⟩ := h
  obtain ⟨mark', hserved', hraises⟩ := hserved.snoc hstep
  cases hraises with
  | stays _ _ _ =>
      refine ⟨_, _, hserved', ?_⟩
      rw [List.reduceOption_append, List.reduceOption_singleton]
      exact List.append_nil _

theorem Reached.write {heap : Heap} (h : Reached capacity ⟨pool, held⟩ slots mark)
    (hw : pool.pool.Written heap) :
    Reached capacity ⟨{ pool with pool := heap }, held⟩ slots mark := by
  induction hw with
  | refl => exact h
  | @modify heap p f _ hf ih =>
      have hstep := @Reached.silent _ _ _ _ _ ih (.write p (f (heap p))) _ rfl
      rwa [Heap.modify_fields heap p hf] at hstep

theorem Reached.deallocate (h : Reached capacity ⟨pool, held⟩ slots mark) (hp : p ∈ held) :
    Reached capacity ⟨pool.deallocate p, held.erase p⟩ slots mark := by
  refine @Reached.silent _ _ _ _ _ h (.deallocate p) _ ?_
  rw [step, if_pos hp]

theorem Reached.allocate {pool' : OrderPool} (h : Reached capacity ⟨pool, held⟩ slots mark)
    (hallocate : pool.allocate = some (p, pool')) :
    ∃ mark', Reached capacity ⟨pool', p :: held⟩ (slots ++ [p]) mark' ∧
      (mark' = mark ∨ mark' = held.length + 1) := by
  obtain ⟨calls, answers, hserved, rfl⟩ := h
  have hstep : step ⟨pool, held⟩ .allocate = some (⟨pool', p :: held⟩, some p) := by
    rw [step, hallocate]
  obtain ⟨mark', hserved', hraises⟩ := hserved.snoc hstep
  refine ⟨mark', ⟨_, _, hserved', ?_⟩, ?_⟩
  · rw [List.reduceOption_append, List.reduceOption_singleton]
    rfl
  · cases hraises with
    | stays _ _ _ => exact .inl rfl
    | rises hlength => exact .inr hlength.symm

end

end PoolUse

theorem Config.engine_pool (config : Config) :
    config.engine.pool = OrderPool.fresh config.poolCapacity := by
  have hmake := config.make_eq
  simp only [MatchingEngine.make, OrderPool.make_eq config.capacity_pos config.capacity_lt,
    Option.bind_eq_bind, Option.bind_some, Option.bind_eq_some_iff, Option.pure_def,
    Option.some.injEq] at hmake
  obtain ⟨bids, -, asks, -, hengine⟩ := hmake
  rw [← hengine]

-- ============================================================================
-- What the engine does with the pool
-- ============================================================================

namespace MatchingEngine

/-- The engine writes to its orders, and neither takes nor gives back a slot. -/
structure Writes (before after : MatchingEngine) : Prop where
  written : before.heap.Written after.heap
  pool_eq : after.pool = { before.pool with pool := after.heap }

section

variable {self engine engine' : MatchingEngine} {p : Slot} {f : Order → Order}

theorem Writes.refl (self : MatchingEngine) : self.Writes self := ⟨.refl, rfl⟩

theorem Writes.trans (h : self.Writes engine) (h' : engine.Writes engine') :
    self.Writes engine' :=
  ⟨h.written.trans h'.written, by rw [h'.pool_eq, h.pool_eq]⟩

/-- What is not in the pool does not matter. -/
theorem Writes.of_pool (h : engine.pool = self.pool) : self.Writes engine := by
  have hheap : engine.heap = self.heap := congrArg OrderPool.pool h
  exact ⟨hheap ▸ .refl, by rw [hheap, h]; rfl⟩

theorem writes_modifyOrder (self : MatchingEngine) (p : Slot)
    (hf : ∀ o, (f o).poolIndex = o.poolIndex) : self.Writes (self.modifyOrder p f) :=
  ⟨Heap.Written.refl.modify p f hf, rfl⟩

theorem writes_pushToLevel (self : MatchingEngine) (side : Side) (idx : Nat) (p : Slot) :
    self.Writes (self.pushToLevel side idx p) :=
  ⟨PriceLevelList.pushBack_written .., pushToLevel_pool ..⟩

theorem writes_removeFromLevel (self : MatchingEngine) (side : Side) (idx : Nat) (p : Slot) :
    self.Writes (self.removeFromLevel side idx p) :=
  ⟨PriceLevelList.remove_written .., removeFromLevel_pool ..⟩

theorem writes_insertOrder (self : MatchingEngine) (p : Slot) :
    self.Writes (self.insertOrder p) := by
  dsimp only [insertOrder]
  split
  · exact writes_modifyOrder self p fun _ => rfl
  · exact (writes_pushToLevel ..).trans (.of_pool (markOccupied_pool ..))

theorem writes_removeOrderFromBook (self : MatchingEngine) (p : Slot) :
    self.Writes (self.removeOrderFromBook p) := by
  dsimp only [removeOrderFromBook]
  split
  · exact .refl self
  · exact (writes_removeFromLevel ..).trans (.of_pool (markEmpty_pool ..))

end

section

variable {capacity mark idx : Nat} {self engine : MatchingEngine} {held slots : List Slot}
  {M : Matcher} {st : MatchState} {p : Slot}

theorem Writes.reached (h : PoolUse.Reached capacity ⟨self.pool, held⟩ slots mark)
    (hw : self.Writes engine) : PoolUse.Reached capacity ⟨engine.pool, held⟩ slots mark := by
  rw [hw.pool_eq]
  exact h.write hw.written

/-- A round of the inner loop writes to the front order, and gives its slot back when it
    is filled. -/
theorem fillFront_reached (h : PoolUse.Reached capacity ⟨st.engine.pool, held⟩ slots mark)
    (hp : p ∈ held) :
    ∃ held', PoolUse.Reached capacity ⟨(fillFront M idx p st).engine.pool, held'⟩ slots mark := by
  dsimp only [fillFront]
  split
  · refine ⟨held.erase p, PoolUse.Reached.deallocate (Writes.reached h ?_) hp⟩
    refine Writes.trans ?_ (.of_pool (eraseId_pool ..))
    refine Writes.trans ?_ (writes_modifyOrder _ p fun o => ?_)
    · refine Writes.trans ?_ (.of_pool (markEmpty_pool ..))
      refine Writes.trans ?_ (writes_removeFromLevel ..)
      exact writes_modifyOrder _ p fun _ => rfl
    · rfl
  · refine ⟨held, Writes.reached h ?_⟩
    refine Writes.trans ?_ (writes_modifyOrder _ p fun o => ?_)
    · exact writes_modifyOrder _ p fun _ => rfl
    · rfl

/-- The engine's pool after calls that have handed out `slots`. -/
def ReachedPool (self : MatchingEngine) (capacity : Nat) (slots : List Slot) (mark : Nat) : Prop :=
  ∃ held, PoolUse.Reached capacity ⟨self.pool, held⟩ slots mark

variable {n : Nat} {L start : Layout} {goal : Book.Matched} {side : Side} {st' : MatchState}

theorem Rep.queue_allocated (h : self.Rep n capacity L) (hp : p ∈ L.queue side idx) :
    p ∈ L.allocated n :=
  Layout.mem_allocated.mpr (.inr ⟨side, h.mem_slots_iff.mpr ⟨idx, hp⟩⟩)

theorem levelVisits_reached (h : LevelInv n capacity side start goal idx st)
    (hvisits : Visits (levelRound (matcher side) idx) st st')
    (hstart : st.engine.ReachedPool capacity slots mark) :
    st'.engine.ReachedPool capacity slots mark := by
  induction hvisits with
  | start => exact hstart
  | @round t u ht hb ih =>
      rcases levelRound_inv hb with hstop | ⟨p, hfront, -, hagain⟩
      · exact absurd hstop (by simp)
      · obtain rfl := Round.again.inj hagain
        obtain ⟨held, hreached⟩ := ih
        obtain ⟨L', hm, -, -⟩ := h.visits ht
        rw [matcher_restingSide] at hfront
        have hhead := ((hm.rep.ladder side.opposite).list idx).head
        have hp := List.mem_of_mem_head? (hhead.symm.trans hfront)
        exact fillFront_reached hreached
          ((hreached.perm hm.rep.pool).mem_iff.mpr (hm.rep.queue_allocated hp))

/-- Matching takes no slot. -/
theorem matchVisits_reached (h : Matching n capacity side start goal st L)
    (hvisits : Visits (matchRound (matcher side)) st st')
    (hstart : st.engine.ReachedPool capacity slots mark) :
    st'.engine.ReachedPool capacity slots mark := by
  induction hvisits with
  | start => exact hstart
  | @round t u ht hb ih =>
      rcases matchRound_inv hb with hstop | ⟨idx, v, henters, hloop, hagain⟩
      · exact absurd hstop (by simp)
      · obtain rfl := Round.again.inj hagain
        obtain ⟨L', hm⟩ := h.visits ht
        exact levelVisits_reached (hm.enters henters).2 (levelLoop_visits hloop) ih

/-- The resting path takes one slot and writes the order into it. -/
theorem restOrder_reached {order : IncomingOrder} {left : Int} {status : OrderStatus}
    {pool : OrderPool} (h : PoolUse.Reached capacity ⟨self.pool, held⟩ slots mark)
    (hallocate : self.pool.allocate = some (p, pool)) :
    ∃ mark', PoolUse.Reached capacity ⟨(self.restOrder order left status).1.pool, p :: held⟩
        (slots ++ [p]) mark' ∧ (mark' = mark ∨ mark' = (p :: held).length) := by
  obtain ⟨mark', hreached, hmark⟩ := h.allocate hallocate
  refine ⟨mark', ?_, hmark⟩
  have hwrites : Writes { self with pool } (self.restOrder order left status).1 := by
    simp only [restOrder, hallocate]
    refine Writes.trans ?_ (.of_pool (assignId_pool ..))
    refine Writes.trans ?_ (writes_insertOrder ..)
    exact writes_modifyOrder _ p fun _ => rfl
  exact Writes.reached hreached hwrites

theorem processOrder_reached (h : self.Sound n capacity L) {order : IncomingOrder}
    {event : MatchEvent} (hcall : self.processOrder order = some (engine, event))
    (hreached : PoolUse.Reached capacity ⟨self.pool, held⟩ slots mark) :
    ∃ held' mark', PoolUse.Reached capacity ⟨engine.pool, held'⟩
        (slots ++ (self.newSlot order).toList) mark' ∧ (mark' = mark ∨ mark' = held'.length) := by
  cases hv : validateOrder order with
  | false =>
      rw [processOrder_invalid hv, Option.some.injEq, Prod.mk.injEq] at hcall
      obtain ⟨rfl, -⟩ := hcall
      rw [newSlot_invalid hv, Option.toList_none, List.append_nil]
      exact ⟨held, mark, hreached, .inl rfl⟩
  | true =>
      cases hmatch : self.matchOrder order with
      | none => simp [processOrder, hv, hmatch] at hcall
      | some st =>
          have hpos := Int.le_of_lt (validateOrder_pos hv).1
          obtain ⟨held', hmatched⟩ := matchVisits_reached (Matching.init h.settled hpos)
            (matchOrder_visits hmatch) ⟨held, hreached⟩
          rw [newSlot_eq hv hmatch]
          by_cases hrest : st.order.quantity ≠ 0 ∧ order.type = .limit
          · rw [processOrder_rest hv hmatch hrest.1 hrest.2, Option.some.injEq,
              Prod.mk.injEq] at hcall
            obtain ⟨rfl, -⟩ := hcall
            rw [if_pos hrest]
            cases hallocate : st.engine.pool.allocate with
            | none =>
                simp only [restOrder, hallocate, Option.map_none, Option.toList_none,
                  List.append_nil]
                exact ⟨held', mark, hmatched, .inl rfl⟩
            | some got =>
                obtain ⟨p, pool⟩ := got
                obtain ⟨mark', hrested, hmark⟩ := restOrder_reached hmatched hallocate
                exact ⟨_, mark', hrested, hmark⟩
          · rw [processOrder_done hv hmatch (by tauto), Option.some.injEq, Prod.mk.injEq] at hcall
            obtain ⟨rfl, -⟩ := hcall
            rw [if_neg hrest, Option.toList_none, List.append_nil]
            exact ⟨held', mark, hmatched, .inl rfl⟩

theorem cancelOrder_reached (h : self.Sound n capacity L) (id : OrderID)
    (hreached : PoolUse.Reached capacity ⟨self.pool, held⟩ slots mark) :
    (self.cancelOrder id).1.ReachedPool capacity slots mark := by
  dsimp only [cancelOrder]
  split
  · exact ⟨held, hreached⟩
  · next p hid =>
      have hp := (hreached.perm h.pool).mem_iff.mpr (h.map id p hid).2
      exact ⟨_, (Writes.reached hreached (writes_removeOrderFromBook ..)).deallocate hp⟩

/-- A call of the engine is a run of pool calls that hands out at most the slot that the
    call writes its order into. -/
theorem step_reached (h : self.Sound n capacity L) {c : Command} {event : MatchEvent}
    (hstep : self.step c = some (engine, event))
    (hreached : PoolUse.Reached capacity ⟨self.pool, held⟩ slots mark) :
    ∃ held' mark', PoolUse.Reached capacity ⟨engine.pool, held'⟩
        (slots ++ (self.newSlotOf c).toList) mark' ∧
      (mark' = mark ∨ mark' = held'.length) := by
  cases c with
  | processOrder order => exact processOrder_reached h hstep hreached
  | cancelOrder id =>
      obtain ⟨rfl, -⟩ := Prod.mk.inj (Option.some.inj hstep)
      obtain ⟨held', hcancelled⟩ := cancelOrder_reached h id hreached
      rw [newSlotOf, Option.toList_none, List.append_nil]
      exact ⟨held', mark, hcancelled, .inl rfl⟩

end

-- ============================================================================
-- Runs
-- ============================================================================

/-- The slots that the calls of a run write their orders into, in turn. -/
def newSlots (self : MatchingEngine) : List Command → List Slot
  | [] => []
  | c :: cs =>
      match self.step c with
      | none => []
      | some (engine, _) => (self.newSlotOf c).toList ++ engine.newSlots cs

section

variable {self engine after : MatchingEngine} {n capacity : Nat} {L : Layout} {cs : List Command}
  {c : Command} {events : List MatchEvent} {event : MatchEvent}

theorem newSlots_snoc (hrun : self.run cs = some (engine, events))
    (hstep : engine.step c = some (after, event)) :
    self.newSlots (cs ++ [c]) = self.newSlots cs ++ (engine.newSlotOf c).toList := by
  induction cs generalizing self events with
  | nil =>
      obtain ⟨rfl, -⟩ := Prod.mk.inj (Option.some.inj hrun)
      simp only [List.nil_append, newSlots, hstep, List.append_nil]
  | cons d cs ih =>
      obtain ⟨t, out, outs, hd, hrest, -⟩ := exec_cons_inv hrun
      simp only [List.cons_append, newSlots, hd]
      rw [ih hrest, List.append_assoc]

/-- What the engine holds between its calls are the linked slots. -/
theorem Sound.held_perm (h : self.Sound n capacity L) {held slots : List Slot} {mark : Nat}
    (hreached : PoolUse.Reached capacity ⟨self.pool, held⟩ slots mark) :
    held.Perm (self.sideSlots .buy ++ self.sideSlots .sell) := by
  rw [h.sideSlots_eq, h.sideSlots_eq]
  have hperm := hreached.perm h.pool
  rwa [Layout.allocated, h.held, List.nil_append] at hperm

theorem trace_reached (config : Config)
    (h : Trace (Call config.levels config.poolCapacity) config.engine cs events engine) :
    ∃ held mark, PoolUse.Reached config.poolCapacity ⟨engine.pool, held⟩
        (config.engine.newSlots cs) mark ∧
      held.Perm (engine.sideSlots .buy ++ engine.sideSlots .sell) ∧
      Peak step linked config.engine cs mark := by
  induction h with
  | nil =>
      have hreached := PoolUse.Reached.start config.capacity_pos
      rw [← config.engine_pool] at hreached
      have hempty : config.engine.linked = 0 := by
        rw [← book_size_eq, config.engine_book]
        rfl
      have hpeak := @Peak.start _ _ _ step linked config.engine
      rw [hempty] at hpeak
      exact ⟨[], 0, hreached, config.engine_sound.held_perm hreached, hpeak⟩
  | @snoc cs events engine after c event htrace hcall ih =>
      obtain ⟨held, mark, hreached, -, hpeak⟩ := ih
      obtain ⟨L, L', hs, hs', -⟩ := hcall.sound
      obtain ⟨held', mark', hreached', hmark⟩ := step_reached hs hcall.step hreached
      have hrun : config.engine.run cs = some (engine, events) :=
        htrace.exec fun _ _ _ _ hc => hc.step
      have hsnoc := exec_append hrun (exec_cons hcall.step (exec_nil after))
      have hheld := hs'.held_perm hreached'
      have hlinked : after.linked = held'.length := by
        rw [hheld.length_eq, List.length_append, linked]
      rw [← newSlots_snoc hrun hcall.step] at hreached'
      refine ⟨held', mark', hreached', hheld, hpeak.snoc hsnoc ?_ ?_ ?_⟩
      · refine hreached.mark_le hreached' ?_
        rw [newSlots_snoc hrun hcall.step]
        exact List.subset_append_left ..
      · rw [hlinked]
        exact hreached'.length_le
      · rw [hlinked]
        exact hmark

end

end MatchingEngine

/-- Every run on the ladder is a run of pool calls by a client that gives back only
    slots that it holds and does not write `pool_index`; between the calls it holds the
    linked slots.  The slots that orders are ever written into are the first ones, as many
    as were linked at once at the most. -/
theorem run_poolClient (config : Config) (cs : List Command)
    (h : ∀ c ∈ cs, c.LimitBelow config.maxLevels) :
    ∃ engine events peak, config.engine.run cs = some (engine, events) ∧
      (∃ calls answers held,
        exec PoolUse.step ⟨config.engine.pool, []⟩ calls =
          some (⟨engine.pool, held⟩, answers) ∧
        answers.reduceOption = config.engine.newSlots cs ∧
        held.Perm (engine.sideSlots .buy ++ engine.sideSlots .sell)) ∧
      Peak MatchingEngine.step linked config.engine cs peak ∧
      ∀ p, p ∈ config.engine.newSlots cs ↔ p < peak := by
  obtain ⟨engine, events, hrun, -, htrace⟩ := config.run_calls h
  obtain ⟨held, peak, hreached, hperm, hpeak⟩ := trace_reached config htrace
  refine ⟨engine, events, peak, hrun, ?_, hpeak, fun p => hreached.mem_iff⟩
  obtain ⟨calls, answers, hserved, hslots⟩ := hreached
  have hcalls := hserved.run
  rw [← config.engine_pool] at hcalls
  exact ⟨calls, answers, held, hcalls, hslots, hperm⟩

/-- Four orders of the sample run come to rest, in three slots. -/
theorem sample_poolClient : ∃ engine events peak,
    Config.small.engine.run sampleCommands = some (engine, events) ∧
      (∃ calls answers held,
        exec PoolUse.step ⟨Config.small.engine.pool, []⟩ calls =
          some (⟨engine.pool, held⟩, answers) ∧
        answers.reduceOption = Config.small.engine.newSlots sampleCommands ∧
        held.Perm (engine.sideSlots .buy ++ engine.sideSlots .sell)) ∧
      Peak MatchingEngine.step linked Config.small.engine sampleCommands peak ∧
      ∀ p, p ∈ Config.small.engine.newSlots sampleCommands ↔ p < peak :=
  run_poolClient Config.small sampleCommands (by decide)

end LimitOrderBook
