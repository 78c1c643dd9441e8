/-
  LimitOrderBook.ReferenceMemory

  What the reference engine keeps in memory, for any history.

  Its map holds pointers into the lists of the levels, and matching erases list nodes.
  No history of calls leaves a pointer to an erased node, so every run returns.  A
  cancelled order stays in its list until matching walks over it: such dead nodes are
  never more than the cancels that found their order, and all nodes together never more
  than the orders that were reported as resting.
-/
import LimitOrderBook.ReferenceInvariants

namespace LimitOrderBook

open Lib MatchingEngine

/-- The orders that were reported as resting. -/
def rested (events : List MatchEvent) : Nat :=
  (events.flatMap MatchEvent.reports).countP fun r => r.status = .resting

/-- The call is a cancel that found its order. -/
def cancels (call : Command × MatchEvent) : Bool :=
  match call.1 with
  | .processOrder _ => false
  | .cancelOrder _ => !call.2.reports.isEmpty

def RefNode.dead (x : RefNode) : Bool := !x.live

namespace ReferenceEngine

/-- All nodes of both sides. -/
def nodes (self : ReferenceEngine) : List RefNode := nodesOf self.bids ++ nodesOf self.asks

/-- The nodes of cancelled orders. -/
def dead (self : ReferenceEngine) : Nat := self.nodes.countP RefNode.dead

/-- Every entry of the map leads to a node with a live order of its id. -/
def PointersValid (self : ReferenceEngine) : Prop :=
  ∀ id a, self.orderMap.lookup id = some a →
    ∃ x, self.deref a = some x ∧ x.order.id = id ∧ x.live = true ∧ 0 < x.order.remaining

-- ============================================================================
-- Dead nodes
-- ============================================================================

section Dead

variable {self : ReferenceEngine} {order : IncomingOrder} {side : Side} {levels : RefLevels}
  {level : List RefNode} {st : RefMatchState} {M : RefMatcher}

/-- The inner loop makes no dead nodes. -/
theorem matchLevel_dead : (matchLevel M level st).1.countP RefNode.dead ≤
    level.countP RefNode.dead := by
  induction level generalizing st with
  | nil => exact Nat.le_refl _
  | cons x rest ih =>
      have hrest : rest.countP RefNode.dead ≤ (x :: rest).countP RefNode.dead :=
        (List.sublist_cons_self x rest).countP_le
      by_cases hpos : st.order.quantity > 0
      · cases hlive : x.live with
        | false =>
            rw [matchLevel, if_pos hpos, hlive]
            exact ih.trans hrest
        | true =>
            by_cases hz : x.order.remaining - min st.order.quantity x.order.remaining = 0
            · simp only [matchLevel, if_pos hpos, hlive, Bool.not_true, Bool.false_eq_true,
                if_false, if_pos hz]
              exact ih.trans hrest
            · -- a maker that outlasts the order stays live
              simp only [matchLevel, if_pos hpos, hlive, Bool.not_true, Bool.false_eq_true,
                if_false, if_neg hz]
              rw [List.countP_cons_of_neg (by exact Bool.false_ne_true)]
              exact ih.trans hrest
      · rw [matchLevel, if_neg hpos]

theorem nodesOf_cons (l : Int × List RefNode) (levels : RefLevels) :
    nodesOf (l :: levels) = l.2 ++ nodesOf levels := List.flatMap_cons ..

/-- Nor does the outer loop. -/
theorem matchLevels_dead : (nodesOf (matchLevels M levels st).1).countP RefNode.dead ≤
    (nodesOf levels).countP RefNode.dead := by
  induction levels generalizing st with
  | nil => exact Nat.le_refl _
  | cons l rest ih =>
      obtain ⟨price, level⟩ := l
      rw [matchLevels]
      split
      · split
        · have hlevel := @matchLevel_dead level st M
          have hrest := @ih (matchLevel M level st).2
          simp only
          split
          · rw [nodesOf_cons, List.countP_append]
            omega
          · rw [nodesOf_cons, nodesOf_cons, List.countP_append, List.countP_append]
            exact Nat.add_le_add hlevel hrest
        · exact Nat.le_refl _
      · exact Nat.le_refl _

/-- The dead nodes side by side. -/
theorem dead_eq (self : ReferenceEngine) (side : Side) : self.dead =
    (nodesOf (self.levels side)).countP RefNode.dead +
      (nodesOf (self.levels side.opposite)).countP RefNode.dead := by
  rw [dead, nodes, List.countP_append]
  cases side
  · rfl
  · exact Nat.add_comm ..

theorem insertOrder_dead (self : ReferenceEngine) (order : IncomingOrder) (left : Int) :
    (self.insertOrder (restingOrder order left)).dead = self.dead := by
  have hlevels := insertOrder_levels self (restingOrder order left)
  have hside : (restingOrder order left).side = order.side := rfl
  rw [hside] at hlevels
  rw [dead_eq _ order.side, dead_eq self order.side, hlevels, Function.update_self,
    Function.update_of_ne order.side.opposite_ne,
    (pushToLevels_nodes order.side _ _ _).countP_eq, List.countP_cons_of_neg]
  exact Bool.false_ne_true

/-- Matching only erases dead nodes. -/
theorem processOrder_dead (h : self.Wellformed) (order : IncomingOrder) :
    (self.processOrder order).1.dead ≤ self.dead := by
  by_cases hv : order.quantity ≤ 0 ∨ order.id = 0
  · rw [processOrder_refused hv]
  · obtain ⟨engine, left, -, -, -, hlevels, -, heq⟩ := processOrder_accepted h hv
    have hengine : engine.dead ≤ self.dead := by
      rw [dead_eq engine order.side, dead_eq self order.side, hlevels, Function.update_self,
        Function.update_of_ne order.side.opposite_ne.symm]
      exact Nat.add_le_add_left matchLevels_dead _
    rw [heq]
    split
    · rw [insertOrder_dead]
      exact hengine
    · exact hengine

end Dead

-- ============================================================================
-- One call
-- ============================================================================

section Calls

variable {self engine : ReferenceEngine} {order : IncomingOrder} {id : OrderID} {c : Command}
  {event : MatchEvent}

theorem rested_append (events events' : List MatchEvent) :
    rested (events ++ events') = rested events + rested events' := by
  rw [rested, List.flatMap_append, List.countP_append]
  rfl

theorem matchOrder_nextAddress (self : ReferenceEngine) (order : IncomingOrder) :
    (self.matchOrder order).1.nextAddress = self.nextAddress := by
  rw [matchOrder_eq, runMatcher]
  cases (refMatcher order.side).restingSide <;> rfl

/-- A call hands out one address for an order that it reports as resting. -/
theorem processOrder_rested (h : self.Wellformed) (order : IncomingOrder) :
    (self.processOrder order).1.nextAddress =
      self.nextAddress + rested [(self.processOrder order).2] := by
  by_cases hv : order.quantity ≤ 0 ∨ order.id = 0
  · rw [processOrder, if_pos hv]
    rfl
  · obtain ⟨engine, hmatch, -, -⟩ := matchOrder_spec h order
    have hle := @Book.matched_left_le _ order _ (book_positive h) (by omega : 0 ≤ order.quantity)
    have hnext := matchOrder_nextAddress self order
    rw [hmatch] at hnext
    have hmakers : (self.book.matched order order.quantity).reports.countP
        (fun r => r.status = .resting) = 0 := by
      rw [List.countP_eq_zero]
      intro r hr
      obtain ⟨e, -, rfl⟩ := List.mem_map.mp hr
      exact Bool.false_ne_true
    rw [processOrder_eq hv hmatch hle, rested, List.flatMap_singleton, List.countP_append, hmakers,
      Nat.zero_add]
    by_cases hz : (self.book.matched order order.quantity).left = 0
    · rw [if_neg fun hc => hc.1 hz, if_pos hz]
      exact hnext
    · by_cases hl : order.type = .limit
      · rw [if_pos ⟨hz, hl⟩, if_neg hz, if_pos hl]
        show engine.nextAddress + 1 = _
        rw [show engine.nextAddress = self.nextAddress from hnext]
        rfl
      · rw [if_neg fun hc => hl hc.2, if_neg hz, if_neg hl]
        exact hnext

/-- A status is written to one node. -/
theorem setStatus_dead {a : Nat} {l : List RefNode} (hnodup : (l.map RefNode.address).Nodup) :
    (l.map (RefNode.setStatus a .cancelled)).countP RefNode.dead ≤ l.countP RefNode.dead + 1 := by
  induction l with
  | nil => exact Nat.zero_le _
  | cons y l ih =>
      obtain ⟨hnot, hnodup'⟩ := List.nodup_cons.mp hnodup
      rw [List.map_cons, List.countP_cons, List.countP_cons]
      by_cases hy : y.address = a
      · have hrest : l.map (RefNode.setStatus a .cancelled) = l := by
          refine (List.map_congr_left fun z hz => ?_).trans (List.map_id' l)
          refine if_neg fun hza => hnot ?_
          rw [hy, ← hza]
          exact List.mem_map_of_mem hz
        rw [hrest]
        split <;> omega
      · rw [RefNode.setStatus, if_neg hy]
        have hl := ih hnodup'
        omega

/-- A cancel that finds its order leaves one more dead node. -/
theorem cancelOrder_memory (h : self.Wellformed)
    (hcall : self.cancelOrder id = some (engine, event)) :
    engine.dead ≤ self.dead + (if cancels (.cancelOrder id, event) then 1 else 0) ∧
      engine.nextAddress = self.nextAddress + rested [event] := by
  rw [cancelOrder] at hcall
  cases hlook : self.orderMap.lookup id with
  | none =>
      simp only [hlook, Option.some.injEq, Prod.mk.injEq] at hcall
      obtain ⟨rfl, rfl⟩ := hcall
      exact ⟨Nat.le_add_right .., rfl⟩
  | some a =>
      cases hderef : self.deref a with
      | none =>
          simp only [hlook, hderef] at hcall
          exact absurd hcall.symm (Option.some_ne_none _)
      | some x =>
          simp only [hlook, hderef, Option.some.injEq, Prod.mk.injEq] at hcall
          obtain ⟨rfl, rfl⟩ := hcall
          have hnodes : (self.setStatus a .cancelled).nodes =
              self.nodes.map (RefNode.setStatus a .cancelled) := by
            rw [nodes, nodes, List.map_append, ← nodesOf_setStatusIn, ← nodesOf_setStatusIn]
            rfl
          refine ⟨?_, rfl⟩
          show (self.setStatus a .cancelled).nodes.countP RefNode.dead ≤
            self.nodes.countP RefNode.dead + 1
          rw [hnodes]
          exact setStatus_dead h.nodup

/-- What one call does to the memory. -/
theorem step_memory (h : self.Wellformed) (hstep : self.step c = some (engine, event)) :
    engine.dead ≤ self.dead + (if cancels (c, event) then 1 else 0) ∧
      engine.nextAddress = self.nextAddress + rested [event] := by
  cases c with
  | cancelOrder id => exact cancelOrder_memory h hstep
  | processOrder order =>
      obtain ⟨rfl, rfl⟩ := Prod.mk.inj (Option.some.inj hstep)
      exact ⟨processOrder_dead h order, processOrder_rested h order⟩

/-- The invariant leaves no pointer to an erased node. -/
theorem Wellformed.pointersValid (h : self.Wellformed) : self.PointersValid := by
  intro id a hlook
  obtain ⟨side, x, hx, rfl, hid⟩ := h.map id a hlook
  have hmem := mem_of_live hx
  obtain ⟨l, hl, hxl⟩ := List.mem_flatMap.mp hmem
  exact ⟨x, deref_eq h.nodup hmem, hid, (List.mem_filter.mp hx).2, (h.placed side l hl x hxl).pos⟩

/-- There are no more nodes than addresses. -/
theorem Wellformed.nodes_length (h : self.Wellformed) : self.nodes.length ≤ self.nextAddress := by
  have hsub := (List.subperm_of_subset h.nodup fun a ha =>
    List.mem_range.mpr (h.fresh a ha)).length_le
  rw [List.length_range, addresses, List.length_map] at hsub
  exact hsub

end Calls

-- ============================================================================
-- Runs
-- ============================================================================

/-- After any history the pointers are valid, and the nodes are accounted for. -/
structure MemoryBounded (engine : ReferenceEngine) (cs : List Command)
    (events : List MatchEvent) : Prop where
  pointers : engine.PointersValid
  dead : engine.dead ≤ (cs.zip events).countP cancels
  nodes : engine.nodes.length ≤ rested events

/-- Every history of calls returns: no pointer to an erased node is ever followed.  The
    map leads to live orders of their ids, each dead node is that of a cancel that found
    its order, and each node that of an order that was reported as resting. -/
theorem run_memory (cs : List Command) :
    ∃ engine events, ({} : ReferenceEngine).run cs = some (engine, events) ∧
      engine.MemoryBounded cs events := by
  obtain ⟨engine, events, hrun, hwf, -, hdead, hnext⟩ := @exec_along_history _ _ _ step
    (fun pre events s => s.Wellformed ∧ pre.length = events.length ∧
      s.dead ≤ (pre.zip events).countP cancels ∧ s.nextAddress = rested events)
    (fun _ _ => True) {} cs ⟨wellformed_empty, rfl, Nat.le_refl _, rfl⟩
    (by
      rintro pre c post - events s ⟨hwf, hlength, hdead, hnext⟩ -
      obtain ⟨s', event, hstep, hwf'⟩ := step_wellformed hwf c
      obtain ⟨hdead', hnext'⟩ := step_memory hwf hstep
      refine ⟨s', event, hstep, hwf', ?_, ?_, ?_⟩
      · rw [List.length_append, List.length_append, hlength]
        rfl
      · rw [List.zip_append hlength, List.countP_append]
        show s'.dead ≤ _ + [(c, event)].countP cancels
        rw [List.countP_singleton]
        omega
      · rw [rested_append, hnext', hnext])
    (fun _ _ _ _ _ _ _ => trivial)
  refine ⟨engine, events, hrun, hwf.pointersValid, hdead, ?_⟩
  rw [← hnext]
  exact hwf.nodes_length

end ReferenceEngine

end LimitOrderBook
