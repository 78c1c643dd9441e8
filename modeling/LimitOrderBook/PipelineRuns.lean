/-
  LimitOrderBook.PipelineRuns

  What holds in every run of the pipeline, however the threads interleave and
  whatever their loads see.

  The orders that the engine processes are the accepted ones in their order, each
  once, and their numbers grow, so the price levels are in the order of the
  numbers.  Nothing that is accepted can be stuck: the consumer alone can serve all
  of it.  When no submit fails the engine answers as on the gateway's direct path.
-/
import LimitOrderBook.Invariants
import LimitOrderBook.Pipeline
import LimitOrderBook.Priority

namespace LimitOrderBook

open Lib MatchingEngine SPSCQueue OrderGateway

variable {σ : Type*}

namespace Pipeline

-- ============================================================================
-- The history of a run
-- ============================================================================

/-- What the state of a run is, in terms of its outputs. -/
structure History (config : Config) (tradeCallback : Option (Trade → σ → σ)) (subscriber : σ)
    (s : Pipeline σ) (outputs : List Output) : Prop where
  queue : ∃ schedule, exec (weakStep capacity) WeakSystem.make schedule =
    some (s.queue, answers outputs)
  nextSequence : s.nextSequence = ((submitted outputs).length + 1) % 2 ^ 64
  /-- The producer has pushed, or is about to push, what it was given. -/
  items : (accepted outputs ++ s.queue.producer.item).Sublist (stamped (submitted outputs))
  engine : config.engine.run (commands outputs) = some (s.engine, events outputs)
  orders : orders (commands outputs) = consumed (answers outputs)
  trades : s.handler.recentTrades = (events outputs).flatMap MatchEvent.trades
  reports : s.handler.recentReports = (events outputs).flatMap MatchEvent.reports
  callback : s.handler.tradeCallback = tradeCallback
  subscriber : s.subscriber = ((events outputs).flatMap MatchEvent.trades).foldl
    (MarketDataHandler.notify tradeCallback) subscriber

section

variable {config : Config} {tradeCallback : Option (Trade → σ → σ)} {subscriber : σ}
  {s s' : Pipeline σ} {output : Output} {outputs : List Output} {actions : List Action}

theorem make_history :
    History config tradeCallback subscriber (config.pipeline tradeCallback subscriber) [] := by
  refine ⟨⟨[], rfl⟩, rfl, List.Sublist.refl _, ?_, rfl, rfl, rfl, rfl, rfl⟩
  simp only [Config.pipeline, commands, events, List.flatMap_nil, MatchingEngine.run, exec]

theorem History.step (h : History config tradeCallback subscriber s outputs)
    (he : Pipeline.Effect s s' output) :
    History config tradeCallback subscriber s' (outputs ++ [output]) := by
  obtain ⟨schedule, hrun⟩ := h.queue
  obtain ⟨more, hmore⟩ := he.queue
  refine ⟨⟨schedule ++ more, ?_⟩, ?_, ?_, ?_, ?_, ?_, ?_, he.calls.callback.trans h.callback, ?_⟩
  · rw [answers_snoc]
    exact exec_append hrun hmore
  · rw [submitted_snoc]
    rcases he.numbers with ⟨hnone, hsame, -⟩ | ⟨order, hsome, hnext, -⟩
    · rw [hnone, List.append_nil, hsame, h.nextSequence]
    · rw [hsome, hnext, h.nextSequence, addUInt64, Nat.mod_add_mod, List.length_append,
        List.length_singleton]
  · rw [submitted_snoc, accepted_snoc]
    rcases he.numbers with ⟨hnone, -, hitem⟩ | ⟨order, hsome, -, hidle, hpushed, hitem⟩
    · rw [hnone, List.append_nil, List.append_assoc]
      exact (List.Sublist.append_left hitem _).trans h.items
    · rw [hsome, hpushed, List.append_nil, hitem, stamped_snoc, h.nextSequence]
      have hitems := h.items
      rw [hidle, List.append_nil] at hitems
      exact hitems.append_right _
  · rw [commands_snoc, events_snoc]
    exact exec_append h.engine he.calls.engine
  · rw [commands_snoc, orders_append, h.orders, he.orders, answers_snoc, consumed, consumed,
      consumed, List.flatMap_append]
  · rw [events_snoc, List.flatMap_append, he.calls.trades, h.trades]
  · rw [events_snoc, List.flatMap_append, he.calls.reports, h.reports]
  · rw [events_snoc, List.flatMap_append, List.foldl_append, he.calls.subscriber, h.callback,
      h.subscriber]

theorem run_history
    (hrun : exec step (config.pipeline tradeCallback subscriber) actions = some (s, outputs)) :
    History config tradeCallback subscriber s outputs :=
  exec_history (fun _ _ _ _ _ h hstep => h.step (step_effect hstep)) make_history hrun

theorem History.accepted_sublist (h : History config tradeCallback subscriber s outputs) :
    (accepted outputs).Sublist (stamped (submitted outputs)) :=
  (List.sublist_append_left _ _).trans h.items

theorem History.accepted_le (h : History config tradeCallback subscriber s outputs) :
    (accepted outputs).length ≤ (submitted outputs).length := by
  rw [← stamped_length (submitted outputs)]
  exact h.accepted_sublist.length_le

theorem History.weak (h : History config tradeCallback subscriber s outputs)
    (hfew : (submitted outputs).length < 2 ^ 64) :
    WeakHistory capacity s.queue (answers outputs) := by
  obtain ⟨schedule, hrun⟩ := h.queue
  exact weakRun_history hrun (lt_of_le_of_lt h.accepted_le hfew)

/-- While the consumer serves the first order the second one is pushed; the third
    one is still in the queue. -/
def sampleActions : List Action :=
  [.submit (makeOrder 1 .sell 5 20) 0, .access .producer 0, .access .producer 0,
    .access .producer 0, .submit (makeOrder 2 .buy 5 15) 1, .access .tryPop 0,
    .access .producer 0, .access .consumer 1, .access .producer 0, .access .consumer 0,
    .access .producer 0, .access .consumer 0, .access .tryPop 1, .access .consumer 2,
    .access .consumer 0, .access .consumer 0, .cancel 1, .submit (makeOrder 3 .buy 4 7) 2,
    .access .producer 0, .access .producer 0, .access .producer 0]

/-- The subscriber adds up what is traded. -/
def countTraded : Option (Trade → Int → Int) := some fun trade total => total + trade.quantity

theorem sample_run : ∃ s outputs,
    exec step (Config.small.pipeline countTraded 0) sampleActions = some (s, outputs) ∧
      submitted outputs = [makeOrder 1 .sell 5 20, makeOrder 2 .buy 5 15, makeOrder 3 .buy 4 7] ∧
      (accepted outputs).length = 3 ∧ (orders (commands outputs)).length = 2 ∧
      s.subscriber = 15 ∧ s.queue.consumer = .idle := by
  have hmap : ((exec step (Config.small.pipeline countTraded 0) sampleActions).map fun r =>
      (submitted r.2, (accepted r.2).length, (orders (commands r.2)).length, r.1.subscriber,
        (weakStep capacity r.1.queue (.tryPop, 2)).isSome)) =
    some ([makeOrder 1 .sell 5 20, makeOrder 2 .buy 5 15, makeOrder 3 .buy 4 7], 3, 2, 15,
      true) := by
    decide +kernel
  obtain ⟨⟨s, outputs⟩, hrun, hvalues⟩ := Option.map_eq_some_iff.mp hmap
  simp only [Prod.mk.injEq] at hvalues
  obtain ⟨hsubmitted, haccepted, hserved, htotal, hconsumer⟩ := hvalues
  refine ⟨s, outputs, hrun, hsubmitted, haccepted, hserved, htotal, ?_⟩
  cases hc : s.queue.consumer with
  | idle => rfl
  | _ => simp [weakStep, hc] at hconsumer

theorem sample_limitBelow : ∀ order ∈ [makeOrder 1 .sell 5 20, makeOrder 2 .buy 5 15,
    makeOrder 3 .buy 4 7], (Command.processOrder order).LimitBelow Config.small.maxLevels := by
  decide

/-- What a run of the pipeline promises. -/
structure Serves (config : Config) (tradeCallback : Option (Trade → σ → σ)) (subscriber : σ)
    (s : Pipeline σ) (outputs : List Output) : Prop where
  raceFree : s.queue.memory.raced = false
  /-- The engine gets the accepted orders in order, none lost, none twice. -/
  inOrder : orders (commands outputs) <+: accepted outputs
  /-- Submission `i` has the number `i + 1`. -/
  numbers : (accepted outputs).Sublist (numbered (submitted outputs))
  waiting : (accepted outputs).length ≤ (orders (commands outputs)).length + 65536
  engine : config.engine.run (commands outputs) = some (s.engine, events outputs)
  trades : s.handler.recentTrades = (events outputs).flatMap MatchEvent.trades
  reports : s.handler.recentReports = (events outputs).flatMap MatchEvent.reports
  /-- The callback was called once for each trade, in order. -/
  notified : s.subscriber = s.handler.recentTrades.foldl
    (MarketDataHandler.notify tradeCallback) subscriber

theorem stamped_eq_numbered {os : List IncomingOrder} (hfew : os.length < 2 ^ 64) :
    stamped os = numbered os := by
  have hprefix := prefix_numbered (List.prefix_refl (stamped os))
    (by rw [stamped_length]; exact hfew)
  exact hprefix.eq_of_length (by rw [stamped_length, numbered, List.length_mapIdx])

/-- From the gateway to the market data: in every run with fewer than `2 ^ 64`
    submissions the engine processes the accepted orders first in, first out, with
    the gateway's numbers, and all that it trades and reports is recorded. -/
theorem run_serves (config : Config) (tradeCallback : Option (Trade → σ → σ)) (subscriber : σ)
    (actions : List Action) {s : Pipeline σ} {outputs : List Output}
    (hrun : exec step (config.pipeline tradeCallback subscriber) actions = some (s, outputs))
    (hfew : (submitted outputs).length < 2 ^ 64) :
    Serves config tradeCallback subscriber s outputs := by
  have h := run_history hrun
  obtain ⟨schedule, hqueue⟩ := h.queue
  have hfifo := weakRun_fifo capacity schedule hqueue (lt_of_le_of_lt h.accepted_le hfew)
  refine ⟨hfifo.raceFree, ?_, ?_, ?_, h.engine, h.trades, h.reports, ?_⟩
  · rw [h.orders]
    exact hfifo.first
  · rw [← stamped_eq_numbered hfew]
    exact h.accepted_sublist
  · rw [h.orders]
    exact hfifo.bounded
  · rw [h.subscriber, h.trades]

theorem sample_serves : ∃ s outputs,
    exec step (Config.small.pipeline countTraded 0) sampleActions = some (s, outputs) ∧
      s.subscriber = 15 ∧ Serves Config.small countTraded 0 s outputs := by
  obtain ⟨s, outputs, hrun, hsubmitted, -, -, htotal, -⟩ := sample_run
  exact ⟨s, outputs, hrun, htotal, run_serves Config.small countTraded 0 sampleActions hrun
    (by rw [hsubmitted]; decide)⟩

-- ============================================================================
-- The levels are in the order of the gateway's numbers
-- ============================================================================

theorem mem_stamped {os : List IncomingOrder} {x : IncomingOrder} (h : x ∈ stamped os) :
    ∃ order ∈ os, ∃ number, x = { order with timestamp := number } := by
  obtain ⟨i, hi, rfl⟩ := List.mem_mapIdx.mp h
  exact ⟨os[i], List.getElem_mem hi, _, rfl⟩

theorem mem_orders {cs : List Command} {order : IncomingOrder} :
    order ∈ orders cs ↔ .processOrder order ∈ cs := by
  rw [orders, List.mem_flatMap]
  constructor
  · rintro ⟨c, hc, horder⟩
    cases c with
    | processOrder x =>
        obtain rfl := List.mem_singleton.mp horder
        exact hc
    | cancelOrder id => exact absurd horder (by simp)
  · exact fun hc => ⟨_, hc, List.mem_singleton_self order⟩

/-- A price that the ladder takes, it takes with every number. -/
theorem stamped_limitBelow {os : List IncomingOrder} {maxLevels : Int} {x : IncomingOrder}
    (h : ∀ order ∈ os, (Command.processOrder order).LimitBelow maxLevels) (hx : x ∈ stamped os) :
    (Command.processOrder x).LimitBelow maxLevels := by
  obtain ⟨order, horder, number, rfl⟩ := mem_stamped hx
  exact h order horder

theorem numbered_pairwise (os : List IncomingOrder) :
    (numbered os).Pairwise fun x y => x.timestamp < y.timestamp := by
  rw [List.pairwise_iff_getElem]
  intro i j hi hj hij
  simp only [numbered, List.getElem_mapIdx]
  exact Nat.add_lt_add_right hij 1

/-- Two calls that submit, the first before the second. -/
theorem orders_pairwise {R : IncomingOrder → IncomingOrder → Prop} {cs : List Command}
    {x y : IncomingOrder} {i j : Nat} (h : (orders cs).Pairwise R) (hij : i < j)
    (hx : cs[i]? = some (.processOrder x)) (hy : cs[j]? = some (.processOrder y)) : R x y := by
  obtain ⟨hi, hx⟩ := List.getElem?_eq_some_iff.mp hx
  obtain ⟨hj, hy⟩ := List.getElem?_eq_some_iff.mp hy
  have hpair := List.pairwise_iff_getElem.mp (List.pairwise_flatMap.mp h).2 i j hi hj hij
  rw [hx, hy] at hpair
  exact hpair x (List.mem_singleton_self x) y (List.mem_singleton_self y)

theorem History.commands_limitBelow (h : History config tradeCallback subscriber s outputs)
    (hfew : (submitted outputs).length < 2 ^ 64)
    (hbelow : ∀ order ∈ submitted outputs,
      (Command.processOrder order).LimitBelow config.maxLevels) :
    ∀ c ∈ commands outputs, c.LimitBelow config.maxLevels := by
  intro c hc
  cases c with
  | cancelOrder id => trivial
  | processOrder order =>
      have hserved := mem_orders.mpr hc
      rw [h.orders] at hserved
      exact stamped_limitBelow hbelow
        (h.accepted_sublist.subset ((h.weak hfew).first.subset hserved))

/-- In every state of every run with prices on the ladder the engine's check passes and
    what it says it checks is true: a level's orders are in the order of their gateway
    numbers, which are their submission's, and each has something remaining. -/
theorem run_levelsInOrder (config : Config) (tradeCallback : Option (Trade → σ → σ))
    (subscriber : σ) (actions : List Action) {s : Pipeline σ} {outputs : List Output}
    (hrun : exec step (config.pipeline tradeCallback subscriber) actions = some (s, outputs))
    (hfew : (submitted outputs).length < 2 ^ 64)
    (hbelow : ∀ order ∈ submitted outputs,
      (Command.processOrder order).LimitBelow config.maxLevels) :
    s.engine.verifyInvariants = some true ∧ ∀ side,
      (s.engine.ladder side).BitsAgree ∧
      (s.engine.ladder side).LevelsInOrder s.engine.heap (s.engine.levelSlots side) ∧
      ∀ i, (s.engine.levelSlots side i).Pairwise (fun p r =>
          (s.engine.heap p).timestamp < (s.engine.heap r).timestamp) ∧
        ∀ p ∈ s.engine.levelSlots side i,
          (s.engine.heap p).submitted ∈ numbered (submitted outputs) := by
  have h := run_history hrun
  obtain ⟨engine, evs, hengine, ⟨L, hsound⟩, htrace⟩ :=
    config.run_calls (h.commands_limitBelow hfew hbelow)
  obtain ⟨rfl, rfl⟩ := result_unique hengine h.engine
  have hun : s.engine.book.Uncrossed :=
    @Trace.invariant _ _ _ _ (fun e => e.book.Uncrossed) _ _ _ _
      (fun _ _ _ _ he hcall => hcall.uncrossed he) config.engine_uncrossed htrace
  have hstamped := config.calls_stamped htrace
  have hserved : (orders (commands outputs)).Sublist (numbered (submitted outputs)) := by
    rw [h.orders, ← stamped_eq_numbered hfew]
    exact (h.weak hfew).first.sublist.trans h.accepted_sublist
  have hnumbers := (numbered_pairwise _).sublist hserved
  have hlevel : ∀ side i, (s.engine.levelSlots side i).Pairwise (fun p r =>
      (s.engine.heap p).timestamp < (s.engine.heap r).timestamp) := by
    intro side i
    refine (hstamped.sorted side i).imp_of_mem fun hp hr hpr => ?_
    exact orders_pairwise hnumbers hpr (hstamped.submitted side i _ hp)
      (hstamped.submitted side i _ hr)
  refine ⟨hsound.verifyInvariants hun, fun side => ⟨hsound.bitsAgree side, fun i _ => ?_,
    fun i => ⟨hlevel side i, fun p hp => ?_⟩⟩⟩
  · refine ⟨(hlevel side i).imp fun hlt => hlt.le, fun p hp => ?_⟩
    rw [hsound.levelSlots_eq] at hp
    exact (hsound.live hp).pos
  · exact hserved.subset
      (mem_orders.mpr (List.mem_of_getElem? (hstamped.submitted side i p hp)))

theorem sample_levelsInOrder : ∃ s outputs,
    exec step (Config.small.pipeline countTraded 0) sampleActions = some (s, outputs) ∧
      s.engine.verifyInvariants = some true ∧ ∀ side,
        (s.engine.ladder side).BitsAgree ∧
        (s.engine.ladder side).LevelsInOrder s.engine.heap (s.engine.levelSlots side) ∧
        ∀ i, (s.engine.levelSlots side i).Pairwise (fun p r =>
            (s.engine.heap p).timestamp < (s.engine.heap r).timestamp) ∧
          ∀ p ∈ s.engine.levelSlots side i,
            (s.engine.heap p).submitted ∈ numbered (submitted outputs) := by
  obtain ⟨s, outputs, hrun, hsubmitted, -⟩ := sample_run
  exact ⟨s, outputs, hrun, run_levelsInOrder Config.small countTraded 0 sampleActions hrun
    (by rw [hsubmitted]; decide) (by rw [hsubmitted]; exact sample_limitBelow)⟩

-- ============================================================================
-- The consumer alone serves all that is accepted
-- ============================================================================

/-- A call that does not go through the queue. -/
def direct (self : OrderGateway × MatchingEngine) :
    Command → Option ((OrderGateway × MatchingEngine) × MatchEvent)
  | .processOrder order =>
      (self.1.submitDirect self.2 order).map fun r => ((r.1, r.2.1), r.2.2)
  | .cancelOrder id => (self.2.step (.cancelOrder id)).map fun r => ((self.1, r.1), r.2)

/-- The calls with these orders in place of their own. -/
def withOrders : List Command → List IncomingOrder → List Command
  | .processOrder _ :: cs, order :: os => .processOrder order :: withOrders cs os
  | .cancelOrder id :: cs, os => .cancelOrder id :: withOrders cs os
  | _, _ => []

theorem orders_cons (order : IncomingOrder) (cs : List Command) :
    orders (.processOrder order :: cs) = order :: orders cs := rfl

/-- The gateway numbers the orders as the calls have them. -/
theorem direct_run {gateway : OrderGateway} {engine engine' : MatchingEngine}
    {cs : List Command} {evs : List MatchEvent} {os : List IncomingOrder} {k : Nat}
    (hrun : engine.run cs = some (engine', evs))
    (hnumber : gateway.nextSequence = (k + 1) % 2 ^ 64) (hfew : k + os.length < 2 ^ 64)
    (hos : orders cs <+: os.mapIdx fun i order => { order with timestamp := k + i + 1 }) :
    exec direct (gateway, engine) (withOrders cs os) =
      some (({ gateway with nextSequence := (k + (orders cs).length + 1) % 2 ^ 64 }, engine'),
        evs) := by
  induction cs generalizing gateway engine evs os k with
  | nil =>
      obtain ⟨rfl, rfl⟩ := Prod.mk.inj (Option.some.inj hrun)
      rw [← show gateway.nextSequence = (k + (orders []).length + 1) % 2 ^ 64 from hnumber]
      cases os <;> rfl
  | cons c cs ih =>
      obtain ⟨next, event, rest, hstep, hrest, rfl⟩ := exec_cons_inv hrun
      cases c with
      | cancelOrder id =>
          have hfirst : direct (gateway, engine) (.cancelOrder id) =
              some ((gateway, next), event) := by simp only [direct, hstep, Option.map_some]
          exact exec_cons hfirst (ih hrest hnumber hfew hos)
      | processOrder x =>
          cases os with
          | nil => exact absurd hos.length_le (by simp [orders])
          | cons order os =>
              rw [orders_cons, List.mapIdx_cons] at hos
              obtain ⟨rfl, htail⟩ := List.cons_prefix_cons.mp hos
              rw [List.length_cons] at hfew
              have hsequence : gateway.nextSequence = k + 0 + 1 := by
                rw [hnumber]
                exact Nat.mod_eq_of_lt (by omega)
              have hprocess : engine.processOrder { order with timestamp := gateway.nextSequence } =
                  some (next, event) := by
                rw [hsequence]
                exact hstep
              have hfirst : direct (gateway, engine) (.processOrder order) =
                  some (({ gateway with nextSequence := addUInt64 gateway.nextSequence 1 }, next),
                    event) := by
                simp only [direct, submitDirect, hprocess, Option.map_some]
              have hlater := @ih { gateway with nextSequence := addUInt64 gateway.nextSequence 1 }
                next rest os (k + 1) hrest
                (by rw [addUInt64, hnumber, Nat.mod_add_mod]) (by omega)
                (by simpa only [Nat.add_assoc, Nat.add_comm 1] using htail)
              refine (exec_cons hfirst hlater).trans ?_
              have hcount : k + (orders (.processOrder { order with
                  timestamp := k + 0 + 1 } :: cs)).length + 1 =
                k + 1 + (orders cs).length + 1 := by
                show k + ((orders cs).length + 1) + 1 = _
                omega
              rw [hcount]

/-- When every submit returned true the queue makes no difference: however the
    threads interleaved, the engine is in the state and has answered the events of
    the direct path, on which the gateway hands it the same orders at once. -/
theorem run_direct (config : Config) (tradeCallback : Option (Trade → σ → σ))
    (subscriber : σ) (actions : List Action) {s : Pipeline σ} {outputs : List Output}
    (hrun : exec step (config.pipeline tradeCallback subscriber) actions = some (s, outputs))
    (hfew : (submitted outputs).length < 2 ^ 64)
    (hall : (accepted outputs).length = (submitted outputs).length) :
    exec direct (OrderGateway.make, config.engine)
        (withOrders (commands outputs) (submitted outputs)) =
      some (({ OrderGateway.make with
          nextSequence := ((orders (commands outputs)).length + 1) % 2 ^ 64 }, s.engine),
        events outputs) := by
  have h := run_history hrun
  have haccepted : accepted outputs = numbered (submitted outputs) := by
    rw [← stamped_eq_numbered hfew]
    exact h.accepted_sublist.eq_of_length (by rw [stamped_length, hall])
  have hserved : orders (commands outputs) <+: numbered (submitted outputs) := by
    rw [h.orders, ← haccepted]
    exact (h.weak hfew).first
  have hdirect := @direct_run OrderGateway.make _ _ _ _ (submitted outputs) 0 h.engine rfl
    (by omega) (by simpa only [Nat.zero_add, numbered] using hserved)
  simpa only [Nat.zero_add] using hdirect

theorem sample_direct : ∃ s outputs,
    exec step (Config.small.pipeline countTraded 0) sampleActions = some (s, outputs) ∧
      exec direct (OrderGateway.make, Config.small.engine)
          (withOrders (commands outputs) (submitted outputs)) =
        some (({ OrderGateway.make with
            nextSequence := ((orders (commands outputs)).length + 1) % 2 ^ 64 }, s.engine),
          events outputs) := by
  obtain ⟨s, outputs, hrun, hsubmitted, haccepted, -⟩ := sample_run
  exact ⟨s, outputs, hrun, run_direct Config.small countTraded 0 sampleActions hrun
    (by rw [hsubmitted]; decide) (by rw [hsubmitted, haccepted]; rfl)⟩

end

end Pipeline

end LimitOrderBook
