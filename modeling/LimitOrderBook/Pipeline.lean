/-
  LimitOrderBook.Pipeline

  The components together: client, gateway, queue, engine, market data.

  The producer thread submits orders through the gateway.  The consumer thread owns
  the engine and the handler: an order that it takes out of the queue is processed
  and its event handled before its next access, and between its calls of the queue
  it may cancel an order.  The threads meet only in the queue, so a run is an
  interleaving of the queue's accesses on the weak memory, in which the access that
  hands over an order carries the engine's call with it.
-/
import LimitOrderBook.MarketDataHandler
import LimitOrderBook.SequenceNumbers
import LimitOrderBook.SpscWeakObservers

namespace LimitOrderBook

open Lib MatchingEngine SPSCQueue OrderGateway

variable {σ : Type*}

/-- The gateway's queue and number, and what the consumer thread owns.  `subscriber`
    is the state that the trade callback works on. -/
structure Pipeline (σ : Type*) where
  queue : WeakSystem IncomingOrder
  nextSequence : Nat
  engine : MatchingEngine
  handler : MarketDataHandler σ
  subscriber : σ

/-- A fresh engine behind a fresh queue, with this callback. -/
def Config.pipeline (config : Config) (tradeCallback : Option (Trade → σ → σ))
    (subscriber : σ) : Pipeline σ where
  queue := WeakSystem.make
  nextSequence := 1
  engine := config.engine
  handler := MarketDataHandler.make.setTradeCallback tradeCallback
  subscriber := subscriber

namespace Pipeline

inductive Action where
  /-- The number, and the first access of the push. -/
  | submit (order : IncomingOrder) (pick : Nat)
  /-- Any other access of the queue. -/
  | access (action : SPSCQueue.Action IncomingOrder) (pick : Nat)
  | cancel (id : OrderID)

/-- The order submitted, the answer of the queue, and the call served, each if the
    action has one. -/
structure Output where
  submitted : List IncomingOrder := []
  answers : List (SPSCQueue.Answer IncomingOrder) := []
  served : List (Command × MatchEvent) := []

/-- The consumer thread makes a call of the engine and hands its event on. -/
def serve (s : Pipeline σ) (c : Command) : Option (Pipeline σ × MatchEvent) :=
  match s.engine.step c with
  | none => none
  | some (engine, event) =>
      let r := s.handler.onMatchEvent s.subscriber event
      some ({ s with engine, handler := r.1, subscriber := r.2 }, event)

/-- An access of the queue; an order that it hands over is processed. -/
def accessQueue (s : Pipeline σ) (action : SPSCQueue.Action IncomingOrder) (pick : Nat) :
    Option (Pipeline σ × Output) :=
  match weakStep capacity s.queue (action, pick) with
  | none => none
  | some (queue, answer) =>
      match answer.consumed with
      | [] => some ({ s with queue }, { answers := [answer] })
      | order :: _ =>
          match { s with queue }.serve (.processOrder order) with
          | none => none
          | some (after, event) =>
              some (after, { answers := [answer], served := [(.processOrder order, event)] })

def step (s : Pipeline σ) : Action → Option (Pipeline σ × Output)
  | .submit order pick =>
      match s.accessQueue (.tryPush { order with timestamp := s.nextSequence }) pick with
      | none => none
      | some (after, output) =>
          some ({ after with nextSequence := addUInt64 s.nextSequence 1 },
            { output with submitted := [order] })
  | .access (.tryPush _) _ => none
  | .access action pick => s.accessQueue action pick
  | .cancel id =>
      match s.queue.consumer with
      | .idle =>
          match s.serve (.cancelOrder id) with
          | none => none
          | some (after, event) => some (after, { served := [(.cancelOrder id, event)] })
      | _ => none

-- ============================================================================
-- Histories
-- ============================================================================

/-- The orders that were submitted, as the clients gave them. -/
def submitted (outputs : List Output) : List IncomingOrder := outputs.flatMap Output.submitted

def answers (outputs : List Output) : List (SPSCQueue.Answer IncomingOrder) :=
  outputs.flatMap Output.answers

/-- The orders whose submit returned true, as they were numbered. -/
def accepted (outputs : List Output) : List IncomingOrder := pushed (answers outputs)

/-- The calls of the engine. -/
def commands (outputs : List Output) : List Command :=
  outputs.flatMap fun output => output.served.map Prod.fst

def events (outputs : List Output) : List MatchEvent :=
  outputs.flatMap fun output => output.served.map Prod.snd

/-- The orders that calls submit. -/
def orders (cs : List Command) : List IncomingOrder :=
  cs.flatMap fun
    | .processOrder order => [order]
    | .cancelOrder _ => []

end Pipeline

namespace SPSCQueue

/-- The item that the producer is about to push. -/
def Producer.item {α : Type*} : Producer α → List α
  | .pushing item _ => [item]
  | .hasRoom item _ => [item]
  | .written item _ => [item]
  | _ => []

section

variable {α : Type*} {C : Capacity} {s s' : WeakSystem α} {pick : Nat} {o : Answer α}

theorem weakProducer_item (h : weakProducer C s pick = some (s', o)) :
    (o.pushed ++ s'.producer.item).Sublist s.producer.item := by
  unfold weakProducer at h
  cases hp : s.producer with
  | idle => simp [hp] at h
  | pushing item t =>
      rw [hp] at h
      obtain ⟨r, -, heq⟩ := Option.map_eq_some_iff.mp h
      split at heq
      · cases heq
        exact List.nil_sublist _
      · cases heq
        exact List.Sublist.refl _
  | hasRoom item t =>
      rw [hp] at h
      cases h
      exact List.Sublist.refl _
  | written item t =>
      rw [hp] at h
      obtain ⟨m, -, heq⟩ := Option.map_eq_some_iff.mp h
      cases heq
      exact List.Sublist.refl _
  | querying q =>
      rw [hp] at h
      obtain ⟨⟨m, answer⟩, hanswer, heq⟩ := Option.map_eq_some_iff.mp h
      cases heq
      cases q <;>
        · obtain ⟨r, -, hr⟩ := Option.map_eq_some_iff.mp hanswer
          cases hr
          exact List.Sublist.refl _

theorem weakConsumer_producer (h : weakConsumer C s pick = some (s', o)) :
    s'.producer = s.producer := by
  unfold weakConsumer at h
  cases hc : s.consumer with
  | idle => simp [hc] at h
  | popping k | peeking k =>
      rw [hc] at h
      obtain ⟨r, -, heq⟩ := Option.map_eq_some_iff.mp h
      split at heq <;>
        · cases heq
          rfl
  | popFound k =>
      rw [hc] at h
      cases h
      rfl
  | popRead k item | committing k slot | querying q =>
      rw [hc] at h
      obtain ⟨r, -, heq⟩ := Option.map_eq_some_iff.mp h
      cases heq
      rfl

/-- A push begins with its item, and every other access pushes the item of the
    producer, drops it or leaves it. -/
theorem weakStep_item {action : Action α} (h : weakStep C s (action, pick) = some (s', o)) :
    (∀ item, action = .tryPush item →
      s.producer.item = [] ∧ o.pushed = [] ∧ s'.producer.item = [item]) ∧
    ((∀ item, action ≠ .tryPush item) →
      (o.pushed ++ s'.producer.item).Sublist s.producer.item) := by
  have hsilent : action.thread ≠ .producer → o.pushed = [] := by
    intro hthread
    cases (weakStep_effect h).1 with
    | publish _ hth => exact absurd hth hthread
    | load _ _ _ _ _ hpushed => exact hpushed
    | access _ _ _ hpushed => exact hpushed
    | consume _ _ _ hpushed => exact hpushed
  have hother : action.thread ≠ .producer → s'.producer = s.producer →
      (o.pushed ++ s'.producer.item).Sublist s.producer.item := by
    intro hthread hsame
    rw [hsilent hthread, hsame]
    exact List.Sublist.refl _
  cases action with
  | producer => exact ⟨by simp, fun _ => weakProducer_item h⟩
  | consumer => exact ⟨by simp, fun _ => hother (by simp [Action.thread]) (weakConsumer_producer h)⟩
  | tryPush item =>
      simp only [weakStep] at h
      split at h
      · next hidle =>
          obtain ⟨r, -, heq⟩ := Option.map_eq_some_iff.mp h
          cases heq
          refine ⟨fun item' hitem => ?_, fun hne => absurd rfl (hne item)⟩
          cases hitem
          rw [hidle]
          exact ⟨rfl, rfl, rfl⟩
      · exact absurd h (by simp)
  | producerQuery query =>
      simp only [weakStep] at h
      split at h
      · obtain ⟨r, -, heq⟩ := Option.map_eq_some_iff.mp h
        cases heq
        exact ⟨by simp, fun _ => List.nil_sublist _⟩
      · exact absurd h (by simp)
  | read =>
      simp only [weakStep] at h
      split at h
      · cases h
        exact ⟨by simp, fun _ => List.Sublist.refl _⟩
      · exact absurd h (by simp)
  | observer k =>
      simp only [weakStep] at h
      split at h
      · exact absurd h (by simp)
      · obtain ⟨r, -, heq⟩ := Option.map_eq_some_iff.mp h
        cases heq
        exact ⟨by simp, fun _ => hother (by simp [Action.thread]) rfl⟩
  | tryPop | peek | popCommit | consumerQuery query | observerQuery k query =>
      simp only [weakStep] at h
      split at h
      · obtain ⟨r, -, heq⟩ := Option.map_eq_some_iff.mp h
        cases heq
        exact ⟨by simp, fun _ => hother (by simp [Action.thread]) rfl⟩
      · exact absurd h (by simp)

end

end SPSCQueue

namespace Pipeline

section

variable {s s' : Pipeline σ} {a : Action} {output : Output} {outputs : List Output}
  {action : SPSCQueue.Action IncomingOrder} {pick : Nat} {c : Command} {event : MatchEvent}

@[simp] theorem submitted_snoc :
    submitted (outputs ++ [output]) = submitted outputs ++ output.submitted := by simp [submitted]

@[simp] theorem answers_snoc :
    answers (outputs ++ [output]) = answers outputs ++ output.answers := by simp [answers]

@[simp] theorem commands_snoc :
    commands (outputs ++ [output]) = commands outputs ++ output.served.map Prod.fst := by
  simp [commands]

@[simp] theorem events_snoc :
    events (outputs ++ [output]) = events outputs ++ output.served.map Prod.snd := by
  simp [events]

@[simp] theorem accepted_snoc :
    accepted (outputs ++ [output]) = accepted outputs ++ pushed output.answers := by
  simp [accepted]

@[simp] theorem orders_append (cs ds : List Command) :
    orders (cs ++ ds) = orders cs ++ orders ds := by
  simp [orders]

-- ============================================================================
-- One action
-- ============================================================================

/-- What the consumer thread's calls do to the engine and to what follows it. -/
structure Calls (s s' : Pipeline σ) (served : List (Command × MatchEvent)) : Prop where
  engine : s.engine.run (served.map Prod.fst) = some (s'.engine, served.map Prod.snd)
  trades : s'.handler.recentTrades =
    s.handler.recentTrades ++ (served.map Prod.snd).flatMap MatchEvent.trades
  reports : s'.handler.recentReports =
    s.handler.recentReports ++ (served.map Prod.snd).flatMap MatchEvent.reports
  callback : s'.handler.tradeCallback = s.handler.tradeCallback
  subscriber : s'.subscriber = ((served.map Prod.snd).flatMap MatchEvent.trades).foldl
    (MarketDataHandler.notify s.handler.tradeCallback) s.subscriber

theorem Calls.none (hengine : s'.engine = s.engine) (hhandler : s'.handler = s.handler)
    (hsubscriber : s'.subscriber = s.subscriber) : Calls s s' [] := by
  refine ⟨?_, ?_, ?_, ?_, hsubscriber⟩
  · rw [hengine]
    rfl
  · rw [hhandler]
    exact (List.append_nil _).symm
  · rw [hhandler]
    exact (List.append_nil _).symm
  · rw [hhandler]

theorem serve_inv (h : s.serve c = some (s', event)) :
    Calls s s' [(c, event)] ∧ s'.queue = s.queue ∧ s'.nextSequence = s.nextSequence := by
  unfold serve at h
  split at h
  · exact absurd h (by simp)
  · next engine event' hstep =>
      obtain ⟨heq, hevent⟩ := Prod.mk.inj (Option.some.inj h)
      subst heq hevent
      rw [MarketDataHandler.onMatchEvent_eq]
      refine ⟨⟨exec_cons hstep rfl, ?_, ?_, rfl, ?_⟩, rfl, rfl⟩
      · simp
      · simp
      · simp

/-- An answer consumes one item at most. -/
theorem consumed_cons {α : Type*} {answer : SPSCQueue.Answer α} {item : α} {rest : List α}
    (h : answer.consumed = item :: rest) : rest = [] := by
  cases answer with
  | tryPop found =>
      cases found with
      | none => exact absurd h (by simp [Answer.consumed])
      | some x => exact (List.cons.inj h).2.symm
  | popCommit x => exact (List.cons.inj h).2.symm
  | _ => exact absurd h (by simp [Answer.consumed])

theorem accessQueue_inv (h : s.accessQueue action pick = some (s', output)) :
    ∃ answer, weakStep capacity s.queue (action, pick) = some (s'.queue, answer) ∧
      output.answers = [answer] ∧ output.submitted = [] ∧ s'.nextSequence = s.nextSequence ∧
      Calls s s' output.served ∧ orders (output.served.map Prod.fst) = answer.consumed := by
  unfold accessQueue at h
  split at h
  · exact absurd h (by simp)
  · next queue answer hweak =>
      split at h
      · next hnone =>
          obtain ⟨heq, houtput⟩ := Prod.mk.inj (Option.some.inj h)
          subst heq houtput
          exact ⟨answer, hweak, rfl, rfl, rfl, .none rfl rfl rfl, hnone.symm⟩
      · next order rest hsome =>
          split at h
          · exact absurd h (by simp)
          · next after event hserve =>
              obtain ⟨heq, houtput⟩ := Prod.mk.inj (Option.some.inj h)
              subst heq houtput
              obtain ⟨hcalls, hqueue, hnumber⟩ := serve_inv hserve
              rw [consumed_cons hsome] at hsome
              have hqueue' : after.queue = queue := hqueue
              rw [← hqueue'] at hweak
              exact ⟨answer, hweak, rfl, rfl, hnumber, ⟨hcalls.engine, hcalls.trades,
                hcalls.reports, hcalls.callback, hcalls.subscriber⟩, hsome.symm⟩

/-- What an action does, to the queue, to the numbers and to the engine. -/
structure Effect (s s' : Pipeline σ) (output : Output) : Prop where
  queue : ∃ schedule, exec (weakStep capacity) s.queue schedule = some (s'.queue, output.answers)
  calls : Calls s s' output.served
  orders : orders (output.served.map Prod.fst) = consumed output.answers
  /-- A submit numbers its order and begins to push it. -/
  numbers :
    (output.submitted = [] ∧ s'.nextSequence = s.nextSequence ∧
      (pushed output.answers ++ s'.queue.producer.item).Sublist s.queue.producer.item) ∨
    ∃ order, output.submitted = [order] ∧ s'.nextSequence = addUInt64 s.nextSequence 1 ∧
      s.queue.producer.item = [] ∧ pushed output.answers = [] ∧
      s'.queue.producer.item = [{ order with timestamp := s.nextSequence }]

theorem access_effect (h : s.accessQueue action pick = some (s', output))
    (hpush : ∀ item, action ≠ .tryPush item) : Effect s s' output := by
  obtain ⟨answer, hweak, hanswers, hsubmitted, hnumber, hcalls, horders⟩ := accessQueue_inv h
  have hitem := (weakStep_item hweak).2 hpush
  refine ⟨⟨[(action, pick)], ?_⟩, hcalls, ?_, .inl ⟨hsubmitted, hnumber, ?_⟩⟩
  · rw [hanswers]
    exact exec_cons hweak rfl
  · rw [horders, hanswers, consumed, List.flatMap_singleton]
  · rw [hanswers, pushed, List.flatMap_singleton]
    exact hitem

theorem step_effect (h : s.step a = some (s', output)) : Effect s s' output := by
  cases a with
  | submit order pick =>
      simp only [step] at h
      split at h
      · exact absurd h (by simp)
      · next after output' haccess =>
          obtain ⟨heq, houtput⟩ := Prod.mk.inj (Option.some.inj h)
          subst heq houtput
          obtain ⟨answer, hweak, hanswers, -, -, hcalls, horders⟩ := accessQueue_inv haccess
          obtain ⟨hidle, hnone, hitem⟩ := (weakStep_item hweak).1 _ rfl
          refine ⟨⟨[(.tryPush { order with timestamp := s.nextSequence }, pick)], ?_⟩,
            ⟨hcalls.engine, hcalls.trades, hcalls.reports, hcalls.callback, hcalls.subscriber⟩,
            ?_, .inr ⟨order, rfl, rfl, hidle, ?_, hitem⟩⟩
          · rw [hanswers]
            exact exec_cons hweak rfl
          · rw [horders, hanswers, consumed, List.flatMap_singleton]
          · rw [hanswers, pushed, List.flatMap_singleton, hnone]
  | access action pick =>
      cases action with
      | tryPush item => exact absurd h (by simp [step])
      | _ => exact access_effect h (by simp)
  | cancel id =>
      simp only [step] at h
      split at h
      · split at h
        · exact absurd h (by simp)
        · next after event hserve =>
            obtain ⟨heq, houtput⟩ := Prod.mk.inj (Option.some.inj h)
            subst heq houtput
            obtain ⟨hcalls, hqueue, hnumber⟩ := serve_inv hserve
            refine ⟨⟨[], ?_⟩, hcalls, rfl, .inl ⟨rfl, hnumber, ?_⟩⟩
            · rw [hqueue]
              rfl
            · rw [hqueue]
              exact List.Sublist.refl _
      · exact absurd h (by simp)

end

end Pipeline

end LimitOrderBook
