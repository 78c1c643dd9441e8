/-
  LimitOrderBook.SpscObservers

  What a thread reads of the queue stays usable while the other side moves.

  `empty` and `size_approx` load the two counters one after the other, and the
  other side may move by any amount in between.  Each counter only grows and has
  one writer, so the caller's own counter is exact: the consumer's answer can only
  be too small by the time it is used, and the producer's too large.  An observer
  has no counter of its own; `size_approx` loads `tail_` first, which bounds its
  answer by what was in the queue at that load.
-/
import LimitOrderBook.SpscFifo

namespace LimitOrderBook

open Lib

namespace SPSCQueue

variable {α : Type*}

/-- Who makes an access. -/
inductive Thread where
  | producer
  | consumer
  | observer (k : Nat)
  deriving DecidableEq

def Action.thread : Action α → Thread
  | .tryPush _ => .producer
  | .producerQuery _ => .producer
  | .producer => .producer
  | .tryPop => .consumer
  | .peek => .consumer
  | .read => .consumer
  | .popCommit => .consumer
  | .consumerQuery _ => .consumer
  | .consumer => .consumer
  | .observerQuery k _ => .observer k
  | .observer k => .observer k

/-- The access with which a thread starts a query. -/
def Thread.asks : Thread → Query → Action α
  | .producer => .producerQuery
  | .consumer => .consumerQuery
  | .observer k => .observerQuery k

def Producer.query : Producer α → Option Querying
  | .querying query => some query
  | _ => none

def Consumer.query : Consumer α → Option Querying
  | .querying query => some query
  | _ => none

/-- The query that a thread is in. -/
def System.query (s : System α) : Thread → Option Querying
  | .producer => s.producer.query
  | .consumer => s.consumer.query
  | .observer k => s.observer k

/-- An answer of `empty` or `size_approx`. -/
def Answer.Reports : Answer α → Prop
  | .empty _ => True
  | .sizeApprox _ => True
  | _ => False

/-- Whether a consuming call succeeded, if one ended: a peek that found an item
    has consumed it only with its commit. -/
def Answer.popOutcome : Answer α → Option Bool
  | .tryPop item => some item.isSome
  | .peek false => some false
  | .popCommit _ => some true
  | _ => none

/-- Whether a `try_push` succeeded, if one ended. -/
def Answer.pushOutcome : Answer α → Option Bool
  | .tryPush _ pushed => some pushed
  | _ => none

/-- The item that an answer hands to the consumer. -/
def Answer.got : Answer α → Option α
  | .tryPop item => item
  | .read item => some item
  | .popCommit item => some item
  | _ => none

theorem consumed_length (answers : List (Answer α)) :
    (consumed answers).length = answers.countP fun o => o.popOutcome = some true := by
  induction answers with
  | nil => rfl
  | cons o answers ih =>
      have hone : o.consumed.length = if o.popOutcome = some true then 1 else 0 := by
        cases o with
        | tryPop item => cases item <;> rfl
        | peek found => cases found <;> rfl
        | _ => rfl
      rw [consumed, List.flatMap_cons, List.length_append, List.countP_cons, ← ih, hone,
        Nat.add_comm]
      simp [consumed]

theorem pushed_length (answers : List (Answer α)) :
    (pushed answers).length = answers.countP fun o => o.pushOutcome = some true := by
  induction answers with
  | nil => rfl
  | cons o answers ih =>
      have hone : o.pushed.length = if o.pushOutcome = some true then 1 else 0 := by
        cases o with
        | tryPush item pushed => cases pushed <;> rfl
        | _ => rfl
      rw [pushed, List.flatMap_cons, List.length_append, List.countP_cons, ← ih, hone,
        Nat.add_comm]
      simp [pushed]

-- ============================================================================
-- One access
-- ============================================================================

section

variable {C : Capacity} {s s' : System α} {a : Action α} {o : Answer α}

/-- A query neither pushes nor consumes. -/
theorem answer_silent (self : SPSCQueue α) (query : Querying) :
    (self.answer query).pushed = [] ∧ (self.answer query).consumed = [] := by
  cases query <;> exact ⟨rfl, rfl⟩

/-- What an access does to its thread's query: start it, answer it, or belong to
    another call. -/
inductive QueryStep (s s' : System α) (a : Action α) (o : Answer α) : Prop where
  | asks (query : Query) (hasks : a = a.thread.asks query)
      (hquery : s'.query a.thread = some (s.queue.ask query)) (hpending : o = .pending)
  | answers (querying : Querying) (hquery : s.query a.thread = some querying)
      (hidle : s'.query a.thread = none) (hanswer : o = s.queue.answer querying)
  | other (hidle : s'.query a.thread = none) (hcall : ¬ o.Reports)

/-- What an access does to queries, and which end of the queue it leaves alone. -/
structure Access (s s' : System α) (a : Action α) (o : Answer α) : Prop where
  own : QueryStep s s' a o
  others : ∀ th, a.thread ≠ th → s'.query th = s.query th
  pushed : a.thread ≠ .producer → o.pushed = []
  consumed : a.thread ≠ .consumer → o.consumed = []

theorem Access.of_producer (ha : a.thread = .producer) (ho : o.consumed = [])
    {queue : SPSCQueue α} {producer : Producer α}
    (hown : QueryStep s { s with queue, producer } a o) :
    Access s { s with queue, producer } a o := by
  refine ⟨hown, ?_, fun h => absurd ha h, fun _ => ho⟩
  intro th hne
  cases th with
  | producer => exact absurd ha hne
  | _ => rfl

theorem Access.of_consumer (ha : a.thread = .consumer) (ho : o.pushed = [])
    {queue : SPSCQueue α} {consumer : Consumer α} {peeked : Option Nat}
    (hown : QueryStep s { s with queue, consumer, peeked } a o) :
    Access s { s with queue, consumer, peeked } a o := by
  refine ⟨hown, ?_, fun _ => ho, fun h => absurd ha h⟩
  intro th hne
  cases th with
  | consumer => exact absurd ha hne
  | _ => rfl

theorem Access.of_observer {k : Nat} (ha : a.thread = .observer k)
    (ho : o.pushed = [] ∧ o.consumed = []) {querying : Option Querying}
    (hown : QueryStep s { s with observer := Function.update s.observer k querying } a o) :
    Access s { s with observer := Function.update s.observer k querying } a o := by
  refine ⟨hown, ?_, fun _ => ho.1, fun _ => ho.2⟩
  intro th hne
  cases th with
  | observer j =>
      have hjk : j ≠ k := by
        rintro rfl
        exact hne ha
      exact Function.update_of_ne hjk ..
  | _ => rfl

theorem stepProducer_access (hstep : stepProducer C s = some (s', o)) :
    Access s s' .producer o := by
  unfold stepProducer at hstep
  cases hp : s.producer with
  | idle => simp [hp] at hstep
  | pushing item t =>
      simp only [hp] at hstep
      split at hstep
      · obtain ⟨rfl, rfl⟩ := Prod.mk.inj (Option.some.inj hstep)
        exact .of_producer rfl rfl (.other rfl id)
      · obtain ⟨rfl, rfl⟩ := Prod.mk.inj (Option.some.inj hstep)
        exact .of_producer rfl rfl (.other rfl id)
  | querying query =>
      rw [hp] at hstep
      obtain ⟨rfl, rfl⟩ := Prod.mk.inj (Option.some.inj hstep)
      apply Access.of_producer rfl (answer_silent s.queue query).2
      exact .answers query (congrArg Producer.query hp) rfl rfl
  | _ =>
      rw [hp] at hstep
      obtain ⟨rfl, rfl⟩ := Prod.mk.inj (Option.some.inj hstep)
      exact .of_producer rfl rfl (.other rfl id)

theorem stepConsumer_access (hstep : stepConsumer C s = some (s', o)) :
    Access s s' .consumer o := by
  unfold stepConsumer at hstep
  cases hc : s.consumer with
  | idle => simp [hc] at hstep
  | popping h =>
      simp only [hc] at hstep
      split at hstep
      · obtain ⟨rfl, rfl⟩ := Prod.mk.inj (Option.some.inj hstep)
        exact .of_consumer rfl rfl (.other rfl id)
      · obtain ⟨rfl, rfl⟩ := Prod.mk.inj (Option.some.inj hstep)
        exact .of_consumer rfl rfl (.other rfl id)
  | peeking h =>
      simp only [hc] at hstep
      split at hstep
      · obtain ⟨rfl, rfl⟩ := Prod.mk.inj (Option.some.inj hstep)
        exact .of_consumer rfl rfl (.other rfl id)
      · obtain ⟨rfl, rfl⟩ := Prod.mk.inj (Option.some.inj hstep)
        exact .of_consumer rfl rfl (.other rfl id)
  | querying query =>
      rw [hc] at hstep
      obtain ⟨rfl, rfl⟩ := Prod.mk.inj (Option.some.inj hstep)
      apply Access.of_consumer rfl (answer_silent s.queue query).1
      exact .answers query (congrArg Consumer.query hc) rfl rfl
  | _ =>
      rw [hc] at hstep
      obtain ⟨rfl, rfl⟩ := Prod.mk.inj (Option.some.inj hstep)
      exact .of_consumer rfl rfl (.other rfl id)

theorem step_access (hstep : step C s a = some (s', o)) : Access s s' a o := by
  cases a with
  | producer => exact stepProducer_access hstep
  | consumer => exact stepConsumer_access hstep
  | tryPush item =>
      simp only [step] at hstep
      split at hstep
      · obtain ⟨rfl, rfl⟩ := Prod.mk.inj (Option.some.inj hstep)
        exact .of_producer rfl rfl (.other rfl id)
      · exact absurd hstep (by simp)
  | producerQuery query =>
      simp only [step] at hstep
      split at hstep
      · obtain ⟨rfl, rfl⟩ := Prod.mk.inj (Option.some.inj hstep)
        exact .of_producer rfl rfl (.asks query rfl rfl rfl)
      · exact absurd hstep (by simp)
  | consumerQuery query =>
      simp only [step] at hstep
      split at hstep
      · obtain ⟨rfl, rfl⟩ := Prod.mk.inj (Option.some.inj hstep)
        exact .of_consumer rfl rfl (.asks query rfl rfl rfl)
      · exact absurd hstep (by simp)
  | observerQuery k query =>
      simp only [step] at hstep
      split at hstep
      · obtain ⟨rfl, rfl⟩ := Prod.mk.inj (Option.some.inj hstep)
        exact .of_observer rfl ⟨rfl, rfl⟩ (.asks query rfl (Function.update_self ..) rfl)
      · exact absurd hstep (by simp)
  | observer k =>
      simp only [step] at hstep
      split at hstep
      · exact absurd hstep (by simp)
      · next query hk =>
          obtain ⟨rfl, rfl⟩ := Prod.mk.inj (Option.some.inj hstep)
          apply Access.of_observer rfl (answer_silent s.queue query)
          exact .answers query hk (Function.update_self ..) rfl
  | read =>
      simp only [step] at hstep
      split at hstep
      · next hidle _ =>
          obtain ⟨rfl, rfl⟩ := Prod.mk.inj (Option.some.inj hstep)
          exact .of_consumer rfl rfl (.other (congrArg Consumer.query hidle) id)
      · exact absurd hstep (by simp)
  | _ =>
      simp only [step] at hstep
      split at hstep
      · obtain ⟨rfl, rfl⟩ := Prod.mk.inj (Option.some.inj hstep)
        exact .of_consumer rfl rfl (.other rfl id)
      · exact absurd hstep (by simp)

/-- An answer that reports on the queue answers the thread's query. -/
theorem step_reports (hstep : step C s a = some (s', o)) (ho : o.Reports) :
    ∃ querying, s.query a.thread = some querying ∧ o = s.queue.answer querying := by
  cases (step_access hstep).own with
  | asks query _ _ hpending =>
      rw [hpending] at ho
      exact ho.elim
  | answers querying hquery _ hanswer => exact ⟨querying, hquery, hanswer⟩
  | other _ hcall => exact absurd ho hcall

theorem answer_ne_peek (self : SPSCQueue α) (query : Querying) (found : Bool) :
    self.answer query ≠ .peek found := by
  cases query <;> simp [answer]

/-- A peek that found an item left its pointer with the consumer. -/
theorem step_peeked (hstep : step C s a = some (s', .peek true)) :
    ∃ slot, s'.peeked = some slot := by
  cases a with
  | consumer =>
      change stepConsumer C s = _ at hstep
      unfold stepConsumer at hstep
      cases hc : s.consumer with
      | peeking h =>
          simp only [hc] at hstep
          split at hstep
          · exact absurd (congrArg Prod.snd (Option.some.inj hstep)) (by simp)
          · obtain ⟨rfl, -⟩ := Prod.mk.inj (Option.some.inj hstep)
            exact ⟨_, rfl⟩
      | popping h =>
          simp only [hc] at hstep
          split at hstep <;> exact absurd (congrArg Prod.snd (Option.some.inj hstep)) (by simp)
      | querying query =>
          rw [hc] at hstep
          exact absurd (congrArg Prod.snd (Option.some.inj hstep)) (answer_ne_peek _ _ _)
      | _ => simp [hc] at hstep
  | producer =>
      change stepProducer C s = _ at hstep
      unfold stepProducer at hstep
      cases hp : s.producer with
      | pushing item t =>
          simp only [hp] at hstep
          split at hstep <;> exact absurd (congrArg Prod.snd (Option.some.inj hstep)) (by simp)
      | querying query =>
          rw [hp] at hstep
          exact absurd (congrArg Prod.snd (Option.some.inj hstep)) (answer_ne_peek _ _ _)
      | _ => simp [hp] at hstep
  | observer k =>
      simp only [step] at hstep
      split at hstep
      · exact absurd hstep (by simp)
      · exact absurd (congrArg Prod.snd (Option.some.inj hstep)) (answer_ne_peek _ _ _)
  | _ =>
      simp only [step] at hstep
      split at hstep <;> simp at hstep

/-- A consuming call fails on an empty queue only. -/
theorem Answer.Truthful.popFailed {items : List α} {head : Nat}
    (h : o.Truthful C items head) (ho : o.popOutcome = some false) : items.length = head := by
  cases o with
  | tryPop item =>
      cases item with
      | none => exact h
      | some item => exact absurd ho (by simp [Answer.popOutcome])
  | peek found =>
      cases found with
      | true => exact absurd ho (by simp [Answer.popOutcome])
      | false => exact h
  | _ => exact absurd ho (by simp [Answer.popOutcome])

/-- A push fails on a full queue only. -/
theorem Answer.Truthful.pushFailed {items : List α} {head : Nat}
    (h : o.Truthful C items head) (ho : o.pushOutcome = some false) :
    items.length = head + C.size := by
  cases o with
  | tryPush item pushed =>
      obtain rfl : pushed = false := Option.some.inj ho
      exact h
  | _ => exact absurd ho (by simp [Answer.pushOutcome])

/-- The consumer gets the next item. -/
theorem Answer.Truthful.gotNext {items : List α} {head : Nat} {item : α}
    (h : o.Truthful C items head) (ho : o.got = some item) : items[head]? = some item := by
  cases o with
  | tryPop x =>
      obtain rfl : x = some item := ho
      exact h
  | read x =>
      obtain rfl : x = item := Option.some.inj ho
      exact h
  | popCommit x =>
      obtain rfl : x = item := Option.some.inj ho
      exact h
  | _ => exact absurd ho (by simp [Answer.got])

/-- A consumer that is in a call ends it with three accesses at most, whatever the
    queue holds. -/
theorem consumer_returns (C : Capacity) (s : System α) :
    ∃ k ≤ 3, ∃ t outs, exec (step C) s (List.replicate k .consumer) = some (t, outs) ∧
      t.consumer = .idle := by
  cases hc : s.consumer with
  | idle => exact ⟨0, by omega, s, [], rfl, hc⟩
  | popping h =>
      by_cases hempty : h ≥ s.queue.tail
      · exact ⟨1, by omega, by simp [List.replicate, exec, step, stepConsumer, hc, hempty]⟩
      · exact ⟨3, by omega, by simp [List.replicate, exec, step, stepConsumer, hc, hempty]⟩
  | popFound h =>
      exact ⟨2, by omega, by simp [List.replicate, exec, step, stepConsumer, hc]⟩
  | peeking h =>
      by_cases hempty : h ≥ s.queue.tail
      · exact ⟨1, by omega, by simp [List.replicate, exec, step, stepConsumer, hc, hempty]⟩
      · exact ⟨1, by omega, by simp [List.replicate, exec, step, stepConsumer, hc, hempty]⟩
  | _ => exact ⟨1, by omega, by simp [List.replicate, exec, step, stepConsumer, hc]⟩

/-- A producer that is in a call ends it with three accesses at most. -/
theorem producer_returns (C : Capacity) (s : System α) :
    ∃ k ≤ 3, ∃ t outs, exec (step C) s (List.replicate k .producer) = some (t, outs) ∧
      t.producer = .idle := by
  cases hp : s.producer with
  | idle => exact ⟨0, by omega, s, [], rfl, hp⟩
  | pushing item t =>
      by_cases hfull : subUInt64 t s.queue.head ≥ C.size
      · exact ⟨1, by omega, by simp [List.replicate, exec, step, stepProducer, hp, hfull]⟩
      · exact ⟨3, by omega, by simp [List.replicate, exec, step, stepProducer, hp, hfull]⟩
  | hasRoom item t =>
      exact ⟨2, by omega, by simp [List.replicate, exec, step, stepProducer, hp]⟩
  | _ => exact ⟨1, by omega, by simp [List.replicate, exec, step, stepProducer, hp]⟩

end

-- ============================================================================
-- Every interleaving
-- ============================================================================

section

variable [Inhabited α] {C : Capacity}

/-- A thread is between the two loads of a query: it made the first one after
    `before`, in state `s₀`, and no access since. -/
structure Asked (C : Capacity) (th : Thread) (schedule : List (Action α))
    (answers : List (Answer α)) (querying : Querying) (before : List (Action α)) (s₀ : System α)
    (answers₀ : List (Answer α)) : Prop where
  first : ∃ query between, schedule = before ++ th.asks query :: between ∧
    (∀ b ∈ between, b.thread ≠ th) ∧ querying = s₀.queue.ask query
  run : exec (step C) System.make before = some (s₀, answers₀)
  earlier : answers₀ <+: answers
  producer : th = .producer → pushed answers = pushed answers₀
  consumer : th = .consumer → consumed answers = consumed answers₀

theorem Asked.pushed_le {th : Thread} {schedule before : List (Action α)}
    {answers answers₀ : List (Answer α)} {querying : Querying} {s₀ : System α}
    (h : Asked C th schedule answers querying before s₀ answers₀) :
    (pushed answers₀).length ≤ (pushed answers).length := by
  obtain ⟨after, rfl⟩ := h.earlier
  simp only [pushed_append, List.length_append]
  omega

/-- A thread's query began with a load, and the thread has waited since. -/
theorem run_asked {schedule : List (Action α)} {s : System α} {answers : List (Answer α)}
    {th : Thread} {querying : Querying}
    (hrun : exec (step C) (System.make : System α) schedule = some (s, answers))
    (hquery : s.query th = some querying) :
    ∃ before s₀ answers₀, Asked C th schedule answers querying before s₀ answers₀ := by
  induction schedule using List.reverseRecOn generalizing s answers with
  | nil =>
      obtain ⟨rfl, rfl⟩ := Prod.mk.inj (Option.some.inj hrun)
      cases th <;> exact absurd hquery (by simp [System.make, System.query, Producer.query,
        Consumer.query])
  | append_singleton schedule a ih =>
      obtain ⟨r, answers, o, hbefore, hstep, rfl⟩ := exec_snoc_inv hrun
      have haccess := step_access hstep
      by_cases hth : a.thread = th
      · subst hth
        cases haccess.own with
        | asks query hasks hnew hpending =>
            obtain rfl := Option.some.inj (hnew.symm.trans hquery)
            refine ⟨schedule, r, answers, ⟨query, [], ?_, by simp, rfl⟩, hbefore,
              List.prefix_append _ _, ?_, ?_⟩
            · rw [← hasks]
            · intro _
              rw [hpending, pushed_snoc]
              exact List.append_nil _
            · intro _
              rw [hpending, consumed_snoc]
              exact List.append_nil _
        | answers _ _ hidle _ => exact absurd (hidle.symm.trans hquery) (by simp)
        | other hidle _ => exact absurd (hidle.symm.trans hquery) (by simp)
      · rw [haccess.others th hth] at hquery
        obtain ⟨before, s₀, answers₀, h⟩ := ih hbefore hquery
        obtain ⟨query, between, rfl, hwait, hload⟩ := h.first
        refine ⟨before, s₀, answers₀, ⟨query, between ++ [a], by simp, ?_, hload⟩, h.run,
          h.earlier.trans (List.prefix_append _ _), ?_, ?_⟩
        · intro b hb
          rcases List.mem_append.mp hb with hb | hb
          · exact hwait b hb
          · rw [List.mem_singleton.mp hb]
            exact hth
        · rintro rfl
          rw [pushed_snoc, haccess.pushed hth, List.append_nil, h.producer rfl]
        · rintro rfl
          rw [consumed_snoc, haccess.consumed hth, List.append_nil, h.consumer rfl]

/-- Every later answer is true of the history before it. -/
theorem later_truthful {schedule later : List (Action α)} {s t : System α}
    {answers pre post : List (Answer α)} {o : Answer α}
    (hrun : exec (step C) (System.make : System α) schedule = some (s, answers))
    (hlater : exec (step C) s later = some (t, pre ++ o :: post))
    (hfew : (pushed (answers ++ (pre ++ o :: post))).length < 2 ^ 64) :
    o.Truthful C (pushed (answers ++ pre)) (consumed (answers ++ pre)).length := by
  obtain ⟨cs₁, c, cs₂, u, v, rfl, hpre, hstep, -⟩ := exec_split hlater
  have hshort : (pushed (answers ++ pre)).length < 2 ^ 64 := by
    simp only [pushed_append, List.length_append] at hfew ⊢
    omega
  exact step_truthful (run_history (exec_append hrun hpre) hshort).inv hstep

/-- The next `n` consuming calls succeed when that many items wait. -/
theorem pops_succeed {schedule later : List (Action α)} {s t : System α}
    {answers more : List (Answer α)} {n : Nat}
    (hrun : exec (step C) (System.make : System α) schedule = some (s, answers))
    (hlater : exec (step C) s later = some (t, more))
    (hfew : (pushed (answers ++ more)).length < 2 ^ 64)
    (hn : (consumed answers).length + n ≤ (pushed answers).length) :
    ∀ ok ∈ (more.filterMap Answer.popOutcome).take n, ok = true := by
  apply take_outcomes
  rintro pre o post rfl ho
  have hempty := (later_truthful hrun hlater hfew).popFailed ho
  rw [← consumed_length]
  simp only [pushed_append, consumed_append, List.length_append] at hempty
  omega

/-- The next `n` pushes succeed when there is room for that many. -/
theorem pushes_succeed {schedule later : List (Action α)} {s t : System α}
    {answers more : List (Answer α)} {n : Nat}
    (hrun : exec (step C) (System.make : System α) schedule = some (s, answers))
    (hlater : exec (step C) s later = some (t, more))
    (hfew : (pushed (answers ++ more)).length < 2 ^ 64)
    (hn : (pushed answers).length + n ≤ (consumed answers).length + C.size) :
    ∀ ok ∈ (more.filterMap Answer.pushOutcome).take n, ok = true := by
  apply take_outcomes
  rintro pre o post rfl ho
  have hfull := (later_truthful hrun hlater hfew).pushFailed ho
  rw [← pushed_length]
  simp only [pushed_append, consumed_append, List.length_append] at hfull
  omega

/-- What the consumer gets next is the item behind its pointer. -/
theorem next_item {schedule later : List (Action α)} {s t : System α}
    {answers more : List (Answer α)} {slot : Nat}
    (hrun : exec (step C) (System.make : System α) schedule = some (s, answers))
    (hlater : exec (step C) s later = some (t, more))
    (hfew : (pushed (answers ++ more)).length < 2 ^ 64) (hslot : s.peeked = some slot)
    {pre post : List (Answer α)} {o : Answer α} {item : α} (hmore : more = pre ++ o :: post)
    (hnone : consumed pre = []) (ho : o.got = some item) : item = s.queue.buffer slot := by
  subst hmore
  have hshort : (pushed answers).length < 2 ^ 64 := by
    rw [pushed_append, List.length_append] at hfew
    omega
  have hs := run_history hrun hshort
  obtain ⟨rfl, hlt⟩ := hs.inv.peeked slot hslot
  have hitem := (later_truthful hrun hlater hfew).gotNext ho
  rw [consumed_append, hnone, List.append_nil, pushed_append, List.getElem?_append_left hlt,
    hs.inv.front hlt] at hitem
  exact (Option.some.inj hitem).symm

/-- `size_approx` counts from the tail at its first load to the head at its second. -/
theorem size_answer {schedule : List (Action α)} {r s : System α} {a : Action α}
    {answers : List (Answer α)} {n : Nat}
    (hrun : exec (step C) (System.make : System α) schedule = some (r, answers))
    (hfew : (pushed answers).length < 2 ^ 64) (hstep : step C r a = some (s, .sizeApprox n)) :
    ∃ before s₀ answers₀ between, schedule = before ++ a.thread.asks .sizeApprox :: between ∧
      Asked C a.thread schedule answers (.sizeTail s₀.queue.tail) before s₀ answers₀ ∧
      (∀ b ∈ between, b.thread ≠ a.thread) ∧
      n = (pushed answers₀).length - (consumed answers).length := by
  obtain ⟨querying, hquery, hanswer⟩ := step_reports hstep trivial
  obtain ⟨before, s₀, answers₀, hasked⟩ := run_asked hrun hquery
  obtain ⟨query, between, hschedule, hwait, rfl⟩ := hasked.first
  cases query with
  | empty headFirst => cases headFirst <;> exact absurd hanswer (by simp [ask, answer])
  | sizeApprox =>
      refine ⟨before, s₀, answers₀, between, hschedule, hasked, hwait, ?_⟩
      have hle := hasked.pushed_le
      have hload := (run_history hasked.run (by omega)).inv.tail_eq
      have hhead := (run_history hrun hfew).inv.head_eq
      obtain rfl := Answer.sizeApprox.inj hanswer
      rw [hload, hhead]
      split
      · next hge => exact subUInt64_eq (by omega) hge
      · omega

/-- The consumer's `empty` is false only when an item waits. -/
theorem empty_answer {schedule : List (Action α)} {r s : System α} {a : Action α}
    {answers : List (Answer α)}
    (hrun : exec (step C) (System.make : System α) schedule = some (r, answers))
    (hfew : (pushed answers).length < 2 ^ 64) (hstep : step C r a = some (s, .empty false))
    (ha : a.thread = .consumer) : (consumed answers).length < (pushed answers).length := by
  obtain ⟨querying, hquery, hanswer⟩ := step_reports hstep trivial
  obtain ⟨before, s₀, answers₀, hasked⟩ := run_asked hrun hquery
  obtain ⟨query, between, -, -, rfl⟩ := hasked.first
  have hle := hasked.pushed_le
  have hsame := hasked.consumer ha
  have hload := (run_history hasked.run (by omega)).inv
  have hnow := (run_history hrun hfew).inv
  cases query with
  | sizeApprox => exact absurd hanswer (by simp [ask, answer])
  | empty headFirst =>
      cases headFirst with
      | true =>
          have hgt := of_decide_eq_false (Answer.empty.inj hanswer).symm
          rw [hload.head_eq, hnow.tail_eq, ← hsame] at hgt
          omega
      | false =>
          have hgt := of_decide_eq_false (Answer.empty.inj hanswer).symm
          rw [hload.tail_eq, hnow.head_eq] at hgt
          omega

end

/-- What an answer to an access of thread `th` promises for the answers `more` that
    follow it, when it leaves the system in `s`. -/
structure Usable (C : Capacity) (th : Thread) (o : Answer α) (s : System α)
    (more : List (Answer α)) : Prop where
  /-- The consumer can consume as many items as it counted. -/
  size : ∀ n, th = .consumer → o = .sizeApprox n →
    ∀ ok ∈ (more.filterMap Answer.popOutcome).take n, ok = true
  /-- It can consume one after it saw that the queue is not empty. -/
  empty : th = .consumer → o = .empty false →
    ∀ ok ∈ (more.filterMap Answer.popOutcome).take 1, ok = true
  peek : o = .peek true → ∀ ok ∈ (more.filterMap Answer.popOutcome).take 1, ok = true
  /-- It gets what it peeked. -/
  item : o = .peek true → ∃ slot, s.peeked = some slot ∧
    ∀ pre x post item, more = pre ++ x :: post → consumed pre = [] → x.got = some item →
      item = s.queue.buffer slot
  /-- The producer can push as many items as it did not count. -/
  room : ∀ n, th = .producer → o = .sizeApprox n →
    ∀ ok ∈ (more.filterMap Answer.pushOutcome).take (C.size - n), ok = true

/-- A size that thread `th` reads after the schedule was there when the thread loaded
    `tail_`, which was its last access. -/
structure WasThere [Inhabited α] (C : Capacity) (schedule : List (Action α)) (th : Thread)
    (n : Nat) : Prop where
  bounded : n ≤ C.size
  load : ∃ before between s₀ answers₀, schedule = before ++ th.asks .sizeApprox :: between ∧
    (∀ b ∈ between, b.thread ≠ th) ∧
    exec (step C) (System.make : System α) before = some (s₀, answers₀) ∧
    n ≤ (pushed answers₀).length - (consumed answers₀).length

/-- Both roles end the calls that they are in. -/
structure Returns (C : Capacity) (s : System α) : Prop where
  consumer : ∃ k ≤ 3, ∃ t outs, exec (step C) s (List.replicate k .consumer) = some (t, outs) ∧
    t.consumer = .idle
  producer : ∃ k ≤ 3, ∃ t outs, exec (step C) s (List.replicate k .producer) = some (t, outs) ∧
    t.producer = .idle

/-- Under every interleaving with fewer than `2 ^ 64` pushes, what a role reads of the
    queue holds good for its next calls, whatever the other side does meanwhile, and
    no `size_approx` exceeds the capacity or what was in the queue when it loaded `tail_`. -/
theorem run_usable [Inhabited α] (C : Capacity) (schedule later : List (Action α))
    (a : Action α) {s t : System α} {answers more : List (Answer α)} {o : Answer α}
    (hrun : exec (step C) (System.make : System α) (schedule ++ [a]) = some (s, answers ++ [o]))
    (hlater : exec (step C) s later = some (t, more))
    (hfew : (pushed (answers ++ [o] ++ more)).length < 2 ^ 64) :
    Usable C a.thread o s more ∧ (∀ n, o = .sizeApprox n → WasThere C schedule a.thread n) ∧
      Returns C t := by
  obtain ⟨r, answers', o', hbefore, hstep, hanswers⟩ := exec_snoc_inv hrun
  obtain ⟨rfl, ho⟩ := List.append_inj' hanswers rfl
  obtain ⟨rfl, -⟩ := List.cons.inj ho
  have hshort : (pushed answers).length < 2 ^ 64 := by
    simp only [pushed_append, List.length_append] at hfew
    omega
  have hr := run_history hbefore hshort
  refine ⟨⟨?_, ?_, ?_, ?_, ?_⟩, ?_, consumer_returns C t, producer_returns C t⟩
  · rintro n ha rfl
    apply pops_succeed hrun hlater hfew
    obtain ⟨before, s₀, answers₀, between, -, hasked, -, rfl⟩ := size_answer hbefore hshort hstep
    have hle := hasked.pushed_le
    have hbehind := hr.inv.behind
    simp only [pushed_snoc, consumed_snoc, Answer.pushed, Answer.consumed, List.append_nil]
    omega
  · rintro ha rfl
    apply pops_succeed hrun hlater hfew
    have hlt := empty_answer hbefore hshort hstep ha
    simp only [pushed_snoc, consumed_snoc, Answer.pushed, Answer.consumed, List.append_nil]
    omega
  · rintro rfl
    apply pops_succeed hrun hlater hfew
    have hlt : (consumed answers).length < (pushed answers).length := step_truthful hr.inv hstep
    simp only [pushed_snoc, consumed_snoc, Answer.pushed, Answer.consumed, List.append_nil]
    omega
  · rintro rfl
    obtain ⟨slot, hslot⟩ := step_peeked hstep
    refine ⟨slot, hslot, ?_⟩
    intro pre x post item hmore hnone hx
    exact next_item hrun hlater hfew hslot hmore hnone hx
  · rintro n ha rfl
    apply pushes_succeed hrun hlater hfew
    obtain ⟨before, s₀, answers₀, between, -, hasked, -, rfl⟩ := size_answer hbefore hshort hstep
    have hsame := hasked.producer ha
    have hbehind := hr.inv.behind
    have hbounded := hr.inv.bounded
    simp only [pushed_snoc, consumed_snoc, Answer.pushed, Answer.consumed, List.append_nil]
    rw [hsame] at hbehind hbounded ⊢
    omega
  · rintro n rfl
    obtain ⟨before, s₀, answers₀, between, hschedule, hasked, hwait, rfl⟩ :=
      size_answer hbefore hshort hstep
    obtain ⟨after, rfl⟩ := hasked.earlier
    have hload : (pushed answers₀).length ≤ (consumed answers₀).length + C.size := by
      apply (run_history hasked.run _).inv.bounded
      simp only [pushed_append, List.length_append] at hshort
      omega
    rw [consumed_append, List.length_append]
    exact ⟨by omega, before, between, s₀, answers₀, hschedule, hwait, hasked.run, by omega⟩

/-- The consumer counts one item while a second one is pushed between its loads. -/
def countingSchedule : List (Action Nat) :=
  [.tryPush 7, .producer, .producer, .producer, .consumerQuery .sizeApprox,
    .tryPush 8, .producer, .producer, .producer]

/-- A pop, and a commit after a peek. -/
def consumingSchedule : List (Action Nat) :=
  [.tryPop, .consumer, .consumer, .consumer, .peek, .consumer, .popCommit, .consumer]

/-- The counted item is there, and the one that came later too. -/
theorem sample_usable : ∃ s t answers more,
    exec (step Capacity.two) (System.make : System Nat) (countingSchedule ++ [.consumer]) =
        some (s, answers ++ [.sizeApprox 1]) ∧
      exec (step Capacity.two) s consumingSchedule = some (t, more) ∧
      more.filterMap Answer.popOutcome = [true, true] ∧ consumed more = [7, 8] ∧
      Usable Capacity.two .consumer (.sizeApprox 1) s more ∧
      WasThere Capacity.two countingSchedule .consumer 1 ∧ Returns Capacity.two t := by
  obtain ⟨s, t, answers, more, hrun, hlater, houtcomes, hconsumed, hpushed⟩ :
      ∃ s t answers more,
        exec (step Capacity.two) (System.make : System Nat) (countingSchedule ++ [.consumer]) =
            some (s, answers ++ [.sizeApprox 1]) ∧
          exec (step Capacity.two) s consumingSchedule = some (t, more) ∧
          more.filterMap Answer.popOutcome = [true, true] ∧ consumed more = [7, 8] ∧
          pushed (answers ++ [.sizeApprox 1] ++ more) = [7, 8] :=
    ⟨_, _, [.pending, .pending, .pending, .tryPush 7 true, .pending, .pending, .pending, .pending,
      .tryPush 8 true], _, rfl, rfl, rfl, rfl, rfl⟩
  obtain ⟨husable, hthere, hreturns⟩ := run_usable Capacity.two countingSchedule
    consumingSchedule .consumer hrun hlater (by rw [hpushed]; decide)
  exact ⟨s, t, answers, more, hrun, hlater, houtcomes, hconsumed, husable, hthere 1 rfl, hreturns⟩

end SPSCQueue

end LimitOrderBook
