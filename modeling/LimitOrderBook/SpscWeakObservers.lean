/-
  LimitOrderBook.SpscWeakObservers

  What the roles may rely on when the queue runs on the weak memory.

  What a role has seen of the other counter stays below the truth and never falls,
  so it can count on the items or the room that it saw, as in `SpscObservers`, but
  without a look at the other side: the promise is one about its own view.

  A push hands the view of the producer to the consumer that pops the item, and a
  pop hands the view of the consumer back to the producer that fills the slot
  again.  Everything that happened before the one happens before what follows the
  other, in this memory or in any other that the threads share.

  The interleavings of `SpscQueue` are those runs in which every load picks the
  last message.
-/
import LimitOrderBook.SpscWeakFifo

namespace LimitOrderBook

open Lib Ring WeakMemory Memory

namespace SPSCQueue

variable {α : Type*}

section

variable {C : Capacity} {s s' : WeakSystem α} {items : List α} {head : Nat} {th : Thread}
  {pick : Nat} {m : SharedMemory α} {action : Action α} {o : Answer α}

-- ============================================================================
-- What an access does to the memory
-- ============================================================================

/-- The one operation on the memory that an access of thread `th` is. -/
inductive Effect (m m' : SharedMemory α) (th : Thread) (o : Answer α) : Prop where
  | load (a : Counter) (acquire : Bool) (i n : Nat)
      (hload : m.load th a acquire i = some (m', n))
      (hpushed : o.pushed = []) (hconsumed : o.consumed = [])
  | access (x : WeakMemory.Access Nat) (value : Nat → α)
      (haccess : m' = { m.access th x with value })
      (hpushed : o.pushed = []) (hconsumed : o.consumed = [])
  | publish (n : Nat) (hth : th = .producer)
      (hstore : m.store .producer .tail n = some m') (hconsumed : o.consumed = [])
  | consume (n : Nat) (hth : th = .consumer)
      (hstore : m.store .consumer .head n = some m') (hpushed : o.pushed = [])

theorem weakAsk_effect {query : Query} {q : Querying}
    (h : weakAsk m th pick query = some (s.memory, q)) :
    Effect m s.memory th (.pending : Answer α) := by
  cases query with
  | empty headFirst =>
      cases headFirst <;>
        · obtain ⟨⟨m', n⟩, hload, heq⟩ := Option.map_eq_some_iff.mp h
          obtain ⟨rfl, -⟩ := Prod.mk.inj heq
          exact .load _ _ _ _ hload rfl rfl
  | sizeApprox =>
      obtain ⟨⟨m', n⟩, hload, heq⟩ := Option.map_eq_some_iff.mp h
      obtain ⟨rfl, -⟩ := Prod.mk.inj heq
      exact .load _ _ _ _ hload rfl rfl

theorem weakAnswer_effect {q : Querying} (h : weakAnswer m th pick q = some (s.memory, o)) :
    Effect m s.memory th o ∧ ∀ found, o ≠ .peek found := by
  cases q <;>
    · obtain ⟨⟨m', n⟩, hload, heq⟩ := Option.map_eq_some_iff.mp h
      obtain ⟨rfl, rfl⟩ := Prod.mk.inj heq
      exact ⟨.load _ _ _ _ hload rfl rfl, by simp⟩

theorem weakProducer_effect (h : weakProducer C s pick = some (s', o)) :
    Effect s.memory s'.memory .producer o ∧ ∀ found, o ≠ .peek found := by
  unfold weakProducer at h
  cases hp : s.producer with
  | idle => simp [hp] at h
  | pushing item t =>
      rw [hp] at h
      obtain ⟨⟨m, n⟩, hload, heq⟩ := Option.map_eq_some_iff.mp h
      simp only at heq
      split at heq <;>
        · obtain ⟨rfl, rfl⟩ := Prod.mk.inj heq
          exact ⟨.load _ _ _ _ hload rfl rfl, by simp⟩
  | hasRoom item t =>
      rw [hp] at h
      obtain ⟨rfl, rfl⟩ := Prod.mk.inj (Option.some.inj h)
      exact ⟨.access _ _ rfl rfl rfl, by simp⟩
  | written item t =>
      rw [hp] at h
      obtain ⟨m, hstore, heq⟩ := Option.map_eq_some_iff.mp h
      obtain ⟨rfl, rfl⟩ := Prod.mk.inj heq
      exact ⟨.publish _ rfl hstore rfl, by simp⟩
  | querying q =>
      rw [hp] at h
      obtain ⟨⟨m, answer⟩, hanswer, heq⟩ := Option.map_eq_some_iff.mp h
      obtain ⟨rfl, rfl⟩ := Prod.mk.inj heq
      exact @weakAnswer_effect _ { s with memory := m } _ _ _ _ _ hanswer

theorem weakConsumer_effect (h : weakConsumer C s pick = some (s', o)) :
    Effect s.memory s'.memory .consumer o ∧ (o = .peek true → ∃ slot, s'.peeked = some slot) := by
  unfold weakConsumer at h
  cases hc : s.consumer with
  | idle => simp [hc] at h
  | popping k =>
      rw [hc] at h
      obtain ⟨⟨m, n⟩, hload, heq⟩ := Option.map_eq_some_iff.mp h
      simp only at heq
      split at heq <;>
        · obtain ⟨rfl, rfl⟩ := Prod.mk.inj heq
          exact ⟨.load _ _ _ _ hload rfl rfl, by simp⟩
  | popFound k =>
      rw [hc] at h
      obtain ⟨rfl, rfl⟩ := Prod.mk.inj (Option.some.inj h)
      exact ⟨.access ⟨C.index k, false⟩ s.memory.value rfl rfl rfl, by simp⟩
  | popRead k item =>
      rw [hc] at h
      obtain ⟨m, hstore, heq⟩ := Option.map_eq_some_iff.mp h
      obtain ⟨rfl, rfl⟩ := Prod.mk.inj heq
      exact ⟨.consume _ rfl hstore rfl, by simp⟩
  | peeking k =>
      rw [hc] at h
      obtain ⟨⟨m, n⟩, hload, heq⟩ := Option.map_eq_some_iff.mp h
      simp only at heq
      split at heq
      · obtain ⟨rfl, rfl⟩ := Prod.mk.inj heq
        exact ⟨.load _ _ _ _ hload rfl rfl, by simp⟩
      · obtain ⟨rfl, rfl⟩ := Prod.mk.inj heq
        exact ⟨.load _ _ _ _ hload rfl rfl, fun _ => ⟨_, rfl⟩⟩
  | committing k slot =>
      rw [hc] at h
      obtain ⟨m, hstore, heq⟩ := Option.map_eq_some_iff.mp h
      obtain ⟨rfl, rfl⟩ := Prod.mk.inj heq
      exact ⟨.consume _ rfl hstore rfl, by simp⟩
  | querying q =>
      rw [hc] at h
      obtain ⟨⟨m, answer⟩, hanswer, heq⟩ := Option.map_eq_some_iff.mp h
      obtain ⟨rfl, rfl⟩ := Prod.mk.inj heq
      obtain ⟨heffect, hpeek⟩ := @weakAnswer_effect _ { s with memory := m } _ _ _ _ _ hanswer
      exact ⟨heffect, fun ho => absurd ho (hpeek true)⟩

/-- The first access of a call loads. -/
theorem Effect.of_load {a : Counter} {acquire : Bool} {β : Type*} {f : SharedMemory α × Nat → β}
    {b : β} (h : (m.load th a acquire pick).map f = some b) :
    ∃ m' n, f (m', n) = b ∧ Effect m m' th (.pending : Answer α) := by
  obtain ⟨⟨m', n⟩, hload, heq⟩ := Option.map_eq_some_iff.mp h
  exact ⟨m', n, heq, .load _ _ _ _ hload rfl rfl⟩

theorem weakStep_effect (h : weakStep C s (action, pick) = some (s', o)) :
    Effect s.memory s'.memory action.thread o ∧
      (o = .peek true → ∃ slot, s'.peeked = some slot) := by
  cases action with
  | producer =>
      obtain ⟨heffect, hpeek⟩ := weakProducer_effect h
      exact ⟨heffect, fun ho => absurd ho (hpeek true)⟩
  | consumer => exact weakConsumer_effect h
  | read =>
      simp only [weakStep] at h
      split at h
      · next slot _ _ =>
          obtain ⟨rfl, rfl⟩ := Prod.mk.inj (Option.some.inj h)
          exact ⟨.access ⟨slot, false⟩ s.memory.value rfl rfl rfl, by simp⟩
      · exact absurd h (by simp)
  | observer k =>
      simp only [weakStep] at h
      split at h
      · exact absurd h (by simp)
      · obtain ⟨⟨m, answer⟩, hanswer, heq⟩ := Option.map_eq_some_iff.mp h
        obtain ⟨rfl, rfl⟩ := Prod.mk.inj heq
        obtain ⟨heffect, hpeek⟩ := @weakAnswer_effect _ { s with memory := m } _ _ _ _ _ hanswer
        exact ⟨heffect, fun ho => absurd ho (hpeek true)⟩
  | producerQuery query | consumerQuery query | observerQuery k query =>
      simp only [weakStep] at h
      split at h
      · obtain ⟨⟨m, q⟩, hask, heq⟩ := Option.map_eq_some_iff.mp h
        obtain ⟨rfl, rfl⟩ := Prod.mk.inj heq
        exact ⟨@weakAsk_effect _ { s with memory := m } _ _ _ _ _ hask, by simp⟩
      · exact absurd h (by simp)
  | tryPush item | tryPop | peek | popCommit =>
      simp only [weakStep] at h
      split at h
      · obtain ⟨m, n, heq, heffect⟩ := Effect.of_load h
        obtain ⟨rfl, rfl⟩ := Prod.mk.inj heq
        exact ⟨heffect, by simp⟩
      · exact absurd h (by simp)

/-- An access adds messages and grows views. -/
theorem Effect.grows {m' : SharedMemory α} (h : Effect m m' th o) : Grows m m' := by
  cases h with
  | load a acquire i n hload => exact load_grows hload
  | access x value haccess =>
      subst haccess
      exact ⟨fun _ => List.prefix_refl _, fun u => access_grows m th u x⟩
  | publish n _ hstore => exact (store_inv hstore).2.grows_memory
  | consume n _ hstore => exact (store_inv hstore).2.grows_memory

end

-- ============================================================================
-- What was seen stays usable
-- ============================================================================

theorem weakRun_grows {C : Capacity} {s t : WeakSystem α} {later : List (Action α × Nat)}
    {more : List (Answer α)} (hlater : exec (weakStep C) s later = some (t, more)) :
    Grows s.memory t.memory := by
  apply @exec_history _ _ _ (weakStep C) (fun t _ => Grows s.memory t.memory) _ _ _
    (Grows.refl _) _ _ hlater
  intro u _ c v o hgrows hstep
  exact hgrows.trans (weakStep_effect hstep).1.grows

section

variable [Inhabited α] {C : Capacity} {schedule later : List (Action α × Nat)}
  {s t : WeakSystem α} {answers more : List (Answer α)}

/-- An answer later in the run, with the view of its thread. -/
theorem weakLater_seen
    (hrun : exec (weakStep C) (WeakSystem.make : WeakSystem α) schedule = some (s, answers))
    {pre post : List (Answer α)} {o : Answer α}
    (hlater : exec (weakStep C) s later = some (t, pre ++ o :: post))
    (hfew : (pushed (answers ++ (pre ++ o :: post))).length < 2 ^ 64) :
    ∃ (th : Thread) (v : Thread → View Counter), (∀ u, s.memory.views u ≤ v u) ∧
      o.Seen C th (v th) (pushed (answers ++ pre)) (consumed (answers ++ pre)).length := by
  obtain ⟨cs₁, c, cs₂, u, v, rfl, hpre, hstep, -⟩ := exec_split hlater
  have hshort : (pushed (answers ++ pre)).length < 2 ^ 64 := by
    simp only [pushed_append, List.length_append] at hfew ⊢
    omega
  have hu := weakRun_history (exec_append hrun hpre) hshort
  refine ⟨c.1.thread, v.memory.views, fun w => ?_, weakStep_seen hu.inv hstep⟩
  exact ((weakRun_grows hpre).views w).trans ((weakStep_effect hstep).1.grows.views w)

/-- The next `n` consuming calls succeed when the consumer has seen that many items. -/
theorem weakPops_succeed {n : Nat}
    (hrun : exec (weakStep C) (WeakSystem.make : WeakSystem α) schedule = some (s, answers))
    (hlater : exec (weakStep C) s later = some (t, more))
    (hfew : (pushed (answers ++ more)).length < 2 ^ 64)
    (hn : (consumed answers).length + n ≤ (s.memory.views .consumer).seen .tail) :
    ∀ ok ∈ (more.filterMap Answer.popOutcome).take n, ok = true := by
  apply take_outcomes
  rintro pre o post rfl ho
  obtain ⟨th, v, hle, hseen⟩ := weakLater_seen hrun hlater hfew
  have hgrows := (hle .consumer).1 .tail
  have hempty : (v .consumer).seen .tail = (consumed (answers ++ pre)).length := by
    cases o with
    | tryPop item =>
        cases item with
        | none =>
            obtain ⟨rfl, hempty⟩ := hseen
            exact hempty
        | some item => exact absurd ho (by simp [Answer.popOutcome])
    | peek found =>
        cases found with
        | false =>
            obtain ⟨rfl, hempty⟩ := hseen
            exact hempty
        | true => exact absurd ho (by simp [Answer.popOutcome])
    | _ => exact absurd ho (by simp [Answer.popOutcome])
  rw [← consumed_length]
  rw [consumed_append, List.length_append] at hempty
  omega

/-- The next `n` pushes succeed when the producer has seen room for that many. -/
theorem weakPushes_succeed {n : Nat}
    (hrun : exec (weakStep C) (WeakSystem.make : WeakSystem α) schedule = some (s, answers))
    (hlater : exec (weakStep C) s later = some (t, more))
    (hfew : (pushed (answers ++ more)).length < 2 ^ 64)
    (hn : (pushed answers).length + n ≤ (s.memory.views .producer).seen .head + C.size) :
    ∀ ok ∈ (more.filterMap Answer.pushOutcome).take n, ok = true := by
  apply take_outcomes
  rintro pre o post rfl ho
  obtain ⟨th, v, hle, hseen⟩ := weakLater_seen hrun hlater hfew
  have hgrows := (hle .producer).1 .head
  have hfull : (pushed (answers ++ pre)).length = (v .producer).seen .head + C.size := by
    cases o with
    | tryPush item ok =>
        cases ok with
        | false =>
            obtain ⟨rfl, hfull⟩ := hseen
            exact hfull
        | true => exact absurd ho (by simp [Answer.pushOutcome])
    | _ => exact absurd ho (by simp [Answer.pushOutcome])
  rw [← pushed_length]
  rw [pushed_append, List.length_append] at hfull
  omega

/-- What the consumer gets next is the item behind its pointer. -/
theorem weakNext_item {slot : Nat}
    (hrun : exec (weakStep C) (WeakSystem.make : WeakSystem α) schedule = some (s, answers))
    (hlater : exec (weakStep C) s later = some (t, more))
    (hfew : (pushed (answers ++ more)).length < 2 ^ 64) (hslot : s.peeked = some slot)
    {pre post : List (Answer α)} {o : Answer α} {item : α} (hmore : more = pre ++ o :: post)
    (hnone : consumed pre = []) (ho : o.got = some item) : item = s.memory.value slot := by
  subst hmore
  have hshort : (pushed answers).length < 2 ^ 64 := by
    rw [pushed_append, List.length_append] at hfew
    omega
  have hs := weakRun_history hrun hshort
  obtain ⟨rfl, hlt⟩ := hs.inv.peeked slot hslot
  obtain ⟨th, v, -, hseen⟩ := weakLater_seen hrun hlater hfew
  have hitem : (pushed (answers ++ pre))[(consumed (answers ++ pre)).length]? = some item := by
    cases o with
    | tryPop found =>
        cases found with
        | none => exact absurd ho (by simp [Answer.got])
        | some x =>
            obtain rfl := Option.some.inj ho
            exact hseen
    | read x | popCommit x =>
        obtain rfl := Option.some.inj ho
        exact hseen
    | _ => exact absurd ho (by simp [Answer.got])
  have hfront := (hs.inv.front hlt).1
  rw [consumed_append, hnone, List.append_nil, pushed_append,
    List.getElem?_append_left (List.getElem?_eq_some_iff.mp hfront).1, hfront] at hitem
  exact (Option.some.inj hitem).symm

end

/-- What a memory holds of a counter last. -/
def lastCount (m : SharedMemory α) (a : Counter) : Nat :=
  ((m.messages a)[(m.messages a).length - 1]?.map Message.value).getD 0

/-- The system as a thread would see it that sees the last store of everything. -/
def WeakSystem.latest (s : WeakSystem α) : System α where
  queue := ⟨s.memory.value, lastCount s.memory .head, lastCount s.memory .tail⟩
  producer := s.producer
  consumer := s.consumer
  peeked := s.peeked
  observer := s.observer

/-- Whatever messages the loads pick, with fewer than `2 ^ 64` pushes, what a role
    reads of the queue holds good for its next calls, and no thread ever reads a size
    above the capacity. -/
theorem weakRun_usable [Inhabited α] (C : Capacity) (schedule later : List (Action α × Nat))
    (action : Action α) (pick : Nat) {s t : WeakSystem α} {answers more : List (Answer α)}
    {o : Answer α}
    (hrun : exec (weakStep C) (WeakSystem.make : WeakSystem α) (schedule ++ [(action, pick)]) =
      some (s, answers ++ [o]))
    (hlater : exec (weakStep C) s later = some (t, more))
    (hfew : (pushed (answers ++ [o] ++ more)).length < 2 ^ 64) :
    Usable C action.thread o s.latest more ∧ ∀ n, o = .sizeApprox n → n ≤ C.size := by
  obtain ⟨r, answers', o', hbefore, hstep, hanswers⟩ := exec_snoc_inv hrun
  obtain ⟨rfl, ho⟩ := List.append_inj' hanswers rfl
  obtain ⟨rfl, -⟩ := List.cons.inj ho
  have hshort : (pushed answers).length < 2 ^ 64 := by
    simp only [pushed_append, List.length_append] at hfew
    omega
  have hr := weakRun_history hbefore hshort
  have hseen := weakStep_seen hr.inv hstep
  refine ⟨⟨?_, ?_, ?_, ?_, ?_⟩, ?_⟩
  · rintro n hth rfl
    apply weakPops_succeed hrun hlater hfew
    have hcount := hseen.2.1 hth
    rw [hth] at hcount
    simp only [consumed_snoc, Answer.consumed, List.append_nil]
    omega
  · rintro hth rfl
    apply weakPops_succeed hrun hlater hfew
    have hcount := hseen hth rfl
    rw [hth] at hcount
    simp only [consumed_snoc, Answer.consumed, List.append_nil]
    omega
  · rintro rfl
    apply weakPops_succeed hrun hlater hfew
    obtain ⟨hth, hcount⟩ := hseen
    rw [if_pos rfl, hth] at hcount
    simp only [consumed_snoc, Answer.consumed, List.append_nil]
    omega
  · rintro rfl
    obtain ⟨slot, hslot⟩ := (weakStep_effect hstep).2 rfl
    refine ⟨slot, hslot, ?_⟩
    intro pre x post item hmore hnone hx
    exact weakNext_item hrun hlater hfew hslot hmore hnone hx
  · rintro n hth rfl
    apply weakPushes_succeed hrun hlater hfew
    have hle := hseen.1
    have hcount := hseen.2.2 hth
    rw [hth] at hcount
    simp only [pushed_snoc, Answer.pushed, List.append_nil]
    omega
  · rintro n rfl
    exact hseen.1

/-- The consumer counts one of two items, pops it, and only then looks again. -/
def countingWeakSchedule : List (Action Nat × Nat) :=
  [(.tryPush 7, 0), (.producer, 0), (.producer, 0), (.producer, 0),
    (.tryPush 8, 1), (.producer, 0), (.producer, 0), (.producer, 0),
    (.consumerQuery .sizeApprox, 1)]

def consumingWeakSchedule : List (Action Nat × Nat) :=
  [(.tryPop, 0), (.consumer, 1), (.consumer, 0), (.consumer, 0), (.peek, 1), (.consumer, 1)]

/-- The counted item is there; the one that the consumer has not seen is not. -/
theorem sample_weakUsable : ∃ s t answers more,
    exec (weakStep Capacity.two) (WeakSystem.make : WeakSystem Nat)
        (countingWeakSchedule ++ [(.consumer, 0)]) = some (s, answers ++ [.sizeApprox 1]) ∧
      exec (weakStep Capacity.two) s consumingWeakSchedule = some (t, more) ∧
      more.filterMap Answer.popOutcome = [true, false] ∧
      Usable Capacity.two .consumer (.sizeApprox 1) s.latest more := by
  obtain ⟨s, t, answers, more, hrun, hlater, houtcomes, hpushed⟩ :
      ∃ s t answers more,
        exec (weakStep Capacity.two) (WeakSystem.make : WeakSystem Nat)
            (countingWeakSchedule ++ [(.consumer, 0)]) = some (s, answers ++ [.sizeApprox 1]) ∧
          exec (weakStep Capacity.two) s consumingWeakSchedule = some (t, more) ∧
          more.filterMap Answer.popOutcome = [true, false] ∧
          pushed (answers ++ [.sizeApprox 1] ++ more) = [7, 8] :=
    ⟨_, _, [.pending, .pending, .pending, .tryPush 7 true, .pending, .pending, .pending,
      .tryPush 8 true, .pending], _, rfl, rfl, rfl, rfl⟩
  obtain ⟨husable, -⟩ := weakRun_usable Capacity.two countingWeakSchedule consumingWeakSchedule
    .consumer 0 hrun hlater (by rw [hpushed]; decide)
  exact ⟨s, t, answers, more, hrun, hlater, houtcomes, husable⟩

-- ============================================================================
-- Hand-over
-- ============================================================================

/-- With fewer than `2 ^ 64` pushes, all that happened before a push returned happens
    before what the consumer does once it has popped that item; and all that happened
    before a pop returned happens before what the producer does once it has pushed as
    many items more as there are slots. -/
theorem weakRun_handsOver [Inhabited α] (C : Capacity) (schedule later : List (Action α × Nat))
    {s t : WeakSystem α} {answers more : List (Answer α)} {o : Answer α}
    (hrun : exec (weakStep C) (WeakSystem.make : WeakSystem α) schedule =
      some (s, answers ++ [o]))
    (hlater : exec (weakStep C) s later = some (t, more))
    (hfew : (pushed (answers ++ [o] ++ more)).length < 2 ^ 64) :
    (o.pushed ≠ [] →
      (pushed (answers ++ [o])).length ≤ (consumed (answers ++ [o] ++ more)).length →
      s.memory.views .producer ≤ t.memory.views .consumer) ∧
    (o.consumed ≠ [] →
      (consumed (answers ++ [o])).length + C.size ≤ (pushed (answers ++ [o] ++ more)).length →
      s.memory.views .consumer ≤ t.memory.views .producer) := by
  have hs : WeakHistory C s (answers ++ [o]) := by
    apply weakRun_history hrun
    rw [pushed_append, List.length_append] at hfew
    omega
  have ht := (weakRun_history (exec_append hrun hlater) hfew).inv
  have hgrows := weakRun_grows hlater
  -- The access that made the answer stored the view of its thread.
  obtain ⟨schedule', ⟨action, pick⟩, rfl⟩ : ∃ cs c, schedule = cs ++ [c] := by
    rcases List.eq_nil_or_concat schedule with rfl | ⟨cs, c, rfl⟩
    · exact absurd (congrArg Prod.snd (Option.some.inj hrun)) (by simp)
    · exact ⟨cs, c, List.concat_eq_append⟩
  obtain ⟨r, answers', o', -, hstep, hanswers⟩ := exec_snoc_inv hrun
  obtain ⟨rfl, ho⟩ := List.append_inj' hanswers rfl
  obtain ⟨rfl, -⟩ := List.cons.inj ho
  refine ⟨fun hpush hcovered => ?_, fun hpop hcovered => ?_⟩
  · cases (weakStep_effect hstep).1 with
    | load _ _ _ _ _ hpushed => exact absurd hpushed hpush
    | access _ _ _ hpushed => exact absurd hpushed hpush
    | consume _ _ _ hpushed => exact absurd hpushed hpush
    | publish n _ hstore =>
        have hstores := (store_inv hstore).2
        have hlast : (s.memory.messages .tail)[(pushed (answers ++ [o])).length]? =
            some ⟨n, s.memory.views .producer⟩ := by
          have hlength := hs.inv.tails.length
          rw [hstores.appended, List.length_append, List.length_singleton] at hlength
          rw [hstores.appended, show (pushed (answers ++ [o])).length =
            (r.memory.messages .tail).length by omega, List.getElem?_concat_length]
        exact ht.wf.seen_view (Nat.le_trans hcovered ht.found) (hgrows.message hlast)
  · cases (weakStep_effect hstep).1 with
    | load _ _ _ _ _ _ hconsumed => exact absurd hconsumed hpop
    | access _ _ _ _ hconsumed => exact absurd hconsumed hpop
    | publish _ _ _ hconsumed => exact absurd hconsumed hpop
    | consume n _ hstore =>
        have hstores := (store_inv hstore).2
        have hlast : (s.memory.messages .head)[(consumed (answers ++ [o])).length]? =
            some ⟨n, s.memory.views .consumer⟩ := by
          have hlength := hs.inv.heads.length
          rw [hstores.appended, List.length_append, List.length_singleton] at hlength
          rw [hstores.appended, show (consumed (answers ++ [o])).length =
            (r.memory.messages .head).length by omega, List.getElem?_concat_length]
        have hroom := ht.room
        exact ht.wf.seen_view (by omega) (hgrows.message hlast)

def pushingWeakSchedule : List (Action Nat × Nat) :=
  [(.tryPush 7, 0), (.producer, 0), (.producer, 0), (.producer, 0)]

def poppingWeakSchedule : List (Action Nat × Nat) :=
  [(.tryPop, 0), (.consumer, 1), (.consumer, 0), (.consumer, 0)]

/-- The third push is the first that needs the slot back. -/
def refillingWeakSchedule : List (Action Nat × Nat) :=
  [(.tryPush 8, 1), (.producer, 0), (.producer, 0), (.producer, 0),
    (.tryPush 9, 2), (.producer, 1), (.producer, 0), (.producer, 0)]

theorem sample_handsOver : ∃ s t u more,
    exec (weakStep Capacity.two) (WeakSystem.make : WeakSystem Nat) pushingWeakSchedule =
        some (s, [.pending, .pending, .pending] ++ [.tryPush 7 true]) ∧
      exec (weakStep Capacity.two) s poppingWeakSchedule =
        some (t, [.pending, .pending, .pending] ++ [.tryPop (some 7)]) ∧
      exec (weakStep Capacity.two) t refillingWeakSchedule = some (u, more) ∧
      s.memory.views .producer ≤ t.memory.views .consumer ∧
      t.memory.views .consumer ≤ u.memory.views .producer := by
  obtain ⟨s, t, u, more, hpush, hpop, hrefill, hmore⟩ : ∃ s t u more,
      exec (weakStep Capacity.two) (WeakSystem.make : WeakSystem Nat) pushingWeakSchedule =
          some (s, [.pending, .pending, .pending] ++ [.tryPush 7 true]) ∧
        exec (weakStep Capacity.two) s poppingWeakSchedule =
          some (t, [.pending, .pending, .pending] ++ [.tryPop (some 7)]) ∧
        exec (weakStep Capacity.two) t refillingWeakSchedule = some (u, more) ∧
        pushed more = [8, 9] := ⟨_, _, _, _, rfl, rfl, rfl, rfl⟩
  refine ⟨s, t, u, more, hpush, hpop, hrefill, ?_, ?_⟩
  · exact (weakRun_handsOver Capacity.two pushingWeakSchedule poppingWeakSchedule hpush hpop
      (by decide)).1 (by decide) (by decide)
  · have hjoined := exec_append hpush hpop
    have hboth : exec (weakStep Capacity.two) (WeakSystem.make : WeakSystem Nat)
        (pushingWeakSchedule ++ poppingWeakSchedule) = some (t, [.pending, .pending, .pending,
          .tryPush 7 true, .pending, .pending, .pending] ++ [.tryPop (some 7)]) := hjoined
    apply (weakRun_handsOver Capacity.two (pushingWeakSchedule ++ poppingWeakSchedule)
      refillingWeakSchedule hboth hrefill _).2 (by decide)
    · rw [pushed_append, hmore]
      decide
    · rw [pushed_append, hmore]
      decide

-- ============================================================================
-- Every interleaving of `SpscQueue` is a run
-- ============================================================================

section

variable {C : Capacity} {w : WeakSystem α} {s : System α} {items : List α} {head n : Nat}
  {th : Thread} {a : Counter} {action : Action α} {o : Answer α} {m m' : SharedMemory α}

theorem Counts.last (h : Counts m a n) :
    ∃ x, (m.messages a)[n]? = some x ∧ x.value = n := by
  have hlt : n < (m.messages a).length := by
    rw [h.length]
    exact Nat.lt_succ_self n
  exact ⟨_, List.getElem?_eq_getElem hlt, h.value n _ (List.getElem?_eq_getElem hlt)⟩

theorem Counts.lastCount_eq (h : Counts m a n) : lastCount m a = n := by
  obtain ⟨x, hx, hvalue⟩ := h.last
  rw [lastCount, h.length, Nat.add_sub_cancel, hx, Option.map_some, Option.getD_some, hvalue]

theorem WeakInv.latest_tail (h : WeakInv C w items head) :
    w.latest.queue.tail = items.length := h.tails.lastCount_eq

theorem WeakInv.latest_head (h : WeakInv C w items head) : w.latest.queue.head = head :=
  h.heads.lastCount_eq

/-- A thread may load the last message, and that shows nothing but to itself. -/
theorem Counts.load (h : Counts m a n) (hm : m.Wf) (th : Thread) (acquire : Bool) :
    ∃ m', m.load th a acquire n = some (m', n) ∧ m'.value = m.value ∧
      ∀ b, lastCount m' b = lastCount m b := by
  obtain ⟨x, hx, hvalue⟩ := h.last
  have hlast : n = (m.messages a).length - 1 := by
    rw [h.length]
    exact (Nat.add_sub_cancel ..).symm
  rw [hlast] at hx
  obtain ⟨m', hload⟩ := hm.load_last th a acquire hx
  rw [← hlast, hvalue] at hload
  obtain ⟨y, -, -, -, heq⟩ := load_inv hload
  refine ⟨m', hload, ?_, fun b => ?_⟩ <;>
    · rw [heq]
      rfl

/-- A store shows in its counter. -/
theorem Counts.stored (h : Counts m a n) (hlast : (m.views th).seen a = n) (k : Nat) :
    ∃ m', m.store th a k = some m' ∧ m'.value = m.value ∧ lastCount m' a = k ∧
      ∀ b, b ≠ a → lastCount m' b = lastCount m b := by
  have hroom : (m.views th).seen a + 1 = (m.messages a).length := by rw [hlast, h.length]
  obtain ⟨m', hstore⟩ := store_last hroom k
  have hstores := (store_inv hstore).2
  refine ⟨m', hstore, hstores.cells, ?_, fun b hb => ?_⟩
  · rw [lastCount, hstores.appended, List.length_append, List.length_singleton,
      Nat.add_sub_cancel, List.getElem?_concat_length]
    rfl
  · rw [lastCount, hstores.elsewhere b hb, lastCount]

/-- What another memory shows of the queue. -/
theorem latest_eq {w' : WeakSystem α} (hvalue : w'.memory.value = s.queue.buffer)
    (hhead : lastCount w'.memory .head = s.queue.head)
    (htail : lastCount w'.memory .tail = s.queue.tail) (hproducer : w'.producer = s.producer)
    (hconsumer : w'.consumer = s.consumer) (hpeeked : w'.peeked = s.peeked)
    (hobserver : w'.observer = s.observer) : w'.latest = s := by
  obtain ⟨queue, producer, consumer, peeked, observer⟩ := s
  rw [WeakSystem.latest, hvalue, hhead, htail, hproducer, hconsumer, hpeeked, hobserver]

theorem latest_ask (h : WeakInv C w items head) (th : Thread) (query : Query) :
    ∃ pick m, weakAsk w.memory th pick query = some (m, w.latest.queue.ask query) ∧
      m.value = w.memory.value ∧ ∀ b, lastCount m b = lastCount w.memory b := by
  have hhead := h.latest_head
  have htail := h.latest_tail
  obtain ⟨mh, hloadh, hvalueh, hlasth⟩ := h.heads.load h.wf th true
  obtain ⟨mt, hloadt, hvaluet, hlastt⟩ := h.tails.load h.wf th true
  cases query with
  | empty headFirst =>
      cases headFirst with
      | true => exact ⟨head, mh, by simp [weakAsk, hloadh, SPSCQueue.ask, hhead], hvalueh, hlasth⟩
      | false =>
          exact ⟨items.length, mt, by simp [weakAsk, hloadt, SPSCQueue.ask, htail], hvaluet, hlastt⟩
  | sizeApprox =>
      exact ⟨items.length, mt, by simp [weakAsk, hloadt, SPSCQueue.ask, htail], hvaluet, hlastt⟩

theorem latest_answer (h : WeakInv C w items head) (th : Thread) (q : Querying) :
    ∃ pick m, weakAnswer w.memory th pick q = some (m, w.latest.queue.answer q) ∧
      m.value = w.memory.value ∧ ∀ b, lastCount m b = lastCount w.memory b := by
  have hhead := h.latest_head
  have htail := h.latest_tail
  obtain ⟨mh, hloadh, hvalueh, hlasth⟩ := h.heads.load h.wf th true
  obtain ⟨mt, hloadt, hvaluet, hlastt⟩ := h.tails.load h.wf th true
  cases q with
  | emptyHead k =>
      exact ⟨items.length, mt, by simp [weakAnswer, hloadt, SPSCQueue.answer, htail], hvaluet,
        hlastt⟩
  | emptyTail t =>
      exact ⟨head, mh, by simp [weakAnswer, hloadh, SPSCQueue.answer, hhead], hvalueh, hlasth⟩
  | sizeTail t =>
      exact ⟨head, mh, by simp [weakAnswer, hloadh, SPSCQueue.answer, hhead], hvalueh, hlasth⟩

theorem latest_producer (h : WeakInv C w items head)
    (hstep : stepProducer C w.latest = some (s, o)) :
    ∃ pick w', weakProducer C w pick = some (w', o) ∧ w'.latest = s := by
  have hknows := h.producer
  have hhead := h.latest_head
  unfold stepProducer at hstep
  cases hp : w.producer with
  | idle => simp [WeakSystem.latest, hp] at hstep
  | pushing item t =>
      obtain ⟨m, hload, hvalue, hlast⟩ := h.heads.load h.wf .producer true
      have hheads := (hlast .head).trans hhead
      simp only [WeakSystem.latest, hp] at hstep
      rw [show lastCount w.memory .head = head from hhead] at hstep
      split at hstep
      · next hfull =>
          obtain ⟨rfl, rfl⟩ := Prod.mk.inj (Option.some.inj hstep)
          refine ⟨head, { w with memory := m, producer := .idle }, ?_,
            latest_eq hvalue hheads (hlast .tail) rfl rfl rfl rfl⟩
          simp only [weakProducer, hp, hload, Option.map_some, if_pos hfull]
      · next hroom =>
          obtain ⟨rfl, rfl⟩ := Prod.mk.inj (Option.some.inj hstep)
          refine ⟨head, { w with memory := m, producer := .hasRoom item t }, ?_,
            latest_eq hvalue hheads (hlast .tail) rfl rfl rfl rfl⟩
          simp only [weakProducer, hp, hload, Option.map_some, if_neg hroom]
  | hasRoom item t =>
      simp only [WeakSystem.latest, hp] at hstep
      obtain ⟨rfl, rfl⟩ := Prod.mk.inj (Option.some.inj hstep)
      refine ⟨0, { w with
        memory := w.memory.write .producer (C.index t) item, producer := .written item t }, ?_,
        rfl⟩
      simp only [weakProducer, hp]
  | written item t =>
      rw [hp] at hknows
      obtain ⟨rfl, -, -⟩ := hknows
      obtain ⟨m, hstore, hvalue, htail, hrest⟩ :=
        h.tails.stored h.ownTail (addUInt64 items.length 1)
      simp only [WeakSystem.latest, hp] at hstep
      obtain ⟨rfl, rfl⟩ := Prod.mk.inj (Option.some.inj hstep)
      refine ⟨0, { w with memory := m, producer := .idle }, ?_,
        latest_eq hvalue (hrest .head (by simp)) htail rfl rfl rfl rfl⟩
      simp only [weakProducer, hp, hstore, Option.map_some]
  | querying q =>
      obtain ⟨pick, m, hanswer, hvalue, hlast⟩ := latest_answer h .producer q
      simp only [WeakSystem.latest, hp] at hstep
      obtain ⟨rfl, rfl⟩ := Prod.mk.inj (Option.some.inj hstep)
      refine ⟨pick, { w with memory := m, producer := .idle }, ?_,
        latest_eq hvalue (hlast .head) (hlast .tail) rfl rfl rfl rfl⟩
      simp only [weakProducer, hp, hanswer, Option.map_some]
      rfl

theorem latest_consumer (h : WeakInv C w items head)
    (hstep : stepConsumer C w.latest = some (s, o)) :
    ∃ pick w', weakConsumer C w pick = some (w', o) ∧ w'.latest = s := by
  have hknows := h.consumer
  have htail := h.latest_tail
  obtain ⟨m, hload, hvalue, hlast⟩ := h.tails.load h.wf .consumer true
  have htails := (hlast .tail).trans htail
  have hstored := h.heads.stored h.ownHead (addUInt64 head 1)
  unfold stepConsumer at hstep
  cases hc : w.consumer with
  | idle => simp [WeakSystem.latest, hc] at hstep
  | popping k =>
      simp only [WeakSystem.latest, hc] at hstep
      rw [show lastCount w.memory .tail = items.length from htail] at hstep
      split at hstep
      · next hempty =>
          obtain ⟨rfl, rfl⟩ := Prod.mk.inj (Option.some.inj hstep)
          refine ⟨items.length, { w with memory := m, consumer := .idle }, ?_,
            latest_eq hvalue (hlast .head) htails rfl rfl rfl rfl⟩
          simp only [weakConsumer, hc, hload, Option.map_some, if_pos hempty]
      · next hmore =>
          obtain ⟨rfl, rfl⟩ := Prod.mk.inj (Option.some.inj hstep)
          refine ⟨items.length, { w with memory := m, consumer := .popFound k }, ?_,
            latest_eq hvalue (hlast .head) htails rfl rfl rfl rfl⟩
          simp only [weakConsumer, hc, hload, Option.map_some, if_neg hmore]
  | popFound k =>
      simp only [WeakSystem.latest, hc] at hstep
      obtain ⟨rfl, rfl⟩ := Prod.mk.inj (Option.some.inj hstep)
      refine ⟨0, { w with
        memory := (w.memory.read .consumer (C.index k)).1
        consumer := .popRead k (w.memory.value (C.index k)) }, ?_, rfl⟩
      simp only [weakConsumer, hc, Memory.read]
  | popRead k item =>
      rw [hc] at hknows
      obtain ⟨rfl, -, -⟩ := hknows
      obtain ⟨m', hstore, hvalue', hhead, hrest⟩ := hstored
      simp only [WeakSystem.latest, hc] at hstep
      obtain ⟨rfl, rfl⟩ := Prod.mk.inj (Option.some.inj hstep)
      refine ⟨0, { w with memory := m', consumer := .idle }, ?_,
        latest_eq hvalue' hhead (hrest .tail (by simp)) rfl rfl rfl rfl⟩
      simp only [weakConsumer, hc, hstore, Option.map_some]
  | peeking k =>
      simp only [WeakSystem.latest, hc] at hstep
      rw [show lastCount w.memory .tail = items.length from htail] at hstep
      split at hstep
      · next hempty =>
          obtain ⟨rfl, rfl⟩ := Prod.mk.inj (Option.some.inj hstep)
          refine ⟨items.length, { w with memory := m, consumer := .idle, peeked := none }, ?_,
            latest_eq hvalue (hlast .head) htails rfl rfl rfl rfl⟩
          simp only [weakConsumer, hc, hload, Option.map_some, if_pos hempty]
      · next hmore =>
          obtain ⟨rfl, rfl⟩ := Prod.mk.inj (Option.some.inj hstep)
          refine ⟨items.length,
            { w with memory := m, consumer := .idle, peeked := some (C.index k) }, ?_,
            latest_eq hvalue (hlast .head) htails rfl rfl rfl rfl⟩
          simp only [weakConsumer, hc, hload, Option.map_some, if_neg hmore]
  | committing k slot =>
      rw [hc] at hknows
      obtain ⟨rfl, -, -, -⟩ := hknows
      obtain ⟨m', hstore, hvalue', hhead, hrest⟩ := hstored
      simp only [WeakSystem.latest, hc] at hstep
      obtain ⟨rfl, rfl⟩ := Prod.mk.inj (Option.some.inj hstep)
      refine ⟨0, { w with memory := m', consumer := .idle }, ?_,
        latest_eq hvalue' hhead (hrest .tail (by simp)) rfl rfl rfl rfl⟩
      simp only [weakConsumer, hc, hstore, Option.map_some]
  | querying q =>
      obtain ⟨pick, m', hanswer, hvalue', hlast'⟩ := latest_answer h .consumer q
      simp only [WeakSystem.latest, hc] at hstep
      obtain ⟨rfl, rfl⟩ := Prod.mk.inj (Option.some.inj hstep)
      refine ⟨pick, { w with memory := m', consumer := .idle }, ?_,
        latest_eq hvalue' (hlast' .head) (hlast' .tail) rfl rfl rfl rfl⟩
      simp only [weakConsumer, hc, hanswer, Option.map_some]
      rfl

theorem latest_step (h : WeakInv C w items head)
    (hstep : step C w.latest action = some (s, o)) :
    ∃ pick w', weakStep C w (action, pick) = some (w', o) ∧ w'.latest = s := by
  have hhead := h.latest_head
  have htail := h.latest_tail
  obtain ⟨mh, hloadh, hvalueh, hlasth⟩ := h.heads.load h.wf .consumer false
  obtain ⟨mt, hloadt, hvaluet, hlastt⟩ := h.tails.load h.wf .producer false
  cases action with
  | producer => exact latest_producer h hstep
  | consumer => exact latest_consumer h hstep
  | tryPush item =>
      cases hp : w.producer with
      | idle =>
          simp only [step, WeakSystem.latest, hp] at hstep
          obtain ⟨rfl, rfl⟩ := Prod.mk.inj (Option.some.inj hstep)
          refine ⟨items.length, { w with memory := mt, producer := .pushing item items.length }, ?_,
            latest_eq hvaluet (hlastt .head) (hlastt .tail) (congrArg _ htail.symm) rfl rfl rfl⟩
          simp only [weakStep, hp, hloadt, Option.map_some]
      | _ => simp [step, WeakSystem.latest, hp] at hstep
  | producerQuery query =>
      cases hp : w.producer with
      | idle =>
          obtain ⟨pick, m, hask, hvalue, hlast⟩ := latest_ask h .producer query
          simp only [step, WeakSystem.latest, hp] at hstep
          obtain ⟨rfl, rfl⟩ := Prod.mk.inj (Option.some.inj hstep)
          refine ⟨pick, { w with memory := m, producer := .querying (w.latest.queue.ask query) },
            ?_, latest_eq hvalue (hlast .head) (hlast .tail) rfl rfl rfl rfl⟩
          simp only [weakStep, hp, hask, Option.map_some]
      | _ => simp [step, WeakSystem.latest, hp] at hstep
  | tryPop =>
      cases hc : w.consumer with
      | idle =>
          simp only [step, WeakSystem.latest, hc] at hstep
          obtain ⟨rfl, rfl⟩ := Prod.mk.inj (Option.some.inj hstep)
          refine ⟨head, { w with memory := mh, consumer := .popping head, peeked := none }, ?_,
            latest_eq hvalueh (hlasth .head) (hlasth .tail) rfl (congrArg _ hhead.symm) rfl rfl⟩
          simp only [weakStep, hc, hloadh, Option.map_some]
      | _ => simp [step, WeakSystem.latest, hc] at hstep
  | peek =>
      cases hc : w.consumer with
      | idle =>
          simp only [step, WeakSystem.latest, hc] at hstep
          obtain ⟨rfl, rfl⟩ := Prod.mk.inj (Option.some.inj hstep)
          refine ⟨head, { w with memory := mh, consumer := .peeking head }, ?_,
            latest_eq hvalueh (hlasth .head) (hlasth .tail) rfl (congrArg _ hhead.symm) rfl rfl⟩
          simp only [weakStep, hc, hloadh, Option.map_some]
      | _ => simp [step, WeakSystem.latest, hc] at hstep
  | read =>
      cases hc : w.consumer with
      | idle =>
          cases hpeeked : w.peeked with
          | none => simp [step, WeakSystem.latest, hc, hpeeked] at hstep
          | some slot =>
              simp only [step, WeakSystem.latest, hc, hpeeked] at hstep
              obtain ⟨rfl, rfl⟩ := Prod.mk.inj (Option.some.inj hstep)
              refine ⟨0, { w with memory := (w.memory.read .consumer slot).1 }, ?_,
                latest_eq rfl rfl rfl rfl hc hpeeked rfl⟩
              simp only [weakStep, hc, hpeeked, Memory.read]
      | _ => simp [step, WeakSystem.latest, hc] at hstep
  | popCommit =>
      cases hc : w.consumer with
      | idle =>
          cases hpeeked : w.peeked with
          | none => simp [step, WeakSystem.latest, hc, hpeeked] at hstep
          | some slot =>
              simp only [step, WeakSystem.latest, hc, hpeeked] at hstep
              obtain ⟨rfl, rfl⟩ := Prod.mk.inj (Option.some.inj hstep)
              refine ⟨head,
                { w with memory := mh, consumer := .committing head slot, peeked := none }, ?_,
                latest_eq hvalueh (hlasth .head) (hlasth .tail) rfl
                  (congrArg (Consumer.committing · slot) hhead.symm) rfl rfl⟩
              simp only [weakStep, hc, hpeeked, hloadh, Option.map_some]
      | _ => simp [step, WeakSystem.latest, hc] at hstep
  | consumerQuery query =>
      cases hc : w.consumer with
      | idle =>
          obtain ⟨pick, m, hask, hvalue, hlast⟩ := latest_ask h .consumer query
          simp only [step, WeakSystem.latest, hc] at hstep
          obtain ⟨rfl, rfl⟩ := Prod.mk.inj (Option.some.inj hstep)
          refine ⟨pick, { w with memory := m, consumer := .querying (w.latest.queue.ask query) },
            ?_, latest_eq hvalue (hlast .head) (hlast .tail) rfl rfl rfl rfl⟩
          simp only [weakStep, hc, hask, Option.map_some]
      | _ => simp [step, WeakSystem.latest, hc] at hstep
  | observerQuery k query =>
      cases hk : w.observer k with
      | some q => simp [step, WeakSystem.latest, hk] at hstep
      | none =>
          obtain ⟨pick, m, hask, hvalue, hlast⟩ := latest_ask h (.observer k) query
          simp only [step, WeakSystem.latest, hk] at hstep
          obtain ⟨rfl, rfl⟩ := Prod.mk.inj (Option.some.inj hstep)
          refine ⟨pick, { w with
            memory := m
            observer := Function.update w.observer k (some (w.latest.queue.ask query)) }, ?_,
            latest_eq hvalue (hlast .head) (hlast .tail) rfl rfl rfl rfl⟩
          simp only [weakStep, hk, hask, Option.map_some]
  | observer k =>
      cases hk : w.observer k with
      | none => simp [step, WeakSystem.latest, hk] at hstep
      | some q =>
          obtain ⟨pick, m, hanswer, hvalue, hlast⟩ := latest_answer h (.observer k) q
          simp only [step, WeakSystem.latest, hk] at hstep
          obtain ⟨rfl, rfl⟩ := Prod.mk.inj (Option.some.inj hstep)
          refine ⟨pick, { w with
            memory := m, observer := Function.update w.observer k none }, ?_,
            latest_eq hvalue (hlast .head) (hlast .tail) rfl rfl rfl rfl⟩
          simp only [weakStep, hk, hanswer, Option.map_some]
          rfl

end

/-- Every interleaving of `SpscQueue` with fewer than `2 ^ 64` pushes is a run of the
    weak memory, with the same answers and, at its end, the same queue. -/
theorem run_weak [Inhabited α] (C : Capacity) (schedule : List (Action α)) {s : System α}
    {answers : List (Answer α)}
    (hrun : exec (step C) (System.make : System α) schedule = some (s, answers))
    (hfew : (pushed answers).length < 2 ^ 64) :
    ∃ picks w, picks.length = schedule.length ∧
      exec (weakStep C) (WeakSystem.make : WeakSystem α) (schedule.zip picks) =
        some (w, answers) ∧ w.latest = s := by
  induction schedule using List.reverseRecOn generalizing s answers with
  | nil =>
      obtain ⟨rfl, rfl⟩ := Prod.mk.inj (Option.some.inj hrun)
      exact ⟨[], WeakSystem.make, rfl, rfl, rfl⟩
  | append_singleton schedule action ih =>
      obtain ⟨r, answers, o, hbefore, hstep, rfl⟩ := exec_snoc_inv hrun
      have hshort : (pushed answers).length < 2 ^ 64 := by
        rw [pushed_snoc, List.length_append] at hfew
        omega
      obtain ⟨picks, w, hlength, hweak, rfl⟩ := ih hbefore hshort
      obtain ⟨pick, w', hstep', hlatest⟩ := latest_step (weakRun_history hweak hshort).inv hstep
      refine ⟨picks ++ [pick], w', by simp [hlength], ?_, hlatest⟩
      rw [List.zip_append hlength.symm]
      exact exec_append hweak (exec_cons hstep' rfl)

theorem sample_weak : ∃ picks w answers,
    exec (weakStep Capacity.two) (WeakSystem.make : WeakSystem Nat) (sampleSchedule.zip picks) =
      some (w, answers) ∧ pushed answers = [7, 8, 9] ∧ consumed answers = [7, 8] := by
  obtain ⟨answers, hmap, hpushed, hconsumed⟩ : ∃ answers,
      (exec (step Capacity.two) (System.make : System Nat) sampleSchedule).map Prod.snd =
        some answers ∧ pushed answers = [7, 8, 9] ∧ consumed answers = [7, 8] :=
    ⟨_, rfl, rfl, rfl⟩
  obtain ⟨⟨s, outs⟩, hrun, hout⟩ := Option.map_eq_some_iff.mp hmap
  obtain rfl : outs = answers := hout
  obtain ⟨picks, w, -, hweak, -⟩ := run_weak Capacity.two sampleSchedule hrun (by
    rw [hpushed]
    decide)
  exact ⟨picks, w, outs, hweak, hpushed, hconsumed⟩

-- ============================================================================
-- Calls end
-- ============================================================================

/-- The access with which a thread goes on in its call. -/
def Thread.next : Thread → Action α
  | .producer => .producer
  | .consumer => .consumer
  | .observer k => .observer k

/-- How many accesses a thread has left in its call, at most. -/
def WeakSystem.left (s : WeakSystem α) : Thread → Nat
  | .producer =>
      match s.producer with
      | .idle => 0
      | .pushing .. => 3
      | .hasRoom .. => 2
      | .written .. => 1
      | .querying _ => 1
  | .consumer =>
      match s.consumer with
      | .idle => 0
      | .popping _ => 3
      | .popFound _ => 2
      | .popRead .. => 1
      | .peeking _ => 1
      | .committing .. => 1
      | .querying _ => 1
  | .observer k =>
      match s.observer k with
      | none => 0
      | some _ => 1

section

variable {C : Capacity} {s s' : WeakSystem α} {th : Thread} {pick : Nat} {o : Answer α}

theorem left_le (s : WeakSystem α) (th : Thread) : s.left th ≤ 3 := by
  cases th with
  | producer => cases hp : s.producer <;> simp [WeakSystem.left, hp]
  | consumer => cases hc : s.consumer <;> simp [WeakSystem.left, hc]
  | observer k => cases hk : s.observer k <;> simp [WeakSystem.left, hk]

/-- An access goes on in the call, whatever message it picks. -/
theorem left_lt (h : weakStep C s (th.next, pick) = some (s', o)) : s'.left th < s.left th := by
  cases th with
  | producer =>
      change weakProducer C s pick = some (s', o) at h
      unfold weakProducer at h
      cases hp : s.producer with
      | idle => simp [hp] at h
      | pushing item t =>
          rw [hp] at h
          obtain ⟨r, -, heq⟩ := Option.map_eq_some_iff.mp h
          split at heq <;>
            · obtain ⟨rfl, -⟩ := Prod.mk.inj heq
              simp [WeakSystem.left, hp]
      | hasRoom item t =>
          rw [hp] at h
          obtain ⟨rfl, -⟩ := Prod.mk.inj (Option.some.inj h)
          simp [WeakSystem.left, hp]
      | written item t | querying q =>
          rw [hp] at h
          obtain ⟨r, -, heq⟩ := Option.map_eq_some_iff.mp h
          obtain ⟨rfl, -⟩ := Prod.mk.inj heq
          simp [WeakSystem.left, hp]
  | consumer =>
      change weakConsumer C s pick = some (s', o) at h
      unfold weakConsumer at h
      cases hc : s.consumer with
      | idle => simp [hc] at h
      | popping k | peeking k =>
          rw [hc] at h
          obtain ⟨r, -, heq⟩ := Option.map_eq_some_iff.mp h
          split at heq <;>
            · obtain ⟨rfl, -⟩ := Prod.mk.inj heq
              simp [WeakSystem.left, hc]
      | popFound k =>
          rw [hc] at h
          obtain ⟨rfl, -⟩ := Prod.mk.inj (Option.some.inj h)
          simp [WeakSystem.left, hc]
      | popRead k item | committing k slot | querying q =>
          rw [hc] at h
          obtain ⟨r, -, heq⟩ := Option.map_eq_some_iff.mp h
          obtain ⟨rfl, -⟩ := Prod.mk.inj heq
          simp [WeakSystem.left, hc]
  | observer k =>
      change weakStep C s (.observer k, pick) = some (s', o) at h
      simp only [weakStep] at h
      split at h
      · exact absurd h (by simp)
      · next q hk =>
          obtain ⟨r, -, heq⟩ := Option.map_eq_some_iff.mp h
          obtain ⟨rfl, -⟩ := Prod.mk.inj heq
          simp [WeakSystem.left, hk]

/-- A thread in a call has a next access when it sees the last store of everything. -/
theorem latest_next (h : s.left th ≠ 0) : ∃ t o, step C s.latest th.next = some (t, o) := by
  cases th with
  | producer =>
      show ∃ t o, stepProducer C s.latest = some (t, o)
      cases hp : s.producer with
      | idle => exact absurd (by simp [WeakSystem.left, hp]) h
      | pushing item t =>
          simp only [stepProducer, WeakSystem.latest, hp]
          split <;> exact ⟨_, _, rfl⟩
      | _ =>
          simp only [stepProducer, WeakSystem.latest, hp]
          exact ⟨_, _, rfl⟩
  | consumer =>
      show ∃ t o, stepConsumer C s.latest = some (t, o)
      cases hc : s.consumer with
      | idle => exact absurd (by simp [WeakSystem.left, hc]) h
      | popping k | peeking k =>
          simp only [stepConsumer, WeakSystem.latest, hc]
          split <;> exact ⟨_, _, rfl⟩
      | _ =>
          simp only [stepConsumer, WeakSystem.latest, hc]
          exact ⟨_, _, rfl⟩
  | observer k =>
      cases hk : s.observer k with
      | none => exact absurd (by simp [WeakSystem.left, hk]) h
      | some q =>
          simp only [Thread.next, step, WeakSystem.latest, hk]
          exact ⟨_, _, rfl⟩

end

/-- With fewer than `2 ^ 64` pushes, a thread that goes on alone ends its call in at
    most three accesses, whatever messages its loads pick, and until then there is a
    message that its next load may pick and a place for its store. -/
theorem weakRun_waitFree [Inhabited α] (C : Capacity) (schedule : List (Action α × Nat))
    (th : Thread) (picks : List Nat) {s t : WeakSystem α} {answers outs : List (Answer α)}
    (hrun : exec (weakStep C) (WeakSystem.make : WeakSystem α) schedule = some (s, answers))
    (hown : exec (weakStep C) s (picks.map fun pick => (th.next, pick)) = some (t, outs))
    (hfew : (pushed (answers ++ outs)).length < 2 ^ 64) :
    picks.length + t.left th ≤ 3 ∧
      (t.left th ≠ 0 → ∃ pick u o, weakStep C t (th.next, pick) = some (u, o)) := by
  refine ⟨?_, fun hleft => ?_⟩
  · have hcount : picks.length + t.left th ≤ s.left th := by
      clear hrun hfew
      induction picks generalizing s outs with
      | nil =>
          obtain ⟨rfl, -⟩ := Prod.mk.inj (Option.some.inj hown)
          exact (Nat.zero_add _).le
      | cons pick picks ih =>
          obtain ⟨u, o, outs', hstep, hrest, -⟩ := exec_cons_inv hown
          have hlt := left_lt hstep
          have hle := ih hrest
          rw [List.length_cons]
          omega
    exact hcount.trans (left_le s th)
  · obtain ⟨u, o, hstep⟩ := @latest_next _ C t th hleft
    have hinv := (weakRun_history (exec_append hrun hown) hfew).inv
    obtain ⟨pick, w, hweak, -⟩ := latest_step hinv hstep
    exact ⟨pick, w, o, hweak⟩

/-- The producer stands before its store, and can make it. -/
theorem sample_waitFree : ∃ s t outs,
    exec (weakStep Capacity.two) (WeakSystem.make : WeakSystem Nat) [(.tryPush 7, 0)] =
        some (s, [.pending]) ∧
      exec (weakStep Capacity.two) s [(.producer, 0), (.producer, 0)] = some (t, outs) ∧
      t.left .producer = 1 ∧
      ∃ pick u o, weakStep Capacity.two t (.producer, pick) = some (u, o) := by
  obtain ⟨s, t, outs, hrun, hown, hleft, hpushed⟩ : ∃ s t outs,
      exec (weakStep Capacity.two) (WeakSystem.make : WeakSystem Nat) [(.tryPush 7, 0)] =
          some (s, [.pending]) ∧
        exec (weakStep Capacity.two) s [(.producer, 0), (.producer, 0)] = some (t, outs) ∧
        t.left .producer = 1 ∧ pushed ([.pending] ++ outs) = [] :=
    ⟨_, _, _, rfl, rfl, rfl, rfl⟩
  have hfree := weakRun_waitFree Capacity.two [(.tryPush 7, 0)] .producer [0, 0] hrun hown (by
    rw [hpushed]
    decide)
  exact ⟨s, t, outs, hrun, hown, hleft, hfree.2 (by omega)⟩

end SPSCQueue

end LimitOrderBook
