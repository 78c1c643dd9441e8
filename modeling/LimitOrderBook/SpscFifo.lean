/-
  LimitOrderBook.SpscFifo

  The queue is a bounded FIFO under every interleaving of its threads.

  The history of a run is the list of its answers: what was pushed and what was
  consumed.  The invariant ties the two counters to the two lengths, the ring to
  the window between them, and what each thread remembers to the present: the
  producer's `t` is the tail, the consumer's `h` is the head, and a room or an
  item that was seen is still there, because only the other side could make more
  of it.
-/
import LimitOrderBook.SpscQueue

namespace LimitOrderBook

open Lib Ring

namespace SPSCQueue

variable {α : Type*}

/-- The item that an answer reports as pushed. -/
def Answer.pushed : Answer α → List α
  | .tryPush item true => [item]
  | _ => []

/-- The item that an answer reports as consumed. -/
def Answer.consumed : Answer α → List α
  | .tryPop (some item) => [item]
  | .popCommit item => [item]
  | _ => []

/-- All that `try_push` accepted, in order. -/
def pushed (answers : List (Answer α)) : List α := answers.flatMap Answer.pushed

/-- All that the consumer took, in order. -/
def consumed (answers : List (Answer α)) : List α := answers.flatMap Answer.consumed

@[simp] theorem pushed_snoc (answers : List (Answer α)) (o : Answer α) :
    pushed (answers ++ [o]) = pushed answers ++ o.pushed := by simp [pushed]

@[simp] theorem pushed_append (answers more : List (Answer α)) :
    pushed (answers ++ more) = pushed answers ++ pushed more := by simp [pushed]

@[simp] theorem consumed_append (answers more : List (Answer α)) :
    consumed (answers ++ more) = consumed answers ++ consumed more := by simp [consumed]

@[simp] theorem consumed_snoc (answers : List (Answer α)) (o : Answer α) :
    consumed (answers ++ [o]) = consumed answers ++ o.consumed := by simp [consumed]

/-- What the producer remembers, when `size` items were pushed and the consumer
    is at `head`. -/
def Producer.Knows (C : Capacity) (buffer : Nat → α) (size head : Nat) : Producer α → Prop
  | .idle => True
  | .pushing _ t => t = size
  | .hasRoom _ t => t = size ∧ size < head + C.size
  | .written item t => t = size ∧ size < head + C.size ∧ buffer (C.index t) = item
  | .querying _ => True

/-- What the consumer remembers, when it is at `head` of the pushed items. -/
def Consumer.Knows (C : Capacity) (items : List α) (head : Nat) (peeked : Option Nat) :
    Consumer α → Prop
  | .idle => True
  | .popping h => h = head ∧ peeked = none
  | .popFound h => h = head ∧ head < items.length ∧ peeked = none
  | .popRead h item => h = head ∧ items[head]? = some item ∧ peeked = none
  | .peeking h => h = head
  | .committing h slot =>
      h = head ∧ head < items.length ∧ slot = C.index head ∧ peeked = none
  | .querying _ => True

/-- What an answer says of the pushed items when the consumer is at `head`. -/
def Answer.Truthful (C : Capacity) (items : List α) (head : Nat) : Answer α → Prop
  | .tryPush _ false => items.length = head + C.size
  | .tryPop none => items.length = head
  | .tryPop (some item) => items[head]? = some item
  | .peek found => if found then head < items.length else items.length = head
  | .read item => items[head]? = some item
  | .popCommit item => items[head]? = some item
  | _ => True

/-- The invariant of the queue, for the items pushed and the number consumed. -/
structure Inv (C : Capacity) (s : System α) (items : List α) (head : Nat) : Prop where
  tail_eq : s.queue.tail = items.length
  head_eq : s.queue.head = head
  few : items.length < 2 ^ 64
  behind : head ≤ items.length
  bounded : items.length ≤ head + C.size
  window : Window C.size s.queue.buffer head items
  producer : s.producer.Knows C s.queue.buffer items.length head
  consumer : s.consumer.Knows C items head s.peeked
  peeked : ∀ slot, s.peeked = some slot → slot = C.index head ∧ head < items.length

section

variable {C : Capacity} {s s' : System α} {items : List α} {head : Nat} {a : Action α}
  {o : Answer α}

theorem make_inv [Inhabited α] : Inv C (System.make : System α) [] 0 where
  tail_eq := rfl
  head_eq := rfl
  few := Nat.two_pow_pos 64
  behind := Nat.le_refl 0
  bounded := Nat.zero_le _
  window := window_nil
  producer := trivial
  consumer := trivial
  peeked := fun _ h => absurd h (by simp [System.make])

/-- An item in the window is in its slot. -/
theorem Inv.slot (h : Inv C s items head) {i : Nat} {item : α} (hi : head ≤ i)
    (hitem : items[i]? = some item) : s.queue.buffer (C.index i) = item := by
  rw [C.index_eq]
  exact h.window i item hi hitem

/-- The consumer's next item. -/
theorem Inv.front (h : Inv C s items head) (hlt : head < items.length) :
    items[head]? = some (s.queue.buffer (C.index head)) := by
  rw [List.getElem?_eq_getElem hlt, h.slot (Nat.le_refl head) (List.getElem?_eq_getElem hlt)]

/-- The producer sees a full queue when it is full. -/
theorem Inv.full (h : Inv C s items head) :
    subUInt64 items.length s.queue.head ≥ C.size ↔ items.length = head + C.size := by
  have hbehind := h.behind
  have hbounded := h.bounded
  rw [h.head_eq, subUInt64_eq h.few hbehind]
  omega

/-- The consumer sees an empty queue when it is empty. -/
theorem Inv.empty (h : Inv C s items head) : head ≥ s.queue.tail ↔ items.length = head := by
  have hbehind := h.behind
  rw [h.tail_eq]
  omega

/-- The items that a consumer remembers stay when more are pushed. -/
theorem Consumer.Knows.push {peeked : Option Nat} {consumer : Consumer α}
    (h : consumer.Knows C items head peeked) (item : α) :
    consumer.Knows C (items ++ [item]) head peeked := by
  cases consumer with
  | popFound k =>
      obtain ⟨hk, hlt, hnone⟩ := h
      exact ⟨hk, by rw [List.length_append]; omega, hnone⟩
  | popRead k x =>
      obtain ⟨hk, hx, hnone⟩ := h
      have hlt := (List.getElem?_eq_some_iff.mp hx).1
      exact ⟨hk, by rwa [List.getElem?_append_left hlt], hnone⟩
  | committing k slot =>
      obtain ⟨hk, hlt, hrest⟩ := h
      exact ⟨hk, by rw [List.length_append]; omega, hrest⟩
  | _ => exact h

/-- The room that a producer remembers stays when more is consumed. -/
theorem Producer.Knows.pop {buffer : Nat → α} {size : Nat} {producer : Producer α}
    (h : producer.Knows C buffer size head) : producer.Knows C buffer size (head + 1) := by
  cases producer with
  | hasRoom x t => exact ⟨h.1, by have := h.2; omega⟩
  | written x t => exact ⟨h.1, by have := h.2.1; omega, h.2.2⟩
  | _ => exact h

/-- A thread that only remembers something new keeps the invariant. -/
theorem Inv.withProducer (h : Inv C s items head) {producer : Producer α}
    (hknows : producer.Knows C s.queue.buffer items.length head) :
    Inv C { s with producer } items head := { h with producer := hknows }

theorem Inv.withConsumer (h : Inv C s items head) {consumer : Consumer α}
    (hknows : consumer.Knows C items head s.peeked) :
    Inv C { s with consumer } items head := { h with consumer := hknows }

/-- The consumer lets go of its pointer. -/
theorem Inv.unpeek (h : Inv C s items head) {consumer : Consumer α}
    (hknows : consumer.Knows C items head none) :
    Inv C { s with consumer, peeked := none } items head :=
  { h with consumer := hknows, peeked := fun _ hs => absurd hs (by simp) }

/-- The slot behind the window is written. -/
theorem Inv.store (h : Inv C s items head) {item : α} (hroom : items.length < head + C.size) :
    Inv C { s with
      queue := s.queue.store C items.length item, producer := .written item items.length }
      items head := by
  refine { h with window := ?_, producer := ?_ }
  · show Window C.size (Function.update s.queue.buffer (C.index items.length) item) head items
    rw [C.index_eq]
    exact h.window.write hroom item
  · exact ⟨rfl, hroom, Function.update_self ..⟩

/-- The tail moves on over the item that was written. -/
theorem Inv.publish (h : Inv C s items head) {item : α} (hroom : items.length < head + C.size)
    (hslot : s.queue.buffer (C.index items.length) = item) (hfew : items.length + 1 < 2 ^ 64) :
    Inv C { s with
      queue := { s.queue with tail := addUInt64 items.length 1 }, producer := .idle }
      (items ++ [item]) head := by
  have hlength : (items ++ [item]).length = items.length + 1 := List.length_append
  have hbehind := h.behind
  refine ⟨?_, h.head_eq, by omega, by omega, by omega, ?_, trivial, h.consumer.push item, ?_⟩
  · rw [hlength]
    exact addUInt64_eq hfew
  · rw [C.index_eq] at hslot
    exact h.window.append hslot
  · intro slot hs
    obtain ⟨heq, hlt⟩ := h.peeked slot hs
    exact ⟨heq, by omega⟩

/-- The head moves on over the front item. -/
theorem Inv.consume (h : Inv C s items head) (hlt : head < items.length)
    (hnone : s.peeked = none) :
    Inv C { s with queue := { s.queue with head := addUInt64 head 1 }, consumer := .idle }
      items (head + 1) := by
  have hbounded := h.bounded
  have hfew := h.few
  refine ⟨h.tail_eq, addUInt64_eq (by omega), h.few, hlt, by omega, ?_, h.producer.pop, trivial, ?_⟩
  · exact h.window.drop (Nat.le_succ head)
  · intro slot hs
    rw [show s.peeked = some slot from hs] at hnone
    exact absurd hnone (by simp)

-- ============================================================================
-- One access
-- ============================================================================

/-- The invariant after an answer, for the items with what it pushed and the head
    with what it consumed; and what the answer says is true. -/
structure After (C : Capacity) (s : System α) (o : Answer α) (items : List α) (head : Nat) :
    Prop where
  inv : Inv C s (items ++ o.pushed) (head + o.consumed.length)
  truthful : o.Truthful C items head

/-- An answer that neither pushes nor consumes. -/
theorem After.of_silent (ho : o.pushed = [] ∧ o.consumed = []) (h : Inv C s items head)
    (htrue : o.Truthful C items head) : After C s o items head := by
  refine ⟨?_, htrue⟩
  rw [ho.1, ho.2, List.append_nil]
  exact h

/-- The answer of a query. -/
theorem After.of_query (h : Inv C s items head) (self : SPSCQueue α) (query : Querying) :
    After C s (self.answer query) items head := by
  cases query <;> exact .of_silent ⟨rfl, rfl⟩ h trivial

theorem stepProducer_inv (h : Inv C s items head) (hstep : stepProducer C s = some (s', o))
    (hfew : items.length + o.pushed.length < 2 ^ 64) : After C s' o items head := by
  have hknows := h.producer
  unfold stepProducer at hstep
  cases hp : s.producer with
  | idle => simp [hp] at hstep
  | pushing item t =>
      rw [hp] at hknows hstep
      obtain rfl : t = items.length := hknows
      simp only at hstep
      split at hstep
      · next hfull =>
          obtain ⟨rfl, rfl⟩ := Prod.mk.inj (Option.some.inj hstep)
          exact .of_silent ⟨rfl, rfl⟩ (h.withProducer trivial) (h.full.mp hfull)
      · next hroom =>
          obtain ⟨rfl, rfl⟩ := Prod.mk.inj (Option.some.inj hstep)
          have hbounded := h.bounded
          rw [h.full] at hroom
          exact .of_silent ⟨rfl, rfl⟩ (h.withProducer ⟨rfl, by omega⟩) trivial
  | hasRoom item t =>
      rw [hp] at hknows hstep
      obtain ⟨rfl, hroom⟩ := hknows
      obtain ⟨rfl, rfl⟩ := Prod.mk.inj (Option.some.inj hstep)
      exact .of_silent ⟨rfl, rfl⟩ (h.store hroom) trivial
  | written item t =>
      rw [hp] at hknows hstep
      obtain ⟨rfl, hroom, hslot⟩ := hknows
      obtain ⟨rfl, rfl⟩ := Prod.mk.inj (Option.some.inj hstep)
      exact ⟨h.publish hroom hslot hfew, trivial⟩
  | querying query =>
      rw [hp] at hstep
      obtain ⟨rfl, rfl⟩ := Prod.mk.inj (Option.some.inj hstep)
      apply After.of_query
      exact h.withProducer trivial

theorem stepConsumer_inv (h : Inv C s items head) (hstep : stepConsumer C s = some (s', o)) :
    After C s' o items head := by
  have hknows := h.consumer
  unfold stepConsumer at hstep
  cases hc : s.consumer with
  | idle => simp [hc] at hstep
  | popping k =>
      rw [hc] at hknows hstep
      obtain ⟨rfl, hnone⟩ := hknows
      simp only at hstep
      split at hstep
      · next hempty =>
          obtain ⟨rfl, rfl⟩ := Prod.mk.inj (Option.some.inj hstep)
          exact .of_silent ⟨rfl, rfl⟩ (h.withConsumer trivial) (h.empty.mp hempty)
      · next hfound =>
          obtain ⟨rfl, rfl⟩ := Prod.mk.inj (Option.some.inj hstep)
          rw [h.tail_eq] at hfound
          exact .of_silent ⟨rfl, rfl⟩ (h.withConsumer ⟨rfl, by omega, hnone⟩) trivial
  | popFound k =>
      rw [hc] at hknows hstep
      obtain ⟨rfl, hlt, hnone⟩ := hknows
      obtain ⟨rfl, rfl⟩ := Prod.mk.inj (Option.some.inj hstep)
      exact .of_silent ⟨rfl, rfl⟩ (h.withConsumer ⟨rfl, h.front hlt, hnone⟩) trivial
  | popRead k item =>
      rw [hc] at hknows hstep
      obtain ⟨rfl, hitem, hnone⟩ := hknows
      obtain ⟨rfl, rfl⟩ := Prod.mk.inj (Option.some.inj hstep)
      refine ⟨?_, hitem⟩
      rw [show (items ++ (Answer.tryPop (some item)).pushed) = items from List.append_nil _]
      exact h.consume (List.getElem?_eq_some_iff.mp hitem).1 hnone
  | peeking k =>
      rw [hc] at hknows hstep
      obtain rfl : k = head := hknows
      simp only at hstep
      split at hstep
      · next hempty =>
          obtain ⟨rfl, rfl⟩ := Prod.mk.inj (Option.some.inj hstep)
          exact .of_silent ⟨rfl, rfl⟩ (h.unpeek trivial) (h.empty.mp hempty)
      · next hfound =>
          obtain ⟨rfl, rfl⟩ := Prod.mk.inj (Option.some.inj hstep)
          rw [h.tail_eq] at hfound
          have hlt : k < items.length := by omega
          refine .of_silent ⟨rfl, rfl⟩ { h with consumer := trivial, peeked := ?_ } hlt
          intro slot hs
          exact ⟨(Option.some.inj hs).symm, hlt⟩
  | committing k slot =>
      rw [hc] at hknows hstep
      obtain ⟨rfl, hlt, rfl, hnone⟩ := hknows
      obtain ⟨rfl, rfl⟩ := Prod.mk.inj (Option.some.inj hstep)
      refine ⟨?_, h.front hlt⟩
      rw [show (items ++ (Answer.popCommit _).pushed) = items from List.append_nil _]
      exact h.consume hlt hnone
  | querying query =>
      rw [hc] at hstep
      obtain ⟨rfl, rfl⟩ := Prod.mk.inj (Option.some.inj hstep)
      apply After.of_query
      exact h.withConsumer trivial

theorem step_inv (h : Inv C s items head) (hstep : step C s a = some (s', o))
    (hfew : items.length + o.pushed.length < 2 ^ 64) : After C s' o items head := by
  cases a with
  | producer => exact stepProducer_inv h hstep hfew
  | consumer => exact stepConsumer_inv h hstep
  | tryPush item =>
      simp only [step] at hstep
      split at hstep
      · obtain ⟨rfl, rfl⟩ := Prod.mk.inj (Option.some.inj hstep)
        exact .of_silent ⟨rfl, rfl⟩ (h.withProducer h.tail_eq) trivial
      · exact absurd hstep (by simp)
  | producerQuery query =>
      simp only [step] at hstep
      split at hstep
      · obtain ⟨rfl, rfl⟩ := Prod.mk.inj (Option.some.inj hstep)
        exact .of_silent ⟨rfl, rfl⟩ (h.withProducer trivial) trivial
      · exact absurd hstep (by simp)
  | tryPop =>
      simp only [step] at hstep
      split at hstep
      · obtain ⟨rfl, rfl⟩ := Prod.mk.inj (Option.some.inj hstep)
        exact .of_silent ⟨rfl, rfl⟩ (h.unpeek ⟨h.head_eq, rfl⟩) trivial
      · exact absurd hstep (by simp)
  | peek =>
      simp only [step] at hstep
      split at hstep
      · obtain ⟨rfl, rfl⟩ := Prod.mk.inj (Option.some.inj hstep)
        exact .of_silent ⟨rfl, rfl⟩ (h.withConsumer h.head_eq) trivial
      · exact absurd hstep (by simp)
  | read =>
      simp only [step] at hstep
      split at hstep
      · next slot _ hslot =>
          obtain ⟨rfl, rfl⟩ := Prod.mk.inj (Option.some.inj hstep)
          obtain ⟨rfl, hlt⟩ := h.peeked slot hslot
          exact .of_silent ⟨rfl, rfl⟩ h (h.front hlt)
      · exact absurd hstep (by simp)
  | popCommit =>
      simp only [step] at hstep
      split at hstep
      · next slot _ hslot =>
          obtain ⟨rfl, rfl⟩ := Prod.mk.inj (Option.some.inj hstep)
          obtain ⟨heq, hlt⟩ := h.peeked slot hslot
          exact .of_silent ⟨rfl, rfl⟩ (h.unpeek ⟨h.head_eq, hlt, heq, rfl⟩) trivial
      · exact absurd hstep (by simp)
  | consumerQuery query =>
      simp only [step] at hstep
      split at hstep
      · obtain ⟨rfl, rfl⟩ := Prod.mk.inj (Option.some.inj hstep)
        exact .of_silent ⟨rfl, rfl⟩ (h.withConsumer trivial) trivial
      · exact absurd hstep (by simp)
  | observerQuery k query =>
      simp only [step] at hstep
      split at hstep
      · obtain ⟨rfl, rfl⟩ := Prod.mk.inj (Option.some.inj hstep)
        exact .of_silent ⟨rfl, rfl⟩ { h with } trivial
      · exact absurd hstep (by simp)
  | observer k =>
      simp only [step] at hstep
      split at hstep
      · exact absurd hstep (by simp)
      · obtain ⟨rfl, rfl⟩ := Prod.mk.inj (Option.some.inj hstep)
        apply After.of_query
        exact { h with }

-- ============================================================================
-- Every interleaving
-- ============================================================================

/-- The invariant for a history: what was consumed is what was pushed first. -/
structure History (C : Capacity) (s : System α) (answers : List (Answer α)) : Prop where
  inv : Inv C s (pushed answers) (consumed answers).length
  first : consumed answers <+: pushed answers

theorem History.step {answers : List (Answer α)} (h : History C s answers)
    (hstep : SPSCQueue.step C s a = some (s', o))
    (hfew : (pushed (answers ++ [o])).length < 2 ^ 64) : History C s' (answers ++ [o]) := by
  rw [pushed_snoc, List.length_append] at hfew
  obtain ⟨hinv, htrue⟩ := step_inv h.inv hstep hfew
  refine ⟨?_, ?_⟩
  · rw [pushed_snoc, consumed_snoc, List.length_append]
    exact hinv
  · rw [pushed_snoc, consumed_snoc]
    refine List.IsPrefix.trans ?_ (List.prefix_append _ _)
    cases o with
    | tryPop item =>
        cases item with
        | none => simpa [Answer.consumed] using h.first
        | some item => exact prefix_snoc h.first htrue
    | popCommit item => exact prefix_snoc h.first htrue
    | _ => simpa [Answer.consumed] using h.first

/-- What the queue promises of a state and the history before it: the consumer
    gets a prefix of what was pushed, what it has not consumed is in its slot,
    and a call turns back only on a full or an empty queue. -/
structure Fifo (C : Capacity) (s : System α) (answers : List (Answer α)) : Prop where
  /-- In order, nothing lost, nothing twice. -/
  first : consumed answers <+: pushed answers
  /-- `tail_` is ahead of `head_` by what is not consumed, at most the capacity. -/
  distance : s.queue.head ≤ s.queue.tail ∧
    s.queue.tail - s.queue.head = (pushed answers).length - (consumed answers).length ∧
    s.queue.tail - s.queue.head ≤ C.size
  /-- Every item that is not consumed is in its slot. -/
  kept : ∀ i item, (consumed answers).length ≤ i → (pushed answers)[i]? = some item →
    s.queue.buffer (C.index i) = item
  /-- The slot that the producer is about to write holds none of them. -/
  write : ∀ item t, s.producer = .hasRoom item t →
    ∀ i, (consumed answers).length ≤ i → i < (pushed answers).length → C.index i ≠ C.index t
  /-- Every answer is true: the load of `head_` with which `try_push` gives up
      found a full queue, the load of `tail_` with which `try_pop` or `peek` gives
      up found an empty one, and the consumer gets the next item. -/
  truthful : ∀ a s' o, SPSCQueue.step C s a = some (s', o) →
    o.Truthful C (pushed answers) (consumed answers).length

/-- The next answer is true whatever thread makes it: an answer that pushes more
    than the counter can count is no exception. -/
theorem step_truthful (h : Inv C s items head) (hstep : step C s a = some (s', o)) :
    o.Truthful C items head := by
  by_cases hfew : items.length + o.pushed.length < 2 ^ 64
  · exact (step_inv h hstep hfew).truthful
  · have hpushed : o.pushed ≠ [] := by
      intro hnil
      have := h.few
      rw [hnil] at hfew
      exact hfew this
    cases o with
    | tryPush item pushed =>
        cases pushed with
        | true => trivial
        | false => exact absurd rfl hpushed
    | _ => exact absurd rfl hpushed

theorem History.fifo {answers : List (Answer α)} (h : History C s answers) : Fifo C s answers := by
  have hbehind := h.inv.behind
  have hbounded := h.inv.bounded
  refine ⟨h.first, ?_, fun i item hi hitem => h.inv.slot hi hitem, ?_, fun a s' o hstep =>
    step_truthful h.inv hstep⟩
  · rw [h.inv.tail_eq, h.inv.head_eq]
    omega
  · intro item t hproducer i hi hlt
    have hknows := h.inv.producer
    rw [hproducer] at hknows
    obtain ⟨rfl, hroom⟩ := hknows
    rw [C.index_eq, C.index_eq]
    exact (slot_ne hlt (by omega)).symm

end

/-- The invariant after any run with few enough pushes. -/
theorem run_history [Inhabited α] {C : Capacity} {schedule : List (Action α)} {s : System α}
    {answers : List (Answer α)}
    (hrun : exec (step C) (System.make : System α) schedule = some (s, answers))
    (hfew : (pushed answers).length < 2 ^ 64) : History C s answers := by
  have hhistory : (pushed answers).length < 2 ^ 64 → History C s answers := by
    apply @exec_history _ _ _ (step C)
      (fun s answers => (pushed answers).length < 2 ^ 64 → History C s answers)
    · intro s answers a s' o h hstep hfew'
      refine (h ?_).step hstep hfew'
      rw [pushed_snoc, List.length_append] at hfew'
      omega
    · exact fun _ => ⟨make_inv, List.prefix_refl _⟩
    · exact hrun
  exact hhistory hfew

/-- Under every interleaving of the accesses of the producer, the consumer and any
    observers, with fewer than `2 ^ 64` pushes, the queue is a bounded FIFO. -/
theorem run_fifo [Inhabited α] (C : Capacity) (schedule : List (Action α)) {s : System α}
    {answers : List (Answer α)}
    (hrun : exec (step C) (System.make : System α) schedule = some (s, answers))
    (hfew : (pushed answers).length < 2 ^ 64) : Fifo C s answers :=
  (run_history hrun hfew).fifo

/-- Two slots. -/
def Capacity.two : Capacity := ⟨2, by decide, by decide, by decide⟩

/-- The producer fills both slots and turns back while the consumer is between
    its load of `tail_` and its read; after the pop a third item reuses the slot. -/
def sampleSchedule : List (Action Nat) :=
  [.tryPush 7, .producer, .producer, .tryPop, .producer, .consumer,
    .tryPush 8, .producer, .producer, .producer, .tryPush 9, .producer,
    .consumer, .consumer, .tryPush 9, .producer, .peek, .producer, .consumer, .producer,
    .read, .popCommit, .consumer]

/-- The sample schedule runs, and its queue is a FIFO. -/
theorem sample_fifo : ∃ s answers,
    exec (step Capacity.two) (System.make : System Nat) sampleSchedule = some (s, answers) ∧
      pushed answers = [7, 8, 9] ∧ consumed answers = [7, 8] ∧
      .tryPush 9 false ∈ answers ∧ Fifo Capacity.two s answers := by
  obtain ⟨answers, hmap, hpushed, hconsumed, hfull⟩ : ∃ answers,
      (exec (step Capacity.two) (System.make : System Nat) sampleSchedule).map Prod.snd =
        some answers ∧ pushed answers = [7, 8, 9] ∧ consumed answers = [7, 8] ∧
        .tryPush 9 false ∈ answers := ⟨_, rfl, by decide, by decide, by decide⟩
  obtain ⟨⟨s, outs⟩, hrun, hout⟩ := Option.map_eq_some_iff.mp hmap
  obtain rfl : outs = answers := hout
  exact ⟨s, outs, hrun, hpushed, hconsumed, hfull,
    run_fifo Capacity.two sampleSchedule hrun (by rw [hpushed]; decide)⟩

end SPSCQueue

end LimitOrderBook
