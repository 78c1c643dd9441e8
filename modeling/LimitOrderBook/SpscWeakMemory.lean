/-
  LimitOrderBook.SpscWeakMemory

  The queue on a memory that gives no more order than the code asks for.

  In `SpscQueue` a load sees the last store.  Here the counters are atomic
  locations of a weak memory and the slots are plain ones: each load of a counter
  picks any message that its thread may still see, with the order that
  `spsc_queue.h` gives it (a role loads its own counter relaxed and the other one
  with acquire; a query loads both with acquire; both stores are releases), and
  two slot accesses that neither happens before the other are a race.

  A thread's own counter has no message that it has not seen, so only the other
  side's counter can be old.  An old `head_` shows less room than there is and an
  old `tail_` fewer items, which is what makes the old values safe.  What orders
  the slot accesses is in the messages: number `i` of `tail_` carries the writes of
  the first `i` items, number `j` of `head_` the reads of the first `j`.
-/
import LimitOrderBook.Lib.WeakMemory
import LimitOrderBook.SpscObservers

namespace LimitOrderBook

open Lib Ring WeakMemory Memory

namespace SPSCQueue

variable {α : Type*}

/-- `head_` and `tail_`. -/
inductive Counter where
  | head
  | tail
  deriving DecidableEq

/-- The queue in memory: its counters are atomic, its slots are not. -/
abbrev SharedMemory (α : Type*) := Memory Thread Counter Nat Nat α

/-- The queue and its threads, as `System`. -/
structure WeakSystem (α : Type*) where
  memory : SharedMemory α
  producer : Producer α
  consumer : Consumer α
  peeked : Option Nat
  observer : Nat → Option Querying

namespace WeakSystem

/-- Nothing pushed, nobody in a call. -/
def make [Inhabited α] : WeakSystem α :=
  ⟨Memory.make (fun _ => 0) (fun _ => default), .idle, .idle, none, fun _ => none⟩

/-- The query that a thread is in. -/
def query (s : WeakSystem α) : Thread → Option Querying
  | .producer => s.producer.query
  | .consumer => s.consumer.query
  | .observer k => s.observer k

end WeakSystem

/-- The first load of a query. -/
def weakAsk (m : SharedMemory α) (t : Thread) (pick : Nat) :
    Query → Option (SharedMemory α × Querying)
  | .empty true => (m.load t .head true pick).map fun r => (r.1, .emptyHead r.2)
  | .empty false => (m.load t .tail true pick).map fun r => (r.1, .emptyTail r.2)
  | .sizeApprox => (m.load t .tail true pick).map fun r => (r.1, .sizeTail r.2)

/-- The second load of a query, and its answer. -/
def weakAnswer (m : SharedMemory α) (t : Thread) (pick : Nat) :
    Querying → Option (SharedMemory α × Answer α)
  | .emptyHead h => (m.load t .tail true pick).map fun r => (r.1, .empty (decide (h ≥ r.2)))
  | .emptyTail x => (m.load t .head true pick).map fun r => (r.1, .empty (decide (r.2 ≥ x)))
  | .sizeTail x => (m.load t .head true pick).map fun r =>
      (r.1, .sizeApprox (if x ≥ r.2 then subUInt64 x r.2 else 0))

/-- The next access of the producer. -/
def weakProducer (C : Capacity) (s : WeakSystem α) (pick : Nat) :
    Option (WeakSystem α × Answer α) :=
  match s.producer with
  | .idle => none
  | .pushing item t =>
      (s.memory.load .producer .head true pick).map fun r =>
        if subUInt64 t r.2 ≥ C.size then
          ({ s with memory := r.1, producer := .idle }, .tryPush item false)
        else ({ s with memory := r.1, producer := .hasRoom item t }, .pending)
  | .hasRoom item t =>
      some ({ s with
        memory := s.memory.write .producer (C.index t) item, producer := .written item t },
        .pending)
  | .written item t =>
      (s.memory.store .producer .tail (addUInt64 t 1)).map fun m =>
        ({ s with memory := m, producer := .idle }, .tryPush item true)
  | .querying query =>
      (weakAnswer s.memory .producer pick query).map fun r =>
        ({ s with memory := r.1, producer := .idle }, r.2)

/-- The next access of the consumer. -/
def weakConsumer (C : Capacity) (s : WeakSystem α) (pick : Nat) :
    Option (WeakSystem α × Answer α) :=
  match s.consumer with
  | .idle => none
  | .popping h =>
      (s.memory.load .consumer .tail true pick).map fun r =>
        if h ≥ r.2 then ({ s with memory := r.1, consumer := .idle }, .tryPop none)
        else ({ s with memory := r.1, consumer := .popFound h }, .pending)
  | .popFound h =>
      let r := s.memory.read .consumer (C.index h)
      some ({ s with memory := r.1, consumer := .popRead h r.2 }, .pending)
  | .popRead h item =>
      (s.memory.store .consumer .head (addUInt64 h 1)).map fun m =>
        ({ s with memory := m, consumer := .idle }, .tryPop (some item))
  | .peeking h =>
      (s.memory.load .consumer .tail true pick).map fun r =>
        if h ≥ r.2 then
          ({ s with memory := r.1, consumer := .idle, peeked := none }, .peek false)
        else
          ({ s with memory := r.1, consumer := .idle, peeked := some (C.index h) }, .peek true)
  | .committing h slot =>
      (s.memory.store .consumer .head (addUInt64 h 1)).map fun m =>
        ({ s with memory := m, consumer := .idle }, .popCommit (s.memory.value slot))
  | .querying query =>
      (weakAnswer s.memory .consumer pick query).map fun r =>
        ({ s with memory := r.1, consumer := .idle }, r.2)

/-- One access, as `step`, with the message that it picks if it is a load of a
    counter. -/
def weakStep (C : Capacity) (s : WeakSystem α) :
    Action α × Nat → Option (WeakSystem α × Answer α)
  | (.tryPush item, pick) =>
      match s.producer with
      | .idle =>
          (s.memory.load .producer .tail false pick).map fun r =>
            ({ s with memory := r.1, producer := .pushing item r.2 }, .pending)
      | _ => none
  | (.producerQuery query, pick) =>
      match s.producer with
      | .idle =>
          (weakAsk s.memory .producer pick query).map fun r =>
            ({ s with memory := r.1, producer := .querying r.2 }, .pending)
      | _ => none
  | (.producer, pick) => weakProducer C s pick
  | (.tryPop, pick) =>
      match s.consumer with
      | .idle =>
          (s.memory.load .consumer .head false pick).map fun r =>
            ({ s with memory := r.1, consumer := .popping r.2, peeked := none }, .pending)
      | _ => none
  | (.peek, pick) =>
      match s.consumer with
      | .idle =>
          (s.memory.load .consumer .head false pick).map fun r =>
            ({ s with memory := r.1, consumer := .peeking r.2 }, .pending)
      | _ => none
  | (.read, _) =>
      match s.consumer, s.peeked with
      | .idle, some slot =>
          let r := s.memory.read .consumer slot
          some ({ s with memory := r.1 }, .read r.2)
      | _, _ => none
  | (.popCommit, pick) =>
      match s.consumer, s.peeked with
      | .idle, some slot =>
          (s.memory.load .consumer .head false pick).map fun r =>
            ({ s with memory := r.1, consumer := .committing r.2 slot, peeked := none }, .pending)
      | _, _ => none
  | (.consumerQuery query, pick) =>
      match s.consumer with
      | .idle =>
          (weakAsk s.memory .consumer pick query).map fun r =>
            ({ s with memory := r.1, consumer := .querying r.2 }, .pending)
      | _ => none
  | (.consumer, pick) => weakConsumer C s pick
  | (.observerQuery k query, pick) =>
      match s.observer k with
      | none =>
          (weakAsk s.memory (.observer k) pick query).map fun r =>
            ({ s with memory := r.1, observer := Function.update s.observer k (some r.2) },
              .pending)
      | some _ => none
  | (.observer k, pick) =>
      match s.observer k with
      | none => none
      | some query =>
          (weakAnswer s.memory (.observer k) pick query).map fun r =>
            ({ s with memory := r.1, observer := Function.update s.observer k none }, r.2)

end SPSCQueue

end LimitOrderBook
