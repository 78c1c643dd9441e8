/-
  LimitOrderBook.SpscQueue

  `spsc_queue.h`: the ring buffer between one producer and one consumer.

  Every call is the sequence of its loads and stores of `head_` and `tail_` and
  of its slot accesses.  A `System` is the queue together with where each thread
  is inside its call, and one `step` is one access of one thread, so that a list
  of actions is an interleaving.  A call's first action is its first load; the
  action that makes its last access returns its answer.

  The pointer that `peek` returns is the index of a slot, which the consumer may
  read until it pops, commits or peeks again.  `empty` and `size_approx` only
  load, and any thread may call them.
-/
import LimitOrderBook.Types
import LimitOrderBook.Lib.Ring
import LimitOrderBook.Lib.Run

namespace LimitOrderBook

open Lib

structure SPSCQueue (α : Type*) where
  buffer : Nat → α
  head : Nat
  tail : Nat

namespace SPSCQueue

variable {α : Type*}

/-- The template argument, with what the class asserts of it. -/
structure Capacity where
  size : Nat
  power : size &&& (size - 1) = 0
  ge : 2 ≤ size
  lt : size < 2 ^ 64

/-- `i & mask()`. -/
def Capacity.index (C : Capacity) (i : Nat) : Nat := i &&& (C.size - 1)

/-- The mask takes the remainder. -/
theorem Capacity.index_eq (C : Capacity) (i : Nat) : C.index i = i % C.size := by
  have hge := C.ge
  obtain ⟨k, hk⟩ := (Nat.and_sub_one_eq_zero_iff_isPowerOfTwo (by omega)).mp C.power
  rw [index, hk, Nat.and_two_pow_sub_one_eq_mod]

/-- The constructor: every slot is value-initialized. -/
def make [Inhabited α] : SPSCQueue α := ⟨fun _ => default, 0, 0⟩

/-- `buffer_[i & mask()] = item`. -/
def store (self : SPSCQueue α) (C : Capacity) (i : Nat) (item : α) : SPSCQueue α :=
  { self with buffer := Function.update self.buffer (C.index i) item }

-- ============================================================================
-- Uninterrupted calls
-- ============================================================================

/-- Try to push: false if full. -/
def tryPush (self : SPSCQueue α) (C : Capacity) (item : α) : SPSCQueue α × Bool :=
  let t := self.tail
  let h := self.head
  if subUInt64 t h ≥ C.size then (self, false)
  else ({ self.store C t item with tail := addUInt64 t 1 }, true)

/-- Try to pop: nothing if empty. -/
def tryPop (self : SPSCQueue α) (C : Capacity) : SPSCQueue α × Option α :=
  let h := self.head
  let t := self.tail
  if h ≥ t then (self, none)
  else ({ self with head := addUInt64 h 1 }, some (self.buffer (C.index h)))

-- ============================================================================
-- Threads
-- ============================================================================

/-- What a step returns to its caller, if the call ends with it. -/
inductive Answer (α : Type*) where
  | pending
  | tryPush (item : α) (pushed : Bool)
  | tryPop (item : Option α)
  | peek (found : Bool)
  /-- The consumer looks through its pointer. -/
  | read (item : α)
  /-- The commit, with the item that it consumes. -/
  | popCommit (item : α)
  | empty (value : Bool)
  | sizeApprox (value : Nat)
  deriving DecidableEq

/-- A call that only loads.  The operands of the comparison in `empty` are loaded
    in either order. -/
inductive Query where
  | empty (headFirst : Bool)
  | sizeApprox

/-- A query after its first load. -/
inductive Querying where
  | emptyHead (h : Nat)
  | emptyTail (t : Nat)
  | sizeTail (t : Nat)

/-- Where the producer is. -/
inductive Producer (α : Type*) where
  | idle
  /-- `tail_` is loaded. -/
  | pushing (item : α) (t : Nat)
  /-- `head_` is loaded and leaves room. -/
  | hasRoom (item : α) (t : Nat)
  /-- The slot is written. -/
  | written (item : α) (t : Nat)
  | querying (query : Querying)

/-- Where the consumer is. -/
inductive Consumer (α : Type*) where
  | idle
  /-- `head_` is loaded. -/
  | popping (h : Nat)
  /-- `tail_` is loaded and the queue is not empty. -/
  | popFound (h : Nat)
  /-- The slot is read. -/
  | popRead (h : Nat) (item : α)
  | peeking (h : Nat)
  /-- `head_` is loaded; `slot` is the slot that was peeked. -/
  | committing (h slot : Nat)
  | querying (query : Querying)

/-- The queue and its threads.  `peeked` is the pointer that the consumer holds. -/
structure System (α : Type*) where
  queue : SPSCQueue α
  producer : Producer α
  consumer : Consumer α
  peeked : Option Nat
  observer : Nat → Option Querying

/-- Nothing pushed, nobody in a call. -/
def System.make [Inhabited α] : System α := ⟨SPSCQueue.make, .idle, .idle, none, fun _ => none⟩

/-- One access of one thread: the first one of a call, or the next one. -/
inductive Action (α : Type*) where
  | tryPush (item : α)
  | producerQuery (query : Query)
  | producer
  | tryPop
  | peek
  | read
  | popCommit
  | consumerQuery (query : Query)
  | consumer
  | observerQuery (k : Nat) (query : Query)
  | observer (k : Nat)

/-- The first load of a query. -/
def ask (self : SPSCQueue α) : Query → Querying
  | .empty true => .emptyHead self.head
  | .empty false => .emptyTail self.tail
  | .sizeApprox => .sizeTail self.tail

/-- The second load of a query, and its answer. -/
def answer (self : SPSCQueue α) : Querying → Answer α
  | .emptyHead h => .empty (decide (h ≥ self.tail))
  | .emptyTail t => .empty (decide (self.head ≥ t))
  | .sizeTail t => .sizeApprox (if t ≥ self.head then subUInt64 t self.head else 0)

/-- The next access of the producer. -/
def stepProducer (C : Capacity) (s : System α) : Option (System α × Answer α) :=
  match s.producer with
  | .idle => none
  | .pushing item t =>
      if subUInt64 t s.queue.head ≥ C.size then
        some ({ s with producer := .idle }, .tryPush item false)
      else some ({ s with producer := .hasRoom item t }, .pending)
  | .hasRoom item t =>
      some ({ s with queue := s.queue.store C t item, producer := .written item t }, .pending)
  | .written item t =>
      some ({ s with queue := { s.queue with tail := addUInt64 t 1 }, producer := .idle },
        .tryPush item true)
  | .querying query => some ({ s with producer := .idle }, s.queue.answer query)

/-- The next access of the consumer. -/
def stepConsumer (C : Capacity) (s : System α) : Option (System α × Answer α) :=
  match s.consumer with
  | .idle => none
  | .popping h =>
      if h ≥ s.queue.tail then some ({ s with consumer := .idle }, .tryPop none)
      else some ({ s with consumer := .popFound h }, .pending)
  | .popFound h =>
      some ({ s with consumer := .popRead h (s.queue.buffer (C.index h)) }, .pending)
  | .popRead h item =>
      some ({ s with queue := { s.queue with head := addUInt64 h 1 }, consumer := .idle },
        .tryPop (some item))
  | .peeking h =>
      if h ≥ s.queue.tail then
        some ({ s with consumer := .idle, peeked := none }, .peek false)
      else some ({ s with consumer := .idle, peeked := some (C.index h) }, .peek true)
  | .committing h slot =>
      some ({ s with queue := { s.queue with head := addUInt64 h 1 }, consumer := .idle },
        .popCommit (s.queue.buffer slot))
  | .querying query => some ({ s with consumer := .idle }, s.queue.answer query)

/-- One access.  A thread starts a call only when it is in none, and the consumer
    reads and commits only what it has peeked. -/
def step (C : Capacity) (s : System α) : Action α → Option (System α × Answer α)
  | .tryPush item =>
      match s.producer with
      | .idle => some ({ s with producer := .pushing item s.queue.tail }, .pending)
      | _ => none
  | .producerQuery query =>
      match s.producer with
      | .idle => some ({ s with producer := .querying (s.queue.ask query) }, .pending)
      | _ => none
  | .producer => stepProducer C s
  | .tryPop =>
      match s.consumer with
      | .idle =>
          some ({ s with consumer := .popping s.queue.head, peeked := none }, .pending)
      | _ => none
  | .peek =>
      match s.consumer with
      | .idle => some ({ s with consumer := .peeking s.queue.head }, .pending)
      | _ => none
  | .read =>
      match s.consumer, s.peeked with
      | .idle, some slot => some (s, .read (s.queue.buffer slot))
      | _, _ => none
  | .popCommit =>
      match s.consumer, s.peeked with
      | .idle, some slot =>
          some ({ s with consumer := .committing s.queue.head slot, peeked := none }, .pending)
      | _, _ => none
  | .consumerQuery query =>
      match s.consumer with
      | .idle => some ({ s with consumer := .querying (s.queue.ask query) }, .pending)
      | _ => none
  | .consumer => stepConsumer C s
  | .observerQuery k query =>
      match s.observer k with
      | none =>
          some ({ s with observer := Function.update s.observer k (some (s.queue.ask query)) },
            .pending)
      | some _ => none
  | .observer k =>
      match s.observer k with
      | none => none
      | some query =>
          some ({ s with observer := Function.update s.observer k none }, s.queue.answer query)

-- ============================================================================
-- A thread that is not interrupted
-- ============================================================================

section Alone

variable (C : Capacity) (s : System α)

/-- The accesses of `try_push`, one after the other, are the uninterrupted call. -/
theorem tryPush_alone (item : α) (h : s.producer = .idle) :
    ∃ rest answers, (∀ a ∈ rest, a = .producer) ∧
      exec (step C) s (.tryPush item :: rest) =
        some ({ s with queue := (s.queue.tryPush C item).1 },
          answers ++ [.tryPush item (s.queue.tryPush C item).2]) := by
  by_cases hfull : subUInt64 s.queue.tail s.queue.head ≥ C.size
  · refine ⟨[.producer], [.pending], by simp, ?_⟩
    simp [exec, step, stepProducer, tryPush, h, hfull]
  · refine ⟨[.producer, .producer, .producer], [.pending, .pending, .pending], by simp, ?_⟩
    simp [exec, step, stepProducer, tryPush, store, h, hfull]

/-- The accesses of `try_pop`, one after the other, are the uninterrupted call. -/
theorem tryPop_alone (h : s.consumer = .idle) :
    ∃ rest answers, (∀ a ∈ rest, a = .consumer) ∧
      exec (step C) s (.tryPop :: rest) =
        some ({ s with queue := (s.queue.tryPop C).1, peeked := none },
          answers ++ [.tryPop (s.queue.tryPop C).2]) := by
  by_cases hempty : s.queue.head ≥ s.queue.tail
  · refine ⟨[.consumer], [.pending], by simp, ?_⟩
    simp [exec, step, stepConsumer, tryPop, h, hempty]
  · refine ⟨[.consumer, .consumer, .consumer], [.pending, .pending, .pending], by simp, ?_⟩
    simp [exec, step, stepConsumer, tryPop, h, hempty]

end Alone

end SPSCQueue

end LimitOrderBook
