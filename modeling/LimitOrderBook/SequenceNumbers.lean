/-
  LimitOrderBook.SequenceNumbers

  The numbers that the gateway gives to the orders it submits.

  The number is taken before the push, and only the push can fail: a submit that
  finds the queue full keeps its number.  As long as no submit does, the orders
  that come out of the queue are those that were submitted, numbered from one.
  The 64-bit counters set no further bound.  Once `2 ^ 64` orders have been
  pushed the consumer's `head_ >= tail_` never lets another one out, so every
  order that is popped has a number that did not wrap.
-/
import LimitOrderBook.OrderGateway
import LimitOrderBook.Runs

namespace LimitOrderBook

open Lib Ring

namespace OrderGateway

/-- A call of the producer or of the consumer. -/
inductive Call where
  | submit (order : IncomingOrder)
  | pop

inductive Answer where
  | submitted (order : IncomingOrder) (success : Bool)
  | popped (order : Option IncomingOrder)

/-- One call. -/
def step (self : OrderGateway) : Call → Option (OrderGateway × Answer)
  | .submit order => some ((self.submit order).1, .submitted order (self.submit order).2)
  | .pop => some (self.tryPop.1, .popped self.tryPop.2)

/-- The orders whose submit returned true. -/
def accepted (answers : List Answer) : List IncomingOrder :=
  answers.flatMap fun
    | .submitted order true => [order]
    | _ => []

/-- The orders that the consumer popped. -/
def popped (answers : List Answer) : List IncomingOrder :=
  answers.flatMap fun
    | .popped (some order) => [order]
    | _ => []

/-- The orders with the timestamps 1, 2, 3, ... -/
def numbered (orders : List IncomingOrder) : List IncomingOrder :=
  orders.mapIdx fun i order => { order with timestamp := i + 1 }

/-- The queue has no room. -/
def full (self : OrderGateway) : Bool :=
  decide (subUInt64 self.queue.tail self.queue.head ≥ capacity.size)

/-- The call submits to a full queue. -/
def overflows (self : OrderGateway) : Call → Bool
  | .submit _ => self.full
  | .pop => false

/-- What a sequence of calls promises at every point: the popped orders are the
    accepted ones, numbered from one, and a submit that fails changes nothing. -/
def KeepsNumbers (calls : List Call) : Prop :=
  ∀ pre post, calls = pre ++ post → ∃ gateway answers,
    exec step make pre = some (gateway, answers) ∧
    popped answers <+: numbered (accepted answers) ∧
    ∀ order rest, post = .submit order :: rest → (gateway.submit order).2 = false →
      (gateway.submit order).1 = gateway

/-- The orders as `submit` numbers them. -/
def stamped (orders : List IncomingOrder) : List IncomingOrder :=
  orders.mapIdx fun i order => { order with timestamp := (i + 1) % 2 ^ 64 }

theorem stamped_length (orders : List IncomingOrder) : (stamped orders).length = orders.length :=
  List.length_mapIdx

theorem stamped_snoc (orders : List IncomingOrder) (order : IncomingOrder) :
    stamped (orders ++ [order]) =
      stamped orders ++ [{ order with timestamp := (orders.length + 1) % 2 ^ 64 }] := by
  simp [stamped, List.mapIdx_append]

/-- Numbers that fit are not wrapped. -/
theorem prefix_numbered {orders popped : List IncomingOrder} (h : popped <+: stamped orders)
    (hfew : popped.length < 2 ^ 64) : popped <+: numbered orders := by
  rw [List.prefix_iff_getElem?] at h ⊢
  intro i hi
  have hlookup := h i hi
  rw [stamped, List.getElem?_mapIdx, Nat.mod_eq_of_lt (by omega)] at hlookup
  rw [numbered, List.getElem?_mapIdx]
  exact hlookup

-- ============================================================================
-- One call
-- ============================================================================

/-- The invariant for the accepted orders and the number of popped ones. -/
structure Inv (gateway : OrderGateway) (orders : List IncomingOrder) (head : Nat) : Prop where
  tail_eq : gateway.queue.tail = orders.length % 2 ^ 64
  head_eq : gateway.queue.head = head
  few : head < 2 ^ 64
  behind : head ≤ orders.length
  bounded : orders.length ≤ head + capacity.size
  window : Window capacity.size gateway.queue.buffer head (stamped orders)
  next : gateway.nextSequence = (orders.length + 1) % 2 ^ 64

section

variable {gateway : OrderGateway} {orders : List IncomingOrder} {head : Nat}
  {order : IncomingOrder}

theorem make_inv : Inv make [] 0 where
  tail_eq := rfl
  head_eq := rfl
  few := Nat.two_pow_pos 64
  behind := Nat.le_refl 0
  bounded := Nat.zero_le _
  window := window_nil
  next := rfl

theorem capacity_size : capacity.size = 65536 := rfl

theorem Inv.full_iff (h : Inv gateway orders head) :
    gateway.full = true ↔ orders.length = head + capacity.size := by
  have hfew := h.few
  have hbehind := h.behind
  have hbounded := h.bounded
  rw [capacity_size] at hbounded ⊢
  rw [full, decide_eq_true_eq, h.tail_eq, h.head_eq, subUInt64, capacity_size]
  omega

/-- A submit into a full queue fails, and takes a number all the same. -/
theorem submit_full (hfull : gateway.full = true) :
    gateway.submit order =
      ({ gateway with nextSequence := addUInt64 gateway.nextSequence 1 }, false) := by
  simp only [full, decide_eq_true_eq] at hfull
  simp [submit, SPSCQueue.tryPush, hfull]

/-- A submit into a queue with room numbers the order and pushes it. -/
theorem Inv.submit (h : Inv gateway orders head) (hroom : gateway.full = false) :
    (gateway.submit order).2 = true ∧ Inv (gateway.submit order).1 (orders ++ [order]) head := by
  have hlength : (orders ++ [order]).length = orders.length + 1 := List.length_append
  have hbehind := h.behind
  have hbounded := h.bounded
  have hroom' : (stamped orders).length < head + capacity.size := by
    have hnot : ¬ gateway.full = true := by rw [hroom]; decide
    rw [h.full_iff] at hnot
    rw [stamped_length]
    omega
  have hslot : capacity.index gateway.queue.tail = (stamped orders).length % capacity.size := by
    rw [capacity.index_eq, h.tail_eq, stamped_length]
    exact Nat.mod_mod_of_dvd _ (by decide)
  have heq : gateway.submit order =
      ({ queue := { gateway.queue.store capacity gateway.queue.tail
            { order with timestamp := gateway.nextSequence } with
            tail := addUInt64 gateway.queue.tail 1 },
         nextSequence := addUInt64 gateway.nextSequence 1 }, true) := by
    simp only [full, decide_eq_false_iff_not] at hroom
    simp [OrderGateway.submit, SPSCQueue.tryPush, hroom]
  rw [stamped_length] at hroom'
  rw [heq]
  refine ⟨rfl, ?_, h.head_eq, h.few, by omega, by omega, ?_, ?_⟩
  · show addUInt64 gateway.queue.tail 1 = _
    rw [h.tail_eq, hlength, addUInt64, Nat.mod_add_mod]
  · rw [stamped_snoc]
    show Window capacity.size (Function.update gateway.queue.buffer
      (capacity.index gateway.queue.tail) _) head _
    rw [hslot]
    apply Window.append
    · exact h.window.write (by rw [stamped_length]; exact hroom') _
    · rw [Function.update_self, h.next]
  · show addUInt64 gateway.nextSequence 1 = _
    rw [h.next, hlength, addUInt64, Nat.mod_add_mod]

/-- A pop from a queue that looks empty changes nothing; any other takes the next
    accepted order, which has a number that did not wrap. -/
theorem Inv.pop (h : Inv gateway orders head) :
    gateway.tryPop = (gateway, none) ∨
    ∃ order, gateway.tryPop.2 = some order ∧ (stamped orders)[head]? = some order ∧
      Inv gateway.tryPop.1 orders (head + 1) := by
  have hfew := h.few
  have hbehind := h.behind
  have hbounded := h.bounded
  by_cases hempty : gateway.queue.head ≥ gateway.queue.tail
  · left
    simp [tryPop, SPSCQueue.tryPop, hempty]
  · right
    have heq : gateway.tryPop =
        ({ gateway with queue :=
            { gateway.queue with head := addUInt64 gateway.queue.head 1 } },
          some (gateway.queue.buffer (capacity.index gateway.queue.head))) := by
      simp [tryPop, SPSCQueue.tryPop, hempty]
    rw [h.head_eq, h.tail_eq] at hempty
    have hlt : head < (stamped orders).length := by
      rw [stamped_length]
      omega
    have hfront := h.window head _ (Nat.le_refl head) (List.getElem?_eq_getElem hlt)
    rw [heq]
    refine ⟨_, rfl, ?_, h.tail_eq, ?_, by omega, ?_, ?_, h.window.drop (Nat.le_succ head), h.next⟩
    · rw [capacity.index_eq, h.head_eq, hfront]
      exact List.getElem?_eq_getElem hlt
    · show addUInt64 gateway.queue.head 1 = _
      rw [h.head_eq]
      exact addUInt64_eq (by omega)
    · rw [stamped_length] at hlt
      exact hlt
    · omega

end

-- ============================================================================
-- Runs
-- ============================================================================

/-- The invariant for a history. -/
structure History (gateway : OrderGateway) (answers : List Answer) : Prop where
  inv : Inv gateway (accepted answers) (popped answers).length
  first : popped answers <+: stamped (accepted answers)

section

variable {gateway : OrderGateway} {answers : List Answer} {c : Call}

/-- A call that does not submit to a full queue keeps the invariant. -/
theorem History.step (h : History gateway answers) (hc : gateway.overflows c = false) :
    ∃ gateway' answer, gateway.step c = some (gateway', answer) ∧
      History gateway' (answers ++ [answer]) := by
  cases c with
  | submit order =>
      obtain ⟨hok, hinv⟩ := @Inv.submit _ _ _ order h.inv hc
      refine ⟨_, _, rfl, ?_⟩
      rw [hok]
      have haccepted : accepted (answers ++ [.submitted order true]) =
          accepted answers ++ [order] := by simp [accepted]
      have hpopped : popped (answers ++ [.submitted order true]) = popped answers := by
        simp [popped]
      refine ⟨by rwa [haccepted, hpopped], ?_⟩
      rw [haccepted, hpopped, stamped_snoc]
      exact h.first.trans (List.prefix_append _ _)
  | pop =>
      rcases h.inv.pop with heq | ⟨order, hsome, hfront, hinv⟩
      · have haccepted : accepted (answers ++ [.popped none]) = accepted answers := by
          simp [accepted]
        have hpopped : popped (answers ++ [.popped none]) = popped answers := by simp [popped]
        refine ⟨gateway, .popped none, by rw [OrderGateway.step, heq], ?_, ?_⟩
        · rw [haccepted, hpopped]
          exact h.inv
        · rw [haccepted, hpopped]
          exact h.first
      · have haccepted : accepted (answers ++ [.popped (some order)]) = accepted answers := by
          simp [accepted]
        have hpopped : popped (answers ++ [.popped (some order)]) = popped answers ++ [order] := by
          simp [popped]
        refine ⟨gateway.tryPop.1, .popped (some order), by rw [OrderGateway.step, hsome], ?_, ?_⟩
        · rw [haccepted, hpopped, List.length_append]
          exact hinv
        · rw [haccepted, hpopped]
          exact prefix_snoc h.first hfront

theorem make_history : History make [] := ⟨make_inv, List.prefix_refl _⟩

/-- A run without a submit to a full queue keeps the invariant. -/
theorem run_history {calls : List Call}
    (h : Along OrderGateway.step (fun g c => g.overflows c = false) make calls) :
    ∃ gateway answers, exec OrderGateway.step make calls = some (gateway, answers) ∧
      History gateway answers := by
  apply @exec_along_history _ _ _ OrderGateway.step
    (fun _ answers gateway => History gateway answers) _ _ _ make_history _ h
  intro pre c post _ answers gateway hhistory hc
  exact hhistory.step hc

/-- A submit to a full queue does not leave the sequence number as it was. -/
theorem Inv.submit_ne {orders : List IncomingOrder} {head : Nat} {order : IncomingOrder}
    (h : Inv gateway orders head) (hfull : gateway.full = true) :
    (gateway.submit order).2 = false ∧ (gateway.submit order).1 ≠ gateway := by
  rw [submit_full hfull]
  refine ⟨rfl, fun heq => ?_⟩
  have hnext : addUInt64 gateway.nextSequence 1 = gateway.nextSequence :=
    congrArg OrderGateway.nextSequence heq
  rw [h.next, addUInt64] at hnext
  omega

end

/-- As many submits as there are slots, and one more. -/
def overflowingCalls : List Call := List.replicate (65536 + 1) (.submit (makeOrder 1 .buy 5 10))

/-- As many submits as fit, with nothing popped. -/
theorem submit_replicate (order : IncomingOrder) {k : Nat} (hk : k ≤ capacity.size) :
    ∃ gateway answers,
      exec step make (List.replicate k (.submit order)) = some (gateway, answers) ∧
      Inv gateway (List.replicate k order) 0 := by
  induction k with
  | zero => exact ⟨make, [], rfl, make_inv⟩
  | succ k ih =>
      obtain ⟨gateway, answers, hrun, hinv⟩ := ih (by omega)
      have hroom : gateway.full = false := by
        rw [Bool.eq_false_iff, Ne, hinv.full_iff, List.length_replicate]
        omega
      obtain ⟨hok, hinv'⟩ := @Inv.submit _ _ _ order hinv hroom
      rw [List.replicate_succ', List.replicate_succ']
      exact ⟨_, _, exec_append hrun (exec_cons rfl rfl), hinv'⟩

/-- The last of them fails, and takes the number that its retry should get. -/
theorem overflowing_not_keepsNumbers : ¬ KeepsNumbers overflowingCalls := by
  intro h
  obtain ⟨gateway, answers, hrun, hinv⟩ :=
    submit_replicate (makeOrder 1 .buy 5 10) (Nat.le_refl capacity.size)
  have hfull : gateway.full = true := by
    rw [hinv.full_iff, List.length_replicate, Nat.zero_add]
  obtain ⟨g, outs, hrun', -, hunchanged⟩ := h _ _ List.replicate_succ'
  obtain ⟨rfl, -⟩ := result_unique hrun hrun'
  obtain ⟨hfails, hne⟩ := @Inv.submit_ne _ _ _ (makeOrder 1 .buy 5 10) hinv hfull
  exact hne (hunchanged _ _ rfl hfails)

/-- A run keeps its numbers exactly when none of its calls submits to a full
    queue. -/
theorem keepsNumbers_iff (calls : List Call) :
    KeepsNumbers calls ↔ Along step (fun g c => g.overflows c = false) make calls := by
  constructor
  · intro h
    apply along_induction
    rintro pre c post rfl hpre gateway answers hrun
    rw [Bool.eq_false_iff]
    intro hover
    obtain ⟨gateway', answers', hrun', hhistory⟩ := run_history hpre
    obtain ⟨rfl, rfl⟩ := result_unique hrun hrun'
    cases c with
    | pop => exact absurd hover (by simp [overflows])
    | submit order =>
        obtain ⟨g, outs, hrun'', -, hunchanged⟩ := h pre (.submit order :: post) rfl
        obtain ⟨rfl, -⟩ := result_unique hrun hrun''
        obtain ⟨hfails, hne⟩ := @Inv.submit_ne _ _ _ order hhistory.inv hover
        exact hne (hunchanged order post rfl hfails)
  · rintro h pre post rfl
    obtain ⟨gateway, answers, hrun, hhistory⟩ := run_history h.prefix
    refine ⟨gateway, answers, hrun, prefix_numbered hhistory.first hhistory.inv.few, ?_⟩
    rintro order rest rfl hfails
    have hroom : gateway.full = false := h pre _ rest rfl gateway answers hrun
    rw [(@Inv.submit _ _ _ order hhistory.inv hroom).1] at hfails
    exact absurd hfails (by decide)

end OrderGateway

end LimitOrderBook
