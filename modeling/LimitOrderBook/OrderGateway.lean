/-
  LimitOrderBook.OrderGateway

  `order_gateway.h` and `order_gateway.cpp`: the ingress gateway.

  The check of an order collects a text for each fault, and no text means that
  the order is valid.  The engine makes the same checks again, except that it
  does not mind the price of a Market order.

  `submit` numbers an order and pushes it into the queue to the engine.  The
  gateway holds a reference to that queue; here the two are one state.
-/
import LimitOrderBook.MatchingEngine
import LimitOrderBook.SpscQueue

namespace LimitOrderBook

open MatchingEngine

structure OrderGateway where
  queue : SPSCQueue IncomingOrder
  nextSequence : Nat

/-- A value-initialized slot. -/
instance : Inhabited IncomingOrder := ⟨⟨0, .buy, .limit, 0, 0, 0⟩⟩

namespace OrderGateway

/-- The queue's template argument. -/
def capacity : SPSCQueue.Capacity := ⟨65536, by decide, by decide, by decide⟩

/-- A gateway on a fresh queue. -/
def make : OrderGateway := ⟨SPSCQueue.make, 1⟩

/-- Submit a validated order to the queue: false when the queue is full. -/
def submit (self : OrderGateway) (order : IncomingOrder) : OrderGateway × Bool :=
  let seqOrder := { order with timestamp := self.nextSequence }
  let nextSequence := addUInt64 self.nextSequence 1
  let r := self.queue.tryPush capacity seqOrder
  ({ queue := r.1, nextSequence }, r.2)

/-- Submit without the queue: the event that the engine answers with. -/
def submitDirect (self : OrderGateway) (engine : MatchingEngine) (order : IncomingOrder) :
    Option (OrderGateway × MatchingEngine × MatchEvent) :=
  let seqOrder := { order with timestamp := self.nextSequence }
  let nextSequence := addUInt64 self.nextSequence 1
  (engine.processOrder seqOrder).map fun r => ({ self with nextSequence }, r)

/-- The number that the next order gets. -/
def sequenceNumber (self : OrderGateway) : Nat := self.nextSequence

/-- The consumer's `try_pop`. -/
def tryPop (self : OrderGateway) : OrderGateway × Option IncomingOrder :=
  let r := self.queue.tryPop capacity
  ({ self with queue := r.1 }, r.2)

/-- Append the text of a fault to the errors found so far. -/
def report (fault : Prop) [Decidable fault] (text errors : String) : String :=
  if fault then errors ++ text else errors

/-- Validate an incoming order: an error text, empty when there is no fault. -/
def validate (order : IncomingOrder) : String :=
  let errors := ""
  let errors := report (order.id = 0) "Order ID must be non-zero; " errors
  let errors := report (order.quantity ≤ 0) "Quantity must be positive; " errors
  let errors := report (order.price ≤ 0 ∧ order.type = .limit)
    "Limit order price must be positive; " errors
  report (order.type = .market ∧ order.price ≠ 0)
    "Market orders should not have a price; " errors

/-- A fault with a text leaves the errors non-empty. -/
theorem report_eq_empty {fault : Prop} [Decidable fault] {text errors : String}
    (htext : text ≠ "") : report fault text errors = "" ↔ ¬ fault ∧ errors = "" := by
  rw [report]
  split
  · next hfault =>
      rw [String.append_eq_empty_iff]
      exact iff_of_false (fun h => htext h.2) (fun h => h.1 hfault)
  · next hno => exact (and_iff_right hno).symm

theorem validate_eq_empty {order : IncomingOrder} :
    validate order = "" ↔
      validateOrder order = true ∧ ¬ (order.type = .market ∧ order.price ≠ 0) := by
  have hengine : validateOrder order = true ↔
      ¬ (order.price ≤ 0 ∧ order.type = .limit) ∧ ¬ order.quantity ≤ 0 ∧ ¬ order.id = 0 := by
    unfold validateOrder
    split
    · next h => simp [h]
    · split
      · next h => simp [h]
      · split
        · next h => simp [h]
        · next hq hp hid => exact iff_of_true rfl ⟨hp, hq, hid⟩
  simp only [validate, report_eq_empty (show "Order ID must be non-zero; " ≠ "" by decide),
    report_eq_empty (show "Quantity must be positive; " ≠ "" by decide),
    report_eq_empty (show "Limit order price must be positive; " ≠ "" by decide),
    report_eq_empty (show "Market orders should not have a price; " ≠ "" by decide), and_true,
    hengine]
  exact and_comm

/-- The error text for each set of faults. -/
def errorText (noId noQuantity noPrice priced : Bool) : String :=
  report (priced = true) "Market orders should not have a price; "
    (report (noPrice = true) "Limit order price must be positive; "
      (report (noQuantity = true) "Quantity must be positive; "
        (report (noId = true) "Order ID must be non-zero; " "")))

theorem errorText_inj : ∀ a b c d a' b' c' d' : Bool,
    errorText a b c d = errorText a' b' c' d' → a = a' ∧ b = b' ∧ c = c' ∧ d = d' := by
  decide +kernel

theorem validate_eq (order : IncomingOrder) : validate order =
    errorText (decide (order.id = 0)) (decide (order.quantity ≤ 0))
      (decide (order.price ≤ 0 ∧ order.type = .limit))
      (decide (order.type = .market ∧ order.price ≠ 0)) := by
  simp only [validate, errorText, report, decide_eq_true_eq]

/-- The text tells exactly which of the checks failed. -/
theorem validate_eq_iff (x y : IncomingOrder) : validate x = validate y ↔
    (x.id = 0 ↔ y.id = 0) ∧ (x.quantity ≤ 0 ↔ y.quantity ≤ 0) ∧
      (x.price ≤ 0 ∧ x.type = .limit ↔ y.price ≤ 0 ∧ y.type = .limit) ∧
      (x.type = .market ∧ x.price ≠ 0 ↔ y.type = .market ∧ y.price ≠ 0) := by
  rw [validate_eq, validate_eq]
  constructor
  · intro h
    obtain ⟨hid, hquantity, hlimit, hmarket⟩ := errorText_inj _ _ _ _ _ _ _ _ h
    exact ⟨decide_eq_decide.mp hid, decide_eq_decide.mp hquantity, decide_eq_decide.mp hlimit,
      decide_eq_decide.mp hmarket⟩
  · rintro ⟨hid, hquantity, hlimit, hmarket⟩
    rw [decide_eq_decide.mpr hid, decide_eq_decide.mpr hquantity, decide_eq_decide.mpr hlimit,
      decide_eq_decide.mpr hmarket]

end OrderGateway

end LimitOrderBook
