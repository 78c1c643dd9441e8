/-
  LimitOrderBook.Types

  The value types of `types.h` and `events.h`: ids, prices, quantities, the
  incoming order, trades, execution reports and the event a call returns.

  Ids and timestamps are only copied and compared, so `Nat` stands for
  `uint64_t`.  `Price` and `Quantity` (`int64_t`) are `Int`: matching subtracts
  a minimum from its operands and never leaves the range of `int64_t`; the one
  sum that can (`resting_quantity`) is computed with `addInt64`.
-/
import Mathlib.Algebra.Group.Nat.Defs
import Mathlib.Algebra.Ring.Int.Defs
import Mathlib.Tactic.Common

namespace LimitOrderBook

abbrev OrderID := Nat
abbrev Timestamp := Nat

def INT64_MAX : Int := 2 ^ 63 - 1
def INT64_MIN : Int := -2 ^ 63
def INT_MAX : Int := 2 ^ 31 - 1
def UINT32_MAX : Nat := 2 ^ 32 - 1

/-- `int64_t` addition; signed overflow is undefined behaviour and has no value. -/
def addInt64 (a b : Int) : Option Int :=
  if INT64_MIN ≤ a + b ∧ a + b ≤ INT64_MAX then some (a + b) else none

/-- `uint64_t` arithmetic wraps around. -/
def addUInt64 (a b : Nat) : Nat := (a + b) % 2 ^ 64

def subUInt64 (a b : Nat) : Nat := (a + 2 ^ 64 - b) % 2 ^ 64

theorem addUInt64_eq {a b : Nat} (h : a + b < 2 ^ 64) : addUInt64 a b = a + b :=
  Nat.mod_eq_of_lt h

theorem subUInt64_eq {a b : Nat} (ha : a < 2 ^ 64) (hle : b ≤ a) : subUInt64 a b = a - b := by
  rw [subUInt64, show a + 2 ^ 64 - b = a - b + 2 ^ 64 by omega, Nat.add_mod_right]
  exact Nat.mod_eq_of_lt (by omega)

inductive Side where
  | buy
  | sell
  deriving DecidableEq, Repr

/-- The side an order is matched against. -/
def Side.opposite : Side → Side
  | .buy => .sell
  | .sell => .buy

@[simp] theorem Side.opposite_opposite (side : Side) : side.opposite.opposite = side := by
  cases side <;> rfl

@[simp] theorem Side.opposite_ne (side : Side) : side.opposite ≠ side := by
  cases side <;> simp [Side.opposite]

theorem Side.eq_or_eq_opposite (side other : Side) : other = side ∨ other = side.opposite := by
  cases side <;> cases other <;> simp [Side.opposite]

inductive OrderType where
  | limit
  | market
  | ioc
  | fok
  deriving DecidableEq, Repr

inductive OrderStatus where
  | new
  | acked
  | resting
  | partiallyFilled
  | filled
  | cancelled
  deriving DecidableEq, Repr

structure Trade where
  buyOrderId : OrderID
  sellOrderId : OrderID
  price : Int
  quantity : Int
  timestamp : Timestamp
  deriving DecidableEq, Repr

structure ExecutionReport where
  orderId : OrderID
  status : OrderStatus
  side : Side
  price : Int
  filledQuantity : Int
  remainingQuantity : Int
  deriving DecidableEq, Repr

/-- Input order from the gateway. -/
structure IncomingOrder where
  id : OrderID
  side : Side
  type : OrderType
  price : Int
  quantity : Int
  timestamp : Timestamp
  deriving DecidableEq, Repr

/-- Output event of one call. -/
structure MatchEvent where
  trades : List Trade := []
  reports : List ExecutionReport := []
  deriving DecidableEq, Repr

/-- One call on an engine. -/
inductive Command where
  | processOrder (order : IncomingOrder)
  | cancelOrder (id : OrderID)
  deriving DecidableEq, Repr

/-- The ladder's sizing rule for one call: a Limit price is below `maxLevels`. -/
def Command.LimitBelow (maxLevels : Int) : Command → Prop
  | .processOrder order => order.type = .limit → order.price < maxLevels
  | .cancelOrder _ => True

instance (maxLevels : Int) : (c : Command) → Decidable (c.LimitBelow maxLevels)
  | .processOrder order =>
      inferInstanceAs (Decidable (order.type = .limit → order.price < maxLevels))
  | .cancelOrder _ => inferInstanceAs (Decidable True)

end LimitOrderBook
