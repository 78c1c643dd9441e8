/-
  LimitOrderBook.MatchingEngine

  `matching_engine.h` and `matching_engine.cpp`: the single-threaded price-time
  priority engine.

  The two hand-copied loops `match_buy` and `match_sell` are one loop over what
  they do not share (`Matcher`); the two nested `while` loops are `runLoop` on
  the engine, the incoming order and the event.  `loopFuel` bounds the rounds of
  either loop; a result does not depend on it (`runLoop_mono`), and a loop that
  does not end has no result.
-/
import LimitOrderBook.PriceLadder
import LimitOrderBook.Lib.Loop
import LimitOrderBook.Lib.Run
import Mathlib.Data.List.AList

namespace LimitOrderBook

open Lib

structure MatchingEngine where
  pool : OrderPool
  bids : PriceLadder
  asks : PriceLadder
  orderMap : AList fun _ : OrderID => Slot

namespace MatchingEngine

/-- The constructor: a non-positive level count means the default. -/
def make (maxPriceLevels : Int := PriceLadder.DEFAULT_MAX_LEVELS)
    (poolCapacity : Nat := 1000000) : Option MatchingEngine := do
  let maxLevels := if maxPriceLevels > 0 then maxPriceLevels else 20000
  let pool ← OrderPool.make poolCapacity
  let bids ← PriceLadder.make maxLevels
  let asks ← PriceLadder.make maxLevels
  return { pool, bids := bids.setBasePrice 0, asks := asks.setBasePrice 0, orderMap := ∅ }

-- ============================================================================
-- Access
-- ============================================================================

def heap (self : MatchingEngine) : Heap := self.pool.pool

def ladder (self : MatchingEngine) : Side → PriceLadder
  | .buy => self.bids
  | .sell => self.asks

def setLadder (self : MatchingEngine) : Side → PriceLadder → MatchingEngine
  | .buy, l => { self with bids := l }
  | .sell, l => { self with asks := l }

def setHeap (self : MatchingEngine) (heap : Heap) : MatchingEngine :=
  { self with pool := { self.pool with pool := heap } }

def modifyOrder (self : MatchingEngine) (p : Slot) (f : Order → Order) : MatchingEngine :=
  self.setHeap (self.heap.modify p f)

/-- `ladder.level_at(idx).push_back(order)`. -/
def pushToLevel (self : MatchingEngine) (side : Side) (idx : Nat) (order : Slot) :
    MatchingEngine :=
  let r := ((self.ladder side).levelAt idx).pushBack self.heap order
  (self.setLadder side ((self.ladder side).setLevel idx r.1)).setHeap r.2

/-- `ladder.level_at(idx).remove(order)`. -/
def removeFromLevel (self : MatchingEngine) (side : Side) (idx : Nat) (order : Slot) :
    MatchingEngine :=
  let r := ((self.ladder side).levelAt idx).remove self.heap order
  (self.setLadder side ((self.ladder side).setLevel idx r.1)).setHeap r.2

def markOccupied (self : MatchingEngine) (side : Side) (idx : Nat) : MatchingEngine :=
  self.setLadder side ((self.ladder side).markOccupied idx)

def markEmpty (self : MatchingEngine) (side : Side) (idx : Nat) : MatchingEngine :=
  self.setLadder side ((self.ladder side).markEmpty idx)

/-- `order_map_.erase(id)`. -/
def eraseId (self : MatchingEngine) (id : OrderID) : MatchingEngine :=
  { self with orderMap := self.orderMap.erase id }

/-- `order_map_[id] = order`. -/
def assignId (self : MatchingEngine) (id : OrderID) (order : Slot) : MatchingEngine :=
  { self with orderMap := self.orderMap.insert id order }

/-- `pool_.deallocate(order)`. -/
def deallocate (self : MatchingEngine) (order : Slot) : MatchingEngine :=
  { self with pool := self.pool.deallocate order }

section Access

variable (self : MatchingEngine) (side : Side) (l : PriceLadder) (heap : Heap) (p : Slot)
  (f : Order → Order) (idx : Nat) (id : OrderID)

@[simp] theorem setLadder_heap : (self.setLadder side l).heap = self.heap := by cases side <;> rfl
@[simp] theorem setLadder_pool : (self.setLadder side l).pool = self.pool := by cases side <;> rfl
@[simp] theorem setLadder_orderMap : (self.setLadder side l).orderMap = self.orderMap := by
  cases side <;> rfl

@[simp] theorem setLadder_ladder :
    (self.setLadder side l).ladder = Function.update self.ladder side l := by
  funext other
  cases side <;> cases other <;> rfl

@[simp] theorem setHeap_heap : (self.setHeap heap).heap = heap := rfl
@[simp] theorem setHeap_ladder : (self.setHeap heap).ladder = self.ladder := rfl
@[simp] theorem setHeap_orderMap : (self.setHeap heap).orderMap = self.orderMap := rfl
@[simp] theorem setHeap_pool : (self.setHeap heap).pool = { self.pool with pool := heap } := rfl

@[simp] theorem modifyOrder_heap : (self.modifyOrder p f).heap = self.heap.modify p f := rfl
@[simp] theorem modifyOrder_ladder : (self.modifyOrder p f).ladder = self.ladder := rfl
@[simp] theorem modifyOrder_orderMap : (self.modifyOrder p f).orderMap = self.orderMap := rfl
@[simp] theorem modifyOrder_pool :
    (self.modifyOrder p f).pool = { self.pool with pool := self.heap.modify p f } := rfl

@[simp] theorem pushToLevel_heap : (self.pushToLevel side idx p).heap =
    (((self.ladder side).levelAt idx).pushBack self.heap p).2 := rfl

@[simp] theorem pushToLevel_ladder : (self.pushToLevel side idx p).ladder =
    Function.update self.ladder side ((self.ladder side).setLevel idx
      (((self.ladder side).levelAt idx).pushBack self.heap p).1) := by
  simp [pushToLevel]

@[simp] theorem pushToLevel_orderMap : (self.pushToLevel side idx p).orderMap = self.orderMap := by
  simp [pushToLevel]

@[simp] theorem pushToLevel_pool : (self.pushToLevel side idx p).pool =
    { self.pool with pool := (((self.ladder side).levelAt idx).pushBack self.heap p).2 } := by
  simp [pushToLevel]

@[simp] theorem removeFromLevel_heap : (self.removeFromLevel side idx p).heap =
    (((self.ladder side).levelAt idx).remove self.heap p).2 := rfl

@[simp] theorem removeFromLevel_ladder : (self.removeFromLevel side idx p).ladder =
    Function.update self.ladder side ((self.ladder side).setLevel idx
      (((self.ladder side).levelAt idx).remove self.heap p).1) := by
  simp [removeFromLevel]

@[simp] theorem removeFromLevel_orderMap :
    (self.removeFromLevel side idx p).orderMap = self.orderMap := by
  simp [removeFromLevel]

@[simp] theorem removeFromLevel_pool : (self.removeFromLevel side idx p).pool =
    { self.pool with pool := (((self.ladder side).levelAt idx).remove self.heap p).2 } := by
  simp [removeFromLevel]

@[simp] theorem markOccupied_heap : (self.markOccupied side idx).heap = self.heap := by
  simp [markOccupied]
@[simp] theorem markOccupied_pool : (self.markOccupied side idx).pool = self.pool := by
  simp [markOccupied]
@[simp] theorem markOccupied_orderMap :
    (self.markOccupied side idx).orderMap = self.orderMap := by simp [markOccupied]
@[simp] theorem markOccupied_ladder : (self.markOccupied side idx).ladder =
    Function.update self.ladder side ((self.ladder side).markOccupied idx) := by
  simp [markOccupied]

@[simp] theorem markEmpty_heap : (self.markEmpty side idx).heap = self.heap := by
  simp [markEmpty]
@[simp] theorem markEmpty_pool : (self.markEmpty side idx).pool = self.pool := by
  simp [markEmpty]
@[simp] theorem markEmpty_orderMap : (self.markEmpty side idx).orderMap = self.orderMap := by
  simp [markEmpty]
@[simp] theorem markEmpty_ladder : (self.markEmpty side idx).ladder =
    Function.update self.ladder side ((self.ladder side).markEmpty idx) := by
  simp [markEmpty]

@[simp] theorem eraseId_heap : (self.eraseId id).heap = self.heap := rfl
@[simp] theorem eraseId_pool : (self.eraseId id).pool = self.pool := rfl
@[simp] theorem eraseId_ladder : (self.eraseId id).ladder = self.ladder := by
  funext side; cases side <;> rfl
@[simp] theorem eraseId_orderMap : (self.eraseId id).orderMap = self.orderMap.erase id := rfl

@[simp] theorem assignId_heap : (self.assignId id p).heap = self.heap := rfl
@[simp] theorem assignId_pool : (self.assignId id p).pool = self.pool := rfl
@[simp] theorem assignId_ladder : (self.assignId id p).ladder = self.ladder := by
  funext side; cases side <;> rfl
@[simp] theorem assignId_orderMap :
    (self.assignId id p).orderMap = self.orderMap.insert id p := rfl

@[simp] theorem deallocate_heap : (self.deallocate p).heap =
    self.heap.modify p (Order.setPoolIndex self.pool.freeHead) := rfl
@[simp] theorem deallocate_pool : (self.deallocate p).pool = self.pool.deallocate p := rfl
@[simp] theorem deallocate_ladder : (self.deallocate p).ladder = self.ladder := by
  funext side; cases side <;> rfl
@[simp] theorem deallocate_orderMap : (self.deallocate p).orderMap = self.orderMap := rfl

/-- The map is written twice when an order rests on the ladder. -/
theorem assignId_assignId : (self.assignId id p).assignId id p = self.assignId id p := by
  simp [assignId]

end Access

-- ============================================================================
-- Quotes and checks
-- ============================================================================

def bestBid (self : MatchingEngine) : Int := self.bids.bestBidPrice

def bestAsk (self : MatchingEngine) : Int := self.asks.bestAskPrice

def spread (self : MatchingEngine) : Int :=
  let bb := self.bestBid
  let ba := self.bestAsk
  if bb = 0 ∨ ba = 0 then 0 else ba - bb

def poolCapacity (self : MatchingEngine) : Nat := self.pool.capacity

def activeOrderCount (self : MatchingEngine) : Nat := self.orderMap.entries.length

/-- Total resting quantity at a price level; no value when the running sum
    overflows or the traversal does not end. -/
def restingQuantity (self : MatchingEngine) (side : Side) (price : Int) : Option Int :=
  let ladder := self.ladder side
  match ladder.priceToIndex price with
  | none => some 0
  | some idx => do
      let orders ← (ladder.levelAt idx).forEach self.heap self.pool.capacity
      orders.foldlM (fun total o => addInt64 total (self.heap o).remaining) 0

/-- Verify book invariants; no value when a traversal does not end. -/
def verifyInvariants (self : MatchingEngine) : Option Bool :=
  let bb := self.bestBid
  let ba := self.bestAsk
  if bb > 0 ∧ ba > 0 ∧ bb ≥ ba then some false
  else do
    let bidsOk ← self.bids.verifyInvariants self.heap self.pool.capacity
    if !bidsOk then return false
    let asksOk ← self.asks.verifyInvariants self.heap self.pool.capacity
    if !asksOk then return false
    return self.orderMap.entries.all fun entry =>
      (self.heap entry.2).id == entry.1 &&
        ((self.heap entry.2).status == .resting ||
          (self.heap entry.2).status == .partiallyFilled)

/-- Validate order before processing. -/
def validateOrder (order : IncomingOrder) : Bool :=
  if order.quantity ≤ 0 then false
  else if order.price ≤ 0 ∧ order.type = .limit then false
  else if order.id = 0 then false
  else true

-- ============================================================================
-- Matching
-- ============================================================================

/-- What the matching loops work on. -/
structure MatchState where
  engine : MatchingEngine
  order : IncomingOrder
  event : MatchEvent

/-- What `match_buy` and `match_sell` do not share. -/
structure Matcher where
  restingSide : Side
  findBest : PriceLadder → Option Nat
  crosses : Int → Int → Bool
  trade : IncomingOrder → Order → Int → Trade

/-- `match_buy`: against the asks, lowest price first. -/
def buyMatcher : Matcher where
  restingSide := .sell
  findBest := PriceLadder.findBestAsk
  crosses price bestAsk := decide (price ≥ bestAsk)
  trade order resting qty :=
    { buyOrderId := order.id, sellOrderId := resting.id, price := resting.price,
      quantity := qty, timestamp := order.timestamp }

/-- `match_sell`: against the bids, highest price first. -/
def sellMatcher : Matcher where
  restingSide := .buy
  findBest := PriceLadder.findBestBid
  crosses price bestBid := decide (price ≤ bestBid)
  trade order resting qty :=
    { buyOrderId := resting.id, sellOrderId := order.id, price := resting.price,
      quantity := qty, timestamp := order.timestamp }

/-- The incoming order trades at the best opposite price. -/
def Matcher.orderCrosses (M : Matcher) (order : IncomingOrder) (best : Int) : Bool :=
  order.type = .market || M.crosses order.price best

/-- The report of a resting order that is fully filled. -/
def filledReport (side : Side) (resting : Order) : ExecutionReport :=
  { orderId := resting.id, status := .filled, side, price := resting.price,
    filledQuantity := resting.quantity, remainingQuantity := 0 }

/-- One round of the inner loop against the front order of level `idx`. -/
def fillFront (M : Matcher) (idx : Nat) (resting : Slot) (st : MatchState) : MatchState :=
  let fillQty := min st.order.quantity (st.engine.heap resting).remaining
  let event := { st.event with
    trades := st.event.trades ++ [M.trade st.order (st.engine.heap resting) fillQty] }
  let order := { st.order with quantity := st.order.quantity - fillQty }
  let engine := st.engine.modifyOrder resting fun o => { o with remaining := o.remaining - fillQty }
  if (engine.heap resting).remaining = 0 then
    let engine := engine.removeFromLevel M.restingSide idx resting
    let engine := engine.markEmpty M.restingSide idx
    let engine := engine.modifyOrder resting fun o => { o with status := .filled }
    let engine := engine.eraseId (engine.heap resting).id
    let event := { event with
      reports := event.reports ++ [filledReport M.restingSide (engine.heap resting)] }
    { engine := engine.deallocate resting, order, event }
  else
    { engine := engine.modifyOrder resting fun o => { o with status := .partiallyFilled },
      order, event }

/-- The inner loop's condition and body. -/
def levelRound (M : Matcher) (idx : Nat) (st : MatchState) : Option (Round MatchState) :=
  match ((st.engine.ladder M.restingSide).levelAt idx).front with
  | none => some (.stop st)
  | some resting =>
      if st.order.quantity > 0 then some (.again (fillFront M idx resting st))
      else some (.stop st)

/-- More rounds than either loop ever makes. -/
def loopFuel (self : MatchingEngine) : Nat :=
  self.asks.maxLevels.toNat + self.pool.capacity + 2

/-- The outer loop's condition and body. -/
def matchRound (M : Matcher) (st : MatchState) : Option (Round MatchState) :=
  if st.order.quantity > 0 then
    let ladder := st.engine.ladder M.restingSide
    match M.findBest ladder with
    | none => some (.stop st)
    | some bestIdx =>
        if M.orderCrosses st.order (ladder.indexToPrice bestIdx) then
          match runLoop (levelRound M bestIdx) st.engine.loopFuel st with
          | none => none
          | some st' => some (.again st')
        else some (.stop st)
  else some (.stop st)

def matchLoop (M : Matcher) (st : MatchState) : Option MatchState :=
  runLoop (matchRound M) st.engine.loopFuel st

def matchBuy (self : MatchingEngine) (order : IncomingOrder) (event : MatchEvent) :
    Option MatchState :=
  matchLoop buyMatcher ⟨self, order, event⟩

def matchSell (self : MatchingEngine) (order : IncomingOrder) (event : MatchEvent) :
    Option MatchState :=
  matchLoop sellMatcher ⟨self, order, event⟩

-- ============================================================================
-- Resting and cancelling
-- ============================================================================

/-- Insert a resting order into the book; one whose price is off the ladder is
    only marked. -/
def insertOrder (self : MatchingEngine) (order : Slot) : MatchingEngine :=
  let side := (self.heap order).side
  match (self.ladder side).priceToIndex (self.heap order).price with
  | none => self.modifyOrder order fun o => { o with status := .cancelled }
  | some idx =>
      let engine := self.pushToLevel side idx order
      let engine := engine.markOccupied side idx
      engine.assignId (engine.heap order).id order

/-- Take an order out of the book; one whose price is off the ladder is left
    alone, its map entry included. -/
def removeOrderFromBook (self : MatchingEngine) (order : Slot) : MatchingEngine :=
  let side := (self.heap order).side
  match (self.ladder side).priceToIndex (self.heap order).price with
  | none => self
  | some idx =>
      let engine := self.removeFromLevel side idx order
      let engine := engine.markEmpty side idx
      engine.eraseId (engine.heap order).id

/-- Whether the order rests, and the status it ends with. -/
def finalStatus (type : OrderType) (filled left : Int) : Bool × OrderStatus :=
  if left = 0 then (false, .filled)
  else if filled > 0 then
    if type = .ioc ∨ type = .fok then (false, .cancelled)
    else if type = .limit then (true, .resting)
    else (false, .cancelled)
  else
    if type = .market ∨ type = .ioc ∨ type = .fok then (false, .cancelled)
    else if type = .limit then (true, .resting)
    else (false, .cancelled)

/-- The order that is written into a pool slot. -/
def restingOrder (order : IncomingOrder) (left : Int) (status : OrderStatus) (o : Order) :
    Order :=
  { o with
    id := order.id, side := order.side, type := order.type, price := order.price,
    quantity := order.quantity, remaining := left, timestamp := order.timestamp, status }

/-- The resting path: without a slot the order is cancelled. -/
def restOrder (self : MatchingEngine) (order : IncomingOrder) (left : Int)
    (status : OrderStatus) : MatchingEngine × OrderStatus :=
  match self.pool.allocate with
  | none => (self, .cancelled)
  | some (poolOrder, pool) =>
      let engine := { self with pool }
      let engine := engine.modifyOrder poolOrder (restingOrder order left status)
      let engine := engine.insertOrder poolOrder
      (engine.assignId (engine.heap poolOrder).id poolOrder, status)

/-- The report on the incoming order itself. -/
def takerReport (order : IncomingOrder) (status : OrderStatus) (filled left : Int) :
    ExecutionReport :=
  { orderId := order.id, status, side := order.side, price := order.price,
    filledQuantity := filled, remainingQuantity := left }

/-- The matching half of `process_order`. -/
def matchOrder (self : MatchingEngine) (order : IncomingOrder) : Option MatchState :=
  match order.side with
  | .buy => self.matchBuy order {}
  | .sell => self.matchSell order {}

/-- Process a single incoming order. -/
def processOrder (self : MatchingEngine) (order : IncomingOrder) :
    Option (MatchingEngine × MatchEvent) :=
  if !validateOrder order then
    some (self, { reports := [takerReport order .cancelled 0 order.quantity] })
  else
    match self.matchOrder order with
    | none => none
    | some st =>
        let filled := order.quantity - st.order.quantity
        let (shouldRest, status) := finalStatus order.type filled st.order.quantity
        let (engine, status) :=
          if shouldRest then st.engine.restOrder order st.order.quantity status
          else (st.engine, status)
        some (engine, { st.event with
          reports := st.event.reports ++ [takerReport order status filled st.order.quantity] })

/-- The report of a cancelled order. -/
def cancelReport (o : Order) : ExecutionReport :=
  { orderId := o.id, status := .cancelled, side := o.side, price := o.price,
    filledQuantity := o.quantity - o.remaining, remainingQuantity := o.remaining }

/-- Cancel an order by id. -/
def cancelOrder (self : MatchingEngine) (id : OrderID) : MatchingEngine × MatchEvent :=
  match self.orderMap.lookup id with
  | none => (self, {})
  | some order =>
      let engine := self.removeOrderFromBook order
      (engine.deallocate order, { reports := [cancelReport (engine.heap order)] })

/-- One call. -/
def step (self : MatchingEngine) : Command → Option (MatchingEngine × MatchEvent)
  | .processOrder order => self.processOrder order
  | .cancelOrder id => some (self.cancelOrder id)

/-- A sequence of calls. -/
def run (self : MatchingEngine) (commands : List Command) :
    Option (MatchingEngine × List MatchEvent) :=
  exec step self commands

-- ============================================================================
-- Validation and final status
-- ============================================================================

/-- Only a Limit order with a residual rests. -/
theorem finalStatus_eq (type : OrderType) (filled left : Int) :
    finalStatus type filled left =
      if left = 0 then (false, .filled)
      else if type = .limit then (true, .resting) else (false, .cancelled) := by
  unfold finalStatus
  by_cases hleft : left = 0
  · simp only [hleft, if_true]
  · cases type <;> simp [hleft]

theorem validateOrder_pos {order : IncomingOrder} (h : validateOrder order = true) :
    0 < order.quantity ∧ (order.type = .limit → 0 < order.price) ∧ order.id ≠ 0 := by
  unfold validateOrder at h
  split at h
  · exact absurd h (by simp)
  · split at h
    · exact absurd h (by simp)
    · split at h
      · exact absurd h (by simp)
      · refine ⟨by omega, fun hlimit => ?_, by assumption⟩
        by_contra hprice
        exact absurd ⟨by omega, hlimit⟩ ‹¬ (order.price ≤ 0 ∧ order.type = .limit)›

end MatchingEngine

end LimitOrderBook
