/-
  LimitOrderBook.ReferenceEngine

  `reference_engine.h` and `reference_engine.cpp`: the engine that the tests
  compare the optimised one with.

  A `std::map` is the list of its pairs in comparator order and a `std::list` is
  the list of its nodes; a `RefOrder*` is the address of a node.  An address is
  handed out once, so a pointer whose node was erased leads nowhere, and a read
  through it has no result.  The iterator loops of `match_buy` and `match_sell`
  pass every node once and are recursions over the lists they walk.
-/
import LimitOrderBook.MatchingEngine

namespace LimitOrderBook

open Lib MatchingEngine

structure RefOrder where
  id : OrderID
  side : Side
  type : OrderType
  price : Int
  quantity : Int
  remaining : Int
  timestamp : Timestamp
  status : OrderStatus
  deriving DecidableEq, Repr

/-- Neither filled nor cancelled. -/
def RefOrder.live (o : RefOrder) : Bool := o.status != .filled && o.status != .cancelled

/-- A list node: its address and the order it holds. -/
structure RefNode where
  address : Nat
  order : RefOrder
  deriving DecidableEq, Repr

def RefNode.live (x : RefNode) : Bool := x.order.live

/-- A write of the status through the pointer `address`. -/
def RefNode.setStatus (address : Nat) (status : OrderStatus) (x : RefNode) : RefNode :=
  if x.address = address then { x with order := { x.order with status } } else x

/-- A node whose order loses `qty` of its remaining quantity. -/
def RefNode.fill (x : RefNode) (qty : Int) (status : OrderStatus) : RefNode :=
  { x with order := { x.order with remaining := x.order.remaining - qty, status } }

/-- The map from prices to lists of orders of one side. -/
abbrev RefLevels := List (Int × List RefNode)

structure ReferenceEngine where
  asks : RefLevels := []
  bids : RefLevels := []
  orderMap : AList fun _ : OrderID => Nat := ∅
  nextAddress : Nat := 0

namespace ReferenceEngine

-- ============================================================================
-- Access
-- ============================================================================

def levels (self : ReferenceEngine) : Side → RefLevels
  | .buy => self.bids
  | .sell => self.asks

def setLevels (self : ReferenceEngine) : Side → RefLevels → ReferenceEngine
  | .buy, levels => { self with bids := levels }
  | .sell, levels => { self with asks := levels }

/-- The comparators: `DescendingPrice` for bids, `std::less` for asks. -/
def less : Side → Int → Int → Bool
  | .buy, a, b => decide (a > b)
  | .sell, a, b => decide (a < b)

/-- `map[price].push_back(order)`; a level that is not there is made. -/
def pushToLevels (less : Int → Int → Bool) (price : Int) (node : RefNode) :
    RefLevels → RefLevels
  | [] => [(price, [node])]
  | (key, level) :: rest =>
      if less price key then (price, [node]) :: (key, level) :: rest
      else if less key price then (key, level) :: pushToLevels less price node rest
      else (key, level ++ [node]) :: rest

/-- All nodes of a side. -/
def nodesOf (levels : RefLevels) : List RefNode := levels.flatMap Prod.snd

/-- The node a pointer leads to. -/
def deref (self : ReferenceEngine) (address : Nat) : Option RefNode :=
  (nodesOf self.bids ++ nodesOf self.asks).find? fun x => x.address == address

/-- `order->status = status` in the levels of a side. -/
def setStatusIn (address : Nat) (status : OrderStatus) (levels : RefLevels) : RefLevels :=
  levels.map fun l => (l.1, l.2.map (RefNode.setStatus address status))

def setStatus (self : ReferenceEngine) (address : Nat) (status : OrderStatus) :
    ReferenceEngine :=
  { self with
    bids := setStatusIn address status self.bids
    asks := setStatusIn address status self.asks }

-- ============================================================================
-- Quotes and checks
-- ============================================================================

def bestBid (self : ReferenceEngine) : Int :=
  match self.bids with
  | [] => 0
  | (price, _) :: _ => price

def bestAsk (self : ReferenceEngine) : Int :=
  match self.asks with
  | [] => 0
  | (price, _) :: _ => price

def spread (self : ReferenceEngine) : Int :=
  let bb := self.bestBid
  let ba := self.bestAsk
  if bb = 0 ∨ ba = 0 then 0 else ba - bb

/-- Total quantity of the live orders at a price; no value when the running sum
    overflows. -/
def restingQuantity (self : ReferenceEngine) (side : Side) (price : Int) : Option Int :=
  match (self.levels side).find? fun l => l.1 == price with
  | none => some 0
  | some l =>
      l.2.foldlM
        (fun total x => if x.live then addInt64 total x.order.remaining else some total) 0

/-- The keys ascend from above `prev`. -/
def ascending (prev : Int) : RefLevels → Bool
  | [] => true
  | (price, _) :: rest => if price ≤ prev then false else ascending price rest

/-- The keys descend from below `prev`. -/
def descending (prev : Int) : RefLevels → Bool
  | [] => true
  | (price, _) :: rest => if price ≥ prev then false else descending price rest

def verifyInvariants (self : ReferenceEngine) : Bool :=
  let bb := self.bestBid
  let ba := self.bestAsk
  if bb > 0 ∧ ba > 0 ∧ bb ≥ ba then false
  else if !ascending 0 self.asks then false
  else if !descending INT64_MAX self.bids then false
  else true

-- ============================================================================
-- Matching
-- ============================================================================

/-- What the matching loops work on besides the levels they walk. -/
structure RefMatchState where
  order : IncomingOrder
  event : MatchEvent
  orderMap : AList fun _ : OrderID => Nat

/-- What `match_buy` and `match_sell` do not share. -/
structure RefMatcher where
  restingSide : Side
  crosses : Int → Int → Bool
  trade : IncomingOrder → RefOrder → Int → Trade

/-- `match_buy`: against the asks, lowest price first. -/
def buyMatcher : RefMatcher where
  restingSide := .sell
  crosses price askPrice := decide (price ≥ askPrice)
  trade order resting qty :=
    { buyOrderId := order.id, sellOrderId := resting.id, price := resting.price,
      quantity := qty, timestamp := order.timestamp }

/-- `match_sell`: against the bids, highest price first. -/
def sellMatcher : RefMatcher where
  restingSide := .buy
  crosses price bidPrice := decide (price ≤ bidPrice)
  trade order resting qty :=
    { buyOrderId := resting.id, sellOrderId := order.id, price := resting.price,
      quantity := qty, timestamp := order.timestamp }

def RefMatcher.orderCrosses (M : RefMatcher) (order : IncomingOrder) (price : Int) : Bool :=
  order.type = .market || M.crosses order.price price

/-- The report of a resting order that is fully filled. -/
def filledReport (side : Side) (resting : RefOrder) : ExecutionReport :=
  { orderId := resting.id, status := .filled, side, price := resting.price,
    filledQuantity := resting.quantity, remainingQuantity := 0 }

/-- The inner loop: what stays of a level, front first.  Nodes of orders that are
    filled or were cancelled before are erased on the way. -/
def matchLevel (M : RefMatcher) : List RefNode → RefMatchState → List RefNode × RefMatchState
  | [], st => ([], st)
  | x :: rest, st =>
      if st.order.quantity > 0 then
        if !x.live then matchLevel M rest st
        else
          let fillQty := min st.order.quantity x.order.remaining
          let event := { st.event with
            trades := st.event.trades ++ [M.trade st.order x.order fillQty] }
          let order := { st.order with quantity := st.order.quantity - fillQty }
          if x.order.remaining - fillQty = 0 then
            matchLevel M rest
              { order
                event := { event with
                  reports := event.reports ++ [filledReport M.restingSide x.order] }
                orderMap := st.orderMap.erase x.order.id }
          else
            let r := matchLevel M rest { st with order, event }
            (x.fill fillQty .partiallyFilled :: r.1, r.2)
      else (x :: rest, st)

/-- The outer loop: what stays of a side.  A level that is left empty is erased. -/
def matchLevels (M : RefMatcher) : RefLevels → RefMatchState → RefLevels × RefMatchState
  | [], st => ([], st)
  | (price, level) :: rest, st =>
      if st.order.quantity > 0 then
        if M.orderCrosses st.order price then
          let r := matchLevel M level st
          let s := matchLevels M rest r.2
          if r.1.isEmpty then s else ((price, r.1) :: s.1, s.2)
        else ((price, level) :: rest, st)
      else ((price, level) :: rest, st)

/-- Match against the side of the matcher. -/
def runMatcher (M : RefMatcher) (self : ReferenceEngine) (order : IncomingOrder)
    (event : MatchEvent) : ReferenceEngine × IncomingOrder × MatchEvent :=
  let r := matchLevels M (self.levels M.restingSide) ⟨order, event, self.orderMap⟩
  ({ self.setLevels M.restingSide r.1 with orderMap := r.2.orderMap }, r.2.order, r.2.event)

def matchBuy := runMatcher buyMatcher

def matchSell := runMatcher sellMatcher

-- ============================================================================
-- Calls
-- ============================================================================

def insertOrder (self : ReferenceEngine) (order : RefOrder) : ReferenceEngine :=
  let node : RefNode := ⟨self.nextAddress, order⟩
  { self.setLevels order.side
      (pushToLevels (less order.side) order.price node (self.levels order.side)) with
    orderMap := self.orderMap.insert order.id node.address
    nextAddress := self.nextAddress + 1 }

/-- The matching half of `process_order`. -/
def matchOrder (self : ReferenceEngine) (order : IncomingOrder) :
    ReferenceEngine × IncomingOrder × MatchEvent :=
  match order.side with
  | .buy => self.matchBuy order {}
  | .sell => self.matchSell order {}

/-- The order that rests. -/
def restingOrder (order : IncomingOrder) (left : Int) : RefOrder :=
  { id := order.id, side := order.side, type := order.type, price := order.price,
    quantity := order.quantity, remaining := left, timestamp := order.timestamp,
    status := .resting }

def processOrder (self : ReferenceEngine) (order : IncomingOrder) :
    ReferenceEngine × MatchEvent :=
  if order.quantity ≤ 0 ∨ order.id = 0 then
    (self, { reports := [takerReport order .cancelled 0 order.quantity] })
  else
    let (engine, incoming, event) := self.matchOrder order
    let filled := order.quantity - incoming.quantity
    let withReport := fun report => { event with reports := event.reports ++ [report] }
    let rested := (engine.insertOrder (restingOrder order incoming.quantity),
      withReport (takerReport order .resting filled incoming.quantity))
    if incoming.quantity = 0 then
      (engine, withReport (takerReport order .filled order.quantity 0))
    else if filled > 0 then
      match order.type with
      | .ioc | .fok | .market =>
          (engine, withReport (takerReport order .cancelled filled incoming.quantity))
      | .limit => rested
    else
      match order.type with
      | .market | .ioc | .fok =>
          (engine, withReport (takerReport order .cancelled 0 order.quantity))
      | .limit => rested

/-- The report of a cancelled order. -/
def cancelReport (o : RefOrder) : ExecutionReport :=
  { orderId := o.id, status := .cancelled, side := o.side, price := o.price,
    filledQuantity := o.quantity - o.remaining, remainingQuantity := o.remaining }

/-- Cancel an order by id; its node stays in its level. -/
def cancelOrder (self : ReferenceEngine) (id : OrderID) : Option (ReferenceEngine × MatchEvent) :=
  match self.orderMap.lookup id with
  | none => some (self, {})
  | some address =>
      match self.deref address with
      | none => none
      | some x =>
          let engine := self.setStatus address .cancelled
          some ({ engine with orderMap := engine.orderMap.erase id },
            { reports := [cancelReport x.order] })

/-- One call. -/
def step (self : ReferenceEngine) : Command → Option (ReferenceEngine × MatchEvent)
  | .processOrder order => some (self.processOrder order)
  | .cancelOrder id => self.cancelOrder id

/-- A sequence of calls. -/
def run (self : ReferenceEngine) (commands : List Command) :
    Option (ReferenceEngine × List MatchEvent) :=
  exec step self commands

end ReferenceEngine

end LimitOrderBook
