/-
  LimitOrderBook.Book

  What a matching engine is for: two lists of resting orders, each in priority
  order, and a deterministic answer to every call.

  An entry keeps the public data of a resting order and one bit: whether the
  order is the target of its id in the cancel map.  With that bit the book
  carries the map, and no entry mentions a slot, a node or a pointer, so that
  two engines with different heaps can be compared by comparing books.

  An incoming order sweeps the opposite list (`Lib.Supply.sweep`); what it
  leaves of itself may rest, if `room` allows one more order.
-/
import LimitOrderBook.MatchingEngine
import LimitOrderBook.Lib.Sweep
import LimitOrderBook.Lib.Buckets

namespace LimitOrderBook

open Lib MatchingEngine

structure Entry where
  id : OrderID
  price : Int
  quantity : Int
  remaining : Int
  mapped : Bool
  deriving DecidableEq, Repr

structure Book where
  bids : List Entry := []
  asks : List Entry := []
  deriving DecidableEq, Repr

/-- `p` is a strictly better price than `q` for resting orders of a side. -/
def Side.better : Side → Int → Int → Prop
  | .buy, p, q => q < p
  | .sell, p, q => p < q

instance (side : Side) (p q : Int) : Decidable (side.better p q) := by
  cases side <;> unfold Side.better <;> infer_instance

theorem Side.better_asymm (side : Side) (p q : Int) (h : side.better p q) :
    ¬ side.better q p := by
  cases side <;> simp only [Side.better] at h ⊢ <;> omega

theorem Side.better_trans (side : Side) (p q s : Int) (hpq : side.better p q)
    (hsq : ¬ side.better s q) : side.better p s := by
  cases side <;> simp only [Side.better] at hpq hsq ⊢ <;> omega

theorem Side.eq_of_not_better {side : Side} {p q : Int} (h : ¬ side.better p q)
    (h' : ¬ side.better q p) : p = q := by
  cases side <;> simp only [Side.better] at h h' <;> omega

/-- An incoming order trades with resting orders at `price`. -/
def IncomingOrder.crosses (order : IncomingOrder) (price : Int) : Bool :=
  order.type = .market ||
    match order.side with
    | .buy => decide (order.price ≥ price)
    | .sell => decide (order.price ≤ price)

namespace Entry

/-- An entry holds its remaining quantity. -/
def supply : Supply Entry where
  amount e := e.remaining
  reduce e q := { e with remaining := e.remaining - q }

/-- What the public sees of a resting order. -/
def view (e : Entry) : OrderID × Int × Int × Int := (e.id, e.price, e.quantity, e.remaining)

/-- Its id no longer leads to it. -/
def forget (id : OrderID) (e : Entry) : Entry :=
  if e.id = id then { e with mapped := false } else e

/-- The entry that `cancel_order(id)` finds. -/
def isTarget (id : OrderID) (e : Entry) : Bool := e.mapped && e.id == id

end Entry

/-- One fill of a sweep as a trade. -/
def fillTrade (order : IncomingOrder) (fill : Entry × Int) : Trade :=
  match order.side with
  | .buy =>
      { buyOrderId := order.id, sellOrderId := fill.1.id, price := fill.1.price,
        quantity := fill.2, timestamp := order.timestamp }
  | .sell =>
      { buyOrderId := fill.1.id, sellOrderId := order.id, price := fill.1.price,
        quantity := fill.2, timestamp := order.timestamp }

theorem fillTrade_quantity (order : IncomingOrder) (fill : Entry × Int) :
    (fillTrade order fill).quantity = fill.2 := by
  rw [fillTrade]
  cases order.side <;> rfl

/-- The fill takes all that the maker had left. -/
def consumes (fill : Entry × Int) : Bool := fill.2 = fill.1.remaining

/-- The report of a maker that is fully filled. -/
def makerReport (side : Side) (e : Entry) : ExecutionReport :=
  { orderId := e.id, status := .filled, side, price := e.price,
    filledQuantity := e.quantity, remainingQuantity := 0 }

namespace Book

def side (B : Book) : Side → List Entry
  | .buy => B.bids
  | .sell => B.asks

def setSide (B : Book) : Side → List Entry → Book
  | .buy, l => { B with bids := l }
  | .sell, l => { B with asks := l }

/-- The number of resting orders. -/
def size (B : Book) : Nat := B.bids.length + B.asks.length

/-- `order_map_.erase(id)`. -/
def forget (B : Book) (id : OrderID) : Book :=
  { bids := B.bids.map (Entry.forget id), asks := B.asks.map (Entry.forget id) }

def forgetAll (B : Book) (ids : List OrderID) : Book := ids.foldl forget B

/-- The opposite orders that an incoming order crosses, in priority order. -/
def crossing (B : Book) (order : IncomingOrder) : List Entry :=
  (B.side order.side.opposite).takeWhile fun e => order.crosses e.price

/-- The opposite orders from the first one that does not cross. -/
def beyond (B : Book) (order : IncomingOrder) : List Entry :=
  (B.side order.side.opposite).dropWhile fun e => order.crosses e.price

/-- The sweep of the opposite side. -/
def sweep (B : Book) (order : IncomingOrder) (left : Int) : Supply.Swept Entry :=
  Entry.supply.sweep (fun e => order.crosses e.price) left (B.side order.side.opposite)

/-- What matching leaves: the book, the events so far and the unfilled quantity. -/
structure Matched where
  book : Book
  trades : List Trade
  reports : List ExecutionReport
  left : Int

/-- The makers that a sweep fills completely. -/
def consumed (B : Book) (order : IncomingOrder) (left : Int) : List Entry :=
  ((B.sweep order left).taken.filter consumes).map Prod.fst

def matched (B : Book) (order : IncomingOrder) (left : Int) : Matched where
  book := (B.setSide order.side.opposite (B.sweep order left).kept).forgetAll
    ((B.consumed order left).map Entry.id)
  trades := (B.sweep order left).taken.map (fillTrade order)
  reports := (B.consumed order left).map (makerReport order.side.opposite)
  left := (B.sweep order left).left

/-- Rest what is left of an order behind all orders of its price. -/
def rest (B : Book) (order : IncomingOrder) (left : Int) : Book :=
  let B := B.forget order.id
  B.setSide order.side
    ((B.side order.side).orderedInsert (fun a b => order.side.better a.price b.price)
      { id := order.id, price := order.price, quantity := order.quantity,
        remaining := left, mapped := true })

/-- Process a single incoming order. -/
def process (room : Nat → Bool) (B : Book) (order : IncomingOrder) : Book × MatchEvent :=
  if !validateOrder order then
    (B, { reports := [takerReport order .cancelled 0 order.quantity] })
  else
    let m := B.matched order order.quantity
    let event := fun status : OrderStatus =>
      { trades := m.trades
        reports := m.reports ++ [takerReport order status (order.quantity - m.left) m.left] }
    if m.left = 0 then (m.book, event .filled)
    else if order.type = .limit ∧ room m.book.size then
      (m.book.rest order m.left, event .resting)
    else (m.book, event .cancelled)

/-- The report of a cancelled entry. -/
def cancelReport (side : Side) (e : Entry) : ExecutionReport :=
  { orderId := e.id, status := .cancelled, side, price := e.price,
    filledQuantity := e.quantity - e.remaining, remainingQuantity := e.remaining }

/-- Cancel the order that an id leads to. -/
def cancel (B : Book) (id : OrderID) : Book × MatchEvent :=
  match B.bids.find? (Entry.isTarget id) with
  | some e =>
      ({ B with bids := B.bids.eraseP (Entry.isTarget id) },
        { reports := [cancelReport .buy e] })
  | none =>
      match B.asks.find? (Entry.isTarget id) with
      | some e =>
          ({ B with asks := B.asks.eraseP (Entry.isTarget id) },
            { reports := [cancelReport .sell e] })
      | none => (B, {})

/-- One call. -/
def step (room : Nat → Bool) (B : Book) : Command → Book × MatchEvent
  | .processOrder order => B.process room order
  | .cancelOrder id => B.cancel id

/-- One call as a relation. -/
def Step (room : Nat → Bool) (B : Book) (c : Command) (event : MatchEvent) (B' : Book) : Prop :=
  B.step room c = (B', event)

-- ============================================================================
-- Sides
-- ============================================================================

section Sides

variable (B : Book) (side : Side) (l : List Entry) (id : OrderID)

@[simp] theorem side_buy : B.side .buy = B.bids := rfl
@[simp] theorem side_sell : B.side .sell = B.asks := rfl

@[simp] theorem setSide_side : (B.setSide side l).side side = l := by cases side <;> rfl

@[simp] theorem setSide_side_opposite :
    (B.setSide side l).side side.opposite = B.side side.opposite := by cases side <;> rfl

@[simp] theorem setSide_opposite_side :
    (B.setSide side.opposite l).side side = B.side side := by cases side <;> rfl

@[simp] theorem setSide_setSide (l' : List Entry) :
    (B.setSide side l).setSide side l' = B.setSide side l' := by cases side <;> rfl

@[simp] theorem setSide_self : B.setSide side (B.side side) = B := by cases side <;> rfl

@[simp] theorem forget_side : (B.forget id).side side = (B.side side).map (Entry.forget id) := by
  cases side <;> rfl

theorem setSide_forget :
    (B.setSide side l).forget id = (B.forget id).setSide side (l.map (Entry.forget id)) := by
  cases side <;> rfl

theorem size_eq : B.size = (B.side side).length + (B.side side.opposite).length := by
  cases side <;> simp [size, Side.opposite, Nat.add_comm]

theorem ext_side {A B : Book} (h : ∀ side, A.side side = B.side side) : A = B := by
  cases A
  cases B
  have hb := h .buy
  have ha := h .sell
  simp only [side_buy, side_sell] at hb ha
  rw [hb, ha]

end Sides

/-- A cancel whose target is on the named side only. -/
theorem cancel_of_find {B : Book} {side : Side} {id : OrderID} {e : Entry}
    (h : (B.side side).find? (Entry.isTarget id) = some e)
    (hother : (B.side side.opposite).find? (Entry.isTarget id) = none) :
    B.cancel id = (B.setSide side ((B.side side).eraseP (Entry.isTarget id)),
      { reports := [cancelReport side e] }) := by
  cases side with
  | buy =>
      simp only [side_buy] at h
      simp only [cancel, h]
      rfl
  | sell =>
      simp only [side_sell] at h
      simp only [Side.opposite, side_buy] at hother
      simp only [cancel, h, hother]
      rfl

/-- A cancel without a target. -/
theorem cancel_of_find_none {B : Book} {id : OrderID}
    (h : ∀ side, (B.side side).find? (Entry.isTarget id) = none) : B.cancel id = (B, {}) := by
  have hb := h .buy
  have ha := h .sell
  simp only [side_buy, side_sell] at hb ha
  simp only [cancel, hb, ha]

/-- The one entry of a view that an id leads to is found. -/
theorem find_target {α : Type*} {f : α → Entry} {id : OrderID} {p : α} {l : List α}
    (htarget : ∀ r ∈ l, (f r).isTarget id = true ↔ r = p) (hp : p ∈ l) :
    (l.map f).find? (Entry.isTarget id) = some (f p) := by
  induction l with
  | nil => exact absurd hp (by simp)
  | cons r l ih =>
      by_cases hr : r = p
      · subst hr
        exact List.find?_cons_of_pos ((htarget r (List.mem_cons_self ..)).mpr rfl)
      · rw [List.map_cons, List.find?_cons_of_neg
          (fun ht => hr ((htarget r (List.mem_cons_self ..)).mp ht))]
        exact ih (fun x hx => htarget x (List.mem_cons_of_mem _ hx))
          ((List.mem_cons.mp hp).resolve_left (Ne.symm hr))

theorem find_target_none {α : Type*} {f : α → Entry} {id : OrderID} {l : List α}
    (h : ∀ r ∈ l, (f r).isTarget id = false) : (l.map f).find? (Entry.isTarget id) = none := by
  rw [List.find?_eq_none]
  intro e he
  obtain ⟨r, hr, rfl⟩ := List.mem_map.mp he
  simp [h r hr]

theorem erase_target {α : Type*} [DecidableEq α] {f : α → Entry} {id : OrderID} {p : α}
    {l : List α} (htarget : ∀ r ∈ l, (f r).isTarget id = true ↔ r = p) :
    (l.map f).eraseP (Entry.isTarget id) = (l.erase p).map f := by
  induction l with
  | nil => rfl
  | cons r l ih =>
      have hrest := ih fun x hx => htarget x (List.mem_cons_of_mem _ hx)
      by_cases hr : r = p
      · subst hr
        rw [List.map_cons, List.eraseP_cons_of_pos ((htarget r (List.mem_cons_self ..)).mpr rfl),
          List.erase_cons_head]
      · rw [List.map_cons, List.eraseP_cons_of_neg
          (fun ht => hr ((htarget r (List.mem_cons_self ..)).mp ht)), hrest,
          List.erase_cons_tail (by simpa using hr), List.map_cons]

/-- What a cancel can do. -/
theorem cancel_cases (B : Book) (id : OrderID) :
    ((∀ side, (B.side side).find? (Entry.isTarget id) = none) ∧ B.cancel id = (B, {})) ∨
    ∃ side e, (B.side side).find? (Entry.isTarget id) = some e ∧
      B.cancel id = (B.setSide side ((B.side side).eraseP (Entry.isTarget id)),
        { reports := [cancelReport side e] }) := by
  cases hb : B.bids.find? (Entry.isTarget id) with
  | some e => exact .inr ⟨.buy, e, hb, by simp only [cancel, hb]; rfl⟩
  | none =>
      cases ha : B.asks.find? (Entry.isTarget id) with
      | some e => exact .inr ⟨.sell, e, ha, by simp only [cancel, hb, ha]; rfl⟩
      | none =>
          have hnone : ∀ side, (B.side side).find? (Entry.isTarget id) = none := by
            intro side
            cases side
            · exact hb
            · exact ha
          exact .inl ⟨hnone, cancel_of_find_none hnone⟩

/-- An order that is not valid leaves the book alone. -/
theorem process_rejected (room : Nat → Bool) (B : Book) {order : IncomingOrder}
    (hv : validateOrder order = false) : (B.process room order).1 = B := by
  simp only [process, hv, Bool.not_false, if_true]

/-- What a valid order's call can do: it is filled, it rests, or the residual is
    dropped. -/
theorem process_cases (room : Nat → Bool) (B : Book) {order : IncomingOrder}
    (hv : validateOrder order = true) :
    ∃ status, (B.process room order).2 =
        { trades := (B.matched order order.quantity).trades
          reports := (B.matched order order.quantity).reports ++
            [takerReport order status
              (order.quantity - (B.matched order order.quantity).left)
              (B.matched order order.quantity).left] } ∧
      (((B.matched order order.quantity).left = 0 ∧ status = .filled ∧
          (B.process room order).1 = (B.matched order order.quantity).book) ∨
        ((B.matched order order.quantity).left ≠ 0 ∧ status = .resting ∧
          order.type = .limit ∧ (B.process room order).1 =
            (B.matched order order.quantity).book.rest order
              (B.matched order order.quantity).left) ∨
        ((B.matched order order.quantity).left ≠ 0 ∧ status = .cancelled ∧
          (B.process room order).1 = (B.matched order order.quantity).book)) := by
  simp only [process, hv, Bool.not_true, Bool.false_eq_true, if_false]
  generalize B.matched order order.quantity = m
  by_cases hz : m.left = 0
  · rw [if_pos hz]
    exact ⟨_, rfl, .inl ⟨hz, rfl, rfl⟩⟩
  · by_cases hrest : order.type = .limit ∧ room m.book.size = true
    · rw [if_neg hz, if_pos hrest]
      exact ⟨_, rfl, .inr (.inl ⟨hz, rfl, hrest.1, rfl⟩)⟩
    · rw [if_neg hz, if_neg hrest]
      exact ⟨_, rfl, .inr (.inr ⟨hz, rfl, rfl⟩)⟩

@[simp] theorem forgetAll_nil (B : Book) : B.forgetAll [] = B := rfl

@[simp] theorem forgetAll_cons (B : Book) (id : OrderID) (ids : List OrderID) :
    B.forgetAll (id :: ids) = (B.forget id).forgetAll ids := rfl

@[simp] theorem forget_size (B : Book) (id : OrderID) : (B.forget id).size = B.size := by
  simp [size, forget]

end Book

namespace Entry

variable (id : OrderID) (e : Entry)

@[simp] theorem forget_id : (e.forget id).id = e.id := by unfold forget; split <;> rfl
@[simp] theorem forget_price : (e.forget id).price = e.price := by unfold forget; split <;> rfl
@[simp] theorem forget_quantity : (e.forget id).quantity = e.quantity := by
  unfold forget; split <;> rfl
@[simp] theorem forget_remaining : (e.forget id).remaining = e.remaining := by
  unfold forget; split <;> rfl

theorem id_of_isTarget {id : OrderID} {e : Entry} (h : e.isTarget id = true) : e.id = id := by
  simp only [isTarget, Bool.and_eq_true, beq_iff_eq] at h
  exact h.2

theorem reduce_forget (q : Int) :
    supply.reduce (e.forget id) q = (supply.reduce e q).forget id := by
  unfold forget supply
  by_cases h : e.id = id <;> simp [h]

end Entry

-- ============================================================================
-- Matching, one maker at a time
-- ============================================================================

namespace Book

section Matched

variable {B : Book} {order : IncomingOrder} {left : Int} {e : Entry} {es : List Entry}

/-- The event part of a fill. -/
def Matched.push (order : IncomingOrder) (fill : Entry × Int) (m : Matched) : Matched :=
  { m with
    trades := fillTrade order fill :: m.trades
    reports := if consumes fill then makerReport order.side.opposite fill.1 :: m.reports
      else m.reports }

theorem matched_of_taken_nil (h : B.sweep order left = ⟨[], B.side order.side.opposite, left⟩) :
    B.matched order left = ⟨B, [], [], left⟩ := by
  simp [matched, consumed, h]

/-- Nothing left to match. -/
theorem matched_done (h : left ≤ 0) : B.matched order left = ⟨B, [], [], left⟩ :=
  matched_of_taken_nil (Supply.sweep_of_nonpos h)

/-- Nothing to match against. -/
theorem matched_empty (h : B.side order.side.opposite = []) :
    B.matched order left = ⟨B, [], [], left⟩ := by
  apply matched_of_taken_nil
  rw [sweep, h, Supply.sweep_nil]

/-- The best opposite price does not cross. -/
theorem matched_uncrossed (hside : B.side order.side.opposite = e :: es)
    (h : order.crosses e.price = false) : B.matched order left = ⟨B, [], [], left⟩ := by
  apply matched_of_taken_nil
  rw [sweep, hside]
  exact Supply.sweep_stop (fun hc => by simp [h] at hc)

theorem crossing_ne_nil (hside : B.side order.side.opposite = e :: es)
    (h : order.crosses e.price = true) : B.crossing order ≠ [] := by
  rw [crossing, hside]
  simp [h]

/-- Every resting order has something left. -/
def Positive (B : Book) : Prop := ∀ side, ∀ e ∈ B.side side, 0 < e.remaining

theorem crossing_total_nonneg (hpos : B.Positive) : 0 ≤ Entry.supply.total (B.crossing order) :=
  Supply.total_nonneg fun e he => hpos _ e ((List.takeWhile_sublist _).subset he)

theorem crossing_total_pos (hpos : B.Positive) (hne : B.crossing order ≠ []) :
    0 < Entry.supply.total (B.crossing order) :=
  Supply.total_pos (fun e he => hpos _ e ((List.takeWhile_sublist _).subset he)) hne

/-- What is left is what the crossing orders do not hold. -/
theorem matched_left (hpos : B.Positive) (hleft : 0 ≤ left) :
    (B.matched order left).left = max 0 (left - Entry.supply.total (B.crossing order)) :=
  Supply.sweep_left (fun e he => hpos _ e he) hleft

theorem matched_left_le (hpos : B.Positive) (hleft : 0 ≤ left) :
    (B.matched order left).left ≤ left := by
  have htotal := @crossing_total_nonneg B order hpos
  rw [matched_left hpos hleft]
  omega

/-- The trades fill what is not left. -/
theorem matched_traded : ((B.matched order left).trades.map Trade.quantity).sum =
    left - (B.matched order left).left := by
  have hconserves := @Supply.sweep_conserves _ Entry.supply (fun e => order.crosses e.price)
    left (B.side order.side.opposite)
  have hquantity : Trade.quantity ∘ fillTrade order = Prod.snd :=
    funext (fillTrade_quantity order)
  rw [matched, List.map_map, hquantity]
  show ((B.sweep order left).taken.map Prod.snd).sum = left - (B.sweep order left).left
  rw [sweep]
  omega

/-- The best maker outlasts the order. -/
theorem matched_partial (hside : B.side order.side.opposite = e :: es) (hpos : 0 < left)
    (hcross : order.crosses e.price) (hlt : left < e.remaining) :
    B.matched order left =
      ⟨B.setSide order.side.opposite ({ e with remaining := e.remaining - left } :: es),
        [fillTrade order (e, left)], [], 0⟩ := by
  have hsweep : B.sweep order left =
      ⟨[(e, left)], { e with remaining := e.remaining - left } :: es, 0⟩ := by
    rw [sweep, hside]
    exact Supply.sweep_partial hpos hcross hlt
  have hnot : consumes (e, left) = false := by
    simp only [consumes, decide_eq_false_iff_not]
    omega
  simp [matched, consumed, hsweep, hnot]

/-- The best maker is consumed and the rest of the order goes on. -/
theorem matched_whole (hside : B.side order.side.opposite = e :: es) (hpos : 0 < left)
    (hcross : order.crosses e.price) (hle : e.remaining ≤ left) :
    B.matched order left =
      Matched.push order (e, e.remaining)
        (((B.setSide order.side.opposite es).forget e.id).matched order (left - e.remaining)) := by
  -- the sweep of the rest does not see which map bits were cleared
  have hmap : ((B.setSide order.side.opposite es).forget e.id).sweep order (left - e.remaining) =
      ⟨((B.setSide order.side.opposite es).sweep order (left - e.remaining)).taken.map
          fun t => (t.1.forget e.id, t.2),
        ((B.setSide order.side.opposite es).sweep order (left - e.remaining)).kept.map
          (Entry.forget e.id),
        ((B.setSide order.side.opposite es).sweep order (left - e.remaining)).left⟩ := by
    rw [sweep, sweep, forget_side]
    exact Supply.sweep_map (fun _ => by simp [Entry.supply]) (fun _ => by simp)
      (fun _ _ => Entry.reduce_forget ..)
  have hsweep : B.sweep order left =
      ⟨(e, e.remaining) ::
          ((B.setSide order.side.opposite es).sweep order (left - e.remaining)).taken,
        ((B.setSide order.side.opposite es).sweep order (left - e.remaining)).kept,
        ((B.setSide order.side.opposite es).sweep order (left - e.remaining)).left⟩ := by
    rw [sweep, sweep, hside, setSide_side]
    exact Supply.sweep_whole hpos hcross hle
  simp only [matched, consumed, hmap, hsweep, Matched.push]
  generalize (B.setSide order.side.opposite es).sweep order (left - e.remaining) = t
  have hself : consumes (e, e.remaining) = true := by simp [consumes]
  have hfilter : ((t.taken.map fun f => (f.1.forget e.id, f.2)).filter consumes).map Prod.fst =
      ((t.taken.filter consumes).map Prod.fst).map (Entry.forget e.id) := by
    rw [List.filter_map, List.map_map, List.map_map]
    have hsame : consumes ∘ (fun f => (f.1.forget e.id, f.2)) = consumes := by
      funext f
      simp [consumes]
    rw [hsame]
    rfl
  rw [hfilter, setSide_forget, setSide_setSide, ← setSide_forget]
  simp [hself, List.map_map, Function.comp_def, fillTrade, makerReport]

end Matched

end Book

end LimitOrderBook
