/-
  LimitOrderBook.ReferenceView

  The reference engine refines the book.

  Its view drops the nodes of dead orders: a cancelled order stays in its level
  until a sweep passes it, and a level may hold nothing else.  The loops compute
  the sweep of the live nodes (`matchLevels_spec`), so that each call does to the
  view what `Book.process` and `Book.cancel` say, with room for every order.
-/
import LimitOrderBook.ReferenceEngine
import LimitOrderBook.BookOrder

namespace LimitOrderBook

open Lib MatchingEngine

namespace RefNode

/-- A node holds the remaining quantity of its order. -/
def supply : Supply RefNode where
  amount x := x.order.remaining
  reduce x q := x.fill q .partiallyFilled

/-- The order belongs at this price of this side, and is not used up. -/
structure Placed (x : RefNode) (side : Side) (price : Int) : Prop where
  side : x.order.side = side
  price : x.order.price = price
  pos : 0 < x.order.remaining

/-- The order in a node as the public sees it. -/
def entry (orderMap : AList fun _ : OrderID => Nat) (x : RefNode) : Entry where
  id := x.order.id
  price := x.order.price
  quantity := x.order.quantity
  remaining := x.order.remaining
  mapped := orderMap.lookup x.order.id = some x.address

section Entries

variable {orderMap : AList fun _ : OrderID => Nat} {x : RefNode} {id : OrderID} {a : Nat}

theorem entry_erase : x.entry (orderMap.erase id) = (x.entry orderMap).forget id := by
  by_cases h : x.order.id = id
  · subst h
    simp [entry, Entry.forget, AList.lookup_erase]
  · simp [entry, Entry.forget, h, AList.lookup_erase_ne]

theorem entry_insert (h : x.address ≠ a) :
    x.entry (orderMap.insert id a) = (x.entry orderMap).forget id := by
  by_cases hid : x.order.id = id
  · subst hid
    simp [entry, Entry.forget, AList.lookup_insert, Ne.symm h]
  · simp [entry, Entry.forget, hid, AList.lookup_insert_ne]

end Entries

end RefNode

/-- The makers that a sweep of nodes fills completely. -/
def refConsumed (taken : List (RefNode × Int)) : List RefNode :=
  (taken.filter fun t => t.2 = t.1.order.remaining).map Prod.fst

/-- `order_map_.erase` of several ids. -/
def eraseAll (orderMap : AList fun _ : OrderID => Nat) (ids : List OrderID) :
    AList fun _ : OrderID => Nat := ids.foldl (fun m id => m.erase id) orderMap

@[simp] theorem eraseAll_nil (orderMap : AList fun _ : OrderID => Nat) :
    eraseAll orderMap [] = orderMap := rfl

@[simp] theorem eraseAll_cons (orderMap : AList fun _ : OrderID => Nat) (id : OrderID)
    (ids : List OrderID) : eraseAll orderMap (id :: ids) = eraseAll (orderMap.erase id) ids := rfl

theorem eraseAll_append (orderMap : AList fun _ : OrderID => Nat) (ids ids' : List OrderID) :
    eraseAll orderMap (ids ++ ids') = eraseAll (eraseAll orderMap ids) ids' :=
  List.foldl_append ..

/-- Entries that are left after erasing ids were there before, under other ids. -/
theorem lookup_eraseAll {orderMap : AList fun _ : OrderID => Nat} {ids : List OrderID}
    {id : OrderID} {a : Nat} (h : (eraseAll orderMap ids).lookup id = some a) :
    orderMap.lookup id = some a ∧ id ∉ ids := by
  induction ids generalizing orderMap with
  | nil => exact ⟨h, List.not_mem_nil⟩
  | cons k ids ih =>
      obtain ⟨hk, hids⟩ := ih h
      by_cases he : id = k
      · rw [he, AList.lookup_erase] at hk
        exact absurd hk (by simp)
      · rw [AList.lookup_erase_ne he] at hk
        exact ⟨hk, by simp [he, hids]⟩

theorem RefNode.entry_eraseAll {orderMap : AList fun _ : OrderID => Nat} {x : RefNode}
    (ids : List OrderID) : x.entry (eraseAll orderMap ids) = (x.entry orderMap).forgetAll ids := by
  induction ids generalizing orderMap with
  | nil => rfl
  | cons id ids ih => rw [eraseAll_cons, ih, RefNode.entry_erase, Entry.forgetAll_cons]

namespace ReferenceEngine

-- ============================================================================
-- The two matchers as one
-- ============================================================================

/-- The matcher of an incoming side. -/
def refMatcher : Side → RefMatcher
  | .buy => buyMatcher
  | .sell => sellMatcher

@[simp] theorem refMatcher_restingSide (side : Side) :
    (refMatcher side).restingSide = side.opposite := by cases side <;> rfl

theorem matchOrder_eq (self : ReferenceEngine) (order : IncomingOrder) :
    self.matchOrder order = runMatcher (refMatcher order.side) self order {} := by
  rw [matchOrder]
  cases order.side <;> rfl

theorem refMatcher_orderCrosses {side : Side} {order : IncomingOrder} (h : order.side = side)
    (price : Int) : (refMatcher side).orderCrosses order price = order.crosses price := by
  rw [RefMatcher.orderCrosses, IncomingOrder.crosses, h]
  cases side <;> rfl

/-- A trade does not show how much the incoming order has left. -/
theorem refMatcher_trade (side : Side) (order : IncomingOrder) (left : Int) :
    (refMatcher side).trade { order with quantity := left } = (refMatcher side).trade order := by
  cases side <;> rfl

-- ============================================================================
-- The loops are sweeps of the live nodes
-- ============================================================================

section Loops

variable {side : Side} {st : RefMatchState} {price : Int} {level : List RefNode}
  {levels : RefLevels} {x : RefNode}

/-- The matching state after a sweep. -/
def RefMatchState.advance (side : Side) (st : RefMatchState) (s : Supply.Swept RefNode) :
    RefMatchState where
  order := { st.order with quantity := s.left }
  event :=
    { trades := st.event.trades ++
        s.taken.map fun t => (refMatcher side).trade st.order t.1.order t.2
      reports := st.event.reports ++
        (refConsumed s.taken).map fun x => filledReport side.opposite x.order }
  orderMap := eraseAll st.orderMap ((refConsumed s.taken).map fun x => x.order.id)

theorem RefMatchState.advance_nil (kept : List RefNode) :
    st.advance side ⟨[], kept, st.order.quantity⟩ = st := by
  simp [advance, refConsumed]

theorem RefMatchState.advance_advance (s s' : Supply.Swept RefNode) (kept : List RefNode) :
    (st.advance side s).advance side s' =
      st.advance side ⟨s.taken ++ s'.taken, kept, s'.left⟩ := by
  simp [advance, refConsumed, refMatcher_trade, eraseAll_append]

/-- What the inner loop makes of a level. -/
structure LevelSwept (side : Side) (price : Int) (level level' : List RefNode)
    (st st' : RefMatchState) : Prop where
  kept : level'.filter RefNode.live =
    (RefNode.supply.sweep (fun _ => true) st.order.quantity (level.filter RefNode.live)).kept
  state : st' = st.advance side
    (RefNode.supply.sweep (fun _ => true) st.order.quantity (level.filter RefNode.live))
  addresses : (level'.map RefNode.address).Sublist (level.map RefNode.address)
  placed : ∀ x ∈ level', x.Placed side.opposite price

theorem matchLevel_done (M : RefMatcher) (level : List RefNode) (h : st.order.quantity ≤ 0) :
    matchLevel M level st = (level, st) := by
  cases level with
  | nil => rfl
  | cons x rest => rw [matchLevel, if_neg (by omega)]

/-- A maker that the order asks for whole is filled and erased. -/
theorem matchLevel_filled {rest : List RefNode} (hpos : st.order.quantity > 0)
    (hlive : x.live = true) (hle : x.order.remaining ≤ st.order.quantity) :
    matchLevel (refMatcher side) (x :: rest) st = matchLevel (refMatcher side) rest
      (st.advance side ⟨[(x, x.order.remaining)], [],
        st.order.quantity - x.order.remaining⟩) := by
  have hmin : min st.order.quantity x.order.remaining = x.order.remaining := by omega
  rw [matchLevel, if_pos hpos, hlive]
  simp [RefMatchState.advance, hmin, refConsumed]

/-- The inner loop sweeps the live nodes of its level. -/
theorem matchLevel_spec (hplaced : ∀ x ∈ level, x.Placed side.opposite price) :
    LevelSwept side price level (matchLevel (refMatcher side) level st).1 st
      (matchLevel (refMatcher side) level st).2 := by
  induction level generalizing st with
  | nil => exact ⟨rfl, (RefMatchState.advance_nil []).symm, List.Sublist.refl _, hplaced⟩
  | cons x rest ih =>
      have hx := hplaced x (List.mem_cons_self ..)
      have hrest : ∀ y ∈ rest, y.Placed side.opposite price := fun y hy =>
        hplaced y (List.mem_cons_of_mem _ hy)
      by_cases hpos : st.order.quantity > 0
      · cases hlive : x.live with
        | false =>
            -- a dead node is erased on the way
            have hr := @ih st hrest
            rw [matchLevel, if_pos hpos, hlive]
            have hfilter : (x :: rest).filter RefNode.live = rest.filter RefNode.live :=
              List.filter_cons_of_neg (by simp [hlive])
            refine ⟨?_, ?_, ?_, hr.placed⟩
            · rw [hfilter]
              exact hr.kept
            · rw [hfilter]
              exact hr.state
            · exact hr.addresses.trans (List.sublist_cons_self ..)
        | true =>
            have hfilter : (x :: rest).filter RefNode.live = x :: rest.filter RefNode.live :=
              List.filter_cons_of_pos hlive
            by_cases hle : x.order.remaining ≤ st.order.quantity
            · -- the node is filled and erased
              obtain ⟨st', hst'⟩ : ∃ st', st' =
                st.advance side ⟨[(x, x.order.remaining)], [], st.order.quantity -
                  x.order.remaining⟩ := ⟨_, rfl⟩
              have heq : matchLevel (refMatcher side) (x :: rest) st =
                  matchLevel (refMatcher side) rest st' := by
                rw [hst']
                exact matchLevel_filled hpos hlive hle
              have hsweep := @Supply.sweep_whole _ RefNode.supply (fun _ => true)
                st.order.quantity x (rest.filter RefNode.live) hpos rfl hle
              have hr := @ih st' hrest
              have hq : st'.order.quantity = st.order.quantity - RefNode.supply.amount x := by
                rw [hst']
                rfl
              rw [heq]
              refine ⟨?_, ?_, ?_, hr.placed⟩
              · rw [hfilter, hsweep, hr.kept, hq]
              · rw [hfilter, hsweep, hr.state, hq, hst']
                exact RefMatchState.advance_advance _ _ _
              · exact hr.addresses.trans (List.sublist_cons_self ..)
            · -- the node outlasts the order
              have hmin : min st.order.quantity x.order.remaining = st.order.quantity := by omega
              have hne : ¬ x.order.remaining - st.order.quantity = 0 := by omega
              have hsweep := @Supply.sweep_partial _ RefNode.supply (fun _ => true)
                st.order.quantity x (rest.filter RefNode.live) hpos rfl (by
                  show st.order.quantity < x.order.remaining
                  omega)
              have heq : matchLevel (refMatcher side) (x :: rest) st =
                  (x.fill st.order.quantity .partiallyFilled :: rest,
                    st.advance side ⟨[(x, st.order.quantity)], [], 0⟩) := by
                have hnot : ¬ st.order.quantity = x.order.remaining := by omega
                rw [matchLevel, if_pos hpos, hlive]
                simp only [Bool.not_true, Bool.false_eq_true, if_false, hmin, hne]
                rw [matchLevel_done _ _ (by simp)]
                simp [RefMatchState.advance, refConsumed, hnot]
              rw [heq]
              refine ⟨?_, ?_, ?_, ?_⟩
              · rw [hfilter, hsweep]
                exact List.filter_cons_of_pos rfl
              · rw [hfilter, hsweep]
                rfl
              · exact List.Sublist.refl _
              · intro y hy
                rcases List.mem_cons.mp hy with rfl | hy
                · refine ⟨hx.side, hx.price, ?_⟩
                  show 0 < x.order.remaining - st.order.quantity
                  omega
                · exact hrest y hy
      · have hsweep := @Supply.sweep_of_nonpos _ RefNode.supply (fun _ => true)
          st.order.quantity ((x :: rest).filter RefNode.live) (by omega)
        rw [matchLevel_done _ _ (by omega)]
        refine ⟨?_, ?_, List.Sublist.refl _, hplaced⟩
        · rw [hsweep]
        · rw [hsweep]
          exact (RefMatchState.advance_nil _).symm

/-- Every node is where its order's side and price belong. -/
def PlacedIn (side : Side) (levels : RefLevels) : Prop :=
  ∀ l ∈ levels, ∀ x ∈ l.2, x.Placed side l.1

/-- The live nodes of a side in priority order. -/
def liveNodes (levels : RefLevels) : List RefNode := (nodesOf levels).filter RefNode.live

theorem liveNodes_cons (l : Int × List RefNode) (levels : RefLevels) :
    liveNodes (l :: levels) = l.2.filter RefNode.live ++ liveNodes levels := by
  rw [liveNodes, nodesOf, List.flatMap_cons, List.filter_append]
  rfl

theorem mem_nodesOf {l : Int × List RefNode} (hl : l ∈ levels) (hx : x ∈ l.2) :
    x ∈ nodesOf levels := List.mem_flatMap.mpr ⟨l, hl, hx⟩

/-- What the outer loop makes of a side. -/
structure SideSwept (side : Side) (levels levels' : RefLevels) (order : IncomingOrder)
    (st st' : RefMatchState) : Prop where
  kept : liveNodes levels' = (RefNode.supply.sweep (fun x => order.crosses x.order.price)
    st.order.quantity (liveNodes levels)).kept
  state : st' = st.advance side (RefNode.supply.sweep (fun x => order.crosses x.order.price)
    st.order.quantity (liveNodes levels))
  keys : (levels'.map Prod.fst).Sublist (levels.map Prod.fst)
  addresses : ((nodesOf levels').map RefNode.address).Sublist
    ((nodesOf levels).map RefNode.address)
  placed : PlacedIn side.opposite levels'

/-- The loop leaves everything when nothing is asked for or wanted. -/
theorem SideSwept.idle {order : IncomingOrder} (hplaced : PlacedIn side.opposite levels)
    (h : st.order.quantity ≤ 0 ∨ ∀ x ∈ liveNodes levels, order.crosses x.order.price = false) :
    SideSwept side levels levels order st st := by
  have hsweep : RefNode.supply.sweep (fun x => order.crosses x.order.price) st.order.quantity
      (liveNodes levels) = ⟨[], liveNodes levels, st.order.quantity⟩ := by
    rcases h with h | h
    · exact Supply.sweep_of_nonpos h
    · exact Supply.sweep_unwanted h
  refine ⟨?_, ?_, List.Sublist.refl _, List.Sublist.refl _, hplaced⟩
  · rw [hsweep]
  · rw [hsweep]
    exact (RefMatchState.advance_nil _).symm

theorem matchLevels_done (M : RefMatcher) (levels : RefLevels) (h : st.order.quantity ≤ 0) :
    matchLevels M levels st = (levels, st) := by
  cases levels with
  | nil => rfl
  | cons l rest => rw [matchLevels, if_neg (by omega)]

section Outer

variable {order : IncomingOrder} {rest : RefLevels}

theorem orderCrosses_left (hside : order.side = side)
    (hst : ∃ q, st.order = { order with quantity := q }) :
    (refMatcher side).orderCrosses st.order price = order.crosses price := by
  obtain ⟨q, hq⟩ := hst
  rw [refMatcher_orderCrosses (by rw [hq]; exact hside), hq]
  rfl

/-- The loop ends at a level that the order does not cross. -/
theorem matchLevels_uncrossed (hside : order.side = side)
    (hst : ∃ q, st.order = { order with quantity := q }) (hc : order.crosses price = false) :
    matchLevels (refMatcher side) ((price, level) :: rest) st = ((price, level) :: rest, st) := by
  rw [matchLevels, orderCrosses_left hside hst, hc, if_neg Bool.false_ne_true]
  split <;> rfl

/-- The loop works on a level that the order crosses, and goes on. -/
theorem matchLevels_crossed (hside : order.side = side)
    (hst : ∃ q, st.order = { order with quantity := q }) (hpos : st.order.quantity > 0)
    (hc : order.crosses price = true) {level' : List RefNode} {rest' : RefLevels}
    {st₁ st₂ : RefMatchState} (hlevel : matchLevel (refMatcher side) level st = (level', st₁))
    (hrest : matchLevels (refMatcher side) rest st₁ = (rest', st₂)) :
    matchLevels (refMatcher side) ((price, level) :: rest) st =
      (if level'.isEmpty then rest' else (price, level') :: rest', st₂) := by
  simp only [matchLevels, if_pos hpos, orderCrosses_left hside hst, hc, hlevel, hrest, if_true]
  split <;> rfl

end Outer

theorem matchLevel_order {order : IncomingOrder}
    (hplaced : ∀ x ∈ level, x.Placed side.opposite price)
    (hst : ∃ q, st.order = { order with quantity := q }) :
    ∃ q, (matchLevel (refMatcher side) level st).2.order = { order with quantity := q } := by
  obtain ⟨q, hq⟩ := hst
  refine ⟨(matchLevel (refMatcher side) level st).2.order.quantity, ?_⟩
  rw [(matchLevel_spec hplaced).state, RefMatchState.advance, hq]

/-- The rule of the outer loop: it has nothing to do, or it ends at a level that the
    order does not cross, or it works on a level and goes on with the rest. -/
theorem matchLevels_rule {order : IncomingOrder} (hside : order.side = side)
    {P : RefLevels → RefMatchState → RefLevels → RefMatchState → Prop}
    (nil : ∀ st, P [] st [] st)
    (done : ∀ levels st, PlacedIn side.opposite levels → st.order.quantity ≤ 0 →
      P levels st levels st)
    (uncrossed : ∀ price level rest st, PlacedIn side.opposite ((price, level) :: rest) →
      order.crosses price = false → P ((price, level) :: rest) st ((price, level) :: rest) st)
    (crossed : ∀ price level rest st level' st₁ rest' st₂,
      (∀ x ∈ level, x.Placed side.opposite price) → 0 < st.order.quantity →
      order.crosses price = true → matchLevel (refMatcher side) level st = (level', st₁) →
      matchLevels (refMatcher side) rest st₁ = (rest', st₂) → P rest st₁ rest' st₂ →
      P ((price, level) :: rest) st
        (if level'.isEmpty then rest' else (price, level') :: rest') st₂)
    (hst : ∃ q, st.order = { order with quantity := q })
    (hplaced : PlacedIn side.opposite levels) :
    P levels st (matchLevels (refMatcher side) levels st).1
      (matchLevels (refMatcher side) levels st).2 := by
  induction levels generalizing st with
  | nil => exact nil st
  | cons l rest ih =>
      obtain ⟨price, level⟩ := l
      have hlevel : ∀ x ∈ level, x.Placed side.opposite price :=
        hplaced (price, level) (List.mem_cons_self ..)
      have hrest : PlacedIn side.opposite rest := fun l hl =>
        hplaced l (List.mem_cons_of_mem _ hl)
      by_cases hpos : st.order.quantity > 0
      · cases hc : order.crosses price with
        | false =>
            rw [matchLevels_uncrossed hside hst hc]
            exact uncrossed price level rest st hplaced hc
        | true =>
            obtain ⟨level', st₁, hr⟩ : ∃ level' st₁,
              matchLevel (refMatcher side) level st = (level', st₁) := ⟨_, _, rfl⟩
            obtain ⟨rest', st₂, hs⟩ : ∃ rest' st₂,
              matchLevels (refMatcher side) rest st₁ = (rest', st₂) := ⟨_, _, rfl⟩
            have hst₁ := matchLevel_order hlevel hst
            rw [hr] at hst₁
            have hnext := @ih st₁ hst₁ hrest
            rw [hs] at hnext
            rw [matchLevels_crossed hside hst hpos hc hr hs]
            exact crossed price level rest st level' st₁ rest' st₂ hlevel hpos hc hr hs hnext
      · rw [matchLevels_done _ _ (by omega)]
        exact done _ st hplaced (by omega)

/-- The outer loop sweeps the live nodes of its side. -/
theorem matchLevels_spec {order : IncomingOrder} (hside : order.side = side)
    (hst : ∃ q, st.order = { order with quantity := q })
    (hsorted : (levels.map Prod.fst).Pairwise side.opposite.better)
    (hplaced : PlacedIn side.opposite levels) :
    SideSwept side levels (matchLevels (refMatcher side) levels st).1 order st
      (matchLevels (refMatcher side) levels st).2 := by
  refine @matchLevels_rule side st levels order hside
    (fun levels st levels' st' => (levels.map Prod.fst).Pairwise side.opposite.better →
      SideSwept side levels levels' order st st') ?_ ?_ ?_ ?_ hst hplaced hsorted
  · intro st _
    exact SideSwept.idle (fun l hl => absurd hl List.not_mem_nil)
      (.inr fun x hx => absurd hx (by simp [liveNodes, nodesOf]))
  · intro levels st hplaced hdone _
    exact SideSwept.idle hplaced (.inl hdone)
  · intro price level rest st hplaced hc hsorted
    obtain ⟨hbetter, -⟩ := List.pairwise_cons.mp hsorted
    -- the prices behind it do not cross either
    have hnone : ∀ l ∈ (price, level) :: rest, ∀ x ∈ l.2,
        order.crosses x.order.price = false := by
      intro l hl x hx
      rw [(hplaced l hl x hx).price]
      rcases List.mem_cons.mp hl with rfl | hl
      · exact hc
      · have hb := hbetter l.1 (List.mem_map_of_mem hl)
        exact Book.crosses_of_better hc (by rw [hside]; exact hb)
    refine SideSwept.idle hplaced (.inr fun x hx => ?_)
    obtain ⟨l, hl, hxl⟩ := List.mem_flatMap.mp (List.mem_filter.mp hx).1
    exact hnone l hl x hxl
  · intro price level rest st level' st₁ rest' st₂ hlevel hpos hc hr hs hnext hsorted
    have htwo := hnext (List.pairwise_cons.mp hsorted).2
    have hone : LevelSwept side price level level' st st₁ := by
      simpa only [hr] using @matchLevel_spec side st price level hlevel
    have hall : ∀ x ∈ level.filter RefNode.live, order.crosses x.order.price = true := by
      intro x hx
      rw [(hlevel x (List.mem_filter.mp hx).1).price]
      exact hc
    have hsweep := @Supply.sweep_append _ RefNode.supply
      (fun x => order.crosses x.order.price) st.order.quantity
      (level.filter RefNode.live) (liveNodes rest) hall
    have hq : st₁.order.quantity = (RefNode.supply.sweep (fun _ => true)
        st.order.quantity (level.filter RefNode.live)).left := by rw [hone.state]; rfl
    -- an empty level holds no node, so erasing it does not show
    have hnodes : nodesOf (if level'.isEmpty then rest' else (price, level') :: rest') =
        level' ++ nodesOf rest' := by
      cases level' with
      | nil => rfl
      | cons x xs => rfl
    refine ⟨?_, ?_, ?_, ?_, ?_⟩
    · rw [liveNodes_cons, hsweep, ← hone.kept, liveNodes, hnodes, List.filter_append, ← hq,
        ← htwo.kept]
      rfl
    · rw [liveNodes_cons, hsweep, htwo.state, hq, hone.state]
      exact RefMatchState.advance_advance _ _ _
    · show ((if _ then _ else _ : RefLevels).map Prod.fst).Sublist _
      split
      · exact htwo.keys.trans (List.sublist_cons_self ..)
      · exact htwo.keys.cons_cons price
    · rw [hnodes, List.map_append, nodesOf, nodesOf, List.flatMap_cons, List.map_append]
      exact hone.addresses.append htwo.addresses
    · show PlacedIn side.opposite (if _ then _ else _)
      split
      · exact htwo.placed
      · intro l hl
        rcases List.mem_cons.mp hl with rfl | hl
        · exact hone.placed
        · exact htwo.placed l hl

end Loops

end ReferenceEngine

end LimitOrderBook
