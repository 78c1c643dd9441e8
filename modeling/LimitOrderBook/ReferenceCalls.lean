/-
  LimitOrderBook.ReferenceCalls

  One call of the reference engine: it keeps the invariant of its maps and does
  to the view what `Book.process` and `Book.cancel` say.
-/
import LimitOrderBook.ReferenceView

namespace LimitOrderBook

open Lib MatchingEngine

namespace ReferenceEngine

/-- The addresses of all nodes. -/
def addresses (self : ReferenceEngine) : List Nat :=
  (nodesOf self.bids ++ nodesOf self.asks).map RefNode.address

/-- The book that a state stands for. -/
def book (self : ReferenceEngine) : Book where
  bids := (liveNodes self.bids).map (RefNode.entry self.orderMap)
  asks := (liveNodes self.asks).map (RefNode.entry self.orderMap)

/-- The invariant: sorted keys, orders where they belong, distinct addresses, and
    a map that leads to live orders with the right ids. -/
structure Wellformed (engine : ReferenceEngine) : Prop where
  sorted : ∀ side, ((engine.levels side).map Prod.fst).Pairwise side.better
  placed : ∀ side, PlacedIn side (engine.levels side)
  nodup : engine.addresses.Nodup
  fresh : ∀ a ∈ engine.addresses, a < engine.nextAddress
  map : ∀ id a, engine.orderMap.lookup id = some a →
    ∃ side, ∃ x ∈ liveNodes (engine.levels side), x.address = a ∧ x.order.id = id

theorem wellformed_empty : ({} : ReferenceEngine).Wellformed := by
  refine ⟨?_, ?_, List.nodup_nil, ?_, ?_⟩
  · intro side
    cases side <;> exact List.Pairwise.nil
  · intro side l hl
    cases side <;> exact absurd hl List.not_mem_nil
  · intro a ha
    exact absurd ha List.not_mem_nil
  · intro id a ha
    exact absurd ha (by simp)

-- ============================================================================
-- Levels and addresses
-- ============================================================================

section Levels

variable {self other : ReferenceEngine} {side : Side} {levels : RefLevels}

theorem book_side (self : ReferenceEngine) (side : Side) : self.book.side side =
    (liveNodes (self.levels side)).map (RefNode.entry self.orderMap) := by
  cases side <;> rfl

/-- Writing the levels of a side, and what else a call writes. -/
theorem update_levels (self : ReferenceEngine) (side : Side) (levels : RefLevels)
    (orderMap : AList fun _ : OrderID => Nat) (nextAddress : Nat) :
    ({ self.setLevels side levels with orderMap, nextAddress } : ReferenceEngine).levels =
      Function.update self.levels side levels := by
  funext s
  cases side <;> cases s <;> rfl

theorem addresses_perm (self : ReferenceEngine) (side : Side) :
    self.addresses.Perm ((nodesOf (self.levels side)).map RefNode.address ++
      (nodesOf (self.levels side.opposite)).map RefNode.address) := by
  rw [addresses, List.map_append]
  cases side
  · exact .refl _
  · exact List.perm_append_comm

theorem addresses_sublist (h : ∀ side, ((nodesOf (other.levels side)).map RefNode.address).Sublist
    ((nodesOf (self.levels side)).map RefNode.address)) :
    other.addresses.Sublist self.addresses := by
  rw [addresses, addresses, List.map_append, List.map_append]
  exact (h .buy).append (h .sell)

theorem mem_addresses {x : RefNode} (hx : x ∈ nodesOf (self.levels side)) :
    x.address ∈ self.addresses :=
  (self.addresses_perm side).symm.subset
    (List.mem_append_left _ (List.mem_map_of_mem hx))

theorem side_nodup (h : self.addresses.Nodup) (side : Side) :
    ((nodesOf (self.levels side)).map RefNode.address).Nodup :=
  (List.nodup_append.mp ((self.addresses_perm side).nodup_iff.mp h)).1

/-- An address names one node. -/
theorem eq_of_address (h : self.addresses.Nodup) {side' : Side} {x y : RefNode}
    (hx : x ∈ nodesOf (self.levels side)) (hy : y ∈ nodesOf (self.levels side'))
    (haddr : y.address = x.address) : side' = side ∧ y = x := by
  rcases Side.eq_or_eq_opposite side side' with rfl | rfl
  · exact ⟨rfl, List.inj_on_of_nodup_map (side_nodup h side') hy hx haddr⟩
  · have hdisj := (List.nodup_append.mp ((self.addresses_perm side).nodup_iff.mp h)).2.2
    exact absurd haddr.symm (hdisj _ (List.mem_map_of_mem hx) _ (List.mem_map_of_mem hy))

theorem mem_of_live {x : RefNode} (hx : x ∈ liveNodes levels) : x ∈ nodesOf levels :=
  (List.mem_filter.mp hx).1

end Levels

-- ============================================================================
-- Matching
-- ============================================================================

section Match

variable {self : ReferenceEngine} {order : IncomingOrder} {orderMap : AList fun _ : OrderID => Nat}

theorem refMatcher_fillTrade {side : Side} (h : order.side = side) (x : RefNode) (qty : Int) :
    (refMatcher side).trade order x.order qty = fillTrade order (x.entry orderMap, qty) := by
  rw [fillTrade, h]
  cases side <;> rfl

/-- The sweep of the view is the view of the sweep. -/
theorem book_sweep (self : ReferenceEngine) (order : IncomingOrder) (left : Int) :
    self.book.sweep order left =
      ⟨(RefNode.supply.sweep (fun x => order.crosses x.order.price) left
          (liveNodes (self.levels order.side.opposite))).taken.map
            fun t => (t.1.entry self.orderMap, t.2),
        (RefNode.supply.sweep (fun x => order.crosses x.order.price) left
          (liveNodes (self.levels order.side.opposite))).kept.map (RefNode.entry self.orderMap),
        (RefNode.supply.sweep (fun x => order.crosses x.order.price) left
          (liveNodes (self.levels order.side.opposite))).left⟩ := by
  rw [Book.sweep, book_side]
  exact Supply.sweep_map (fun _ => rfl) (fun _ => rfl) (fun _ _ => rfl)

theorem consumed_map (taken : List (RefNode × Int)) :
    ((taken.map fun t => (t.1.entry orderMap, t.2)).filter consumes).map Prod.fst =
      (refConsumed taken).map (RefNode.entry orderMap) := by
  rw [refConsumed, List.filter_map, List.map_map, List.map_map]
  rfl

/-- The matching half of a call computes the sweep of the book. -/
theorem matchOrder_spec (h : self.Wellformed) (order : IncomingOrder) :
    ∃ engine : ReferenceEngine, self.matchOrder order =
        (engine, { order with quantity := (self.book.matched order order.quantity).left },
          ⟨(self.book.matched order order.quantity).trades,
            (self.book.matched order order.quantity).reports⟩) ∧
      engine.Wellformed ∧ engine.book = (self.book.matched order order.quantity).book := by
  obtain ⟨levels', st', hrun⟩ : ∃ levels' st', matchLevels (refMatcher order.side)
    (self.levels order.side.opposite) ⟨order, {}, self.orderMap⟩ = (levels', st') := ⟨_, _, rfl⟩
  have hs : SideSwept order.side (self.levels order.side.opposite) levels' order
      ⟨order, {}, self.orderMap⟩ st' := by
    simpa only [hrun] using @matchLevels_spec order.side ⟨order, {}, self.orderMap⟩
      (self.levels order.side.opposite) order rfl ⟨order.quantity, rfl⟩
      (h.sorted order.side.opposite) (h.placed order.side.opposite)
  obtain ⟨s, hsdef⟩ : ∃ s, s = RefNode.supply.sweep (fun x => order.crosses x.order.price)
    order.quantity (liveNodes (self.levels order.side.opposite)) := ⟨_, rfl⟩
  have hsweep := self.book_sweep order order.quantity
  have hkept : liveNodes levels' = s.kept := hsdef ▸ hs.kept
  have hstate : st' = RefMatchState.advance order.side ⟨order, {}, self.orderMap⟩ s :=
    hsdef ▸ hs.state
  rw [← hsdef] at hsweep
  have hconsumed : self.book.consumed order order.quantity =
      (refConsumed s.taken).map (RefNode.entry self.orderMap) := by
    rw [Book.consumed, hsweep]
    exact consumed_map s.taken
  have hids : (self.book.consumed order order.quantity).map Entry.id =
      (refConsumed s.taken).map fun x => x.order.id := by
    rw [hconsumed, List.map_map]
    rfl
  obtain ⟨engine, hengine⟩ : ∃ engine : ReferenceEngine, engine =
    { self.setLevels order.side.opposite levels' with
      orderMap := eraseAll self.orderMap ((refConsumed s.taken).map fun x => x.order.id)
      nextAddress := self.nextAddress } := ⟨_, rfl⟩
  have hlevels : engine.levels = Function.update self.levels order.side.opposite levels' := by
    rw [hengine, update_levels]
  have hmap : engine.orderMap =
      eraseAll self.orderMap ((refConsumed s.taken).map fun x => x.order.id) := by rw [hengine]
  have hnext : engine.nextAddress = self.nextAddress := by rw [hengine]
  have hopp : engine.levels order.side.opposite = levels' := by
    rw [hlevels, Function.update_self]
  have hown : engine.levels order.side = self.levels order.side := by
    rw [hlevels, Function.update_of_ne order.side.opposite_ne.symm]
  have hsub : engine.addresses.Sublist self.addresses := by
    apply addresses_sublist
    intro side
    rcases Side.eq_or_eq_opposite order.side side with rfl | rfl
    · rw [hown]
    · rw [hopp]
      exact hs.addresses
  refine ⟨engine, ?_, ⟨?_, ?_, hsub.nodup h.nodup, ?_, ?_⟩, ?_⟩
  · have hevent : st'.event = ⟨(self.book.matched order order.quantity).trades,
        (self.book.matched order order.quantity).reports⟩ := by
      rw [hstate, Book.matched, hsweep, hconsumed]
      simp only [RefMatchState.advance, List.nil_append, List.map_map]
      congr 1
      exact List.map_congr_left fun t _ => refMatcher_fillTrade rfl t.1 t.2
    have horder : st'.order =
        { order with quantity := (self.book.matched order order.quantity).left } := by
      rw [hstate, Book.matched, hsweep]
      rfl
    have hself : ({ self.setLevels order.side.opposite levels' with orderMap := st'.orderMap } :
        ReferenceEngine) = engine := by
      rw [hengine, hstate]
      cases order.side <;> rfl
    rw [matchOrder_eq, runMatcher, refMatcher_restingSide, hrun, hevent, horder, hself]
  · intro side
    rcases Side.eq_or_eq_opposite order.side side with rfl | rfl
    · rw [hown]
      exact h.sorted _
    · rw [hopp]
      exact (h.sorted _).sublist hs.keys
  · intro side
    rcases Side.eq_or_eq_opposite order.side side with rfl | rfl
    · rw [hown]
      exact h.placed _
    · rw [hopp]
      exact hs.placed
  · intro a ha
    rw [hnext]
    exact h.fresh a (hsub.subset ha)
  · intro id a ha
    rw [hmap] at ha
    obtain ⟨hlook, hnot⟩ := lookup_eraseAll ha
    obtain ⟨side, x, hx, haddr, hid⟩ := h.map id a hlook
    rcases Side.eq_or_eq_opposite order.side side with rfl | rfl
    · exact ⟨order.side, x, hown ▸ hx, haddr, hid⟩
    · refine ⟨order.side.opposite, ?_⟩
      rw [hopp, hkept]
      have hcovers := @Supply.sweep_covers _ RefNode.supply
        (fun x => order.crosses x.order.price) order.quantity _ x hx
      rw [← hsdef] at hcovers
      rcases hcovers with htaken | hk | ⟨q, -, -, hk⟩
      · -- a maker that was filled has lost its entry
        refine absurd ?_ hnot
        rw [← hid]
        refine List.mem_map_of_mem (List.mem_map.mpr ⟨_, List.mem_filter.mpr ⟨htaken, ?_⟩, rfl⟩)
        simp [RefNode.supply]
      · exact ⟨x, hk, haddr, hid⟩
      · exact ⟨_, hk, haddr, hid⟩
  · refine Book.ext_side fun side => ?_
    rw [book_side, hmap]
    rcases Side.eq_or_eq_opposite order.side side with rfl | rfl
    · rw [hown, Book.matched_own, book_side, hids, List.map_map]
      exact List.map_congr_left fun x _ => RefNode.entry_eraseAll _
    · rw [hopp, Book.matched_opposite, hsweep, hids, hkept, List.map_map]
      exact List.map_congr_left fun x _ => RefNode.entry_eraseAll _

end Match

-- ============================================================================
-- Resting
-- ============================================================================

section Insert

variable {self : ReferenceEngine} {side : Side} {levels : RefLevels} {price : Int} {node : RefNode}

theorem less_iff {a b : Int} : less side a b = true ↔ side.better a b := by
  cases side <;> simp [less, Side.better]

/-- The three ways `map[price].push_back(node)` goes at the first level. -/
theorem pushToLevels_cases (side : Side) (price : Int) (node : RefNode)
    (l : Int × List RefNode) (rest : RefLevels) :
    (side.better price l.1 ∧
      pushToLevels (less side) price node (l :: rest) = (price, [node]) :: l :: rest) ∨
    (side.better l.1 price ∧ pushToLevels (less side) price node (l :: rest) =
      l :: pushToLevels (less side) price node rest) ∨
    (l.1 = price ∧
      pushToLevels (less side) price node (l :: rest) = (l.1, l.2 ++ [node]) :: rest) := by
  obtain ⟨key, level⟩ := l
  by_cases hfront : side.better price key
  · refine .inl ⟨hfront, ?_⟩
    rw [pushToLevels, if_pos (less_iff.mpr hfront)]
  · by_cases hback : side.better key price
    · refine .inr (.inl ⟨hback, ?_⟩)
      rw [pushToLevels, if_neg (fun hc => hfront (less_iff.mp hc)), if_pos (less_iff.mpr hback)]
    · refine .inr (.inr ⟨Side.eq_of_not_better hback hfront, ?_⟩)
      rw [pushToLevels, if_neg (fun hc => hfront (less_iff.mp hc)),
        if_neg (fun hc => hback (less_iff.mp hc))]

/-- The new node and its price are all that a push adds. -/
theorem pushToLevels_nodes (side : Side) (price : Int) (node : RefNode) (levels : RefLevels) :
    (nodesOf (pushToLevels (less side) price node levels)).Perm (node :: nodesOf levels) := by
  induction levels with
  | nil => exact .refl _
  | cons l rest ih =>
      rcases pushToLevels_cases side price node l rest with ⟨-, h⟩ | ⟨-, h⟩ | ⟨-, h⟩
      · rw [h]
        exact .refl _
      · rw [h, nodesOf, nodesOf, List.flatMap_cons, List.flatMap_cons]
        exact (ih.append_left l.2).trans List.perm_middle
      · rw [h, nodesOf, nodesOf, List.flatMap_cons, List.flatMap_cons, List.append_assoc]
        exact List.perm_middle

theorem pushToLevels_keys {k : Int}
    (hk : k ∈ (pushToLevels (less side) price node levels).map Prod.fst) :
    k = price ∨ k ∈ levels.map Prod.fst := by
  induction levels with
  | nil =>
      rw [pushToLevels, List.map_cons, List.map_nil] at hk
      exact .inl (List.mem_singleton.mp hk)
  | cons l rest ih =>
      rcases pushToLevels_cases side price node l rest with ⟨-, h⟩ | ⟨-, h⟩ | ⟨-, h⟩
      · rw [h, List.map_cons] at hk
        exact List.mem_cons.mp hk
      · rw [h, List.map_cons] at hk
        rcases List.mem_cons.mp hk with rfl | hk
        · exact .inr (List.mem_cons_self ..)
        · exact (ih hk).imp_right (List.mem_cons_of_mem _)
      · rw [h] at hk
        exact .inr hk

theorem pushToLevels_sorted (h : (levels.map Prod.fst).Pairwise side.better) :
    ((pushToLevels (less side) price node levels).map Prod.fst).Pairwise side.better := by
  induction levels with
  | nil => exact List.pairwise_singleton _ _
  | cons l rest ih =>
      obtain ⟨hbetter, hrest⟩ := List.pairwise_cons.mp h
      rcases pushToLevels_cases side price node l rest with ⟨hb, hp⟩ | ⟨hb, hp⟩ | ⟨-, hp⟩
      · rw [hp, List.map_cons]
        refine List.pairwise_cons.mpr ⟨fun k hk => ?_, h⟩
        rcases List.mem_cons.mp hk with rfl | hk
        · exact hb
        · have hlk := hbetter k hk
          cases side <;> simp only [Side.better] at hb hlk ⊢ <;> omega
      · rw [hp, List.map_cons]
        refine List.pairwise_cons.mpr ⟨fun k hk => ?_, ih hrest⟩
        rcases pushToLevels_keys hk with rfl | hk
        · exact hb
        · exact hbetter k hk
      · rw [hp]
        exact h

theorem pushToLevels_placed (h : PlacedIn side levels) (hnode : node.Placed side price) :
    PlacedIn side (pushToLevels (less side) price node levels) := by
  induction levels with
  | nil =>
      intro l hl x hx
      obtain rfl := List.mem_singleton.mp hl
      obtain rfl := List.mem_singleton.mp hx
      exact hnode
  | cons l rest ih =>
      have hrest : PlacedIn side rest := fun l hl => h l (List.mem_cons_of_mem _ hl)
      rcases pushToLevels_cases side price node l rest with ⟨-, hp⟩ | ⟨-, hp⟩ | ⟨hkey, hp⟩
      · rw [hp]
        intro k hk x hx
        rcases List.mem_cons.mp hk with rfl | hk
        · obtain rfl := List.mem_singleton.mp hx
          exact hnode
        · exact h k hk x hx
      · rw [hp]
        intro k hk x hx
        rcases List.mem_cons.mp hk with rfl | hk
        · exact h k (List.mem_cons_self ..) x hx
        · exact ih hrest k hk x hx
      · rw [hp]
        intro k hk x hx
        rcases List.mem_cons.mp hk with rfl | hk
        · rcases List.mem_append.mp hx with hx | hx
          · exact h l (List.mem_cons_self ..) x hx
          · obtain rfl := List.mem_singleton.mp hx
            exact hkey ▸ hnode
        · exact hrest k hk x hx

/-- In the view a push is a sorted insertion. -/
theorem pushToLevels_view {f : RefNode → Entry} (hf : ∀ x, (f x).price = x.order.price)
    (hsorted : (levels.map Prod.fst).Pairwise side.better) (hplaced : PlacedIn side levels)
    (hnode : node.Placed side price) (hlive : node.live = true) :
    (liveNodes (pushToLevels (less side) price node levels)).map f =
      ((liveNodes levels).map f).orderedInsert (fun a b => side.better a.price b.price)
        (f node) := by
  have hprice : (f node).price = price := (hf node).trans hnode.price
  have hsingle : [node].filter RefNode.live = [node] := List.filter_cons_of_pos hlive
  -- where the entries of a level stand to the new one
  have hlevel : ∀ l : Int × List RefNode, (∀ x ∈ l.2, x.Placed side l.1) →
      ∀ e ∈ (l.2.filter RefNode.live).map f, e.price = l.1 := by
    intro l hl e he
    obtain ⟨x, hx, rfl⟩ := List.mem_map.mp he
    rw [hf, (hl x (List.mem_filter.mp hx).1).price]
  have hbehind : ∀ levels : RefLevels, PlacedIn side levels →
      (∀ k ∈ levels.map Prod.fst, side.better price k) →
      ∀ e ∈ (liveNodes levels).map f, side.better (f node).price e.price := by
    intro levels hpl hk e he
    obtain ⟨x, hx, rfl⟩ := List.mem_map.mp he
    obtain ⟨l, hl, hxl⟩ := List.mem_flatMap.mp (mem_of_live hx)
    rw [hprice, hf, (hpl l hl x hxl).price]
    exact hk l.1 (List.mem_map_of_mem hl)
  induction levels with
  | nil =>
      rw [pushToLevels, liveNodes_cons, hsingle]
      rfl
  | cons l rest ih =>
      obtain ⟨hbetter, hsorted'⟩ := List.pairwise_cons.mp hsorted
      have hrest : PlacedIn side rest := fun l hl => hplaced l (List.mem_cons_of_mem _ hl)
      have hl : ∀ e ∈ (l.2.filter RefNode.live).map f, e.price = l.1 :=
        hlevel l (hplaced l (List.mem_cons_self ..))
      rcases pushToLevels_cases side price node l rest with ⟨hb, hp⟩ | ⟨hb, hp⟩ | ⟨hkey, hp⟩
      · rw [hp, liveNodes_cons, hsingle, List.map_append]
        refine (Buckets.orderedInsert_front (hbehind _ hplaced fun k hk => ?_)).symm
        rcases List.mem_cons.mp hk with rfl | hk
        · exact hb
        · have hlk := hbetter k hk
          cases side <;> simp only [Side.better] at hb hlk ⊢ <;> omega
      · rw [hp, liveNodes_cons, liveNodes_cons, List.map_append, List.map_append,
          Buckets.orderedInsert_append_left, ih hsorted' hrest]
        intro e he
        rw [hprice, hl e he]
        cases side <;> simp only [Side.better] at hb ⊢ <;> omega
      · rw [hp, liveNodes_cons, liveNodes_cons, List.filter_append, hsingle, List.map_append,
          List.map_append, List.map_append, List.append_assoc]
        refine (Buckets.orderedInsert_append (fun e he => ?_)
          (hbehind rest hrest fun k hk => hkey ▸ hbetter k hk)).symm
        rw [hprice, hl e he, hkey]
        cases side <;> simp [Side.better]

/-- The residual of an order joins the book. -/
theorem insertOrder_spec (h : self.Wellformed) (order : IncomingOrder) {left : Int}
    (hleft : 0 < left) :
    (self.insertOrder (restingOrder order left)).Wellformed ∧
      (self.insertOrder (restingOrder order left)).book = self.book.rest order left := by
  obtain ⟨node, hnode⟩ : ∃ node : RefNode, node = ⟨self.nextAddress, restingOrder order left⟩ :=
    ⟨_, rfl⟩
  have haddr : node.address = self.nextAddress := by rw [hnode]
  have hid : node.order.id = order.id := by rw [hnode]; rfl
  have hlive : node.live = true := by rw [hnode]; rfl
  have hplaced : node.Placed order.side order.price := by
    rw [hnode]
    exact ⟨rfl, rfl, hleft⟩
  obtain ⟨engine, hengine⟩ : ∃ engine, engine = self.insertOrder (restingOrder order left) :=
    ⟨_, rfl⟩
  have heq : engine = { self.setLevels order.side (pushToLevels (less order.side) order.price node
      (self.levels order.side)) with
        orderMap := self.orderMap.insert order.id self.nextAddress
        nextAddress := self.nextAddress + 1 } := by
    rw [hengine, insertOrder, hnode]
    rfl
  have hlevels : engine.levels = Function.update self.levels order.side
      (pushToLevels (less order.side) order.price node (self.levels order.side)) := by
    rw [heq, update_levels]
  have hmap : engine.orderMap = self.orderMap.insert order.id self.nextAddress := by rw [heq]
  have hnext : engine.nextAddress = self.nextAddress + 1 := by rw [heq]
  have hown : engine.levels order.side =
      pushToLevels (less order.side) order.price node (self.levels order.side) := by
    rw [hlevels, Function.update_self]
  have hopp : engine.levels order.side.opposite = self.levels order.side.opposite := by
    rw [hlevels, Function.update_of_ne order.side.opposite_ne]
  have hnodes := pushToLevels_nodes order.side order.price node (self.levels order.side)
  have hperm : engine.addresses.Perm (self.nextAddress :: self.addresses) := by
    refine (engine.addresses_perm order.side).trans ?_
    refine .trans ?_ ((self.addresses_perm order.side).symm.cons _)
    rw [hown, hopp, ← haddr]
    exact (hnodes.map RefNode.address).append_right _
  have hne : ∀ side, ∀ x ∈ nodesOf (self.levels side), x.address ≠ self.nextAddress :=
    fun side x hx => Nat.ne_of_lt (h.fresh _ (mem_addresses hx))
  rw [← hengine]
  refine ⟨⟨?_, ?_, ?_, ?_, ?_⟩, ?_⟩
  · intro side
    rcases Side.eq_or_eq_opposite order.side side with rfl | rfl
    · rw [hown]
      exact pushToLevels_sorted (h.sorted _)
    · rw [hopp]
      exact h.sorted _
  · intro side
    rcases Side.eq_or_eq_opposite order.side side with rfl | rfl
    · rw [hown]
      exact pushToLevels_placed (h.placed _) hplaced
    · rw [hopp]
      exact h.placed _
  · refine hperm.nodup_iff.mpr (List.nodup_cons.mpr ⟨fun hin => ?_, h.nodup⟩)
    exact Nat.lt_irrefl _ (h.fresh _ hin)
  · intro a ha
    rw [hnext]
    rcases List.mem_cons.mp (hperm.subset ha) with rfl | ha
    · exact Nat.lt_succ_self _
    · exact Nat.lt_succ_of_lt (h.fresh a ha)
  · intro id a ha
    rw [hmap] at ha
    by_cases hk : id = order.id
    · subst hk
      rw [AList.lookup_insert] at ha
      obtain rfl := Option.some.inj ha
      refine ⟨order.side, node, ?_, haddr, hid⟩
      rw [hown]
      exact List.mem_filter.mpr ⟨hnodes.symm.subset (List.mem_cons_self ..), hlive⟩
    · rw [AList.lookup_insert_ne hk] at ha
      obtain ⟨side, x, hx, hax, hidx⟩ := h.map id a ha
      refine ⟨side, x, ?_, hax, hidx⟩
      obtain ⟨hmem, hlivex⟩ := List.mem_filter.mp hx
      rcases Side.eq_or_eq_opposite order.side side with rfl | rfl
      · rw [hown]
        exact List.mem_filter.mpr ⟨hnodes.symm.subset (List.mem_cons_of_mem _ hmem), hlivex⟩
      · rw [hopp]
        exact hx
  · have hold : ∀ side, ∀ x ∈ liveNodes (self.levels side),
        x.entry engine.orderMap = (x.entry self.orderMap).forget order.id := by
      intro side x hx
      rw [hmap]
      exact RefNode.entry_insert (hne side x (mem_of_live hx))
    have hnew : node.entry engine.orderMap =
        { id := order.id, price := order.price, quantity := order.quantity, remaining := left,
          mapped := true } := by
      rw [RefNode.entry, hid, hmap, AList.lookup_insert, haddr, hnode]
      simp [restingOrder]
    refine Book.ext_side fun side => ?_
    rw [book_side]
    rcases Side.eq_or_eq_opposite order.side side with rfl | rfl
    · rw [hown, pushToLevels_view (fun _ => rfl) (h.sorted _) (h.placed _) hplaced hlive, hnew,
        List.map_congr_left (hold order.side), Book.rest, Book.setSide_side, Book.forget_side,
        book_side, List.map_map]
      rfl
    · rw [hopp, List.map_congr_left (hold order.side.opposite), Book.rest,
        Book.setSide_side_opposite, Book.forget_side, book_side, List.map_map]
      rfl

end Insert

-- ============================================================================
-- `process_order`
-- ============================================================================

/-- The reference engine does not look at the price of a Limit order. -/
theorem validateOrder_eq {order : IncomingOrder} (h : order.type = .limit → 0 < order.price) :
    validateOrder order = true ↔ ¬ (order.quantity ≤ 0 ∨ order.id = 0) := by
  have hprice : ¬ (order.price ≤ 0 ∧ order.type = .limit) := fun ⟨hle, hl⟩ => by
    have := h hl
    omega
  simp [validateOrder, hprice]

theorem book_positive {self : ReferenceEngine} (h : self.Wellformed) : self.book.Positive := by
  intro side e he
  rw [book_side] at he
  obtain ⟨x, hx, rfl⟩ := List.mem_map.mp he
  obtain ⟨l, hl, hxl⟩ := List.mem_flatMap.mp (mem_of_live hx)
  exact (h.placed side l hl x hxl).pos

/-- The branches of the final status, by what is left. -/
theorem processOrder_eq {self engine : ReferenceEngine} {order : IncomingOrder}
    {event : MatchEvent} {left : Int} (hv : ¬ (order.quantity ≤ 0 ∨ order.id = 0))
    (hmatch : self.matchOrder order = (engine, { order with quantity := left }, event))
    (hle : left ≤ order.quantity) :
    self.processOrder order =
      (if left ≠ 0 ∧ order.type = .limit then engine.insertOrder (restingOrder order left)
        else engine,
        { event with
          reports := event.reports ++
            [takerReport order (if left = 0 then .filled
              else if order.type = .limit then .resting else .cancelled)
              (order.quantity - left) left] }) := by
  by_cases hz : left = 0
  · subst hz
    simp [processOrder, hv, hmatch]
  · by_cases hfilled : order.quantity - left > 0
    · have hlt : left < order.quantity := by omega
      cases hl : order.type <;> simp [processOrder, hv, hmatch, hz, hlt, hl]
    · obtain rfl : left = order.quantity := by omega
      cases hl : order.type <;> simp [processOrder, hv, hmatch, hz, hl]

/-- A call does to the book what it should, with room for every order. -/
theorem processOrder_spec {self : ReferenceEngine} (h : self.Wellformed) (order : IncomingOrder)
    (hprice : order.type = .limit → 0 < order.price) :
    (self.processOrder order).1.Wellformed ∧
      self.book.process (fun _ => true) order =
        ((self.processOrder order).1.book, (self.processOrder order).2) := by
  by_cases hv : order.quantity ≤ 0 ∨ order.id = 0
  · have hfalse : validateOrder order = false := by
      rw [Bool.eq_false_iff]
      exact fun hc => (validateOrder_eq hprice).mp hc hv
    simp only [processOrder, if_pos hv, Book.process, hfalse, Bool.not_false, if_true]
    exact ⟨h, trivial⟩
  · have htrue : validateOrder order = true := (validateOrder_eq hprice).mpr hv
    have hnonneg : 0 ≤ (self.book.matched order order.quantity).left :=
      Supply.sweep_left_nonneg (by omega)
    have hle := @Book.matched_left_le _ order _ (book_positive h) (by omega : 0 ≤ order.quantity)
    obtain ⟨engine, hmatch, hwf, hbook⟩ := matchOrder_spec h order
    rw [processOrder_eq hv hmatch hle]
    simp only [Book.process, htrue, Bool.not_true, Bool.false_eq_true, if_false, and_true]
    generalize self.book.matched order order.quantity = m at *
    by_cases hz : m.left = 0
    · simp only [hz, hbook, ne_eq, not_true_eq_false, false_and, if_false, if_true]
      exact ⟨hwf, trivial⟩
    · by_cases hl : order.type = .limit
      · obtain ⟨hwf', hbook'⟩ := @insertOrder_spec engine hwf order m.left (by omega)
        simp only [hz, hl, hbook', hbook, ne_eq, not_false_eq_true, and_self, if_false, if_true]
        exact ⟨hwf', trivial⟩
      · simp only [hz, hl, hbook, and_false, if_false]
        exact ⟨hwf, trivial⟩

-- ============================================================================
-- `cancel_order`
-- ============================================================================

section Cancel

variable {self : ReferenceEngine} {id : OrderID} {side : Side} {x y : RefNode}
  {levels : RefLevels} {l : List RefNode}

/-- A pointer to a node of the engine leads to that node. -/
theorem deref_eq (h : self.addresses.Nodup) (hx : x ∈ nodesOf (self.levels side)) :
    self.deref x.address = some x := by
  have hmem : x ∈ nodesOf self.bids ++ nodesOf self.asks := by
    cases side
    · exact List.mem_append_left _ hx
    · exact List.mem_append_right _ hx
  cases hfind : self.deref x.address with
  | none =>
      have hno := List.find?_eq_none.mp hfind x hmem
      exact absurd (beq_self_eq_true x.address) hno
  | some y =>
      have haddr : y.address = x.address := by simpa using List.find?_some hfind
      rw [List.inj_on_of_nodup_map h (List.mem_of_find?_eq_some hfind) hmem haddr]

theorem setStatus_of_ne (h : y.address ≠ x.address) :
    y.setStatus x.address .cancelled = y := if_neg h

theorem nodesOf_setStatusIn (a : Nat) (status : OrderStatus) (levels : RefLevels) :
    nodesOf (setStatusIn a status levels) = (nodesOf levels).map (RefNode.setStatus a status) := by
  rw [nodesOf, setStatusIn, List.flatMap_map, nodesOf, List.map_flatMap]

theorem setStatus_address (a : Nat) (status : OrderStatus) (x : RefNode) :
    (x.setStatus a status).address = x.address := by
  rw [RefNode.setStatus]
  split <;> rfl

theorem setStatus_levels (self : ReferenceEngine) (a : Nat) (status : OrderStatus) (side : Side) :
    (self.setStatus a status).levels side = setStatusIn a status (self.levels side) := by
  cases side <;> rfl

/-- Cancelling a live node takes it out of the live nodes. -/
theorem live_setStatus (hnodup : (l.map RefNode.address).Nodup) (hx : x ∈ l)
    (hlive : x.live = true) :
    (l.map (RefNode.setStatus x.address .cancelled)).filter RefNode.live =
      (l.filter RefNode.live).erase x := by
  induction l with
  | nil => exact absurd hx List.not_mem_nil
  | cons y l ih =>
      obtain ⟨hnot, hnodup'⟩ := List.nodup_cons.mp hnodup
      by_cases hy : y.address = x.address
      · have hxy : x = y := by
          rcases List.mem_cons.mp hx with rfl | hx
          · rfl
          · exact absurd (hy ▸ List.mem_map_of_mem hx) hnot
        subst hxy
        have hrest : l.map (RefNode.setStatus x.address .cancelled) = l := by
          refine (List.map_congr_left fun z hz => ?_).trans (List.map_id' l)
          exact setStatus_of_ne fun hz' => hnot (hz' ▸ List.mem_map_of_mem hz)
        have hdead : (x.setStatus x.address .cancelled).live = false := by
          rw [RefNode.setStatus, if_pos rfl]
          rfl
        rw [List.map_cons, hrest, List.filter_cons_of_neg (by rw [hdead]; decide),
          List.filter_cons_of_pos hlive, List.erase_cons_head]
      · have hne : y ≠ x := fun he => hy (he ▸ rfl)
        have hx' : x ∈ l := (List.mem_cons.mp hx).resolve_left hne.symm
        rw [List.map_cons, setStatus_of_ne hy]
        cases hyl : y.live with
        | true =>
            rw [List.filter_cons_of_pos hyl, List.filter_cons_of_pos hyl, ih hnodup' hx',
              List.erase_cons_tail (by simpa using hne)]
        | false =>
            rw [List.filter_cons_of_neg (by simp [hyl]), List.filter_cons_of_neg (by simp [hyl]),
              ih hnodup' hx']

/-- A write through a pointer to another side does not show. -/
theorem setStatusIn_of_notMem (h : ∀ y ∈ nodesOf levels, y.address ≠ x.address) :
    setStatusIn x.address .cancelled levels = levels := by
  refine (List.map_congr_left fun l hl => ?_).trans (List.map_id' levels)
  have hl' : l.2.map (RefNode.setStatus x.address .cancelled) = l.2 := by
    refine (List.map_congr_left fun y hy => ?_).trans (List.map_id' l.2)
    exact setStatus_of_ne (h y (mem_nodesOf hl hy))
  rw [hl']

theorem setStatusIn_keys (a : Nat) (status : OrderStatus) (levels : RefLevels) :
    (setStatusIn a status levels).map Prod.fst = levels.map Prod.fst := by
  rw [setStatusIn, List.map_map]
  rfl

theorem setStatusIn_placed {a : Nat} {status : OrderStatus} (h : PlacedIn side levels) :
    PlacedIn side (setStatusIn a status levels) := by
  intro l hl y hy
  obtain ⟨k, hk, rfl⟩ := List.mem_map.mp hl
  obtain ⟨z, hz, rfl⟩ := List.mem_map.mp hy
  have hp := h k hk z hz
  rw [RefNode.setStatus]
  split
  · exact ⟨hp.side, hp.price, hp.pos⟩
  · exact hp

/-- A cancel does to the book what it should, and reads through a live pointer. -/
theorem cancelOrder_spec (h : self.Wellformed) (id : OrderID) :
    ∃ engine event, self.cancelOrder id = some (engine, event) ∧ engine.Wellformed ∧
      self.book.cancel id = (engine.book, event) := by
  cases hlook : self.orderMap.lookup id with
  | none =>
      refine ⟨self, {}, by simp only [cancelOrder, hlook], h, ?_⟩
      refine Book.cancel_of_find_none fun side => ?_
      rw [book_side]
      refine Book.find_target_none fun r _ => ?_
      by_cases hr : r.order.id = id
      · subst hr
        simp [Entry.isTarget, RefNode.entry, hlook]
      · simp [Entry.isTarget, RefNode.entry, hr]
  | some a =>
      obtain ⟨side, x, hx, rfl, hid⟩ := h.map id a hlook
      have hmem := mem_of_live hx
      have hlive := (List.mem_filter.mp hx).2
      obtain ⟨engine, hengine⟩ : ∃ engine : ReferenceEngine, engine =
        { self.setStatus x.address .cancelled with
          orderMap := (self.setStatus x.address .cancelled).orderMap.erase id } := ⟨_, rfl⟩
      have hmap : engine.orderMap = self.orderMap.erase id := by rw [hengine]; rfl
      have hlevels : ∀ side, engine.levels side =
          setStatusIn x.address .cancelled (self.levels side) := by
        intro s
        rw [hengine, ← setStatus_levels]
        cases s <;> rfl
      have hown : liveNodes (engine.levels side) = (liveNodes (self.levels side)).erase x := by
        rw [hlevels, liveNodes, nodesOf_setStatusIn]
        exact live_setStatus (side_nodup h.nodup side) hmem hlive
      have hopp : engine.levels side.opposite = self.levels side.opposite := by
        rw [hlevels]
        apply setStatusIn_of_notMem
        intro y hy haddr
        exact side.opposite_ne (eq_of_address h.nodup hmem hy haddr).1
      have haddrs : engine.addresses = self.addresses := by
        have hside : ∀ s, (nodesOf (engine.levels s)).map RefNode.address =
            (nodesOf (self.levels s)).map RefNode.address := by
          intro s
          rw [hlevels, nodesOf_setStatusIn, List.map_map]
          exact List.map_congr_left fun y _ => setStatus_address ..
        rw [addresses, addresses, List.map_append, List.map_append]
        exact congrArg₂ _ (hside .buy) (hside .sell)
      -- the id leads to `x` and to no other live node
      have htarget : ∀ s, ∀ r ∈ liveNodes (self.levels s),
          (r.entry self.orderMap).isTarget id = true ↔ r.address = x.address := by
        intro s r hr
        by_cases hrid : r.order.id = id
        · subst hrid
          have hbit : (r.entry self.orderMap).isTarget r.order.id =
              decide (self.orderMap.lookup r.order.id = some r.address) := by
            simp [Entry.isTarget, RefNode.entry]
          rw [hbit, decide_eq_true_eq, hlook, Option.some.injEq]
          exact eq_comm
        · have hne : r.address ≠ x.address := fun haddr =>
            hrid ((eq_of_address h.nodup hmem (mem_of_live hr) haddr).2 ▸ hid)
          simp [Entry.isTarget, RefNode.entry, hrid, hne]
      have hentry : ∀ s, ∀ r ∈ liveNodes (self.levels s), r.address ≠ x.address →
          r.entry engine.orderMap = r.entry self.orderMap := by
        intro s r hr hne
        rw [hmap, RefNode.entry_erase, Entry.forget]
        split
        · next hrid =>
            have hno : (r.entry self.orderMap).isTarget id = false := by
              rw [Bool.eq_false_iff]
              exact fun ht => hne ((htarget s r hr).mp ht)
            simp only [Entry.isTarget, hrid, beq_self_eq_true, Bool.and_true] at hno
            rw [← hno]
        · rfl
      refine ⟨engine, { reports := [cancelReport x.order] }, ?_, ⟨?_, ?_, ?_, ?_, ?_⟩, ?_⟩
      · simp only [cancelOrder, hlook, deref_eq h.nodup hmem, hengine]
      · intro s
        rw [hlevels, setStatusIn_keys]
        exact h.sorted s
      · intro s
        rw [hlevels]
        exact setStatusIn_placed (h.placed s)
      · rw [haddrs]
        exact h.nodup
      · rw [haddrs, hengine]
        exact h.fresh
      · intro k b hb
        rw [hmap] at hb
        by_cases hk : k = id
        · rw [hk, AList.lookup_erase] at hb
          exact absurd hb (by simp)
        · rw [AList.lookup_erase_ne hk] at hb
          obtain ⟨s, y, hy, hyb, hyid⟩ := h.map k b hb
          have hne : y ≠ x := fun he => hk (by rw [← hyid, he, hid])
          refine ⟨s, y, ?_, hyb, hyid⟩
          rcases Side.eq_or_eq_opposite side s with rfl | rfl
          · rw [hown]
            exact (List.mem_erase_of_ne hne).mpr hy
          · rw [hopp]
            exact hy
      · have heq : ∀ r ∈ liveNodes (self.levels side),
            (r.entry self.orderMap).isTarget id = true ↔ r = x := by
          intro r hr
          rw [htarget side r hr]
          exact ⟨fun ha => (eq_of_address h.nodup hmem (mem_of_live hr) ha).2, fun he => he ▸ rfl⟩
        have hfind : (self.book.side side).find? (Entry.isTarget id) =
            some (x.entry self.orderMap) := by
          rw [book_side]
          exact Book.find_target heq hx
        have hnone : (self.book.side side.opposite).find? (Entry.isTarget id) = none := by
          rw [book_side]
          refine Book.find_target_none fun r hr => ?_
          rw [Bool.eq_false_iff]
          intro ht
          have haddr := (htarget _ r hr).mp ht
          exact side.opposite_ne (eq_of_address h.nodup hmem (mem_of_live hr) haddr).1
        rw [Book.cancel_of_find hfind hnone, Prod.mk.injEq]
        refine ⟨Book.ext_side fun s => ?_, ?_⟩
        · rw [book_side]
          rcases Side.eq_or_eq_opposite side s with rfl | rfl
          · rw [Book.setSide_side, book_side, Book.erase_target heq, hown]
            refine List.map_congr_left fun r hr => (hentry s r (List.mem_of_mem_erase hr) ?_).symm
            intro haddr
            have hrx :=
              (eq_of_address h.nodup hmem (mem_of_live (List.mem_of_mem_erase hr)) haddr).2
            have hnodup : (liveNodes (self.levels s)).Nodup :=
              (List.Nodup.of_map _ (side_nodup h.nodup s)).filter _
            exact hnodup.not_mem_erase (hrx ▸ hr)
          · rw [Book.setSide_side_opposite, book_side, book_side, hopp]
            refine List.map_congr_left fun r hr => (hentry _ r hr ?_).symm
            intro haddr
            exact side.opposite_ne (eq_of_address h.nodup hmem (mem_of_live hr) haddr).1
        · obtain ⟨l, hl, hxl⟩ := List.mem_flatMap.mp hmem
          rw [Book.cancelReport, cancelReport, (h.placed side l hl x hxl).side]
          rfl

end Cancel

/-- One call of the reference engine is one of the book. -/
theorem step_spec {self : ReferenceEngine} (h : self.Wellformed) {c : Command}
    (hprice : ∀ order, c = .processOrder order → order.type = .limit → 0 < order.price) :
    ∃ engine event, self.step c = some (engine, event) ∧ engine.Wellformed ∧
      self.book.Step (fun _ => true) c event engine.book := by
  cases c with
  | processOrder order =>
      obtain ⟨hwf, hbook⟩ := processOrder_spec h order (hprice order rfl)
      exact ⟨_, _, rfl, hwf, hbook⟩
  | cancelOrder id => exact cancelOrder_spec h id

end ReferenceEngine

end LimitOrderBook
