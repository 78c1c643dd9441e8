/-
  LimitOrderBook.TopOfBook

  The quotes of the two engines.

  The optimised engine quotes the best price at which an order rests.  The
  reference engine quotes its first level, and a level may hold only cancelled
  orders (`stale`).  So the quotes agree as long as no stale level is first.
  Two kinds of calls bring a stale level to the front (`exposesStale`): the
  cancel of the last live order of the first level, and an order that fills all
  live orders in front of a cancelled one and ends there.
-/
import LimitOrderBook.Differential
import LimitOrderBook.ReferenceInvariants

namespace LimitOrderBook

open Lib MatchingEngine

namespace ReferenceEngine

def bestPrice (self : ReferenceEngine) : Side → Int
  | .buy => self.bestBid
  | .sell => self.bestAsk

/-- No order of the level is live. -/
def stale (level : List RefNode) : Bool := level.all fun x => !x.live

/-- The first level is stale. -/
def staleFront : RefLevels → Bool
  | [] => false
  | (_, level) :: _ => stale level

section Quotes

variable {self : ReferenceEngine} {side : Side} {level : List RefNode}

theorem stale_eq_false : stale level = false ↔ ∃ x ∈ level, x.live = true := by
  simp [stale]

theorem bestPrice_eq (self : ReferenceEngine) (side : Side) : self.bestPrice side =
    match self.levels side with
    | [] => 0
    | (price, _) :: _ => price := by
  cases side <;> rfl

/-- The reference engine quotes the best live price exactly when its first level is
    not stale. -/
theorem quoted_iff (h : self.Wellformed) (hpos : ∀ k ∈ self.keys side, 0 < k) :
    self.book.Quoted side (self.bestPrice side) ↔ staleFront (self.levels side) = false := by
  have hsorted := h.sorted side
  have hplaced := h.placed side
  rw [bestPrice_eq, Book.Quoted, book_side]
  rw [keys] at hpos
  cases hlevels : self.levels side with
  | nil => exact iff_of_true (.inl ⟨rfl, rfl⟩) rfl
  | cons l rest =>
      rw [hlevels] at hsorted hplaced hpos
      obtain ⟨price, level⟩ := l
      obtain ⟨hbetter, -⟩ := List.pairwise_cons.mp hsorted
      show _ ↔ stale level = false
      rw [stale_eq_false]
      constructor
      · rintro (⟨-, hzero⟩ | ⟨e, he, hprice, -⟩)
        · exact absurd (hpos price (List.mem_cons_self ..))
            (by rw [show price = 0 from hzero]; decide)
        · obtain ⟨x, hx, rfl⟩ := List.mem_map.mp he
          obtain ⟨hmem, hlive⟩ := List.mem_filter.mp hx
          obtain ⟨k, hk, hxk⟩ := List.mem_flatMap.mp hmem
          have hxprice : x.order.price = k.1 := (hplaced k hk x hxk).price
          rcases List.mem_cons.mp hk with rfl | hk
          · exact ⟨x, hxk, hlive⟩
          · -- a live order of a later level has a worse price
            have hb := hbetter k.1 (List.mem_map_of_mem hk)
            rw [← hxprice, show x.order.price = price from hprice] at hb
            exact absurd hb (by cases side <;> simp [Side.better])
      · rintro ⟨x, hx, hlive⟩
        have hxprice : x.order.price = price :=
          (hplaced (price, level) (List.mem_cons_self ..) x hx).price
        have hmem : x ∈ liveNodes ((price, level) :: rest) :=
          List.mem_filter.mpr ⟨mem_nodesOf (List.mem_cons_self ..) hx, hlive⟩
        refine .inr ⟨x.entry self.orderMap, List.mem_map_of_mem hmem, hxprice, fun e he => ?_⟩
        obtain ⟨y, hy, rfl⟩ := List.mem_map.mp he
        obtain ⟨k, hk, hyk⟩ := List.mem_flatMap.mp (mem_of_live hy)
        have hyprice : y.order.price = k.1 := (hplaced k hk y hyk).price
        show ¬ side.better y.order.price price
        rw [hyprice]
        rcases List.mem_cons.mp hk with rfl | hk
        · cases side <;> simp [Side.better]
        · exact Side.better_asymm side _ _ (hbetter k.1 (List.mem_map_of_mem hk))

end Quotes

-- ============================================================================
-- What the loops leave in front
-- ============================================================================

/-- The remaining quantity of the live orders of a level. -/
def liveTotal (level : List RefNode) : Int := RefNode.supply.total (level.filter RefNode.live)

/-- The last order of the level is dead. -/
def deadEnd (level : List RefNode) : Bool := level.getLast?.any fun x => !x.live

/-- An order that asks for `left` brings a stale level to the front: it fills all
    live orders of the crossing levels before, and it ends in front of a level that
    is stale, or of dead orders at the end of a level. -/
def leavesStale (crosses : Int → Bool) (left : Int) : RefLevels → Bool
  | [] => false
  | (price, level) :: rest =>
      if 0 < left ∧ crosses price ∧ liveTotal level ≤ left then
        (liveTotal level = left && deadEnd level) ||
          leavesStale crosses (left - liveTotal level) rest
      else stale level

section Loops

variable {side : Side} {st : RefMatchState} {price : Int} {level : List RefNode}
  {levels : RefLevels} {order : IncomingOrder} {x : RefNode}

theorem liveTotal_nonneg (h : ∀ x ∈ level, x.Placed side price) : 0 ≤ liveTotal level :=
  Supply.total_nonneg fun x hx => (h x (List.mem_filter.mp hx).1).pos

theorem liveTotal_cons_dead (h : x.live = false) : liveTotal (x :: level) = liveTotal level := by
  rw [liveTotal, List.filter_cons_of_neg (by simp [h]), liveTotal]

theorem liveTotal_cons_live (h : x.live = true) :
    liveTotal (x :: level) = x.order.remaining + liveTotal level := by
  rw [liveTotal, List.filter_cons_of_pos h, Supply.total_cons]
  rfl

theorem stale_iff : stale level = true ↔ level.filter RefNode.live = [] := by
  simp [stale, List.filter_eq_nil_iff]

/-- The live orders of a level hold something, if there are any. -/
theorem liveTotal_pos_iff (h : ∀ x ∈ level, x.Placed side price) :
    0 < liveTotal level ↔ stale level = false := by
  rw [← Bool.not_eq_true, stale_iff]
  constructor
  · intro hpos hnil
    rw [liveTotal, hnil] at hpos
    exact absurd hpos (by simp)
  · intro hne
    exact Supply.total_pos (fun x hx => (h x (List.mem_filter.mp hx).1).pos) hne

theorem deadEnd_cons (hne : level ≠ []) : deadEnd (x :: level) = deadEnd level := by
  rw [deadEnd, deadEnd, List.getLast?_cons_of_ne_nil hne]

/-- An order that still asks for something ends behind a first order as it ends in
    the rest of the level. -/
theorem ends_cons {left : Int} (hpos : 0 < left) :
    (liveTotal level = left ∧ deadEnd (x :: level) = true) ↔
      (liveTotal level = left ∧ deadEnd level = true) := by
  apply and_congr_right
  intro htotal
  have hne : level ≠ [] := by
    rintro rfl
    have hzero : liveTotal [] = 0 := rfl
    omega
  rw [deadEnd_cons hne]

/-- What the inner loop leaves of a level is stale exactly when the order asks for
    all live orders of it. -/
theorem matchLevel_stale (hplaced : ∀ x ∈ level, x.Placed side.opposite price)
    (hq : 0 ≤ st.order.quantity) : stale (matchLevel (refMatcher side) level st).1 = true ↔
      liveTotal level ≤ st.order.quantity := by
  rw [stale_iff, (matchLevel_spec hplaced).kept]
  exact Supply.sweep_kept_eq_nil (fun x hx => (hplaced x (List.mem_filter.mp hx).1).pos) hq

theorem matchLevel_left (hplaced : ∀ x ∈ level, x.Placed side.opposite price)
    (hq : 0 ≤ st.order.quantity) : (matchLevel (refMatcher side) level st).2.order.quantity =
      max 0 (st.order.quantity - liveTotal level) := by
  have hleft := @Supply.sweep_left _ RefNode.supply (fun _ => true) st.order.quantity
    (level.filter RefNode.live) (fun x hx => (hplaced x (List.mem_filter.mp hx).1).pos) hq
  have hall : (level.filter RefNode.live).takeWhile (fun _ => true) =
      level.filter RefNode.live := List.takeWhile_eq_self_iff.mpr fun _ _ => rfl
  rw [hall] at hleft
  rw [(matchLevel_spec hplaced).state]
  exact hleft

/-- An order that fills all live orders of a level erases the level, unless it ends
    with the last of them and dead ones follow. -/
theorem matchLevel_isEmpty (hplaced : ∀ x ∈ level, x.Placed side.opposite price)
    (hq : 0 < st.order.quantity) (hle : liveTotal level ≤ st.order.quantity) :
    (matchLevel (refMatcher side) level st).1 = [] ↔
      ¬ (liveTotal level = st.order.quantity ∧ deadEnd level = true) := by
  induction level generalizing st with
  | nil =>
      have hnot : ¬ (liveTotal [] = st.order.quantity ∧ deadEnd [] = true) :=
        fun hc => absurd hc.2 (by decide)
      exact iff_of_true rfl hnot
  | cons x rest ih =>
      have hx := hplaced x (List.mem_cons_self ..)
      have hrest : ∀ y ∈ rest, y.Placed side.opposite price := fun y hy =>
        hplaced y (List.mem_cons_of_mem _ hy)
      have hnonneg := liveTotal_nonneg hrest
      cases hlive : x.live with
      | false =>
          rw [liveTotal_cons_dead hlive] at hle ⊢
          rw [matchLevel, if_pos hq, hlive]
          simp only [Bool.not_false, if_true]
          rw [ih hrest hq hle]
          exact not_congr (ends_cons hq).symm
      | true =>
          rw [liveTotal_cons_live hlive] at hle ⊢
          obtain ⟨st', hst'⟩ : ∃ st', st' =
            st.advance side ⟨[(x, x.order.remaining)], [], st.order.quantity -
              x.order.remaining⟩ := ⟨_, rfl⟩
          have hq' : st'.order.quantity = st.order.quantity - x.order.remaining := by
            rw [hst']
            rfl
          rw [matchLevel_filled hq hlive (by omega), ← hst']
          by_cases hend : st'.order.quantity = 0
          · -- the order ends here and the rest stays as it is
            have hzero : liveTotal rest = 0 := by omega
            have htotal : x.order.remaining + liveTotal rest = st.order.quantity := by omega
            rw [matchLevel_done _ _ (by omega)]
            by_cases hne : rest = []
            · subst hne
              refine iff_of_true rfl fun hc => ?_
              have hdead := hc.2
              simp [deadEnd, hlive] at hdead
            · refine iff_of_false hne (not_not.mpr ⟨htotal, ?_⟩)
              have hstale : stale rest = true := by
                by_contra hc
                have := (liveTotal_pos_iff hrest).mpr (Bool.eq_false_iff.mpr hc)
                omega
              rw [deadEnd_cons hne, deadEnd, List.getLast?_eq_some_getLast hne, Option.any_some]
              exact List.all_eq_true.mp hstale _ (List.getLast_mem hne)
          · have hsame : x.order.remaining + liveTotal rest = st.order.quantity ↔
                liveTotal rest = st'.order.quantity := by omega
            rw [ih hrest (by omega) (by omega), hsame]
            exact not_congr (ends_cons (by omega)).symm

/-- The outer loop leaves a stale level in front as `leavesStale` says. -/
theorem matchLevels_front (hside : order.side = side)
    (hst : ∃ q, st.order = { order with quantity := q })
    (hplaced : PlacedIn side.opposite levels) (hq : 0 ≤ st.order.quantity) :
    staleFront (matchLevels (refMatcher side) levels st).1 =
      leavesStale order.crosses st.order.quantity levels := by
  refine @matchLevels_rule side st levels order hside
    (fun levels st levels' _ => 0 ≤ st.order.quantity →
      staleFront levels' = leavesStale order.crosses st.order.quantity levels)
    ?_ ?_ ?_ ?_ hst hplaced hq
  · exact fun _ _ => rfl
  · intro levels st _ hdone _
    cases levels with
    | nil => rfl
    | cons l rest =>
        rw [leavesStale, if_neg fun h => absurd h.1 (by omega)]
        rfl
  · intro price level rest st _ hc _
    have hno : ¬ (0 < st.order.quantity ∧ order.crosses price = true ∧
        liveTotal level ≤ st.order.quantity) := by
      rintro ⟨-, hcross, -⟩
      rw [hc] at hcross
      exact absurd hcross Bool.false_ne_true
    rw [leavesStale, if_neg hno]
    rfl
  · intro price level rest st level' st₁ rest' st₂ hlevel hpos hc hr hs hnext hq
    have hleft := matchLevel_left hlevel hq
    have hstale := matchLevel_stale hlevel hq
    simp only [hr] at hleft hstale
    by_cases hle : liveTotal level ≤ st.order.quantity
    · have hempty := matchLevel_isEmpty hlevel hpos hle
      simp only [hr] at hempty
      have hleaves : leavesStale order.crosses st.order.quantity ((price, level) :: rest) =
          ((liveTotal level = st.order.quantity && deadEnd level) ||
            leavesStale order.crosses (st.order.quantity - liveTotal level) rest) := by
        rw [leavesStale, if_pos ⟨hpos, hc, hle⟩]
      rw [hleaves]
      cases level' with
      | nil =>
          have hgone : (decide (liveTotal level = st.order.quantity) && deadEnd level) =
              false := by
            rw [Bool.eq_false_iff]
            simpa using hempty.mp rfl
          have hrest := hnext (by omega)
          rw [hleft, max_eq_right (by omega)] at hrest
          rw [hgone, Bool.false_or]
          exact hrest
      | cons y ys =>
          have hends : (decide (liveTotal level = st.order.quantity) && deadEnd level) =
              true := by
            by_contra hno
            have hnil := hempty.mpr (by simpa using hno)
            exact absurd hnil (List.cons_ne_nil y ys)
          rw [hends, Bool.true_or]
          exact hstale.mpr hle
    · -- a live order of the level outlasts the order
      have hno : stale level' = false := Bool.eq_false_iff.mpr fun h => hle (hstale.mp h)
      have hleaves : leavesStale order.crosses st.order.quantity ((price, level) :: rest) =
          false := by
        rw [leavesStale, if_neg fun h => hle h.2.2]
        exact (liveTotal_pos_iff hlevel).mp (by omega)
      rw [hleaves]
      cases level' with
      | nil => exact absurd hno (by decide)
      | cons y ys => exact hno

end Loops

-- ============================================================================
-- What a call brings to the front
-- ============================================================================

/-- No live order of the first level is at another address. -/
def lastLive (address : Nat) : RefLevels → Bool
  | [] => false
  | (_, level) :: _ => level.all fun x => !x.live || x.address == address

/-- The call brings a stale level to the front: it cancels the last live order of
    the first level, or it fills all live orders in front of a cancelled one and
    ends there. -/
def exposesStale (self : ReferenceEngine) : Command → Bool
  | .processOrder order =>
      !decide (order.quantity ≤ 0 ∨ order.id = 0) &&
        leavesStale order.crosses order.quantity (self.levels order.side.opposite)
  | .cancelOrder id =>
      match self.orderMap.lookup id with
      | none => false
      | some address => lastLive address self.bids || lastLive address self.asks

/-- No side has a stale level in front. -/
def FreshFronts (self : ReferenceEngine) : Prop := ∀ side, staleFront (self.levels side) = false

section Calls

variable {self engine : ReferenceEngine} {order : IncomingOrder} {side : Side} {c : Command}
  {event : MatchEvent} {levels : RefLevels} {node : RefNode} {price : Int}

theorem staleFront_setStatusIn (a : Nat) (levels : RefLevels) :
    staleFront (setStatusIn a .cancelled levels) = lastLive a levels := by
  have hdead : ((fun x : RefNode => !x.live) ∘ RefNode.setStatus a .cancelled) =
      fun x => !x.live || x.address == a := by
    funext x
    by_cases hx : x.address = a
    · simp [RefNode.setStatus, hx, RefNode.live, RefOrder.live]
    · simp [RefNode.setStatus, hx]
  cases levels with
  | nil => rfl
  | cons l rest =>
      show (l.2.map (RefNode.setStatus a .cancelled)).all (fun x => !x.live) = _
      rw [List.all_map, hdead]
      rfl

/-- A live order that joins a side does not make its front stale. -/
theorem staleFront_push (hlive : node.live = true) (h : staleFront levels = false) :
    staleFront (pushToLevels (less side) price node levels) = false := by
  have hnew : stale [node] = false := stale_eq_false.mpr ⟨node, List.mem_singleton_self _, hlive⟩
  cases levels with
  | nil => exact hnew
  | cons l rest =>
      rcases pushToLevels_cases side price node l rest with ⟨-, hp⟩ | ⟨-, hp⟩ | ⟨-, hp⟩
      · rw [hp]
        exact hnew
      · rw [hp]
        exact h
      · rw [hp]
        exact stale_eq_false.mpr ⟨node, by simp, hlive⟩

/-- After a call a front is stale exactly when the call exposes a stale level. -/
theorem step_fronts (h : self.Wellformed) (hfresh : self.FreshFronts)
    (hstep : self.step c = some (engine, event)) :
    engine.FreshFronts ↔ self.exposesStale c = false := by
  cases c with
  | cancelOrder id =>
      rcases cancelOrder_levels (show self.cancelOrder id = some (engine, event) from hstep) with
        ⟨hlook, rfl⟩ | ⟨a, hlook, hlevels⟩
      · exact iff_of_true hfresh (by simp [exposesStale, hlook])
      · have hfront : ∀ s, staleFront (engine.levels s) = lastLive a (self.levels s) := by
          intro s
          rw [hlevels, staleFront_setStatusIn]
        simp only [FreshFronts, exposesStale, hlook, hfront, Bool.or_eq_false_iff]
        constructor
        · exact fun hall => ⟨hall .buy, hall .sell⟩
        · rintro ⟨hbids, hasks⟩ s
          cases s with
          | buy => exact hbids
          | sell => exact hasks
  | processOrder order =>
      obtain rfl : engine = (self.processOrder order).1 := step_processOrder hstep
      by_cases hv : order.quantity ≤ 0 ∨ order.id = 0
      · rw [processOrder_refused hv]
        exact iff_of_true hfresh (by simp only [exposesStale, decide_eq_true hv]; rfl)
      · obtain ⟨engine, left, -, -, hnonneg, hlevels, -, heq⟩ := processOrder_accepted h hv
        have hswept : staleFront (self.sweptLevels order) =
            leavesStale order.crosses order.quantity (self.levels order.side.opposite) :=
          @matchLevels_front order.side ⟨order, {}, self.orderMap⟩
            (self.levels order.side.opposite) order rfl ⟨order.quantity, rfl⟩ (h.placed _)
            (by show 0 ≤ order.quantity; omega)
        have hopp : ((self.processOrder order).1).levels order.side.opposite =
            self.sweptLevels order := by
          have hengine : engine.levels order.side.opposite = self.sweptLevels order := by
            rw [hlevels, Function.update_self]
          rw [heq]
          split
          · rw [insertOrder_levels, show (restingOrder order left).side = order.side from rfl,
              Function.update_of_ne order.side.opposite_ne, hengine]
          · exact hengine
        have hown : staleFront (((self.processOrder order).1).levels order.side) = false := by
          have hengine : engine.levels order.side = self.levels order.side := by
            rw [hlevels, Function.update_of_ne order.side.opposite_ne.symm]
          rw [heq]
          split
          · rw [insertOrder_levels, show (restingOrder order left).side = order.side from rfl,
              Function.update_self, hengine]
            exact staleFront_push rfl (hfresh order.side)
          · rw [hengine]
            exact hfresh order.side
        have hexposes : self.exposesStale (.processOrder order) =
            staleFront (self.sweptLevels order) := by
          rw [exposesStale, decide_eq_false hv, hswept]
          rfl
        rw [hexposes, ← hopp]
        constructor
        · exact fun hall => hall order.side.opposite
        · intro hfront s
          rcases Side.eq_or_eq_opposite order.side s with rfl | rfl
          · exact hown
          · exact hfront

/-- While Limit prices are positive, so are the prices of the levels. -/
theorem step_positive (h : self.Wellformed) (hpos : ∀ side, ∀ k ∈ self.keys side, 0 < k)
    (hprice : ∀ order, c = .processOrder order → order.type = .limit → 0 < order.price)
    (hstep : self.step c = some (engine, event)) : ∀ side, ∀ k ∈ engine.keys side, 0 < k := by
  intro side k hk
  rcases step_keys h hstep hk with hk | ⟨order, rfl, hrests, -, rfl⟩
  · exact hpos side k hk
  · simp only [rests, Bool.and_eq_true, decide_eq_true_eq] at hrests
    exact hprice order rfl hrests.1.2

end Calls

end ReferenceEngine

-- ============================================================================
-- The two engines
-- ============================================================================

/-- The engines answer the same quotes: the best prices at which orders rest. -/
structure QuotesAgree (engine : MatchingEngine) (reference : ReferenceEngine) : Prop where
  bestBid : engine.bestBid = reference.bestBid
  bestAsk : engine.bestAsk = reference.bestAsk
  spread : engine.spread = reference.spread
  bid_quoted : engine.book.Quoted .buy engine.bestBid
  ask_quoted : engine.book.Quoted .sell engine.bestAsk

/-- Engines with the same book agree on the quotes exactly when no front of the
    reference engine is stale. -/
theorem Agree.quotes_iff {n capacity : Nat} {engine : MatchingEngine}
    {reference : ReferenceEngine} (h : Agree n capacity engine reference)
    (hpos : ∀ side, ∀ k ∈ reference.keys side, 0 < k) :
    QuotesAgree engine reference ↔ reference.FreshFronts := by
  obtain ⟨L, hs⟩ := h.sound
  have hengine := hs.bestPrice_quoted
  have hfronts := fun side => ReferenceEngine.quoted_iff h.wellformed (hpos side)
  rw [h.book] at hengine
  constructor
  · intro hquotes side
    rw [← hfronts]
    have hquoted := hengine side
    have hsame : engine.bestPrice side = reference.bestPrice side := by
      cases side
      · exact hquotes.bestBid
      · exact hquotes.bestAsk
    rwa [hsame] at hquoted
  · intro hfresh
    have hsame : ∀ side, engine.bestPrice side = reference.bestPrice side := fun side =>
      (hengine side).unique ((hfronts side).mpr (hfresh side))
    have hbid : engine.bestBid = reference.bestBid := hsame .buy
    have hask : engine.bestAsk = reference.bestAsk := hsame .sell
    refine ⟨hbid, hask, ?_, ?_, ?_⟩
    · rw [MatchingEngine.spread, ReferenceEngine.spread, hbid, hask]
    · exact hs.bestPrice_quoted .buy
    · exact hs.bestPrice_quoted .sell

/-- The only bid is cancelled: its level stays in front of the reference engine. -/
theorem cancelled_not_quoted : ∃ engine events reference outs,
    Config.small.engine.run [.processOrder (makeOrder 1 .buy 5 10), .cancelOrder 1] =
      some (engine, events) ∧
    ReferenceEngine.run {} [.processOrder (makeOrder 1 .buy 5 10), .cancelOrder 1] =
      some (reference, outs) ∧
    engine.bestBid = 0 ∧ reference.bestBid = 5 ∧ ¬ QuotesAgree engine reference := by
  obtain ⟨engine, events, hrun, hzero⟩ := @exec_test _ _ _ MatchingEngine.step
    Config.small.engine [.processOrder (makeOrder 1 .buy 5 10), .cancelOrder 1]
    (fun s => s.bestBid = 0) (by decide +kernel)
  obtain ⟨reference, outs, hrun', hfive⟩ := @exec_test _ _ _ ReferenceEngine.step
    ({} : ReferenceEngine) [.processOrder (makeOrder 1 .buy 5 10), .cancelOrder 1]
    (fun s => s.bestBid = 5) (by decide +kernel)
  rw [decide_eq_true_eq] at hzero hfive
  refine ⟨engine, events, reference, outs, hrun, hrun', hzero, hfive, fun h => ?_⟩
  have hsame := h.bestBid
  rw [hzero, hfive] at hsame
  exact absurd hsame (by decide)

/-- After every call of a run the engines answer the same quotes, exactly when no
    call of the run brings a stale level of the reference engine to the front. -/
theorem run_quotes_iff (config : Config) (cs : List Command)
    (h : ∀ c ∈ cs, c.PricedWithin config.maxLevels)
    (hroom : Along MatchingEngine.step (fun s c => s.runsOut c = false) config.engine cs) :
    (∀ pre post, cs = pre ++ post → ∃ reference events,
      ReferenceEngine.run {} pre = some (reference, events) ∧
      ∃ engine, config.engine.run pre = some (engine, events) ∧
        QuotesAgree engine reference) ↔
    Along ReferenceEngine.step (fun s c => s.exposesStale c = false) {} cs := by
  rw [← config.levels_eq] at h
  have hpriced : ∀ pre c post, cs = pre ++ c :: post → c.PricedWithin config.levels :=
    fun pre c post hsplit => h c (by rw [hsplit]; simp)
  have hpositive : ∀ c : Command, c.PricedWithin config.levels →
      ∀ order, c = .processOrder order → order.type = .limit → 0 < order.price := by
    rintro c hc order rfl hl
    exact (hc hl).1
  apply @exec_prefix_iff _ _ _ ReferenceEngine.step (fun pre events reference =>
    ∃ engine, config.engine.run pre = some (engine, events) ∧
      Agree config.levels config.poolCapacity engine reference ∧
      (∀ side, ∀ k ∈ reference.keys side, 0 < k) ∧ reference.FreshFronts)
  · refine ⟨config.engine, rfl, ⟨⟨_, config.engine_sound⟩, ReferenceEngine.wellformed_empty,
      config.engine_book⟩, ?_, ?_⟩
    · intro side k hk
      cases side <;> exact absurd hk List.not_mem_nil
    · intro side
      cases side <;> rfl
  · rintro pre events reference ⟨engine, hrun, hagree, hpos, hfresh⟩
    exact ⟨engine, hrun, (hagree.quotes_iff hpos).mpr hfresh⟩
  · rintro pre c post hsplit events reference ⟨engine, hrun, hagree, hpos, hfresh⟩ hc
    have hin := hpriced pre c post hsplit
    obtain ⟨engine', reference', event, hstep, hstep', hagree'⟩ :=
      hagree.step hin (hroom pre c post hsplit engine events hrun)
    have hwf := hagree.wellformed
    exact ⟨reference', event, hstep', engine', exec_append hrun (exec_cons hstep rfl), hagree',
      ReferenceEngine.step_positive hwf hpos (hpositive c hin) hstep',
      (ReferenceEngine.step_fronts hwf hfresh hstep').mpr hc⟩
  · rintro pre c post hsplit events reference ⟨engine, hrun, hagree, hpos, hfresh⟩ hc reference'
      event hstep' ⟨engine', hrun', hquotes⟩
    have hin := hpriced pre c post hsplit
    obtain ⟨engine₁, reference₁, event₁, hstep₁, hstep₁', hagree₁⟩ :=
      hagree.step hin (hroom pre c post hsplit engine events hrun)
    obtain ⟨rfl, rfl⟩ := result_unique hstep' hstep₁'
    have hnext : config.engine.run (pre ++ [c]) = some (engine₁, events ++ [event]) :=
      exec_append hrun (exec_cons hstep₁ rfl)
    obtain ⟨rfl, -⟩ := result_unique hnext hrun'
    have hwf := hagree.wellformed
    have hpos' := ReferenceEngine.step_positive hwf hpos (hpositive c hin) hstep'
    exact hc ((ReferenceEngine.step_fronts hwf hfresh hstep').mp
      ((hagree₁.quotes_iff hpos').mp hquotes))

/-- Two bids at one price, of which the first is cancelled. -/
def sharedCommands : List Command :=
  [.processOrder (makeOrder 1 .buy 5 10), .processOrder (makeOrder 2 .buy 5 20), .cancelOrder 1]

theorem shared_quotes : ∃ reference events,
    ReferenceEngine.run {} sharedCommands = some (reference, events) ∧
    ∃ engine, Config.small.engine.run sharedCommands = some (engine, events) ∧
      QuotesAgree engine reference :=
  (run_quotes_iff Config.small sharedCommands (by decide)
    (along_not_of_check (by decide +kernel))).mpr (along_not_of_check (by decide +kernel))
    sharedCommands [] (List.append_nil _).symm

end LimitOrderBook
