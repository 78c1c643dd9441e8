/-
  LimitOrderBook.Slicing

  A Market or IOC order can be cut into two orders that are sent one after the
  other, and nothing but the reports on the taker tells the difference.

  The cut falls between two makers or inside one.  In the first case the trades
  of the two orders together are those of the whole one; in the second case the
  maker that was cut trades twice, and it is the best opposite order when the
  second order comes (`Spliced`).
-/
import LimitOrderBook.Invariants

namespace LimitOrderBook

open Lib MatchingEngine

/-- What a trade is for the maker: its id, its price and the quantity. -/
def makerFill (taker : Side) (trade : Trade) : OrderID × Int × Int :=
  (match taker with
    | .buy => trade.sellOrderId
    | .sell => trade.buyOrderId, trade.price, trade.quantity)

/-- The fills `xs` and then `ys` are the fills `zs`, where a maker that was cut was
    at the front in between. -/
def Spliced (front : Option Entry) (xs ys zs : List (OrderID × Int × Int)) : Prop :=
  zs = xs ++ ys ∨
    ∃ e q q' pre post, front = some e ∧ xs = pre ++ [(e.id, e.price, q)] ∧
      ys = (e.id, e.price, q') :: post ∧ zs = pre ++ (e.id, e.price, q + q') :: post

theorem Spliced.cons {front : Option Entry} {xs ys zs : List (OrderID × Int × Int)}
    (fill : OrderID × Int × Int) (h : Spliced front xs ys zs) :
    Spliced front (fill :: xs) ys (fill :: zs) := by
  rcases h with rfl | ⟨e, q, q', pre, post, hfront, rfl, rfl, rfl⟩
  · exact .inl rfl
  · exact .inr ⟨e, q, q', fill :: pre, post, hfront, rfl, rfl, rfl⟩

theorem makerFill_fillTrade (order : IncomingOrder) (fill : Entry × Int) :
    makerFill order.side (fillTrade order fill) = (fill.1.id, fill.1.price, fill.2) := by
  unfold makerFill fillTrade
  cases order.side <;> rfl

namespace Book

/-- The fills of a matching, as their makers see them. -/
def Matched.fills (m : Matched) (taker : Side) : List (OrderID × Int × Int) :=
  m.trades.map (makerFill taker)

/-- Matching `first` and then `second` does what matching `whole` does. -/
structure Matched.Splits (taker : Side) (first second whole : Matched) : Prop where
  book : second.book = whole.book
  left : first.left + second.left = whole.left
  reports : first.reports ++ second.reports = whole.reports
  fills : Spliced (first.book.side taker.opposite).head? (first.fills taker) (second.fills taker)
    (whole.fills taker)

section

variable {B : Book} {order : IncomingOrder} {a b : Int} {e : Entry} {es : List Entry}

@[simp] theorem Matched.push_fills (fill : Entry × Int) (m : Matched) :
    (Matched.push order fill m).fills order.side =
      (fill.1.id, fill.1.price, fill.2) :: m.fills order.side := by
  rw [Matched.fills, Matched.push, List.map_cons, makerFill_fillTrade]
  rfl

/-- Nothing was matched first. -/
theorem Matched.Splits.of_idle {first second whole : Matched} {taker : Side}
    (hfirst : first = ⟨B, [], [], a⟩) (hbook : second.book = whole.book)
    (htrades : second.trades = whole.trades) (hreports : second.reports = whole.reports)
    (hleft : a + second.left = whole.left) : Matched.Splits taker first second whole := by
  subst hfirst
  refine ⟨hbook, hleft, hreports, .inl ?_⟩
  show whole.trades.map (makerFill taker) = second.trades.map (makerFill taker)
  rw [htrades]

/-- Nothing can be matched at all. -/
theorem Matched.Splits.of_blocked {taker : Side}
    (hblocked : ∀ left, B.matched order left = ⟨B, [], [], left⟩) :
    Matched.Splits taker (B.matched order a) ((B.matched order a).book.matched order b)
      (B.matched order (a + b)) := by
  have hbook : (B.matched order a).book = B := by rw [hblocked]
  rw [hbook]
  apply Matched.Splits.of_idle (hblocked a) <;> rw [hblocked b, hblocked (a + b)]

/-- The front maker is filled by the first order and both go on behind it. -/
theorem Matched.Splits.push {first second whole : Matched} {fill : Entry × Int}
    (h : Matched.Splits order.side first second whole) :
    Matched.Splits order.side (Matched.push order fill first) second
      (Matched.push order fill whole) := by
  refine ⟨h.book, h.left, ?_, ?_⟩
  · simp only [Matched.push]
    split
    · rw [List.cons_append, h.reports]
    · exact h.reports
  · rw [Matched.push_fills, Matched.push_fills]
    exact h.fills.cons _

/-- The front maker outlasts the first order: the cut is inside it. -/
theorem Matched.Splits.of_cut (hside : B.side order.side.opposite = e :: es) (ha : 0 < a)
    (hb : 0 < b) (hcross : order.crosses e.price = true) (hlt : a < e.remaining) :
    Matched.Splits order.side (B.matched order a) ((B.matched order a).book.matched order b)
      (B.matched order (a + b)) := by
  have hfirst := matched_partial hside ha hcross hlt
  have hside' : (B.matched order a).book.side order.side.opposite =
      { e with remaining := e.remaining - a } :: es := by
    rw [hfirst, setSide_side]
  have hfills : (B.matched order a).fills order.side = [(e.id, e.price, a)] := by
    rw [Matched.fills, hfirst, List.map_singleton, makerFill_fillTrade]
  have hfront : ((B.matched order a).book.side order.side.opposite).head? =
      some { e with remaining := e.remaining - a } := by rw [hside', List.head?_cons]
  by_cases hrest : b < e.remaining - a
  · -- the maker outlasts both orders
    have hsecond := matched_partial hside' hb hcross hrest
    have hwhole := matched_partial hside (show 0 < a + b by omega) hcross (by omega)
    refine ⟨?_, ?_, ?_, .inr ⟨_, a, b, [], [], hfront, hfills, ?_, ?_⟩⟩
    · rw [hsecond, hwhole, hfirst, setSide_setSide]
      simp only [Int.sub_sub]
    · rw [hsecond, hwhole, hfirst]
      rfl
    · rw [hsecond, hwhole, hfirst]
      rfl
    · rw [Matched.fills, hsecond, List.map_singleton, makerFill_fillTrade]
    · rw [Matched.fills, hwhole, List.map_singleton, makerFill_fillTrade]
      rfl
  · -- the second order takes what the first left of the maker
    have hsecond := matched_whole hside' hb hcross (Int.not_lt.mp hrest)
    have hwhole := matched_whole hside (show 0 < a + b by omega) hcross (by omega)
    have hgoes : ((B.matched order a).book.setSide order.side.opposite es).forget e.id =
        (B.setSide order.side.opposite es).forget e.id := by
      rw [hfirst, setSide_setSide]
    have hb' : b - (e.remaining - a) = a + b - e.remaining := by omega
    simp only [hgoes, hb'] at hsecond
    generalize ((B.setSide order.side.opposite es).forget e.id).matched order
      (a + b - e.remaining) = m at hsecond hwhole
    refine ⟨?_, ?_, ?_,
      .inr ⟨_, a, e.remaining - a, [], m.fills order.side, hfront, hfills, ?_, ?_⟩⟩
    · rw [hsecond, hwhole]
      rfl
    · rw [hsecond, hwhole, hfirst]
      exact Int.zero_add _
    · rw [hsecond, hwhole, hfirst]
      simp [Matched.push, consumes, makerReport]
    · rw [hsecond, Matched.push_fills]
    · rw [hwhole, Matched.push_fills]
      simp

/-- Matching `a` and then `b` does what matching `a + b` does. -/
theorem matched_splits (ha : 0 ≤ a) (hb : 0 < b) :
    Matched.Splits order.side (B.matched order a) ((B.matched order a).book.matched order b)
      (B.matched order (a + b)) := by
  -- induction on the orders still opposite
  induction hn : (B.side order.side.opposite).length generalizing B a with
  | zero =>
      apply Matched.Splits.of_blocked
      intro left
      exact matched_empty (List.eq_nil_of_length_eq_zero hn)
  | succ n ih =>
      obtain ⟨e, es, hside⟩ := List.exists_cons_of_length_eq_add_one hn
      by_cases hzero : a = 0
      · subst hzero
        have hdone := @matched_done B order 0 (Int.le_refl 0)
        have hbook : (B.matched order 0).book = B := by rw [hdone]
        rw [hbook, Int.zero_add]
        exact .of_idle hdone rfl rfl rfl (Int.zero_add _)
      · have hpos : 0 < a := by omega
        by_cases hcross : order.crosses e.price = true
        · by_cases hlt : a < e.remaining
          · exact .of_cut hside hpos hb hcross hlt
          · have hfirst := matched_whole hside hpos hcross (by omega)
            have hwhole := matched_whole hside (show 0 < a + b by omega) hcross (by omega)
            have hb' : a + b - e.remaining = a - e.remaining + b := by omega
            rw [hb'] at hwhole
            rw [hfirst, hwhole]
            apply Matched.Splits.push
            apply ih (by omega)
            rw [forget_side, List.length_map, setSide_side]
            rw [hside, List.length_cons] at hn
            omega
        · apply Matched.Splits.of_blocked
          intro left
          exact matched_uncrossed hside (Bool.eq_false_iff.mpr hcross)

end

end Book

/-- The same order under another id, at another time and for another quantity. -/
def IncomingOrder.slice (order : IncomingOrder) (id : OrderID) (timestamp : Timestamp)
    (quantity : Int) : IncomingOrder :=
  { order with id, timestamp, quantity }

theorem Book.matched_slice (B : Book) (order : IncomingOrder) (id : OrderID)
    (timestamp : Timestamp) (quantity left : Int) :
    (B.matched (order.slice id timestamp quantity) left).fills order.side =
      (B.matched order left).fills order.side := by
  have hfill : makerFill order.side ∘ fillTrade (order.slice id timestamp quantity) =
      makerFill order.side ∘ fillTrade order := by
    funext fill
    exact (makerFill_fillTrade (order.slice id timestamp quantity) fill).trans
      (makerFill_fillTrade order fill).symm
  show ((B.sweep order left).taken.map _).map _ = ((B.sweep order left).taken.map _).map _
  rw [List.map_map, List.map_map, hfill]

namespace MatchingEngine

-- ============================================================================
-- The call of an order that never rests
-- ============================================================================

section

variable {self s t : MatchingEngine} {n capacity : Nat} {L L₁ L₂ : Layout}
  {order : IncomingOrder}

/-- What the call leaves: the book and the events of the matching, and opposite
    queues that have lost orders at their front. -/
structure Sweeps (n capacity : Nat) (L : Layout) (order : IncomingOrder) (m : Book.Matched)
    (s : MatchingEngine) (event : MatchEvent) (L' : Layout) : Prop where
  settled : s.Settled n capacity L'
  opposite : ∀ i, L'.queue order.side.opposite i <:+ L.queue order.side.opposite i
  own : L'.queue order.side = L.queue order.side
  book : s.book = m.book
  trades : event.trades = m.trades
  reports : ∃ status, event.reports =
    m.reports ++ [takerReport order status (order.quantity - m.left) m.left]

theorem Settled.sweeps (h : self.Settled n capacity L) (hv : validateOrder order = true)
    (htype : order.type ≠ .limit) : ∃ s event L', self.processOrder order = some (s, event) ∧
      Sweeps n capacity L order (self.book.matched order order.quantity) s event L' := by
  obtain ⟨st, L', hmatch, hm, hswept⟩ :=
    matchOrder_spec h (Int.le_of_lt (validateOrder_pos hv).1)
  refine ⟨_, _, L', processOrder_done hv hmatch (.inr htype), hm.toSettled, hm.opposite, hm.own,
    hswept.book.symm, hswept.trades.symm, ?_⟩
  rw [hswept.eq]
  exact ⟨_, rfl⟩

/-- Every queue has only lost orders at its front. -/
theorem Sweeps.suffix {m : Book.Matched} {event : MatchEvent} {L' : Layout}
    (h : Sweeps n capacity L order m s event L') (side : Side) (i : Nat) :
    L'.queue side i <:+ L.queue side i := by
  rcases Side.eq_or_eq_opposite order.side side with rfl | rfl
  · rw [h.own]
  · exact h.opposite i

/-- Two engines with the same book, whose queues are what is left of the same
    queue, have the same slots in it. -/
theorem Rep.queue_eq (hs : s.Rep n capacity L₁) (ht : t.Rep n capacity L₂)
    (hbook : s.book = t.book) {side : Side} {i : Nat} {ps : List Slot}
    (h₁ : L₁.queue side i <:+ ps) (h₂ : L₂.queue side i <:+ ps) :
    L₁.queue side i = L₂.queue side i ∧ ∀ p ∈ L₂.queue side i, s.entry p = t.entry p := by
  have hentries : (L₁.queue side i).map s.entry = (L₂.queue side i).map t.entry := by
    rw [hs.level_entries, ht.level_entries, hbook]
  have hlength : (L₁.queue side i).length = (L₂.queue side i).length := by
    simpa using congrArg List.length hentries
  have hqueue : L₁.queue side i = L₂.queue side i :=
    (List.suffix_of_suffix_length_le h₁ h₂ (Nat.le_of_eq hlength)).eq_of_length hlength
  rw [hqueue] at hentries
  exact ⟨hqueue, List.map_inj_left.mp hentries⟩

end

/-- Two calls, to `s₁` and then to `s₂`, did what one call to `t` did. -/
structure Sliced (taker : Side) (s₁ s₂ t : MatchingEngine) (first second whole : MatchEvent) :
    Prop where
  book : s₂.book = t.book
  /-- The same slots are in the queues, in the same order. -/
  queues : ∀ side i, s₂.levelSlots side i = t.levelSlots side i
  orders : ∀ side i, ∀ p ∈ t.levelSlots side i, s₂.entry p = t.entry p
  /-- The makers trade the same quantities at the same prices in the same order. -/
  makers : Spliced (s₁.book.side taker.opposite).head? (first.trades.map (makerFill taker))
    (second.trades.map (makerFill taker)) (whole.trades.map (makerFill taker))
  /-- The same makers are reported as filled, and the takers fill the same total. -/
  reports : ∃ filled filled' r r' r'', first.reports = filled ++ [r] ∧
    second.reports = filled' ++ [r'] ∧ whole.reports = filled ++ filled' ++ [r''] ∧
    (∀ x ∈ filled ++ filled', x.status = .filled) ∧
    r.filledQuantity + r'.filledQuantity = r''.filledQuantity

section

variable {self : MatchingEngine} {n capacity : Nat} {L : Layout} {order : IncomingOrder}
  {id : OrderID} {timestamp : Timestamp} {quantity : Int}

theorem validateOrder_slice (htype : order.type ≠ .limit) (hid : id ≠ 0) (hpos : 0 < quantity) :
    validateOrder (order.slice id timestamp quantity) = true := by
  have hquantity : ¬ quantity ≤ 0 := by omega
  simp [validateOrder, IncomingOrder.slice, hquantity, htype, hid]

theorem matched_reports_filled {B : Book} {left : Int} :
    ∀ x ∈ (B.matched order left).reports, x.status = .filled := by
  intro x hx
  obtain ⟨e, -, rfl⟩ := List.mem_map.mp hx
  rfl

/-- The call of a slice, in terms of the order that it is cut from. -/
theorem Settled.slice_sweeps (h : self.Settled n capacity L) (htype : order.type ≠ .limit)
    (hid : id ≠ 0) (hpos : 0 < quantity) : ∃ s event L',
      self.processOrder (order.slice id timestamp quantity) = some (s, event) ∧
      s.Settled n capacity L' ∧ (∀ side i, L'.queue side i <:+ L.queue side i) ∧
      s.book = (self.book.matched order quantity).book ∧
      event.trades.map (makerFill order.side) =
        (self.book.matched order quantity).fills order.side ∧
      ∃ r, event.reports = (self.book.matched order quantity).reports ++ [r] ∧
        r.filledQuantity = quantity - (self.book.matched order quantity).left := by
  obtain ⟨s, event, L', hcall, hsweeps⟩ :=
    h.sweeps (@validateOrder_slice order id timestamp quantity htype hid hpos) htype
  obtain ⟨status, hreports⟩ := hsweeps.reports
  refine ⟨s, event, L', hcall, hsweeps.settled, hsweeps.suffix, hsweeps.book, ?_, _, hreports,
    rfl⟩
  rw [hsweeps.trades]
  exact Book.matched_slice self.book order id timestamp quantity quantity

/-- Two slices of an order that never rests do what the whole order does. -/
theorem Settled.sliced (h : self.Settled n capacity L) (htype : order.type ≠ .limit)
    {id₁ id₂ id : OrderID} (hid₁ : id₁ ≠ 0) (hid₂ : id₂ ≠ 0) (hid : id ≠ 0)
    (time₁ time₂ time : Timestamp) {a b : Int} (ha : 0 < a) (hb : 0 < b) :
    ∃ s₁ s₂ t first second whole,
      self.processOrder (order.slice id₁ time₁ a) = some (s₁, first) ∧
      s₁.processOrder (order.slice id₂ time₂ b) = some (s₂, second) ∧
      self.processOrder (order.slice id time (a + b)) = some (t, whole) ∧
      Sliced order.side s₁ s₂ t first second whole := by
  obtain ⟨s₁, first, L₁, hcall₁, hs₁, hsuffix₁, hbook₁, hfills₁, r₁, hreports₁, hr₁⟩ :=
    @slice_sweeps self n capacity L order id₁ time₁ a h htype hid₁ ha
  obtain ⟨s₂, second, L₂, hcall₂, hs₂, hsuffix₂, hbook₂, hfills₂, r₂, hreports₂, hr₂⟩ :=
    @slice_sweeps s₁ n capacity L₁ order id₂ time₂ b hs₁ htype hid₂ hb
  obtain ⟨t, whole, L₃, hcall, ht, hsuffix, hbook, hfills, r, hreports, hr⟩ :=
    @slice_sweeps self n capacity L order id time (a + b) h htype hid (by omega)
  have hsplits := @Book.matched_splits self.book order a b (Int.le_of_lt ha) hb
  rw [hbook₁] at hbook₂ hfills₂ hreports₂ hr₂
  have hsame : s₂.book = t.book := by rw [hbook₂, hsplits.book, hbook]
  have hqueues := fun side i => hs₂.rep.queue_eq ht.rep hsame
    ((hsuffix₂ side i).trans (hsuffix₁ side i)) (hsuffix side i)
  refine ⟨s₁, s₂, t, first, second, whole, hcall₁, hcall₂, hcall, hsame, ?_, ?_, ?_, ?_⟩
  · intro side i
    rw [hs₂.rep.levelSlots_eq, ht.rep.levelSlots_eq]
    exact (hqueues side i).1
  · intro side i
    rw [ht.rep.levelSlots_eq]
    exact (hqueues side i).2
  · rw [hfills₁, hfills₂, hfills, hbook₁]
    exact hsplits.fills
  · refine ⟨_, _, r₁, r₂, r, hreports₁, hreports₂, ?_, ?_, ?_⟩
    · rw [hreports, hsplits.reports]
    · rw [hsplits.reports]
      exact matched_reports_filled
    · have hleft := hsplits.left
      omega

end

end MatchingEngine

/-- In every reachable state a Market or IOC order of quantity `a + b` and two such
    orders of `a` and then `b` leave the same book, for the same fills. -/
theorem run_sliced (config : Config) (cs : List Command)
    (h : ∀ c ∈ cs, c.LimitBelow config.maxLevels) (order : IncomingOrder)
    (htype : order.type = .market ∨ order.type = .ioc) (id₁ id₂ id : OrderID)
    (hids : id₁ ≠ 0 ∧ id₂ ≠ 0 ∧ id ≠ 0) (time₁ time₂ time : Timestamp) (a b : Int)
    (ha : 0 < a) (hb : 0 < b) :
    ∃ engine events, config.engine.run cs = some (engine, events) ∧
      ∃ s₁ s₂ t first second whole,
        engine.processOrder (order.slice id₁ time₁ a) = some (s₁, first) ∧
        s₁.processOrder (order.slice id₂ time₂ b) = some (s₂, second) ∧
        engine.processOrder (order.slice id time (a + b)) = some (t, whole) ∧
        Sliced order.side s₁ s₂ t first second whole := by
  obtain ⟨engine, events, hrun, ⟨L, hsound⟩, -⟩ := config.run_calls h
  have hnot : order.type ≠ .limit := by
    rcases htype with htype | htype <;> rw [htype] <;> decide
  exact ⟨engine, events, hrun,
    hsound.settled.sliced hnot hids.1 hids.2.1 hids.2.2 time₁ time₂ time ha hb⟩

/-- A Market buy of 30 in slices of 12 and 18 against asks of 20, 30 and 10: the cut
    is inside the first. -/
theorem twelve_sliced : ∃ engine events,
    Config.small.engine.run (sampleCommands.take 3) = some (engine, events) ∧
      ∃ s₁ s₂ t first second whole,
        engine.processOrder ((makeOrder 4 .buy 0 30 .market).slice 4 4 12) = some (s₁, first) ∧
        s₁.processOrder ((makeOrder 4 .buy 0 30 .market).slice 5 5 18) = some (s₂, second) ∧
        engine.processOrder ((makeOrder 4 .buy 0 30 .market).slice 6 6 (12 + 18)) =
          some (t, whole) ∧
        Sliced .buy s₁ s₂ t first second whole :=
  run_sliced Config.small (sampleCommands.take 3) (by decide) (makeOrder 4 .buy 0 30 .market)
    (.inl rfl) 4 5 6 (by decide) 4 5 6 12 18 (by omega) (by omega)

end LimitOrderBook
