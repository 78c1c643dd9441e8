/-
  LimitOrderBook.Observation

  What a client can tell of an engine.

  Two engines with the same book answer every run alike, and every question about
  prices, quantities and the number of active orders, whatever slots, links, bits and
  freelists the calls before left behind.  Conversely the answers give the book away:
  a market order for what the best maker has left is filled by that maker alone and
  reports its id, price and quantity, so that probing one side again and again reads
  it off (`Book.view_of_sameFuture`, by induction on the length of the side).

  The map bits are the exception, and only for ids that were reused: where every
  order can be cancelled, the future of an engine and its book determine each other.
-/
import LimitOrderBook.Greedy
import LimitOrderBook.LimitPrices
import LimitOrderBook.DuplicateIds
import LimitOrderBook.Relabel

namespace LimitOrderBook

open Lib MatchingEngine

/-- The quantity is an `int64_t`. -/
def Command.QuantityFits : Command → Prop
  | .processOrder order => order.quantity ≤ INT64_MAX
  | .cancelOrder _ => True

instance (c : Command) : Decidable c.QuantityFits :=
  match c with
  | .processOrder order => inferInstanceAs (Decidable (order.quantity ≤ INT64_MAX))
  | .cancelOrder _ => inferInstanceAs (Decidable True)

/-- The questions that do not change an engine have the same answers. -/
structure SameAnswers (s t : MatchingEngine) : Prop where
  bestBid : s.bestBid = t.bestBid
  bestAsk : s.bestAsk = t.bestAsk
  spread : s.spread = t.spread
  restingQuantity : ∀ side price, s.restingQuantity side price = t.restingQuantity side price
  topOfBook : getTopOfBook s = getTopOfBook t
  activeOrderCount : s.activeOrderCount = t.activeOrderCount
  poolCapacity : s.poolCapacity = t.poolCapacity

-- ============================================================================
-- Probing a side
-- ============================================================================

/-- A market order against a side. -/
def probe (side : Side) (quantity : Int) : IncomingOrder :=
  { id := 1, side := side.opposite, type := .market, price := 0, quantity, timestamp := 0 }

namespace Book

/-- The book as a machine. -/
def machine (room : Nat → Bool) (B : Book) (c : Command) : Option (Book × MatchEvent) :=
  some (B.step room c)

section

variable {B B' : Book} {side : Side} {room : Nat → Bool} {e : Entry} {es : List Entry} {q : Int}

theorem probe_valid (hq : 0 < q) : validateOrder (probe side q) = true := by
  simp [validateOrder, probe, hq]

theorem probe_side (side : Side) (q : Int) : (probe side q).side.opposite = side :=
  side.opposite_opposite

theorem probe_crosses (side : Side) (q price : Int) : (probe side q).crosses price = true := rfl

/-- The events of a probe are those of its matching and a last report. -/
theorem step_probe (hq : 0 < q) : (B.step room (.processOrder (probe side q))).2.trades =
      (B.matched (probe side q) q).trades ∧
    ∃ status filled left, (B.step room (.processOrder (probe side q))).2.reports =
      (B.matched (probe side q) q).reports ++ [takerReport (probe side q) status filled left] := by
  obtain ⟨status, hevent, -⟩ := process_cases room B (probe_valid hq)
  rw [step, hevent]
  exact ⟨rfl, status, _, _, rfl⟩

/-- The book after a probe is that of its matching, for a market order never rests. -/
theorem step_probe_book (hq : 0 < q) : (B.step room (.processOrder (probe side q))).1 =
    (B.matched (probe side q) q).book := by
  obtain ⟨status, -, ⟨-, -, hbook⟩ | ⟨-, -, hlimit, -⟩ | ⟨-, -, hbook⟩⟩ :=
    process_cases room B (probe_valid hq)
  · exact hbook
  · exact absurd hlimit OrderType.noConfusion
  · exact hbook

/-- A probe for what the best maker has left takes exactly that maker. -/
theorem matched_probe (hside : B.side side = e :: es) (hpos : 0 < e.remaining) :
    B.matched (probe side e.remaining) e.remaining =
      ⟨(B.setSide side es).forget e.id, [fillTrade (probe side e.remaining) (e, e.remaining)],
        [makerReport side e], 0⟩ := by
  have hopposite : B.side (probe side e.remaining).side.opposite = e :: es := by
    rw [probe_side, hside]
  have hself : consumes (e, e.remaining) = true := decide_eq_true rfl
  rw [matched_whole hopposite hpos (probe_crosses side _ _) (Int.le_refl _), Int.sub_self,
    matched_done (Int.le_refl 0), Matched.push, if_pos hself, probe_side]

/-- A probe that leaves a report on a maker, for a quantity that one trade fills, took
    exactly that quantity from it. -/
theorem probe_exact (hside : B.side side = e :: es) (hq : 0 < q) {t : Trade}
    (htrades : (B.matched (probe side q) q).trades = [t]) (hquantity : t.quantity = q)
    (hreports : (B.matched (probe side q) q).reports ≠ []) : e.remaining = q := by
  have hopposite : B.side (probe side q).side.opposite = e :: es := by rw [probe_side, hside]
  by_cases hle : e.remaining ≤ q
  · rw [matched_whole hopposite hq (probe_crosses side q _) hle, Matched.push] at htrades
    obtain ⟨rfl, -⟩ := List.cons.inj htrades
    rw [fillTrade_quantity] at hquantity
    exact hquantity
  · have hleft := matched_partial hopposite hq (probe_crosses side q _) (by omega)
    rw [hleft] at hreports
    exact absurd rfl hreports

/-- The report on a maker and what it had left are all that the public sees of it. -/
theorem view_of_report {e' : Entry} (hreport : makerReport side e = makerReport side e')
    (hremaining : e.remaining = e'.remaining) : e.view = e'.view := by
  have hid : e.id = e'.id := congrArg ExecutionReport.orderId hreport
  have hprice : e.price = e'.price := congrArg ExecutionReport.price hreport
  have hquantity : e.quantity = e'.quantity := congrArg ExecutionReport.filledQuantity hreport
  rw [Entry.view, Entry.view, hid, hprice, hquantity, hremaining]

/-- What every probe of a side needs. -/
def Probeable (B : Book) (side : Side) : Prop :=
  ∀ e ∈ B.side side, 0 < e.remaining ∧ e.remaining ≤ INT64_MAX

theorem Probeable.tail (h : B.Probeable side) (hside : B.side side = e :: es) :
    ((B.setSide side es).forget e.id).Probeable side := by
  intro x hx
  rw [forget_side, setSide_side] at hx
  obtain ⟨y, hy, rfl⟩ := List.mem_map.mp hx
  rw [Entry.forget_remaining]
  exact h y (by rw [hside]; exact List.mem_cons_of_mem _ hy)

variable {admitted : Command → Prop}

/-- Books with the same future have the same best order on a side, and the same
    future after it. -/
theorem front_of_sameFuture (hside : B.side side = e :: es) (hprobe : B.Probeable side)
    (hadmitted : ∀ q, q ≤ INT64_MAX → admitted (.processOrder (probe side q)))
    (h : SameFuture (machine room) (machine room) admitted B B') :
    ∃ e' es', B'.side side = e' :: es' ∧ e.view = e'.view ∧
      SameFuture (machine room) (machine room) admitted
        ((B.setSide side es).forget e.id) ((B'.setSide side es').forget e'.id) := by
  obtain ⟨hpos, hfits⟩ := hprobe e (by rw [hside]; exact List.mem_cons_self ..)
  obtain ⟨C, C', event, hstep, hstep', hnext⟩ := h.next (hadmitted e.remaining hfits)
  have hC : B.step room (.processOrder (probe side e.remaining)) = (C, event) :=
    Option.some.inj hstep
  have hC' : B'.step room (.processOrder (probe side e.remaining)) = (C', event) :=
    Option.some.inj hstep'
  have hbook := @step_probe_book B side room _ hpos
  have hbook' := @step_probe_book B' side room _ hpos
  obtain ⟨htrades, status, filled, left, hreports⟩ := @step_probe B side room _ hpos
  obtain ⟨htrades', status', filled', left', hreports'⟩ := @step_probe B' side room _ hpos
  rw [hC, matched_probe hside hpos] at hbook htrades hreports
  rw [hC'] at hbook' htrades' hreports'
  rw [htrades] at htrades'
  rw [hreports] at hreports'
  cases hside' : B'.side side with
  | nil =>
      rw [matched_empty (by rw [probe_side, hside'])] at htrades'
      exact absurd htrades' (List.cons_ne_nil _ _)
  | cons e' es' =>
      obtain ⟨hmaker, -⟩ := List.append_inj' hreports' rfl
      have hremaining : e'.remaining = e.remaining :=
        probe_exact hside' hpos htrades'.symm (fillTrade_quantity _ _)
          (by rw [← hmaker]; exact List.cons_ne_nil _ _)
      rw [← hremaining, matched_probe hside' (by omega)] at hmaker hbook'
      obtain ⟨hreport, -⟩ := List.cons.inj hmaker
      refine ⟨e', es', rfl, view_of_report hreport hremaining.symm, ?_⟩
      simp only at hbook hbook'
      rw [← hbook, ← hbook']
      exact hnext

/-- Books with the same future show the same orders on a side. -/
theorem view_of_sameFuture (hprobe : B.Probeable side) (hprobe' : B'.Probeable side)
    (hadmitted : ∀ q, q ≤ INT64_MAX → admitted (.processOrder (probe side q)))
    (h : SameFuture (machine room) (machine room) admitted B B') :
    (B.side side).map Entry.view = (B'.side side).map Entry.view := by
  induction hlength : (B.side side).length generalizing B B' with
  | zero =>
      have hnil := List.length_eq_zero_iff.mp hlength
      cases hside' : B'.side side with
      | nil => rw [hnil]
      | cons e' es' =>
          obtain ⟨e, es, hside, -⟩ := front_of_sameFuture hside' hprobe' hadmitted h.symm
          rw [hnil] at hside
          exact absurd hside.symm (List.cons_ne_nil _ _)
  | succ k ih =>
      obtain ⟨e, es, hside⟩ := List.exists_cons_of_length_eq_add_one hlength
      obtain ⟨e', es', hside', hview, hnext⟩ := front_of_sameFuture hside hprobe hadmitted h
      have hforget : ∀ (id : OrderID) (l : List Entry),
          (l.map (Entry.forget id)).map Entry.view = l.map Entry.view := by
        intro id l
        rw [List.map_map]
        exact List.map_congr_left fun x _ => forget_view id x
      have hrest := ih (hprobe.tail hside) (hprobe'.tail hside') hnext (by
        rw [forget_side, setSide_side, List.length_map]
        rw [hside] at hlength
        exact Nat.succ.inj hlength)
      rw [forget_side, setSide_side, forget_side, setSide_side, hforget, hforget] at hrest
      rw [hside, hside', List.map_cons, List.map_cons, hview, hrest]

end

end Book

-- ============================================================================
-- The map
-- ============================================================================

namespace MatchingEngine

section

variable {self : MatchingEngine} {n capacity : Nat} {L : Layout}

/-- The slots that the map leads to are the queued ones that are mapped. -/
theorem Sound.mapped_perm (h : self.Sound n capacity L) :
    (self.orderMap.entries.map Sigma.snd).Perm
      ((L.slots n .buy ++ L.slots n .sell).filter fun p => (self.entry p).mapped) := by
  have hid : ∀ entry ∈ self.orderMap.entries, self.orderMap.lookup entry.1 = some entry.2 :=
    fun entry hentry => AList.mem_lookup_iff.mpr hentry
  have hslots : (L.slots n .buy ++ L.slots n .sell).Nodup :=
    (List.nodup_append.mp (List.nodup_append.mp h.pool.nodup).1).2.1
  have hnodup : (self.orderMap.entries.map Sigma.snd).Nodup := by
    refine (List.nodup_map_iff_inj_on (List.NodupKeys.nodup self.orderMap.nodupKeys)).mpr ?_
    intro a ha b hb hab
    have hida := (h.map a.1 a.2 (hid a ha)).1
    have hidb := (h.map b.1 b.2 (hid b hb)).1
    rw [hab, hidb] at hida
    exact Sigma.ext hida.symm (heq_of_eq hab)
  rw [List.perm_ext_iff_of_nodup hnodup (hslots.filter _)]
  intro p
  rw [List.mem_filter, List.mem_map]
  constructor
  · rintro ⟨entry, hentry, rfl⟩
    have hlookup := hid entry hentry
    obtain ⟨hheap, hmem⟩ := h.map entry.1 entry.2 hlookup
    rw [Layout.allocated, h.held, List.nil_append] at hmem
    refine ⟨hmem, decide_eq_true ?_⟩
    rw [hheap]
    exact hlookup
  · rintro ⟨-, hmapped⟩
    exact ⟨⟨(self.heap p).id, p⟩, AList.mem_lookup_iff.mp (of_decide_eq_true hmapped), rfl⟩

/-- As many ids are active as orders of the book can be cancelled. -/
theorem Sound.activeOrderCount_eq (h : self.Sound n capacity L) :
    self.activeOrderCount = (self.book.bids ++ self.book.asks).countP Entry.mapped := by
  have hsides : self.book.bids ++ self.book.asks =
      (L.slots n .buy ++ L.slots n .sell).map self.entry := by
    rw [List.map_append, ← h.book_side, ← h.book_side]
    rfl
  have hlength := h.mapped_perm.length_eq
  rw [List.length_map] at hlength
  rw [activeOrderCount, hlength, hsides, List.countP_map, List.countP_eq_length_filter]
  rfl

theorem Sound.activeOrderCount_le (h : self.Sound n capacity L) :
    self.activeOrderCount ≤ self.book.size := by
  rw [h.activeOrderCount_eq, Book.size, ← List.length_append]
  exact List.countP_le_length

/-- All resting orders are active exactly when all can be cancelled. -/
theorem Sound.activeOrderCount_size (h : self.Sound n capacity L) :
    self.activeOrderCount = self.book.size ↔ self.Cancellable := by
  rw [h.activeOrderCount_eq, Book.size, ← List.length_append, List.countP_eq_length,
    cancellable_iff, List.forall_mem_append]
  constructor
  · rintro ⟨hbids, hasks⟩ side
    cases side
    · exact hbids
    · exact hasks
  · exact fun hall => ⟨hall .buy, hall .sell⟩

/-- A cancel reports exactly on the active ids. -/
theorem cancelOrder_reports (self : MatchingEngine) (id : OrderID) :
    (self.cancelOrder id).2.reports ≠ [] ↔ id ∈ self.orderMap.keys := by
  rw [← AList.mem_keys, ← AList.lookup_isSome]
  cases hid : self.orderMap.lookup id with
  | none => simp [cancelOrder, hid]
  | some p => simp [cancelOrder, hid]

/-- A sound engine has the future of its book. -/
theorem Sound.future (h : self.Sound n capacity L) :
    SameFuture step (Book.machine (roomIn capacity)) (·.LimitBelow n) self self.book := by
  apply @SameFuture.of_relation _ _ _ _ step (Book.machine (roomIn capacity)) (·.LimitBelow n)
    self self.book fun s B => s.book = B ∧ ∃ L, s.Sound n capacity L
  · rintro s B c ⟨rfl, L, hs⟩ hc
    obtain ⟨s', event, L', hstep, hs', hbook, -⟩ := step_spec hs hc
    exact ⟨s', s'.book, event, hstep, congrArg some hbook, rfl, L', hs'⟩
  · exact ⟨rfl, L, h⟩

variable {n' : Nat} {other : MatchingEngine} {L' : Layout}

/-- The questions about an engine are questions about its book. -/
theorem Sound.sameAnswers (h : self.Sound n capacity L) (h' : other.Sound n' capacity L')
    (hbook : self.book = other.book) : SameAnswers self other := by
  have hprice : ∀ side, self.bestPrice side = other.bestPrice side := by
    intro side
    have hquoted := h'.bestPrice_quoted side
    rw [← hbook] at hquoted
    exact (h.bestPrice_quoted side).unique hquoted
  have hbid : self.bestBid = other.bestBid := hprice .buy
  have hask : self.bestAsk = other.bestAsk := hprice .sell
  have hspread : self.spread = other.spread := by rw [spread, spread, hbid, hask]
  have hquantity : self.restingQuantity = other.restingQuantity := by
    funext side price
    rw [h.restingQuantity_eq, h'.restingQuantity_eq, hbook]
  refine ⟨hbid, hask, hspread, fun side price => by rw [hquantity], ?_, ?_, ?_⟩
  · rw [getTopOfBook, getTopOfBook, hbid, hask, hspread, hquantity]
  · rw [h.activeOrderCount_eq, h'.activeOrderCount_eq, hbook]
  · exact h.pool.capacity_eq.trans h'.pool.capacity_eq.symm

/-- Two engines have the same future exactly when their books have. -/
theorem Sound.sameFuture_iff (h : self.Sound n capacity L) (h' : other.Sound n' capacity L')
    {admitted : Command → Prop} (hn : ∀ c, admitted c → c.LimitBelow n)
    (hn' : ∀ c, admitted c → c.LimitBelow n') :
    SameFuture step step admitted self other ↔
      SameFuture (Book.machine (roomIn capacity)) (Book.machine (roomIn capacity)) admitted
        self.book other.book := by
  have hself := h.future.mono hn
  have hother := h'.future.mono hn'
  exact ⟨fun hsame => (hself.symm.trans hsame).trans hother,
    fun hsame => (hself.trans hsame).trans hother.symm⟩

end

end MatchingEngine

-- ============================================================================
-- Runs
-- ============================================================================

/-- A command that engines of both configurations take. -/
def Config.Admits (config config' : Config) (c : Command) : Prop :=
  c.LimitBelow config.maxLevels ∧ c.LimitBelow config'.maxLevels ∧ c.QuantityFits

theorem Config.admits_probe (config config' : Config) (side : Side) {q : Int}
    (hq : q ≤ INT64_MAX) : config.Admits config' (.processOrder (probe side q)) :=
  ⟨OrderType.noConfusion, OrderType.noConfusion, hq⟩

/-- What rests after a run can be probed, for it is part of an order of the run. -/
theorem trace_probeable {n capacity : Nat} {s s' : MatchingEngine} {cs : List Command}
    {events : List MatchEvent} (h : Trace (Call n capacity) s cs events s') (hs : s.book = {})
    (hpos : s'.book.Positive) (hcs : ∀ c ∈ cs, c.QuantityFits) (side : Side) :
    s'.book.Probeable side := by
  intro e he
  obtain ⟨x, hx, hstands⟩ := trace_backed h hs side e he
  have hfits : x.quantity ≤ INT64_MAX := hcs _ hx
  have hle := hstands.le
  rw [hstands.quantity] at hfits
  exact ⟨hpos side e he, by omega⟩

section

variable {config config' : Config} {s t : MatchingEngine} {L L' : Layout}

theorem Config.admits_below (config config' : Config) (c : Command) (h : config.Admits config' c) :
    c.LimitBelow config.levels ∧ c.LimitBelow config'.levels := by
  rw [config.levels_eq, config'.levels_eq]
  exact ⟨h.1, h.2.1⟩

/-- The same book gives the same future. -/
theorem sameFuture_of_book (hs : s.Sound config.levels config.poolCapacity L)
    (ht : t.Sound config'.levels config.poolCapacity L') (hbook : s.book = t.book) :
    SameFuture step step (config.Admits config') s t := by
  have hother := ht.future.mono fun c hc => (config.admits_below config' c hc).2
  rw [hs.sameFuture_iff ht (fun c hc => (config.admits_below config' c hc).1)
    (fun c hc => (config.admits_below config' c hc).2), hbook]
  exact hother.symm.trans hother

/-- The same future shows the same orders. -/
theorem view_of_future (hs : s.Sound config.levels config.poolCapacity L)
    (ht : t.Sound config'.levels config.poolCapacity L')
    (hprobe : ∀ side, s.book.Probeable side) (hprobe' : ∀ side, t.book.Probeable side)
    (h : SameFuture step step (config.Admits config') s t) (side : Side) :
    (s.book.side side).map Entry.view = (t.book.side side).map Entry.view :=
  Book.view_of_sameFuture (hprobe side) (hprobe' side)
    (fun _ hq => config.admits_probe config' side hq)
    ((hs.sameFuture_iff ht (fun c hc => (config.admits_below config' c hc).1)
      (fun c hc => (config.admits_below config' c hc).2)).mp h)

end

/-- After a run on the ladder, of quantities that are `int64_t`, the engine cannot be told
    from a new one exactly when it quotes no bid and no ask. -/
theorem run_asNew (config : Config) (cs : List Command)
    (h : ∀ c ∈ cs, c.LimitBelow config.maxLevels ∧ c.QuantityFits) :
    ∃ engine events, config.engine.run cs = some (engine, events) ∧
      (engine.bestBid = 0 ∧ engine.bestAsk = 0 ↔
        SameFuture step step (config.Admits config) engine config.engine) ∧
      (engine.bestBid = 0 ∧ engine.bestAsk = 0 → SameAnswers engine config.engine) := by
  obtain ⟨engine, events, hrun, ⟨L, hs⟩, htrace⟩ := config.run_calls fun c hc => (h c hc).1
  have hpriced : engine.book.Priced := @Trace.invariant _ _ _ _ (fun s => s.book.Priced) _ _ _ _
    (fun s c event t hs hcall => hcall.priced hs) config.engine_priced htrace
  have hnew := config.engine_sound
  have hnone : ∀ side, config.engine.book.side side = [] := by
    intro side
    rw [config.engine_book]
    cases side
    · rfl
    · rfl
  -- no order rests at price 0, so a quote of 0 is that of an empty side
  have hquote : ∀ side, engine.bestPrice side = 0 ↔ engine.book.side side = [] := by
    intro side
    have hquoted := hs.bestPrice_quoted side
    constructor
    · intro hzero
      by_contra hne
      have hpos := hquoted.pos hpriced hne
      omega
    · exact hquoted.zero
  have hempty : engine.bestBid = 0 ∧ engine.bestAsk = 0 ↔ engine.book = config.engine.book := by
    constructor
    · rintro ⟨hbid, hask⟩
      apply Book.ext_side
      intro side
      rw [hnone]
      cases side
      · exact (hquote .buy).mp hbid
      · exact (hquote .sell).mp hask
    · intro hbook
      exact ⟨(hquote .buy).mpr (by rw [hbook, hnone]), (hquote .sell).mpr (by rw [hbook, hnone])⟩
  have hprobe := trace_probeable htrace config.engine_book hs.book_positive
    fun c hc => (h c hc).2
  have hprobe' : ∀ side, config.engine.book.Probeable side := by
    intro side e he
    rw [hnone] at he
    exact absurd he List.not_mem_nil
  refine ⟨engine, events, hrun, ⟨fun hzero => sameFuture_of_book hs hnew (hempty.mp hzero),
    fun hfuture => hempty.mpr (Book.ext_side fun side => ?_)⟩,
    fun hzero => hs.sameAnswers hnew (hempty.mp hzero)⟩
  have hview := view_of_future hs hnew hprobe hprobe' hfuture side
  rw [hnone, List.map_nil, List.map_eq_nil_iff] at hview
  rw [hview, hnone]

/-- Two bids and the sell that takes both leave an engine as good as new. -/
theorem traded_asNew : ∃ engine events,
    Config.small.engine.run [.processOrder (makeOrder 1 .buy 4 10),
      .processOrder (makeOrder 2 .buy 5 10), .processOrder (makeOrder 3 .sell 4 20)] =
        some (engine, events) ∧
      SameFuture step step (Config.small.Admits Config.small) engine Config.small.engine ∧
      SameAnswers engine Config.small.engine := by
  obtain ⟨engine, events, hrun, hiff, hanswers⟩ := run_asNew Config.small
    [.processOrder (makeOrder 1 .buy 4 10), .processOrder (makeOrder 2 .buy 5 10),
      .processOrder (makeOrder 3 .sell 4 20)] (by decide)
  obtain ⟨engine', events', hrun', hquotes⟩ := @exec_test _ _ _ step Config.small.engine
    [.processOrder (makeOrder 1 .buy 4 10), .processOrder (makeOrder 2 .buy 5 10),
      .processOrder (makeOrder 3 .sell 4 20)]
    (fun s => s.bestBid = 0 ∧ s.bestAsk = 0) (by decide +kernel)
  obtain ⟨rfl, rfl⟩ := result_unique hrun' hrun
  have hzero := of_decide_eq_true hquotes
  exact ⟨_, _, hrun, hiff.mp hzero, hanswers hzero⟩

/-- In every run on the ladder the active orders are the ids that a cancel reports on; they
    are never more than the resting orders, and as many at every point exactly when no
    call reuses the id of an order that stays on the book. -/
theorem run_activeOrderCount (config : Config) (cs : List Command)
    (hcs : ∀ c ∈ cs, c.LimitBelow config.maxLevels) :
    (∃ engine events, config.engine.run cs = some (engine, events) ∧
      engine.activeOrderCount ≤ engine.book.size ∧
      ∃ ids : List OrderID, ids.Nodup ∧ ids.length = engine.activeOrderCount ∧
        ∀ id, id ∈ ids ↔ (engine.cancelOrder id).2.reports ≠ []) ∧
    ((∀ pre post, cs = pre ++ post → ∃ engine events,
        config.engine.run pre = some (engine, events) ∧
        engine.activeOrderCount = engine.book.size) ↔
      Along step (fun s c => s.reusesId c = false) config.engine cs) := by
  constructor
  · obtain ⟨engine, events, hrun, ⟨L, hs⟩, -⟩ := config.run_calls hcs
    exact ⟨engine, events, hrun, hs.activeOrderCount_le, engine.orderMap.keys,
      AList.keys_nodup _, List.length_map .., fun id => (cancelOrder_reports engine id).symm⟩
  · rw [← config.levels_eq] at hcs
    have hbelow : ∀ pre c post, cs = pre ++ c :: post → c.LimitBelow config.levels :=
      fun pre c post hsplit => hcs c (by rw [hsplit]; simp)
    apply @exec_prefix_iff _ _ _ step (fun pre _ s => Tidy config pre s)
    · exact tidy_start config
    · intro pre _ s h
      obtain ⟨L, hs⟩ := h.sound
      exact hs.activeOrderCount_size.mpr (cancellable_of_listed h.listed)
    · intro pre c post hsplit events s h hc
      obtain ⟨t, event, hstep, ht⟩ := h.step (hbelow pre c post hsplit) hc
      exact ⟨t, event, hstep, ht⟩
    · intro pre c post hsplit events s h hc t event hstep hcount
      obtain ⟨L, hs⟩ := h.sound
      obtain ⟨t', event', L', hstep', ht, -⟩ := step_spec hs (hbelow pre c post hsplit)
      obtain ⟨rfl, rfl⟩ := result_unique hstep hstep'
      exact hs.not_cancellable (hbelow pre c post hsplit) (Bool.not_eq_false _ ▸ hc) hstep
        (ht.activeOrderCount_size.mp hcount)

theorem sample_activeOrderCount :
    (∃ engine events, Config.small.engine.run sampleCommands = some (engine, events) ∧
      engine.activeOrderCount ≤ engine.book.size ∧
      ∃ ids : List OrderID, ids.Nodup ∧ ids.length = engine.activeOrderCount ∧
        ∀ id, id ∈ ids ↔ (engine.cancelOrder id).2.reports ≠ []) ∧
    ((∀ pre post, sampleCommands = pre ++ post → ∃ engine events,
        Config.small.engine.run pre = some (engine, events) ∧
        engine.activeOrderCount = engine.book.size) ↔
      Along step (fun s c => s.reusesId c = false) Config.small.engine sampleCommands) :=
  run_activeOrderCount Config.small sampleCommands (by decide)

end LimitOrderBook
