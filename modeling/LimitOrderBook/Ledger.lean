/-
  LimitOrderBook.Ledger

  One call as seen from one id.

  `Book.Holds` and `Book.Absent` say where the order with an id is; `tradedIn`
  and `reportsOn` are what an event says about it.  A call that does not submit
  the id leaves the order alone, reduces it, fills it or cancels it
  (`step_holds`), and says nothing about an id that is not on the book
  (`step_absent`).
-/
import LimitOrderBook.BookOrder

namespace LimitOrderBook

open Lib MatchingEngine

/-- The trade has the order on one of its sides. -/
def Trade.names (id : OrderID) (t : Trade) : Bool := t.buyOrderId = id || t.sellOrderId = id

/-- The trades of an event that name an id. -/
def MatchEvent.tradesOn (event : MatchEvent) (id : OrderID) : List Trade :=
  event.trades.filter (Trade.names id)

/-- The reports of an event on an id. -/
def MatchEvent.reportsOn (event : MatchEvent) (id : OrderID) : List ExecutionReport :=
  event.reports.filter fun r => r.orderId = id

/-- The quantity that an id traded in one event. -/
def MatchEvent.tradedIn (event : MatchEvent) (id : OrderID) : Int :=
  ((event.tradesOn id).map Trade.quantity).sum

/-- The event says nothing about an id. -/
structure MatchEvent.Silent (event : MatchEvent) (id : OrderID) : Prop where
  trades : event.tradesOn id = []
  reports : event.reportsOn id = []

theorem MatchEvent.Silent.traded {event : MatchEvent} {id : OrderID} (h : event.Silent id) :
    event.tradedIn id = 0 := by
  rw [tradedIn, h.trades]
  rfl

theorem reports_other {id : OrderID} {r : ExecutionReport} (h : r.orderId ≠ id) :
    [r].filter (fun r => r.orderId = id) = [] :=
  List.filter_cons_of_neg (by simpa using h)

theorem reports_self {id : OrderID} {r : ExecutionReport} (h : r.orderId = id) :
    [r].filter (fun r => r.orderId = id) = [r] :=
  List.filter_cons_of_pos (by simpa using h)

namespace Book

/-- The entries with an id on a side. -/
def under (B : Book) (id : OrderID) (side : Side) : List Entry :=
  (B.side side).filter fun e => e.id = id

/-- No entry has the id. -/
def Absent (B : Book) (id : OrderID) : Prop := ∀ side, B.under id side = []

/-- `e` is the only entry with the id. -/
structure Holds (B : Book) (id : OrderID) (side : Side) (e : Entry) : Prop where
  own : B.under id side = [e]
  other : B.under id side.opposite = []

theorem Holds.mem {B : Book} {id : OrderID} {side : Side} {e : Entry} (h : B.Holds id side e) :
    e ∈ B.side side ∧ e.id = id := by
  have he : e ∈ B.under id side := by rw [h.own]; exact List.mem_singleton_self e
  simpa [under] using List.mem_filter.mp he

/-- Whatever has the id is that entry. -/
theorem Holds.unique {B : Book} {id : OrderID} {side : Side} {e : Entry} (h : B.Holds id side e)
    {side' : Side} {e' : Entry} (hmem : e' ∈ B.side side') (hid : e'.id = id) :
    side' = side ∧ e' = e := by
  have he : e' ∈ B.under id side' := List.mem_filter.mpr ⟨hmem, by simpa using hid⟩
  rcases Side.eq_or_eq_opposite side side' with rfl | rfl
  · rw [h.own] at he
    exact ⟨rfl, List.mem_singleton.mp he⟩
  · rw [h.other] at he
    exact absurd he List.not_mem_nil

theorem Absent.not_mem {B : Book} {id : OrderID} (h : B.Absent id) {side : Side} {e : Entry}
    (hmem : e ∈ B.side side) : e.id ≠ id := by
  intro hid
  have he : e ∈ B.under id side := List.mem_filter.mpr ⟨hmem, by simpa using hid⟩
  rw [h side] at he
  exact absurd he List.not_mem_nil

-- ============================================================================
-- Matching, as seen from an id that is not the taker's
-- ============================================================================

section Match

variable {B : Book} {order : IncomingOrder} {id : OrderID} {left : Int} {side : Side} {e : Entry}

/-- The fills of a sweep that take from an id. -/
def fillsOn (B : Book) (order : IncomingOrder) (left : Int) (id : OrderID) :
    List (Entry × Int) := (B.sweep order left).taken.filter fun t => t.1.id = id

theorem names_fillTrade (hid : order.id ≠ id) (t : Entry × Int) :
    Trade.names id (fillTrade order t) = decide (t.1.id = id) := by
  rw [Trade.names, fillTrade]
  cases order.side <;> simp [hid]

theorem names_takerTrade (hid : order.id = id) (t : Entry × Int) :
    Trade.names id (fillTrade order t) = true := by
  rw [Trade.names, fillTrade]
  cases order.side <;> simp [hid]

theorem matched_tradesOn (hid : order.id ≠ id) :
    (B.matched order left).trades.filter (Trade.names id) =
      (B.fillsOn order left id).map (fillTrade order) := by
  rw [matched, fillsOn, List.filter_map]
  congr 1
  exact List.filter_congr fun t _ => names_fillTrade hid t

theorem consumed_filter : (B.consumed order left).filter (fun e => e.id = id) =
    ((B.fillsOn order left id).filter consumes).map Prod.fst := by
  rw [consumed, fillsOn, List.filter_map, List.filter_filter, List.filter_filter]
  congr 1
  exact List.filter_congr fun t _ => Bool.and_comm ..

theorem matched_reportsOn : (B.matched order left).reports.filter (fun r => r.orderId = id) =
    (((B.fillsOn order left id).filter consumes).map Prod.fst).map
      (makerReport order.side.opposite) := by
  rw [← consumed_filter, matched, List.filter_map]
  rfl

/-- Erasing the ids of other makers does not touch the entries with an id. -/
theorem under_forgetAll {l : List Entry} (h : (B.fillsOn order left id).filter consumes = []) :
    (l.map (Entry.forgetAll ((B.consumed order left).map Entry.id))).filter (fun e => e.id = id) =
      l.filter fun e => e.id = id := by
  have hnot : id ∉ (B.consumed order left).map Entry.id := by
    intro hin
    obtain ⟨e, he, hid⟩ := List.mem_map.mp hin
    have hmem : e ∈ (B.consumed order left).filter fun e => e.id = id :=
      List.mem_filter.mpr ⟨he, by simpa using hid⟩
    rw [consumed_filter, h] at hmem
    exact absurd hmem List.not_mem_nil
  rw [List.filter_map]
  have hsame : (fun e : Entry => decide (e.id = id)) ∘
      Entry.forgetAll ((B.consumed order left).map Entry.id) = fun e => decide (e.id = id) := by
    funext e
    simp
  rw [hsame]
  refine (List.map_congr_left fun e he => ?_).trans (List.map_id' _)
  have heid : e.id = id := by simpa using (List.mem_filter.mp he).2
  exact Entry.forgetAll_of_notMem _ _ (heid ▸ hnot)

theorem reduce_id (e : Entry) (q : Int) : (Entry.supply.reduce e q).id = e.id := rfl

theorem matched_absent (h : B.Absent id) :
    (B.matched order left).book.Absent id ∧ B.fillsOn order left id = [] := by
  obtain ⟨htaken, hkept⟩ := @Supply.sweep_none _ Entry.supply (fun e => order.crosses e.price)
    left _ (fun e => decide (e.id = id)) (fun e q => by rw [reduce_id]) (h order.side.opposite)
  have hfills : B.fillsOn order left id = [] := htaken
  have hnone : (B.fillsOn order left id).filter consumes = [] := by rw [hfills]; rfl
  refine ⟨fun side => ?_, hfills⟩
  rcases Side.eq_or_eq_opposite order.side side with rfl | rfl
  · rw [under, matched_own, under_forgetAll hnone]
    exact h order.side
  · rw [under, matched_opposite, under_forgetAll hnone]
    exact hkept

/-- The only entry with an id is left alone, reduced or consumed. -/
theorem matched_holds (h : B.Holds id side e) :
    ((B.matched order left).book.Holds id side e ∧ B.fillsOn order left id = []) ∨
    (∃ q, 0 < q ∧ q < e.remaining ∧
      (B.matched order left).book.Holds id side { e with remaining := e.remaining - q } ∧
      B.fillsOn order left id = [(e, q)]) ∨
    ((B.matched order left).book.Absent id ∧ side = order.side.opposite ∧
      B.fillsOn order left id = [(e, e.remaining)]) := by
  have hown : ∀ s, (B.fillsOn order left id).filter consumes = [] →
      s = order.side → (B.matched order left).book.under id s = B.under id s := by
    rintro s hnone rfl
    rw [under, matched_own, under_forgetAll hnone]
    rfl
  have hopp : (B.fillsOn order left id).filter consumes = [] →
      (B.matched order left).book.under id order.side.opposite =
        (B.sweep order left).kept.filter fun e => e.id = id := by
    intro hnone
    rw [under, matched_opposite, under_forgetAll hnone]
  rcases Side.eq_or_eq_opposite order.side side with rfl | rfl
  · -- the order's own side is not swept
    obtain ⟨htaken, hkept⟩ := @Supply.sweep_none _ Entry.supply (fun e => order.crosses e.price)
      left _ (fun e => decide (e.id = id)) (fun e q => by rw [reduce_id]) h.other
    have hfills : B.fillsOn order left id = [] := htaken
    have hnone : (B.fillsOn order left id).filter consumes = [] := by rw [hfills]; rfl
    refine .inl ⟨⟨?_, ?_⟩, hfills⟩
    · rw [hown _ hnone rfl]
      exact h.own
    · rw [hopp hnone]
      exact hkept
  · have hother : B.under id order.side = [] := by
      have := h.other
      rwa [Side.opposite_opposite] at this
    rcases @Supply.sweep_one _ Entry.supply (fun e => order.crosses e.price) left _
        (fun e => decide (e.id = id)) (fun e q => by rw [reduce_id]) e h.own with
      ⟨htaken, hkept⟩ | ⟨q, hpos, hlt, htaken, hkept⟩ | ⟨htaken, hkept⟩
    · have hfills : B.fillsOn order left id = [] := htaken
      have hnone : (B.fillsOn order left id).filter consumes = [] := by rw [hfills]; rfl
      refine .inl ⟨⟨?_, ?_⟩, hfills⟩
      · rw [hopp hnone]
        exact hkept
      · rw [Side.opposite_opposite, hown _ hnone rfl]
        exact hother
    · have hfills : B.fillsOn order left id = [(e, q)] := htaken
      have hnone : (B.fillsOn order left id).filter consumes = [] := by
        have hq : consumes (e, q) = false := decide_eq_false (Int.ne_of_lt hlt)
        rw [hfills, List.filter_cons_of_neg (by simp [hq])]
        rfl
      refine .inr (.inl ⟨q, hpos, hlt, ⟨?_, ?_⟩, hfills⟩)
      · rw [hopp hnone]
        exact hkept
      · rw [Side.opposite_opposite, hown _ hnone rfl]
        exact hother
    · refine .inr (.inr ⟨fun s => ?_, rfl, htaken⟩)
      have hprice : ∀ l : List Entry, l.filter (fun e => decide (e.id = id)) = [] →
          (l.map (Entry.forgetAll ((B.consumed order left).map Entry.id))).filter
            (fun e => decide (e.id = id)) = [] := by
        intro l hl
        rw [List.filter_map, List.map_eq_nil_iff, ← hl]
        exact List.filter_congr fun e _ => by simp
      rcases Side.eq_or_eq_opposite order.side s with rfl | rfl
      · rw [under, matched_own]
        exact hprice _ hother
      · rw [under, matched_opposite]
        exact hprice _ hkept

/-- Resting an order does not touch other ids. -/
theorem rest_under (hid : order.id ≠ id) (s : Side) :
    (B.rest order left).under id s = B.under id s := by
  have hforget : ∀ l : List Entry, (l.map (Entry.forget order.id)).filter (fun e => e.id = id) =
      l.filter fun e => e.id = id := by
    intro l
    have hsame : (fun e : Entry => decide (e.id = id)) ∘ Entry.forget order.id =
        fun e => decide (e.id = id) := by
      funext e
      simp
    rw [List.filter_map, hsame]
    refine (List.map_congr_left fun e he => ?_).trans (List.map_id' _)
    have heid : e.id = id := by simpa using (List.mem_filter.mp he).2
    exact if_neg fun hc : e.id = order.id => hid (hc.symm.trans heid)
  rcases Side.eq_or_eq_opposite order.side s with rfl | rfl
  · rw [under, rest, setSide_side, forget_side,
      Buckets.filter_orderedInsert_of_neg (by simpa using hid), hforget]
    rfl
  · rw [under, rest, setSide_side_opposite, forget_side, hforget]
    rfl

/-- An order that rests is the only one with its id, if the id was free. -/
theorem rest_holds (h : B.Absent order.id) : (B.rest order left).Holds order.id order.side
    { id := order.id, price := order.price, quantity := order.quantity, remaining := left,
      mapped := true } := by
  have hforget : ∀ s, ((B.side s).map (Entry.forget order.id)).filter
      (fun e => decide (e.id = order.id)) = [] := by
    intro s
    rw [List.filter_map, List.map_eq_nil_iff, ← h s]
    exact List.filter_congr fun e _ => by simp
  refine ⟨?_, ?_⟩
  · rw [under, rest, setSide_side, forget_side]
    have hperm := List.perm_orderedInsert
      (fun a b : Entry => order.side.better a.price b.price)
      { id := order.id, price := order.price, quantity := order.quantity,
        remaining := left, mapped := true }
      ((B.side order.side).map (Entry.forget order.id))
    refine List.perm_singleton.mp ((hperm.filter _).trans ?_)
    rw [List.filter_cons_of_pos (by simp), hforget]
  · rw [under, rest, setSide_side_opposite, forget_side]
    exact hforget _

end Match

-- ============================================================================
-- One call
-- ============================================================================

section Call

variable {B B' : Book} {order : IncomingOrder} {id : OrderID} {side : Side} {e : Entry}
  {room : Nat → Bool} {c : Command} {event : MatchEvent}

/-- What a call that does not submit an id does to the order with that id. -/
inductive Touched (B' : Book) (event : MatchEvent) (id : OrderID) (side : Side) (e : Entry) :
    Prop where
  | untouched : B'.Holds id side e → event.Silent id → Touched B' event id side e
  | reduced (q : Int) : 0 < q → q < e.remaining →
      B'.Holds id side { e with remaining := e.remaining - q } → event.tradedIn id = q →
      event.reportsOn id = [] → Touched B' event id side e
  | filled : B'.Absent id → event.tradedIn id = e.remaining →
      event.reportsOn id = [makerReport side e] → Touched B' event id side e
  | cancelled : B'.Absent id → event.tradesOn id = [] →
      event.reportsOn id = [cancelReport side e] → Touched B' event id side e

/-- The event of a call of another order, as far as it names an id. -/
theorem process_event (hv : validateOrder order = true) (hid : order.id ≠ id) :
    (B.process room order).2.tradesOn id =
        (B.fillsOn order order.quantity id).map (fillTrade order) ∧
      (B.process room order).2.reportsOn id =
        (((B.fillsOn order order.quantity id).filter consumes).map Prod.fst).map
          (makerReport order.side.opposite) := by
  obtain ⟨status, hevent, -⟩ := process_cases room B hv
  rw [hevent, MatchEvent.tradesOn, MatchEvent.reportsOn]
  refine ⟨matched_tradesOn hid, ?_⟩
  rw [List.filter_append, matched_reportsOn, @reports_other id (takerReport order status _ _) hid,
    List.append_nil]

/-- The orders of another id are where matching left them. -/
theorem process_under (hv : validateOrder order = true) (hid : order.id ≠ id) (s : Side) :
    (B.process room order).1.under id s =
      (B.matched order order.quantity).book.under id s := by
  obtain ⟨status, -, ⟨-, -, h⟩ | ⟨-, -, -, h⟩ | ⟨-, -, h⟩⟩ := process_cases room B hv
  · rw [h]
  · rw [h, rest_under hid]
  · rw [h]

/-- A rejected order says nothing about other ids. -/
theorem process_invalid (hv : validateOrder order = false) (hid : order.id ≠ id) :
    (B.process room order).1 = B ∧ (B.process room order).2.Silent id := by
  refine ⟨process_rejected room B hv, ?_⟩
  simp only [process, hv, Bool.not_false, if_true]
  exact ⟨rfl, @reports_other id (takerReport order .cancelled 0 order.quantity) hid⟩

theorem process_absent (hid : order.id ≠ id) (h : B.Absent id) :
    (B.process room order).1.Absent id ∧ (B.process room order).2.Silent id := by
  cases hv : validateOrder order with
  | false =>
      obtain ⟨hbook, hsilent⟩ := @process_invalid B order id room hv hid
      rw [hbook]
      exact ⟨h, hsilent⟩
  | true =>
      obtain ⟨habsent, hfills⟩ := @matched_absent B order id order.quantity h
      obtain ⟨htrades, hreports⟩ := @process_event B order id room hv hid
      rw [hfills] at htrades hreports
      refine ⟨fun s => ?_, htrades, hreports⟩
      rw [process_under hv hid]
      exact habsent s

theorem process_holds (hid : order.id ≠ id) (h : B.Holds id side e) :
    Touched (B.process room order).1 (B.process room order).2 id side e := by
  cases hv : validateOrder order with
  | false =>
      obtain ⟨hbook, hsilent⟩ := @process_invalid B order id room hv hid
      rw [hbook]
      exact .untouched h hsilent
  | true =>
      have hunder := @process_under B order id room hv hid
      obtain ⟨htrades, hreports⟩ := @process_event B order id room hv hid
      have hholds : ∀ e', (B.matched order order.quantity).book.Holds id side e' →
          (B.process room order).1.Holds id side e' := by
        intro e' he'
        exact ⟨by rw [hunder]; exact he'.own, by rw [hunder]; exact he'.other⟩
      rcases @matched_holds B order id order.quantity side e h with
        ⟨hsame, hfills⟩ | ⟨q, hpos, hlt, hsame, hfills⟩ | ⟨hgone, hside, hfills⟩
      · rw [hfills] at htrades hreports
        exact .untouched (hholds e hsame) ⟨htrades, hreports⟩
      · have hq : consumes (e, q) = false := decide_eq_false (Int.ne_of_lt hlt)
        rw [hfills] at htrades hreports
        rw [List.filter_cons_of_neg (by simp [hq])] at hreports
        refine .reduced q hpos hlt (hholds _ hsame) ?_ hreports
        rw [MatchEvent.tradedIn, htrades]
        simp [fillTrade_quantity]
      · have hq : consumes (e, e.remaining) = true := decide_eq_true rfl
        rw [hfills] at htrades hreports
        rw [List.filter_cons_of_pos hq] at hreports
        refine .filled (fun s => ?_) ?_ ?_
        · rw [hunder]
          exact hgone s
        · rw [MatchEvent.tradedIn, htrades]
          simp [fillTrade_quantity]
        · rw [hreports, hside]
          rfl

/-- The entries with an id after the target of a cancel is gone. -/
theorem under_eraseP (B : Book) (id k : OrderID) (s : Side) :
    ((B.side s).eraseP (Entry.isTarget k)).filter (fun e => e.id = id) =
      if k = id then (B.under id s).eraseP (Entry.isTarget k) else B.under id s := by
  split
  · next hk =>
      rw [under, List.eraseP_filter]
      congr 2
      funext e
      simp only [Entry.isTarget, ← hk]
      by_cases he : e.id = k <;> simp [he]
  · next hk =>
      rw [under]
      generalize B.side s = l
      induction l with
      | nil => rfl
      | cons e l ih =>
          cases ht : e.isTarget k with
          | true =>
              have he : e.id = k := Entry.id_of_isTarget ht
              rw [List.eraseP_cons_of_pos ht,
                List.filter_cons_of_neg (by simpa [he] using hk)]
          | false =>
              rw [List.eraseP_cons_of_neg (by simp [ht]), List.filter_cons, List.filter_cons, ih]

theorem cancel_absent (k : OrderID) (h : B.Absent id) :
    (B.cancel k).1.Absent id ∧ (B.cancel k).2.Silent id := by
  rcases cancel_cases B k with ⟨-, hc⟩ | ⟨s, t, hfind, hc⟩
  · rw [hc]
    exact ⟨h, rfl, rfl⟩
  · have htk : t.id = k := Entry.id_of_isTarget (List.find?_some hfind)
    have hne : t.id ≠ id := h.not_mem (List.mem_of_find?_eq_some hfind)
    have hside : ((B.side s).eraseP (Entry.isTarget k)).filter (fun e => e.id = id) = [] := by
      rw [under_eraseP, if_neg (fun hk => hne (htk.trans hk))]
      exact h s
    rw [hc]
    refine ⟨fun s' => ?_, rfl, @reports_other id (cancelReport s t) hne⟩
    · rcases Side.eq_or_eq_opposite s s' with rfl | rfl
      · rw [under, setSide_side]
        exact hside
      · rw [under, setSide_side_opposite]
        exact h _

theorem cancel_holds (k : OrderID) (h : B.Holds id side e) (hmapped : e.mapped = true) :
    Touched (B.cancel k).1 (B.cancel k).2 id side e := by
  obtain ⟨hmem, heid⟩ := h.mem
  rcases cancel_cases B k with ⟨hnone, hc⟩ | ⟨s, t, hfind, hc⟩
  · rw [hc]
    exact .untouched h ⟨rfl, rfl⟩
  · have htarget := List.find?_some hfind
    have htk : t.id = k := Entry.id_of_isTarget htarget
    have hother : (B.cancel k).1.side s.opposite = B.side s.opposite := by
      rw [hc, setSide_side_opposite]
    have hown : (B.cancel k).1.side s = (B.side s).eraseP (Entry.isTarget k) := by
      rw [hc, setSide_side]
    by_cases hk : k = id
    · subst hk
      obtain ⟨rfl, rfl⟩ := h.unique (List.mem_of_find?_eq_some hfind) htk
      refine .cancelled (fun s' => ?_) (by rw [hc]; rfl) ?_
      · rcases Side.eq_or_eq_opposite s s' with rfl | rfl
        · rw [under, hown, under_eraseP, if_pos rfl, h.own, List.eraseP_cons_of_pos htarget]
        · rw [under, hother]
          exact h.other
      · rw [hc]
        exact @reports_self k (cancelReport s t) heid
    · have hunder : ∀ s', (B.cancel k).1.under id s' = B.under id s' := by
        intro s'
        rcases Side.eq_or_eq_opposite s s' with rfl | rfl
        · rw [under, hown, under_eraseP, if_neg hk]
        · rw [under, hother]
          rfl
      have hne : ¬ t.id = id := fun ht => hk (htk ▸ ht)
      refine .untouched ⟨?_, ?_⟩ ⟨?_, ?_⟩
      · rw [hunder]
        exact h.own
      · rw [hunder]
        exact h.other
      · rw [hc]
        rfl
      · rw [hc]
        exact @reports_other id (cancelReport s t) hne

/-- A call is silent about an id that is not on the book and not submitted. -/
theorem step_absent (hid : ∀ order, c = .processOrder order → order.id ≠ id)
    (hstep : B.Step room c event B') (h : B.Absent id) : B'.Absent id ∧ event.Silent id := by
  have hB' : B' = (B.step room c).1 := (congrArg Prod.fst hstep).symm
  have hevent : event = (B.step room c).2 := (congrArg Prod.snd hstep).symm
  rw [hB', hevent]
  cases c with
  | processOrder order => exact process_absent (hid order rfl) h
  | cancelOrder k => exact cancel_absent k h

/-- What a call can do to an order on the book. -/
theorem step_holds (hid : ∀ order, c = .processOrder order → order.id ≠ id)
    (hstep : B.Step room c event B') (h : B.Holds id side e) (hmapped : e.mapped = true) :
    Touched B' event id side e := by
  have hB' : B' = (B.step room c).1 := (congrArg Prod.fst hstep).symm
  have hevent : event = (B.step room c).2 := (congrArg Prod.snd hstep).symm
  rw [hB', hevent]
  cases c with
  | processOrder order => exact process_holds (hid order rfl) h
  | cancelOrder k => exact cancel_holds k h hmapped

/-- The call that submits an order whose id is not on the book. -/
theorem submit_absent (hv : validateOrder order = true) (hpositive : B.Positive)
    (h : B.Absent order.id) :
    ∃ left status, 0 ≤ left ∧ left ≤ order.quantity ∧
      (B.process room order).2.tradedIn order.id = order.quantity - left ∧
      (B.process room order).2.reportsOn order.id =
        [takerReport order status (order.quantity - left) left] ∧
      ((left = 0 ∧ status = .filled ∧ (B.process room order).1.Absent order.id) ∨
        (left ≠ 0 ∧ status = .resting ∧ (B.process room order).1.Holds order.id order.side
          { id := order.id, price := order.price, quantity := order.quantity,
            remaining := left, mapped := true }) ∨
        (left ≠ 0 ∧ status = .cancelled ∧ (B.process room order).1.Absent order.id)) := by
  obtain ⟨hpos, -, -⟩ := validateOrder_pos hv
  obtain ⟨habsent, hfills⟩ := @matched_absent B order order.id order.quantity h
  obtain ⟨status, hevent, hcases⟩ := process_cases room B hv
  have hnonneg : 0 ≤ (B.matched order order.quantity).left :=
    Supply.sweep_left_nonneg (Int.le_of_lt hpos)
  have hle := @matched_left_le B order _ hpositive (Int.le_of_lt hpos)
  refine ⟨(B.matched order order.quantity).left, status, hnonneg, hle, ?_, ?_, ?_⟩
  · -- the taker is named by every trade, and the sweep conserves its quantity
    have hall : (B.matched order order.quantity).trades.filter (Trade.names order.id) =
        (B.matched order order.quantity).trades := by
      rw [List.filter_eq_self]
      intro t ht
      obtain ⟨fill, -, rfl⟩ := List.mem_map.mp ht
      exact names_takerTrade rfl fill
    rw [MatchEvent.tradedIn, MatchEvent.tradesOn, hevent]
    show (((B.matched order order.quantity).trades.filter _).map Trade.quantity).sum = _
    rw [hall, matched_traded]
  · rw [hevent, MatchEvent.reportsOn, List.filter_append, matched_reportsOn, hfills,
      List.filter_cons_of_pos (by simp [takerReport])]
    rfl
  · rcases hcases with ⟨hz, hst, hbook⟩ | ⟨hz, hst, -, hbook⟩ | ⟨hz, hst, hbook⟩
    · exact .inl ⟨hz, hst, by rw [hbook]; exact habsent⟩
    · refine .inr (.inl ⟨hz, hst, ?_⟩)
      rw [hbook]
      exact rest_holds habsent
    · exact .inr (.inr ⟨hz, hst, by rw [hbook]; exact habsent⟩)

end Call

end Book

end LimitOrderBook
