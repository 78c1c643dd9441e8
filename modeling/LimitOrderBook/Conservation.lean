/-
  LimitOrderBook.Conservation

  No quantity is lost, and the event stream alone determines the book.

  `bookOf` rebuilds a side of the book from the events: every resting report is
  queued behind the orders of its price, and those that no later report closes
  stay, with what the trades leave of them.  The book is a sublist of that queue
  along every run (`trace_queued`), because a call only takes orders out and
  appends its own; the history of each order says which members are still there.
-/
import LimitOrderBook.Lifecycle
import Mathlib.Data.List.Flatten

namespace LimitOrderBook

open Lib MatchingEngine

/-- What a resting order keeps all its life. -/
def Entry.key (e : Entry) : OrderID × Int := (e.id, e.price)

def ExecutionReport.key (r : ExecutionReport) : OrderID × Int := (r.orderId, r.price)

/-- The orders that an event reports as resting on a side. -/
def MatchEvent.restingOn (event : MatchEvent) (side : Side) : List ExecutionReport :=
  event.reports.filter fun r => r.status = .resting && r.side = side

/-- Queue a report behind all of its price. -/
def Side.enqueue (side : Side) (queue : List ExecutionReport) (r : ExecutionReport) :
    List ExecutionReport :=
  queue.orderedInsert (fun a b => side.better a.price b.price) r

/-- All resting reports of a side in price-time order. -/
def queuedBy (events : List MatchEvent) (side : Side) : List ExecutionReport :=
  (events.flatMap fun event => event.restingOn side).foldl side.enqueue []

/-- What the trades leave of a reported order. -/
def leftOpen (events : List MatchEvent) (r : ExecutionReport) : OrderID × Int × Int × Int :=
  (r.orderId, r.price, r.filledQuantity + r.remainingQuantity,
    r.filledQuantity + r.remainingQuantity - traded events r.orderId)

/-- No other report names the id. -/
def onlyReport (events : List MatchEvent) (id : OrderID) : Bool :=
  (reportsOn events id).length = 1

/-- A side of the book as the events leave it: the queued orders that are not
    reported again. -/
def bookOf (events : List MatchEvent) (side : Side) : List (OrderID × Int × Int × Int) :=
  ((queuedBy events side).filter fun r => onlyReport events r.orderId).map (leftOpen events)

-- ============================================================================
-- The queue of the resting reports
-- ============================================================================

section Queue

variable {events : List MatchEvent} {event : MatchEvent} {side : Side} {r : ExecutionReport}

theorem queuedBy_snoc : queuedBy (events ++ [event]) side =
    (event.restingOn side).foldl side.enqueue (queuedBy events side) := by
  rw [queuedBy, List.flatMap_append, List.foldl_append, List.flatMap_singleton, queuedBy]

/-- Best price first. -/
theorem queuedBy_sorted (events : List MatchEvent) (side : Side) :
    ((queuedBy events side).map ExecutionReport.key).Pairwise
      fun a b => ¬ side.better b.2 a.2 := by
  refine List.pairwise_map.mpr ?_
  exact Buckets.foldl_orderedInsert_pairwise (fun a b => side.better_asymm a.price b.price)
    (fun a b c => side.better_trans a.price b.price c.price) _ List.Pairwise.nil

theorem queuedBy_perm (events : List MatchEvent) (side : Side) :
    (queuedBy events side).Perm (events.flatMap fun event => event.restingOn side) := by
  have h := Buckets.foldl_orderedInsert_perm
    (r := fun a b : ExecutionReport => side.better a.price b.price)
    (events.flatMap fun event => event.restingOn side) []
  rwa [List.append_nil] at h

/-- A queued report is one of its id's reports. -/
theorem mem_queuedBy (h : r ∈ queuedBy events side) :
    r ∈ reportsOn events r.orderId ∧ r.status = .resting ∧ r.side = side := by
  obtain ⟨event, hevent, hr⟩ := List.mem_flatMap.mp ((queuedBy_perm events side).subset h)
  obtain ⟨hin, hresting⟩ := List.mem_filter.mp hr
  simp only [Bool.and_eq_true, decide_eq_true_eq] at hresting
  exact ⟨mem_reportsOn hevent (List.mem_filter.mpr ⟨hin, by simp⟩), hresting⟩

/-- The queued orders that are not reported again have different ids. -/
theorem queuedBy_nodup (events : List MatchEvent) (side : Side) :
    (((queuedBy events side).filter fun r => onlyReport events r.orderId).map
      ExecutionReport.orderId).Nodup := by
  have hperm := ((queuedBy_perm events side).filter fun r => onlyReport events r.orderId).map
    ExecutionReport.orderId
  refine hperm.nodup_iff.mpr (List.nodup_iff_count_le_one.mpr fun id => ?_)
  rw [List.count_eq_countP, List.countP_map, List.countP_filter]
  by_cases hone : onlyReport events id = true
  · have hreports : ((events.flatMap fun event => event.restingOn side).countP
        fun r => r.orderId = id) ≤ (reportsOn events id).length := by
      rw [List.countP_eq_length_filter, List.filter_flatMap]
      refine (List.Sublist.flatMap_right events fun event _ => ?_).length_le
      exact List.filter_sublist.filter _
    rw [onlyReport, decide_eq_true_eq] at hone
    refine le_trans (List.countP_mono_left fun r _ hr => ?_) (hreports.trans_eq hone)
    simp only [Function.comp_apply, Bool.and_eq_true, beq_iff_eq] at hr
    simpa using hr.1
  · refine le_of_eq_of_le (List.countP_eq_zero.mpr fun r _ hr => ?_) (Nat.zero_le 1)
    simp only [Function.comp_apply, Bool.and_eq_true, beq_iff_eq] at hr
    exact hone (hr.1 ▸ hr.2)

end Queue

-- ============================================================================
-- The book is a sublist of the queue
-- ============================================================================

/-- What a call can do to the keys of a side: orders leave, or one order is reported
    as resting and goes behind all of its price. -/
inductive Requeued (side : Side) (before after : List (OrderID × Int)) :
    List ExecutionReport → Prop where
  | leave : after.Sublist before → Requeued side before after []
  | enter (r : ExecutionReport) (kept : List (OrderID × Int)) : kept.Sublist before →
      after = kept.orderedInsert (fun a b => side.better a.2 b.2) r.key →
      Requeued side before after [r]

namespace Book

variable {B B' : Book} {order : IncomingOrder} {left : Int} {room : Nat → Bool} {c : Command}
  {event : MatchEvent}

theorem forget_key (id : OrderID) : Entry.key ∘ Entry.forget id = Entry.key := by
  funext e
  simp [Entry.key]

theorem forgetAll_key (ids : List OrderID) : Entry.key ∘ Entry.forgetAll ids = Entry.key := by
  funext e
  simp [Entry.key]

/-- Matching only takes orders out. -/
theorem matched_key (side : Side) : (((B.matched order left).book.side side).map
    Entry.key).Sublist ((B.side side).map Entry.key) := by
  rcases order.side.eq_or_eq_opposite side with rfl | rfl
  · rw [matched_own, List.map_map, forgetAll_key]
  · rw [matched_opposite, List.map_map, forgetAll_key]
    exact (Supply.sweep_kept_suffix fun _ _ => rfl).sublist

/-- Resting adds an order behind all of its price. -/
theorem rest_key : ((B.rest order left).side order.side).map Entry.key =
    ((B.side order.side).map Entry.key).orderedInsert
      (fun a b => order.side.better a.2 b.2) (order.id, order.price) := by
  rw [rest, setSide_side, forget_side,
    List.map_orderedInsert _ (fun a b => order.side.better a.2 b.2) Entry.key, List.map_map,
    forget_key]
  · rfl
  · intro e _
    rfl
  · intro e _
    rfl

theorem rest_opposite_key : ((B.rest order left).side order.side.opposite).map Entry.key =
    (B.side order.side.opposite).map Entry.key := by
  rw [rest, setSide_side_opposite, forget_side, List.map_map, forget_key]

/-- The orders that matching reports are filled, so only the last report of a call
    can be of a resting order. -/
theorem restingOn_last {status : OrderStatus} {filled : Int} (side : Side)
    (h : event.reports =
      (B.matched order order.quantity).reports ++ [takerReport order status filled left]) :
    event.restingOn side = if status = .resting ∧ order.side = side
      then [takerReport order status filled left] else [] := by
  have hmakers : (B.matched order order.quantity).reports.filter
      (fun r => r.status = .resting && r.side = side) = [] := by
    rw [List.filter_eq_nil_iff]
    intro r hr
    obtain ⟨e, -, rfl⟩ := List.mem_map.mp hr
    simp [makerReport]
  rw [MatchEvent.restingOn, h, List.filter_append, hmakers, List.nil_append]
  by_cases hrests : status = .resting ∧ order.side = side
  · rw [if_pos hrests, List.filter_cons_of_pos (by simp [takerReport, hrests]), List.filter_nil]
  · rw [if_neg hrests, List.filter_cons_of_neg, List.filter_nil]
    rw [Bool.and_eq_true, decide_eq_true_eq, decide_eq_true_eq]
    exact hrests

theorem process_requeued (room : Nat → Bool) (B : Book) (order : IncomingOrder) (side : Side) :
    Requeued side ((B.side side).map Entry.key)
      (((B.process room order).1.side side).map Entry.key)
      ((B.process room order).2.restingOn side) := by
  cases hv : validateOrder order with
  | false =>
      simp only [process, hv, Bool.not_false, if_true]
      exact .leave (List.Sublist.refl _)
  | true =>
      obtain ⟨status, hevent, hcases⟩ := process_cases room B hv
      have hkey := @matched_key B order order.quantity side
      rw [restingOn_last side (congrArg MatchEvent.reports hevent)]
      rcases hcases with ⟨-, rfl, hbook⟩ | ⟨-, rfl, -, hbook⟩ | ⟨-, rfl, hbook⟩
      · rw [hbook, if_neg (by simp)]
        exact .leave hkey
      · rcases order.side.eq_or_eq_opposite side with rfl | rfl
        · rw [hbook, if_pos ⟨rfl, rfl⟩]
          exact .enter _ _ hkey rest_key
        · rw [hbook, if_neg fun h => order.side.opposite_ne h.2.symm, rest_opposite_key]
          exact .leave hkey
      · rw [hbook, if_neg (by simp)]
        exact .leave hkey

theorem cancel_requeued (B : Book) (id : OrderID) (side : Side) :
    Requeued side ((B.side side).map Entry.key) (((B.cancel id).1.side side).map Entry.key)
      ((B.cancel id).2.restingOn side) := by
  have hnone : (B.cancel id).2.restingOn side = [] := by
    rcases cancel_cases B id with ⟨-, hcancel⟩ | ⟨s, e, -, hcancel⟩
    · rw [hcancel]
      rfl
    · rw [hcancel]
      simp [MatchEvent.restingOn, cancelReport]
  rw [hnone]
  exact .leave ((cancel_sublist B id side).map _)

theorem step_requeued (hstep : B.Step room c event B') (side : Side) :
    Requeued side ((B.side side).map Entry.key) ((B'.side side).map Entry.key)
      (event.restingOn side) := by
  obtain rfl : (B.step room c).1 = B' := congrArg Prod.fst hstep
  obtain rfl : (B.step room c).2 = event := congrArg Prod.snd hstep
  cases c with
  | processOrder order => exact process_requeued room B order side
  | cancelOrder id => exact cancel_requeued B id side

end Book

/-- A queue that holds a side still holds it after the call. -/
theorem Requeued.sublist {side : Side} {before after : List (OrderID × Int)}
    {resting queue : List ExecutionReport} (h : Requeued side before after resting)
    (hsub : before.Sublist (queue.map ExecutionReport.key))
    (hsorted : (queue.map ExecutionReport.key).Pairwise fun a b => ¬ side.better b.2 a.2) :
    after.Sublist ((resting.foldl side.enqueue queue).map ExecutionReport.key) := by
  cases h with
  | leave hafter => exact hafter.trans hsub
  | enter r kept hkept heq =>
      rw [heq, List.foldl_cons, List.foldl_nil, Side.enqueue,
        List.map_orderedInsert _ (fun a b => side.better a.2 b.2) ExecutionReport.key]
      · exact Buckets.orderedInsert_sublist (fun a b c => side.better_trans a.2 b.2 c.2) r.key
          (hkept.trans hsub) hsorted
      · intro a _
        rfl
      · intro a _
        rfl

/-- Along a run, every side is a sublist of its queued reports. -/
theorem trace_queued {n capacity : Nat} {s s' : MatchingEngine} {cs : List Command}
    {events : List MatchEvent} (h : Trace (Call n capacity) s cs events s') (hs : s.book = {})
    (side : Side) :
    ((s'.book.side side).map Entry.key).Sublist
      ((queuedBy events side).map ExecutionReport.key) := by
  induction h with
  | nil =>
      rw [hs]
      cases side <;> exact List.nil_sublist _
  | @snoc cs events t u c event _ hcall ih =>
      rw [queuedBy_snoc]
      exact (Book.step_requeued hcall.book side).sublist ih (queuedBy_sorted events side)

-- ============================================================================
-- Conservation
-- ============================================================================

section

variable {x : IncomingOrder} {events : List MatchEvent} {B : Book} {r : ExecutionReport}

theorem leftOpen_takerReport {left : Int} :
    leftOpen events (takerReport x .resting (x.quantity - left) left) =
      (x.id, x.price, x.quantity, x.quantity - traded events x.id) := by
  simp [leftOpen, takerReport]

/-- The entry of an order is what its resting report leaves. -/
theorem History.view_eq (h : History x events B) {side : Side} {e : Entry}
    (he : e ∈ B.side side) (hid : e.id = x.id) (hr : r ∈ reportsOn events x.id) :
    e.view = leftOpen events r := by
  obtain ⟨-, hview, left, hreports⟩ := h.entry he hid
  rw [hreports] at hr
  rw [List.mem_singleton.mp hr, leftOpen_takerReport, hview]

/-- An order that is only reported as resting is on the book. -/
theorem History.on_book (h : History x events B) (hr : r ∈ reportsOn events x.id)
    (hresting : r.status = .resting) (hone : onlyReport events x.id = true) :
    ∃ e ∈ B.side r.side, e.key = r.key := by
  cases h.life with
  | resting e left hholds _ _ hview hreports =>
      rw [hreports] at hr
      obtain rfl := List.mem_singleton.mp hr
      simp only [Entry.view, Prod.mk.injEq] at hview
      exact ⟨e, hholds.mem.1, Prod.ext hview.1 hview.2.1⟩
  | closed before last _ hreports hterminal =>
      rw [onlyReport, hreports, decide_eq_true_eq, List.length_append, List.length_singleton,
        Nat.add_eq_right, List.length_eq_zero_iff] at hone
      rw [hreports, hone, List.nil_append, List.mem_singleton] at hr
      rw [← hr, ExecutionReport.terminal, hresting] at hterminal
      exact absurd hterminal Bool.false_ne_true

/-- Where every entry and every queued report has a history, the side is the one that
    the events leave. -/
theorem bookOf_eq {side : Side}
    (hsub : ((B.side side).map Entry.key).Sublist
      ((queuedBy events side).map ExecutionReport.key))
    (hentry : ∀ e ∈ B.side side, ∃ x, History x events B ∧ e.id = x.id)
    (hreport : ∀ r ∈ queuedBy events side, ∃ x, History x events B ∧ r.orderId = x.id) :
    (B.side side).map Entry.view = bookOf events side := by
  have hself : (B.side side).filter
      ((fun key : OrderID × Int => onlyReport events key.1) ∘ Entry.key) = B.side side := by
    rw [List.filter_eq_self]
    intro e he
    obtain ⟨x, hx, hid⟩ := hentry e he
    obtain ⟨-, -, left, hreports⟩ := hx.entry he hid
    simp [onlyReport, Entry.key, hid, hreports]
  have hkeys : (B.side side).map Entry.key =
      ((queuedBy events side).filter fun r => onlyReport events r.orderId).map
        ExecutionReport.key := by
    refine Buckets.eq_of_sublist_of_subset ?_ ?_ ?_
    · have hfilter := hsub.filter fun key => onlyReport events key.1
      rw [List.filter_map, List.filter_map, hself] at hfilter
      exact hfilter
    · refine List.Nodup.of_map Prod.fst ?_
      rw [List.map_map]
      exact queuedBy_nodup events side
    · intro key hkey
      obtain ⟨r, hr, rfl⟩ := List.mem_map.mp hkey
      obtain ⟨hqueued, hone⟩ := List.mem_filter.mp hr
      obtain ⟨hin, hresting, hside⟩ := mem_queuedBy hqueued
      obtain ⟨x, hx, hid⟩ := hreport r hqueued
      rw [hid] at hin hone
      obtain ⟨e, he, hkey⟩ := hx.on_book hin hresting hone
      rw [← hkey]
      exact List.mem_map_of_mem (hside ▸ he)
  refine Buckets.map_eq_of_keys hkeys fun e he r hr hkey => ?_
  obtain ⟨x, hx, hid⟩ := hentry e he
  have hsame : r.orderId = x.id := (congrArg Prod.fst hkey).symm.trans hid
  exact hx.view_eq he hid (hsame ▸ (mem_queuedBy (List.mem_filter.mp hr).1).1)

end

/-- In every run, for every accepted order: what it traded stays within its
    quantity, its entry has the rest, and its reports add up; and the book is the one
    that the events leave. -/
theorem run_conserves (config : Config) (cs : List Command)
    (h : ∀ c ∈ cs, c.LimitBelow config.maxLevels) (honce : ∀ c ∈ cs, c.IdOnce cs) :
    ∃ engine events, config.engine.run cs = some (engine, events) ∧
      (∀ x, .processOrder x ∈ cs → validateOrder x = true →
        Accounted x events ∧
        ∀ side, ∀ e ∈ engine.book.side side, e.id = x.id → side = x.side ∧
          e.view = (x.id, x.price, x.quantity, x.quantity - traded events x.id)) ∧
      ∀ side, (engine.book.side side).map Entry.view = bookOf events side := by
  obtain ⟨engine, events, hrun, -, htrace⟩ := config.run_calls h
  have hhistory : ∀ x, .processOrder x ∈ cs → validateOrder x = true →
      History x events engine.book := fun x hx hv =>
    trace_history htrace config.engine_book hx hv (honce _ hx hv)
  refine ⟨engine, events, hrun, fun x hx hv => ⟨(hhistory x hx hv).accounted, ?_⟩, ?_⟩
  · intro side e he hid
    obtain ⟨hside, hview, -⟩ := (hhistory x hx hv).entry he hid
    exact ⟨hside, hview⟩
  · intro side
    refine bookOf_eq (trace_queued htrace config.engine_book side) (fun e he => ?_)
      fun r hr => ?_
    · by_contra hnone
      refine (trace_rejected htrace config.engine_book fun x hx hv hid => ?_).1.not_mem he rfl
      exact hnone ⟨x, hhistory x hx hv, hid.symm⟩
    · obtain ⟨hin, hresting, -⟩ := mem_queuedBy hr
      by_contra hnone
      have hcancelled := (trace_rejected htrace config.engine_book fun x hx hv hid =>
        hnone ⟨x, hhistory x hx hv, hid.symm⟩).2 r hin
      rw [hresting] at hcancelled
      exact absurd hcancelled (by decide)

/-- No quantity is lost along this run. -/
theorem once_conserves : ∃ engine events,
    Config.small.engine.run onceCommands = some (engine, events) ∧
      (∀ x, .processOrder x ∈ onceCommands → validateOrder x = true →
        Accounted x events ∧
        ∀ side, ∀ e ∈ engine.book.side side, e.id = x.id → side = x.side ∧
          e.view = (x.id, x.price, x.quantity, x.quantity - traded events x.id)) ∧
      ∀ side, (engine.book.side side).map Entry.view = bookOf events side :=
  run_conserves Config.small onceCommands (by decide) (by decide)

end LimitOrderBook
