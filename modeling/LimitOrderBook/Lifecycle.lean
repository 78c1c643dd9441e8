/-
  LimitOrderBook.Lifecycle

  The history of one order over a run.

  An accepted order whose id is submitted once is reported once when it is
  submitted and, if it rests, once more when it leaves the book.  `History` is
  the invariant: it relates what the events say about the order to where the
  order is, and it is kept by every call (`History.step`).  From it follows that
  nothing happens to an order after its last report (`run_terminal`).
-/
import LimitOrderBook.Ledger
import LimitOrderBook.Runs

namespace LimitOrderBook

open Lib MatchingEngine

/-- The id that a command submits. -/
def Command.submits : Command → Option OrderID
  | .processOrder order => some order.id
  | .cancelOrder _ => none

/-- How often a run submits an id. -/
def submissions (cs : List Command) (id : OrderID) : Nat :=
  (cs.filterMap Command.submits).count id

/-- If the command submits an order that is accepted, no other one submits its id. -/
def Command.IdOnce (cs : List Command) : Command → Prop
  | .processOrder order => validateOrder order = true → submissions cs order.id = 1
  | .cancelOrder _ => True

instance (cs : List Command) : (c : Command) → Decidable (c.IdOnce cs)
  | .processOrder order =>
      inferInstanceAs (Decidable (validateOrder order = true → submissions cs order.id = 1))
  | .cancelOrder _ => inferInstanceAs (Decidable True)

/-- The quantity that an id traded in all events. -/
def traded (events : List MatchEvent) (id : OrderID) : Int :=
  (events.map fun event => event.tradedIn id).sum

/-- All reports on an id. -/
def reportsOn (events : List MatchEvent) (id : OrderID) : List ExecutionReport :=
  events.flatMap fun event => event.reportsOn id

/-- The report says that the order is done. -/
def ExecutionReport.terminal (r : ExecutionReport) : Bool :=
  r.status = .filled || r.status = .cancelled

-- ============================================================================
-- Histories that grow at the end
-- ============================================================================

section Snoc

variable {cs : List Command} {c : Command} {events : List MatchEvent} {event : MatchEvent}
  {id : OrderID}

theorem submissions_snoc : submissions (cs ++ [c]) id =
    submissions cs id + if c.submits = some id then 1 else 0 := by
  rw [submissions, submissions, List.filterMap_append, List.count_append]
  cases h : c.submits with
  | none => simp [h]
  | some k =>
      by_cases hk : k = id
      · simp [h, hk]
      · simp [h, hk]

theorem submissions_pos {order : IncomingOrder} (h : Command.processOrder order ∈ cs) :
    0 < submissions cs order.id :=
  List.count_pos_iff.mpr (List.mem_filterMap.mpr ⟨_, h, rfl⟩)

theorem traded_snoc : traded (events ++ [event]) id = traded events id + event.tradedIn id := by
  simp [traded]

theorem reportsOn_snoc :
    reportsOn (events ++ [event]) id = reportsOn events id ++ event.reportsOn id := by
  simp [reportsOn]

theorem traded_silent (h : ∀ event ∈ events, event.Silent id) : traded events id = 0 := by
  rw [traded]
  apply List.sum_eq_zero
  intro q hq
  obtain ⟨event, hevent, rfl⟩ := List.mem_map.mp hq
  exact (h event hevent).traded

theorem reportsOn_silent (h : ∀ event ∈ events, event.Silent id) : reportsOn events id = [] :=
  List.flatMap_eq_nil_iff.mpr fun event hevent => (h event hevent).reports

theorem mem_reportsOn {r : ExecutionReport} (hevent : event ∈ events)
    (hr : r ∈ event.reportsOn id) : r ∈ reportsOn events id :=
  List.mem_flatMap.mpr ⟨event, hevent, hr⟩

end Snoc

-- ============================================================================
-- The history of one order
-- ============================================================================

/-- Where an order is, and how the reports on it go. -/
inductive Life (x : IncomingOrder) (events : List MatchEvent) (B : Book) : Prop where
  | resting (e : Entry) (left : Int) : B.Holds x.id x.side e → e.mapped = true →
      0 < e.remaining → e.view = (x.id, x.price, x.quantity, x.quantity - traded events x.id) →
      reportsOn events x.id = [takerReport x .resting (x.quantity - left) left] →
      Life x events B
  | closed (before : List ExecutionReport) (r : ExecutionReport) : B.Absent x.id →
      reportsOn events x.id = before ++ [r] → r.terminal = true →
      (∀ r' ∈ before, r'.terminal = false) → Life x events B

/-- The quantities that the events give for an order add up. -/
structure Accounted (x : IncomingOrder) (events : List MatchEvent) : Prop where
  nonneg : 0 ≤ traded events x.id
  le : traded events x.id ≤ x.quantity
  reports : ∀ pre event post, events = pre ++ event :: post → ∀ r ∈ event.reportsOn x.id,
    r.filledQuantity = traded (pre ++ [event]) x.id ∧
      r.filledQuantity + r.remainingQuantity = x.quantity ∧
      (r.status = .filled ↔ r.remainingQuantity = 0)

/-- Nothing names an id after the event of its terminal report. -/
def Final (events : List MatchEvent) (id : OrderID) : Prop :=
  ∀ pre event post, events = pre ++ event :: post →
    (∃ r ∈ event.reportsOn id, r.terminal = true) → ∀ later ∈ post, later.Silent id

/-- The invariant of an order from its submission on. -/
structure History (x : IncomingOrder) (events : List MatchEvent) (B : Book) : Prop where
  life : Life x events B
  accounted : Accounted x events
  final : Final events x.id

section History

variable {x : IncomingOrder} {events : List MatchEvent} {event : MatchEvent} {B B' : Book}
  {id : OrderID} {room : Nat → Bool} {c : Command}

theorem Accounted.snoc (hold : ∀ pre event post, events = pre ++ event :: post →
      ∀ r ∈ event.reportsOn x.id, r.filledQuantity = traded (pre ++ [event]) x.id ∧
        r.filledQuantity + r.remainingQuantity = x.quantity ∧
        (r.status = .filled ↔ r.remainingQuantity = 0))
    (hnonneg : 0 ≤ traded events x.id + event.tradedIn x.id)
    (hle : traded events x.id + event.tradedIn x.id ≤ x.quantity)
    (hnew : ∀ r ∈ event.reportsOn x.id,
      r.filledQuantity = traded events x.id + event.tradedIn x.id ∧
        r.filledQuantity + r.remainingQuantity = x.quantity ∧
        (r.status = .filled ↔ r.remainingQuantity = 0)) : Accounted x (events ++ [event]) := by
  refine ⟨by rwa [traded_snoc], by rwa [traded_snoc], ?_⟩
  intro pre ev post hsplit r hr
  rcases split_snoc hsplit with ⟨rfl, rfl, -⟩ | ⟨post', hxs, -⟩
  · rw [traded_snoc]
    exact hnew r hr
  · exact hold pre ev post' hxs r hr

theorem Final.snoc (hold : Final events id)
    (hnew : (∃ r ∈ reportsOn events id, r.terminal = true) → event.Silent id) :
    Final (events ++ [event]) id := by
  intro pre ev post hsplit hterminal later hlater
  rcases split_snoc hsplit with ⟨-, -, rfl⟩ | ⟨post', hxs, rfl⟩
  · exact absurd hlater List.not_mem_nil
  · rcases List.mem_append.mp hlater with hlater | hlater
    · exact hold pre ev post' hxs hterminal later hlater
    · obtain rfl := List.mem_singleton.mp hlater
      obtain ⟨r, hr, ht⟩ := hterminal
      exact hnew ⟨r, mem_reportsOn (by rw [hxs]; simp) hr, ht⟩

/-- A silent event changes nothing in a history. -/
theorem Accounted.silent (h : Accounted x events) (hs : event.Silent x.id) :
    Accounted x (events ++ [event]) := by
  refine Accounted.snoc h.reports ?_ ?_ fun r hr => ?_
  · rw [hs.traded, Int.add_zero]
    exact h.nonneg
  · rw [hs.traded, Int.add_zero]
    exact h.le
  · rw [hs.reports] at hr
    exact absurd hr List.not_mem_nil

/-- The report of a resting order is not terminal. -/
theorem not_terminal_of_resting {filled left : Int}
    (h : reportsOn events x.id = [takerReport x .resting filled left]) :
    ¬ ∃ r ∈ reportsOn events x.id, r.terminal = true := by
  rintro ⟨r, hr, ht⟩
  rw [h] at hr
  obtain rfl := List.mem_singleton.mp hr
  exact absurd ht (by simp [takerReport, ExecutionReport.terminal])

/-- A call keeps the history of every order that it does not submit. -/
theorem History.step (h : History x events B)
    (hid : ∀ order, c = .processOrder order → order.id ≠ x.id)
    (hstep : B.Step room c event B') : History x (events ++ [event]) B' := by
  cases h.life with
  | closed before r habsent hreports hterminal hbefore =>
      obtain ⟨habsent', hsilent⟩ := Book.step_absent hid hstep habsent
      refine ⟨.closed before r habsent' ?_ hterminal hbefore, h.accounted.silent hsilent,
        h.final.snoc fun _ => hsilent⟩
      rw [reportsOn_snoc, hsilent.reports, List.append_nil, hreports]
  | resting e left hholds hmapped hpos hview hreports =>
      have hfinal : Final (events ++ [event]) x.id :=
        h.final.snoc fun hterminal => absurd hterminal (not_terminal_of_resting hreports)
      simp only [Entry.view, Prod.mk.injEq] at hview
      obtain ⟨heid, hprice, hquantity, hremaining⟩ := hview
      have hnonneg := h.accounted.nonneg
      have hle := h.accounted.le
      -- the order leaves the book with a last report
      have hlast : ∀ r, B'.Absent x.id → event.reportsOn x.id = [r] → r.terminal = true →
          Life x (events ++ [event]) B' := by
        intro r habsent hr hterminal
        refine .closed (reportsOn events x.id) r habsent ?_ hterminal fun r' hr' => ?_
        · rw [reportsOn_snoc, hr]
        · rw [Bool.eq_false_iff]
          exact fun ht => not_terminal_of_resting hreports ⟨r', hr', ht⟩
      cases Book.step_holds hid hstep hholds hmapped with
      | untouched hholds' hsilent =>
          refine ⟨.resting e left hholds' hmapped hpos ?_ ?_, h.accounted.silent hsilent, hfinal⟩
          · rw [traded_snoc, hsilent.traded, Int.add_zero]
            simp only [Entry.view, heid, hprice, hquantity, hremaining]
          · rw [reportsOn_snoc, hsilent.reports, List.append_nil, hreports]
      | reduced q hq hlt hholds' htraded hnone =>
          refine ⟨.resting _ left hholds' hmapped ?_ ?_ ?_,
            Accounted.snoc h.accounted.reports ?_ ?_ fun r hr => ?_, hfinal⟩
          · show 0 < e.remaining - q
            omega
          · rw [traded_snoc, htraded]
            simp only [Entry.view, heid, hprice, hquantity, hremaining, Prod.mk.injEq, true_and]
            omega
          · rw [reportsOn_snoc, hnone, List.append_nil, hreports]
          · omega
          · omega
          · rw [hnone] at hr
            exact absurd hr List.not_mem_nil
      | filled habsent htraded hr =>
          refine ⟨hlast _ habsent hr rfl, Accounted.snoc h.accounted.reports ?_ ?_ ?_, hfinal⟩
          · omega
          · omega
          · intro r' hr'
            rw [hr] at hr'
            obtain rfl := List.mem_singleton.mp hr'
            refine ⟨?_, ?_, ?_⟩
            · show e.quantity = _
              omega
            · show e.quantity + 0 = _
              omega
            · simp [makerReport]
      | cancelled habsent htrades hr =>
          have htraded : event.tradedIn x.id = 0 := by
            rw [MatchEvent.tradedIn, htrades]
            rfl
          refine ⟨hlast _ habsent hr rfl, Accounted.snoc h.accounted.reports ?_ ?_ ?_, hfinal⟩
          · omega
          · omega
          · intro r' hr'
            rw [hr] at hr'
            obtain rfl := List.mem_singleton.mp hr'
            refine ⟨?_, ?_, ?_⟩
            · show e.quantity - e.remaining = _
              omega
            · show e.quantity - e.remaining + e.remaining = _
              omega
            · have hne : e.remaining ≠ 0 := by omega
              simp [Book.cancelReport, hne]

/-- An order whose id is new starts its history with its own call. -/
theorem History.submit (hv : validateOrder x = true) (hpositive : B.Positive)
    (habsent : B.Absent x.id) (hsilent : ∀ event ∈ events, event.Silent x.id)
    (hstep : B.Step room (.processOrder x) event B') : History x (events ++ [event]) B' := by
  have hB' : B' = (B.process room x).1 := (congrArg Prod.fst hstep).symm
  have hevent : event = (B.process room x).2 := (congrArg Prod.snd hstep).symm
  obtain ⟨left, status, hleft, hle, htraded, hreports, hcases⟩ :=
    @Book.submit_absent B x room hv hpositive habsent
  rw [← hevent] at htraded hreports
  rw [← hB'] at hcases
  have hzero : traded events x.id = 0 := traded_silent hsilent
  have hnone : reportsOn events x.id = [] := reportsOn_silent hsilent
  have hall : reportsOn (events ++ [event]) x.id =
      [takerReport x status (x.quantity - left) left] := by
    rw [reportsOn_snoc, hnone, hreports, List.nil_append]
  have hold : ∀ pre event post, events = pre ++ event :: post →
      event.reportsOn x.id = [] := by
    rintro pre ev post rfl
    exact (hsilent ev (by simp)).reports
  refine ⟨?_, Accounted.snoc ?_ (by omega) (by omega) ?_, Final.snoc ?_ ?_⟩
  · rcases hcases with ⟨-, hst, hgone⟩ | ⟨hz, hst, hholds⟩ | ⟨-, hst, hgone⟩
    · refine .closed [] _ hgone hall ?_ (fun r hr => absurd hr List.not_mem_nil)
      rw [hst]
      rfl
    · refine .resting _ left hholds rfl ?_ ?_ (by rw [hall, hst])
      · show 0 < left
        omega
      · simp only [Entry.view, Prod.mk.injEq, true_and]
        rw [traded_snoc]
        omega
    · refine .closed [] _ hgone hall ?_ (fun r hr => absurd hr List.not_mem_nil)
      rw [hst]
      rfl
  · intro pre ev post hsplit r hr
    rw [hold pre ev post hsplit] at hr
    exact absurd hr List.not_mem_nil
  · intro r hr
    rw [hreports] at hr
    obtain rfl := List.mem_singleton.mp hr
    refine ⟨?_, ?_, ?_⟩
    · show x.quantity - left = _
      omega
    · show x.quantity - left + left = _
      omega
    · show status = .filled ↔ left = 0
      rcases hcases with ⟨hz, hst, -⟩ | ⟨hz, hst, -⟩ | ⟨hz, hst, -⟩ <;> simp [hz, hst]
  · intro pre ev post hsplit hterminal
    rw [hold pre ev post hsplit] at hterminal
    obtain ⟨r, hr, -⟩ := hterminal
    exact absurd hr List.not_mem_nil
  · rintro ⟨r, hr, -⟩
    rw [hnone] at hr
    exact absurd hr List.not_mem_nil

end History

-- ============================================================================
-- Runs
-- ============================================================================

section Runs

variable {n capacity : Nat} {s s' : MatchingEngine} {cs : List Command}
  {events : List MatchEvent} {id : OrderID} {x : IncomingOrder}

/-- An id that no command submits is not on the book and never named. -/
theorem trace_absent (h : Trace (Call n capacity) s cs events s') (hs : s.book = {})
    (hnone : submissions cs id = 0) :
    s'.book.Absent id ∧ ∀ event ∈ events, event.Silent id := by
  induction h with
  | nil =>
      rw [hs]
      exact ⟨fun side => by cases side <;> rfl, fun event he => absurd he List.not_mem_nil⟩
  | snoc _ hcall ih =>
      rename_i t u c event _
      rw [submissions_snoc] at hnone
      obtain ⟨habsent, hsilent⟩ := ih (by omega)
      have hid : ∀ order, c = .processOrder order → order.id ≠ id := by
        rintro order rfl rfl
        simp [Command.submits] at hnone
      obtain ⟨habsent', hsilent'⟩ := Book.step_absent hid hcall.book habsent
      refine ⟨habsent', fun ev hev => ?_⟩
      rcases List.mem_append.mp hev with hev | hev
      · exact hsilent ev hev
      · exact List.mem_singleton.mp hev ▸ hsilent'

/-- An id that no accepted order has is not on the book, and its reports are
    rejections. -/
theorem trace_rejected (h : Trace (Call n capacity) s cs events s') (hs : s.book = {})
    (hnone : ∀ order, .processOrder order ∈ cs → validateOrder order = true → order.id ≠ id) :
    s'.book.Absent id ∧ ∀ r ∈ reportsOn events id, r.status = .cancelled := by
  induction h with
  | nil =>
      rw [hs]
      exact ⟨fun side => by cases side <;> rfl, fun r hr => absurd hr List.not_mem_nil⟩
  | snoc _ hcall ih =>
      rename_i t u c event _
      obtain ⟨habsent, hreports⟩ := ih fun order ho => hnone order (List.mem_append_left _ ho)
      have hone : u.book.Absent id ∧ ∀ r ∈ event.reportsOn id, r.status = .cancelled := by
        by_cases hid : ∀ order, c = .processOrder order → order.id ≠ id
        · obtain ⟨habsent', hsilent⟩ := Book.step_absent hid hcall.book habsent
          refine ⟨habsent', fun r hr => ?_⟩
          rw [hsilent.reports] at hr
          exact absurd hr List.not_mem_nil
        · push Not at hid
          obtain ⟨order, rfl, hoid⟩ := hid
          have hv : validateOrder order = false := by
            rw [Bool.eq_false_iff]
            exact fun hv => hnone order (by simp) hv hoid
          have hstep : t.book.process (roomIn capacity) order = (u.book, event) := hcall.book
          simp only [Book.process, hv, Bool.not_false, if_true, Prod.mk.injEq] at hstep
          obtain ⟨hbook, rfl⟩ := hstep
          rw [← hbook]
          refine ⟨habsent, fun r hr => ?_⟩
          obtain rfl := List.mem_singleton.mp (List.mem_filter.mp hr).1
          rfl
      refine ⟨hone.1, fun r hr => ?_⟩
      rw [reportsOn_snoc] at hr
      rcases List.mem_append.mp hr with hr | hr
      · exact hreports r hr
      · exact hone.2 r hr

/-- The invariant holds of every accepted order whose id is submitted once. -/
theorem trace_history (h : Trace (Call n capacity) s cs events s') (hs : s.book = {})
    (hmem : .processOrder x ∈ cs) (hv : validateOrder x = true)
    (honce : submissions cs x.id = 1) : History x events s'.book := by
  induction h with
  | nil => exact absurd hmem List.not_mem_nil
  | snoc htrace hcall ih =>
      rename_i cs _ _ _ c _
      rw [submissions_snoc] at honce
      by_cases hsub : c.submits = some x.id
      · rw [if_pos hsub] at honce
        have hnone : submissions cs x.id = 0 := by omega
        obtain ⟨habsent, hsilent⟩ := trace_absent htrace hs hnone
        have hc : c = .processOrder x := by
          rcases List.mem_append.mp hmem with hin | hin
          · have := submissions_pos hin
            omega
          · exact (List.mem_singleton.mp hin).symm
        subst hc
        exact History.submit hv hcall.positive habsent hsilent hcall.book
      · rw [if_neg hsub] at honce
        have hin : .processOrder x ∈ cs := by
          rcases List.mem_append.mp hmem with hin | hin
          · exact hin
          · exact absurd (by rw [← List.mem_singleton.mp hin]; rfl) hsub
        refine (ih hin honce).step ?_ hcall.book
        rintro order rfl hid
        exact hsub (by rw [← hid]; rfl)

/-- An entry of the book belongs to its history. -/
theorem History.entry {B : Book} (h : History x events B) {side : Side} {e : Entry}
    (he : e ∈ B.side side) (hid : e.id = x.id) :
    side = x.side ∧ e.view = (x.id, x.price, x.quantity, x.quantity - traded events x.id) ∧
      ∃ left, reportsOn events x.id = [takerReport x .resting (x.quantity - left) left] := by
  cases h.life with
  | resting e' left hholds _ _ hview hreports =>
      obtain ⟨rfl, rfl⟩ := hholds.unique he hid
      exact ⟨rfl, hview, left, hreports⟩
  | closed _ _ habsent => exact absurd hid (habsent.not_mem he)

end Runs

-- ============================================================================
-- Terminal reports
-- ============================================================================

/-- In every run an accepted order gets at most one terminal report, has it
    exactly when it is not on the book, and is never named after it. -/
theorem run_terminal (config : Config) (cs : List Command)
    (h : ∀ c ∈ cs, c.LimitBelow config.maxLevels) (honce : ∀ c ∈ cs, c.IdOnce cs) :
    ∃ engine events, config.engine.run cs = some (engine, events) ∧
      ∀ x, .processOrder x ∈ cs → validateOrder x = true →
        ((reportsOn events x.id).filter ExecutionReport.terminal).length ≤ 1 ∧
        (((reportsOn events x.id).filter ExecutionReport.terminal).length = 1 ↔
          ¬ ∃ side, ∃ e ∈ engine.book.side side, e.id = x.id) ∧
        Final events x.id := by
  obtain ⟨engine, events, hrun, -, htrace⟩ := config.run_calls h
  refine ⟨engine, events, hrun, fun x hx hv => ?_⟩
  have hhistory : History x events engine.book :=
    trace_history htrace config.engine_book hx hv (honce _ hx hv)
  cases hhistory.life with
  | resting e left hholds _ _ _ hreports =>
      have hnone : (reportsOn events x.id).filter ExecutionReport.terminal = [] := by
        rw [List.filter_eq_nil_iff]
        exact fun r hr ht => not_terminal_of_resting hreports ⟨r, hr, ht⟩
      obtain ⟨he, heid⟩ := hholds.mem
      refine ⟨by simp [hnone], ?_, hhistory.final⟩
      rw [hnone]
      exact ⟨fun hc => absurd hc (by simp), fun hc => absurd ⟨x.side, e, he, heid⟩ hc⟩
  | closed before r habsent hreports hterminal hbefore =>
      have hone : (reportsOn events x.id).filter ExecutionReport.terminal = [r] := by
        have hnone : before.filter ExecutionReport.terminal = [] := by
          rw [List.filter_eq_nil_iff]
          exact fun r' hr' ht => absurd ht (by simp [hbefore r' hr'])
        rw [hreports, List.filter_append, hnone, List.nil_append,
          List.filter_cons_of_pos hterminal, List.filter_nil]
      refine ⟨by simp [hone], ?_, hhistory.final⟩
      rw [hone]
      refine ⟨fun _ => ?_, fun _ => rfl⟩
      rintro ⟨side, e, he, heid⟩
      exact habsent.not_mem he heid

/-- A buy that fills one ask, half of another and is done; a cancel of a third
    ask; a bid that rests; a cancel of an id that is gone. -/
def onceCommands : List Command :=
  [.processOrder (makeOrder 1 .sell 5 20), .processOrder (makeOrder 2 .sell 5 30),
    .processOrder (makeOrder 3 .sell 6 10), .processOrder (makeOrder 4 .buy 5 35),
    .cancelOrder 3, .processOrder (makeOrder 5 .buy 4 7), .cancelOrder 1]

/-- The orders of this run are done once. -/
theorem once_terminal : ∃ engine events,
    Config.small.engine.run onceCommands = some (engine, events) ∧
      ∀ x, .processOrder x ∈ onceCommands → validateOrder x = true →
        ((reportsOn events x.id).filter ExecutionReport.terminal).length ≤ 1 ∧
        (((reportsOn events x.id).filter ExecutionReport.terminal).length = 1 ↔
          ¬ ∃ side, ∃ e ∈ engine.book.side side, e.id = x.id) ∧
        Final events x.id :=
  run_terminal Config.small onceCommands (by decide) (by decide)

end LimitOrderBook
