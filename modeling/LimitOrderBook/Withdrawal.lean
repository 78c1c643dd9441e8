/-
  LimitOrderBook.Withdrawal

  An order that is cancelled without having traded leaves no trace.

  Two books are compared along a run: the one with the order, and the one with
  everything under its id filtered out (`Book.without`).  A call that does not
  name the id, and whose trades do not, answers alike on both and leaves them so
  related (`step_without`): a sweep that takes nothing from the order may stop in
  front of it, but then nothing behind it crosses either.  The cancel of the
  order is the same filter.
-/
import LimitOrderBook.Replay
import LimitOrderBook.Ledger

namespace LimitOrderBook

open Lib MatchingEngine

/-- The command submits or cancels the id. -/
def Command.names (id : OrderID) : Command → Bool
  | .processOrder order => order.id = id
  | .cancelOrder k => k = id

namespace Book

/-- The book with nothing under an id. -/
def without (B : Book) (id : OrderID) : Book where
  bids := B.bids.filter fun e => e.id ≠ id
  asks := B.asks.filter fun e => e.id ≠ id

section

variable {B : Book} {order : IncomingOrder} {id k : OrderID} {left : Int} {side : Side}
  {room : Nat → Bool} {c : Command} {e : Entry}

@[simp] theorem without_side (side : Side) :
    (B.without id).side side = (B.side side).filter fun e => e.id ≠ id := by
  cases side <;> rfl

theorem without_absent (h : B.Absent id) : B.without id = B := by
  refine ext_side fun side => ?_
  rw [without_side, List.filter_eq_self]
  intro e he
  simpa using h.not_mem he

theorem without_size_le : (B.without id).size ≤ B.size :=
  Nat.add_le_add (List.length_filter_le ..) (List.length_filter_le ..)

-- ============================================================================
-- One call
-- ============================================================================

/-- Of two resting orders, the later one crosses only if the earlier one does. -/
theorem crosses_pairwise (hsorted : B.Sorted) (order : IncomingOrder) :
    (B.side order.side.opposite).Pairwise fun a b =>
      order.crosses b.price = true → order.crosses a.price = true := by
  refine (hsorted.pairwise order.side.opposite).imp fun {a b} hworse hb => ?_
  by_contra ha
  rw [Bool.not_eq_true] at ha
  by_cases hprice : a.price = b.price
  · rw [hprice, hb] at ha
    exact absurd ha (by decide)
  · have hbetter : order.side.opposite.better a.price b.price := by
      cases hs : order.side <;> simp only [hs, Side.opposite, Side.better] at hworse ⊢ <;> omega
    rw [crosses_of_better ha hbetter] at hb
    exact absurd hb Bool.false_ne_true

theorem forgetAll_filter (ids : List OrderID) (l : List Entry) :
    (l.filter fun e => e.id ≠ id).map (Entry.forgetAll ids) =
      (l.map (Entry.forgetAll ids)).filter fun e => e.id ≠ id := by
  rw [List.filter_map]
  congr 1
  exact List.filter_congr fun e _ => by simp

theorem forget_filter (l : List Entry) :
    (l.filter fun e => e.id ≠ id).map (Entry.forget k) =
      (l.map (Entry.forget k)).filter fun e => e.id ≠ id :=
  forgetAll_filter [k] l

/-- Matching that takes nothing from an id does not see it. -/
theorem matched_without (hid : order.id ≠ id) (hsorted : B.Sorted)
    (htrades : (B.matched order left).trades.filter (Trade.names id) = []) :
    (B.without id).matched order left =
      { B.matched order left with book := (B.matched order left).book.without id } := by
  have htaken : ∀ t ∈ (B.sweep order left).taken, decide (t.1.id ≠ id) = true := by
    intro t ht
    rw [decide_eq_true_eq]
    intro heq
    have hfill : t ∈ B.fillsOn order left id :=
      List.mem_filter.mpr ⟨ht, by simpa using heq⟩
    rw [matched_tradesOn hid, List.map_eq_nil_iff] at htrades
    rw [htrades] at hfill
    exact absurd hfill List.not_mem_nil
  have hsweep : (B.without id).sweep order left =
      ⟨(B.sweep order left).taken, (B.sweep order left).kept.filter fun e => e.id ≠ id,
        (B.sweep order left).left⟩ := by
    rw [sweep, without_side]
    exact Supply.sweep_filter (fun e q => by rw [reduce_id]) (crosses_pairwise hsorted order) htaken
  have hbook : ((B.without id).matched order left).book =
      (B.matched order left).book.without id := by
    refine ext_side fun side => ?_
    rw [without_side]
    rcases Side.eq_or_eq_opposite order.side side with rfl | rfl
    · rw [matched_own, matched_own, without_side, consumed, hsweep]
      exact forgetAll_filter ..
    · rw [matched_opposite, matched_opposite, consumed, hsweep]
      exact forgetAll_filter ..
  rw [← hbook]
  simp only [matched, consumed, hsweep]

/-- So does resting another order. -/
theorem rest_without (hid : order.id ≠ id) (hsorted : B.Sorted) :
    (B.without id).rest order left = (B.rest order left).without id := by
  refine ext_side fun side => ?_
  have hpairwise := (forget_sorted order.id hsorted).pairwise order.side
  rw [without_side]
  rcases Side.eq_or_eq_opposite order.side side with rfl | rfl
  · rw [rest, rest, setSide_side, setSide_side, forget_side, without_side, forget_filter,
      Buckets.filter_orderedInsert_of_pos (better_trans_price order.side) (by simpa using hid)
        hpairwise, forget_side]
  · rw [rest, rest, setSide_side_opposite, setSide_side_opposite, forget_side, without_side,
      forget_filter, forget_side]

theorem process_without (hid : order.id ≠ id) (hsorted : B.Sorted)
    (hmono : ∀ s t, s ≤ t → room t = true → room s = true)
    (htrades : (B.process room order).2.tradesOn id = [])
    (hroom : B.lacksRoom room (.processOrder order) = false) :
    (B.without id).process room order =
      ((B.process room order).1.without id, (B.process room order).2) := by
  cases hv : validateOrder order with
  | false => simp [process, hv]
  | true =>
      obtain ⟨status, hevent, -⟩ := process_cases room B hv
      rw [hevent] at htrades
      have hm := matched_without hid hsorted htrades
      have hms := matched_sorted order order.quantity hsorted
      simp only [lacksRoom, hv, Bool.true_and] at hroom
      simp only [process, hv, Bool.not_true, Bool.false_eq_true, if_false, hm]
      generalize B.matched order order.quantity = m at *
      by_cases hz : m.left = 0
      · simp only [hz, if_true]
      · by_cases hl : order.type = .limit
        · have hin : room m.book.size = true := by simpa [hz, hl] using hroom
          have hin' : room (m.book.without id).size = true := hmono _ _ without_size_le hin
          simp only [hz, hl, hin, hin', if_false, and_self, if_true]
          rw [rest_without hid hms]
        · simp only [hz, hl, if_false, false_and]

theorem find_target_without (hk : k ≠ id) (l : List Entry) :
    (l.filter fun e => e.id ≠ id).find? (Entry.isTarget k) = l.find? (Entry.isTarget k) := by
  rw [List.find?_filter]
  congr 1
  funext e
  cases ht : e.isTarget k with
  | false => simp
  | true =>
      have he : e.id ≠ id := by
        rw [Entry.id_of_isTarget ht]
        exact hk
      simp [he]

theorem erase_target_without (hk : k ≠ id) (l : List Entry) :
    (l.filter fun e => e.id ≠ id).eraseP (Entry.isTarget k) =
      (l.eraseP (Entry.isTarget k)).filter fun e => e.id ≠ id := by
  rw [List.eraseP_filter]
  congr 2
  funext e
  cases ht : e.isTarget k with
  | false => rfl
  | true =>
      have he : e.id ≠ id := by
        rw [Entry.id_of_isTarget ht]
        exact hk
      simp [he]

theorem cancel_without (hk : k ≠ id) :
    (B.without id).cancel k = ((B.cancel k).1.without id, (B.cancel k).2) := by
  simp only [cancel, without, find_target_without hk, erase_target_without hk]
  cases B.bids.find? (Entry.isTarget k) with
  | some e => rfl
  | none =>
      cases B.asks.find? (Entry.isTarget k) with
      | some e => rfl
      | none => rfl

/-- A call that has nothing to do with an id does not see what is under it. -/
theorem step_without (hc : c.names id = false) (hsorted : B.Sorted)
    (hmono : ∀ s t, s ≤ t → room t = true → room s = true)
    (htrades : (B.step room c).2.tradesOn id = []) (hroom : B.lacksRoom room c = false) :
    (B.without id).step room c = ((B.step room c).1.without id, (B.step room c).2) := by
  cases c with
  | processOrder order =>
      exact process_without (by simpa [Command.names] using hc) hsorted hmono htrades hroom
  | cancelOrder k => exact cancel_without (by simpa [Command.names] using hc)

-- ============================================================================
-- The calls that name the id
-- ============================================================================

/-- At most one order has the id, and the id leads to it. -/
def Listed (B : Book) (id : OrderID) : Prop :=
  (∃ side e, B.Holds id side e ∧ e.mapped = true) ∨ B.Absent id

/-- Cancelling the only entry with an id takes out all that is under it. -/
theorem find_own {l : List Entry} (h : l.filter (fun e => e.id = id) = [e])
    (hmapped : e.mapped = true) :
    l.find? (Entry.isTarget id) = some e ∧
      l.eraseP (Entry.isTarget id) = l.filter fun e => e.id ≠ id := by
  induction l with
  | nil => exact absurd h (by simp)
  | cons x l ih =>
      by_cases hx : x.id = id
      · rw [List.filter_cons_of_pos (by simpa using hx)] at h
        obtain ⟨rfl, hrest⟩ := List.cons.inj h
        have htarget : x.isTarget id = true := by simp [Entry.isTarget, hmapped, hx]
        rw [List.find?_cons_of_pos htarget, List.eraseP_cons_of_pos htarget,
          List.filter_cons_of_neg (by simpa using hx)]
        refine ⟨rfl, (List.filter_eq_self.mpr fun y hy => ?_).symm⟩
        have hy' := List.filter_eq_nil_iff.mp hrest y hy
        simpa using hy'
      · have htarget : ¬ x.isTarget id = true := fun ht => hx (Entry.id_of_isTarget ht)
        rw [List.filter_cons_of_neg (by simpa using hx)] at h
        obtain ⟨hfind, herase⟩ := ih h
        rw [List.find?_cons_of_neg htarget, List.eraseP_cons_of_neg htarget,
          List.filter_cons_of_pos (by simpa using hx), herase]
        exact ⟨hfind, rfl⟩

/-- The cancel of a listed id is the filter that hides it. -/
theorem cancel_listed (h : B.Listed id) : (B.cancel id).1 = B.without id := by
  rcases h with ⟨side, e, hholds, hmapped⟩ | habsent
  · obtain ⟨hfind, herase⟩ := find_own hholds.own hmapped
    have hnone : ∀ x ∈ B.side side.opposite, x.id ≠ id := by
      intro x hx hid
      exact side.opposite_ne (hholds.unique hx hid).1
    have hother : (B.side side.opposite).find? (Entry.isTarget id) = none := by
      rw [List.find?_eq_none]
      exact fun x hx ht => hnone x hx (Entry.id_of_isTarget ht)
    rw [cancel_of_find hfind hother]
    refine ext_side fun s => ?_
    rw [without_side]
    rcases Side.eq_or_eq_opposite side s with rfl | rfl
    · rw [setSide_side, herase]
    · rw [setSide_side_opposite]
      exact (List.filter_eq_self.mpr fun x hx => by simpa using hnone x hx).symm
  · rw [without_absent habsent, cancel_of_find_none fun side => ?_]
    rw [List.find?_eq_none]
    exact fun x hx ht => habsent.not_mem hx (Entry.id_of_isTarget ht)

/-- Submitting a Limit order that does not trade only adds it. -/
theorem submit_without (h : B.Absent order.id) (hlimit : order.type = .limit)
    (htrades : (B.process room order).2.tradesOn order.id = [])
    (hroom : B.lacksRoom room (.processOrder order) = false) :
    (B.process room order).1.without order.id = B ∧
      (B.process room order).1.Listed order.id := by
  cases hv : validateOrder order with
  | false =>
      rw [process_rejected room B hv]
      exact ⟨without_absent h, .inr h⟩
  | true =>
      obtain ⟨hpos, -, -⟩ := validateOrder_pos hv
      obtain ⟨status, hevent, -⟩ := process_cases room B hv
      -- every trade of the call would name the order
      have htaken : (B.sweep order order.quantity).taken = [] := by
        rw [hevent, MatchEvent.tradesOn, List.filter_eq_nil_iff] at htrades
        by_contra hne
        obtain ⟨t, ht⟩ := List.exists_mem_of_ne_nil _ hne
        exact htrades _ (List.mem_map_of_mem ht) (names_takerTrade rfl t)
      have hm := matched_of_taken_nil (Supply.sweep_of_taken_nil htaken)
      have hz : ¬ order.quantity = 0 := by omega
      simp only [lacksRoom, hv, hm, hlimit] at hroom
      have hin : room B.size = true := by simpa [hz] using hroom
      rw [process_of_taken_nil hv hlimit htaken hin]
      refine ⟨?_, .inl ⟨_, _, rest_holds h, rfl⟩⟩
      have hforget : ∀ l : List Entry, (∀ e ∈ l, e.id ≠ order.id) →
          (l.map (Entry.forget order.id)).filter (fun e => e.id ≠ order.id) = l := by
        intro l hl
        have hsame : l.map (Entry.forget order.id) = l :=
          (List.map_congr_left fun e he => if_neg (hl e he)).trans (List.map_id' _)
        rw [hsame, List.filter_eq_self]
        exact fun e he => by simpa using hl e he
      refine ext_side fun side => ?_
      rw [without_side]
      rcases Side.eq_or_eq_opposite order.side side with rfl | rfl
      · rw [rest, setSide_side, forget_side, Buckets.filter_orderedInsert_of_neg (by simp)]
        exact hforget _ fun e he => h.not_mem he
      · rw [rest, setSide_side_opposite, forget_side]
        exact hforget _ fun e he => h.not_mem he

-- ============================================================================
-- Runs of the book
-- ============================================================================

theorem submits_of_names (hc : c.names id = false) :
    ∀ order, c = .processOrder order → order.id ≠ id := by
  rintro order rfl
  simpa [Command.names] using hc

theorem Listed.step (h : B.Listed id) (hc : c.names id = false) :
    (B.step room c).1.Listed id := by
  rcases h with ⟨side, e, hholds, hmapped⟩ | habsent
  · cases @step_holds B _ id side e room c _ (submits_of_names hc) rfl hholds hmapped with
    | untouched hsame _ => exact .inl ⟨_, _, hsame, hmapped⟩
    | reduced q _ _ hsame _ _ => exact .inl ⟨_, _, hsame, hmapped⟩
    | filled hgone _ _ => exact .inr hgone
    | cancelled hgone _ _ => exact .inr hgone
  · exact .inr (@step_absent B _ id room c _ (submits_of_names hc) rfl habsent).1

theorem run_absent {cs : List Command} (hcs : ∀ order, .processOrder order ∈ cs → order.id ≠ id)
    (h : B.Absent id) : (B.run room cs).1.Absent id := by
  induction cs generalizing B with
  | nil => exact h
  | cons c cs ih =>
      apply ih fun order horder => hcs order (List.mem_cons_of_mem _ horder)
      have hc : ∀ order, c = .processOrder order → order.id ≠ id := by
        rintro order rfl
        exact hcs order (List.mem_cons_self ..)
      exact (@step_absent B _ id room c _ hc rfl h).1

/-- A run that has nothing to do with an id does not see what is under it. -/
theorem run_without {cs : List Command} (hcs : ∀ c ∈ cs, c.names id = false)
    (hsorted : B.Sorted) (hmono : ∀ s t, s ≤ t → room t = true → room s = true)
    (htrades : ∀ event ∈ (B.run room cs).2, event.tradesOn id = [])
    (hroom : ∀ pre c post, cs = pre ++ c :: post →
      (B.run room pre).1.lacksRoom room c = false) (hlisted : B.Listed id) :
    (B.without id).run room cs = ((B.run room cs).1.without id, (B.run room cs).2) ∧
      (B.run room cs).1.Listed id := by
  induction cs generalizing B with
  | nil => exact ⟨rfl, hlisted⟩
  | cons c cs ih =>
      have hc := hcs c (List.mem_cons_self ..)
      have hstep := step_without hc hsorted hmono (htrades _ (List.mem_cons_self ..))
        (hroom [] c cs rfl)
      obtain ⟨hrun, hlisted'⟩ := ih (fun d hd => hcs d (List.mem_cons_of_mem _ hd))
        (step_sorted room c hsorted)
        (fun event hevent => htrades event (List.mem_cons_of_mem _ hevent))
        (fun pre d post hsplit => hroom (c :: pre) d post (by rw [hsplit]; rfl)) (hlisted.step hc)
      refine ⟨?_, hlisted'⟩
      rw [run, hstep, hrun]
      rfl

/-- What comes between the submission of a Limit order that never trades and its
    cancel answers as without the order, and leaves the same book. -/
theorem run_withdrawn {cs : List Command} (hcs : ∀ c ∈ cs, c.names order.id = false)
    (hsorted : B.Sorted) (hmono : ∀ s t, s ≤ t → room t = true → room s = true)
    (habsent : B.Absent order.id) (hlimit : order.type = .limit)
    (hquiet : (B.process room order).2.tradesOn order.id = [])
    (hplace : B.lacksRoom room (.processOrder order) = false)
    (htrades : ∀ event ∈ ((B.process room order).1.run room cs).2,
      event.tradesOn order.id = [])
    (hroom : ∀ pre c post, cs = pre ++ c :: post →
      ((B.process room order).1.run room pre).1.lacksRoom room c = false) :
    B.run room cs = ((((B.process room order).1.run room cs).1.cancel order.id).1,
      ((B.process room order).1.run room cs).2) := by
  obtain ⟨hwithout, hlisted⟩ := submit_without habsent hlimit hquiet hplace
  have hsorted' : (B.process room order).1.Sorted := step_sorted room (.processOrder order) hsorted
  obtain ⟨hrun, hlisted'⟩ := run_without hcs hsorted' hmono htrades hroom hlisted
  rw [hwithout] at hrun
  rw [hrun, cancel_listed hlisted']

end

end Book

-- ============================================================================
-- Runs of the engine
-- ============================================================================

/-- A pool with room has room when less is linked. -/
theorem roomIn_size_antitone (capacity s t : Nat) (hst : s ≤ t) (ht : roomIn capacity t = true) :
    roomIn capacity s = true := by
  rw [roomIn, decide_eq_true_eq] at ht ⊢
  omega

/-- A Limit order that is submitted, never trades and is cancelled might as well
    not have been there: every other call answers as in the run without it, and
    the books and the ids in the maps at the end are the same. -/
theorem run_invisible (config : Config) (H₁ H₂ H₃ : List Command) (x : IncomingOrder)
    (hlimit : x.type = .limit) (hprice : x.price < config.maxLevels)
    (hbelow : ∀ c ∈ H₁ ++ H₂ ++ H₃, c.LimitBelow config.maxLevels)
    (hnames : ∀ c ∈ H₁ ++ H₂ ++ H₃, c.names x.id = false) {engine : MatchingEngine}
    {events : List MatchEvent}
    (hrun : config.engine.run
      (H₁ ++ .processOrder x :: H₂ ++ .cancelOrder x.id :: H₃) = some (engine, events))
    (htrades : ∀ event ∈ events, event.tradesOn x.id = [])
    (hroom : Along MatchingEngine.step (fun s c => s.runsOut c = false) config.engine
      (H₁ ++ .processOrder x :: H₂ ++ .cancelOrder x.id :: H₃)) :
    ∃ (E₁ E₂ E₃ : List MatchEvent) (submitted cancelled : MatchEvent) (other : MatchingEngine),
      E₁.length = H₁.length ∧ E₂.length = H₂.length ∧ E₃.length = H₃.length ∧
      events = E₁ ++ submitted :: E₂ ++ cancelled :: E₃ ∧
      config.engine.run (H₁ ++ H₂ ++ H₃) = some (other, E₁ ++ E₂ ++ E₃) ∧
      other.book = engine.book ∧
      ∀ id, (other.orderMap.lookup id).isSome = (engine.orderMap.lookup id).isSome := by
  obtain ⟨room, hr⟩ : ∃ room, room = roomIn config.poolCapacity := ⟨_, rfl⟩
  have hmono : ∀ s t, s ≤ t → room t = true → room s = true := by
    rw [hr]
    exact roomIn_size_antitone config.poolCapacity
  have hstart := config.engine_sound
  rw [← config.levels_eq] at hprice hbelow
  have hall : ∀ c ∈ H₁ ++ .processOrder x :: H₂ ++ .cancelOrder x.id :: H₃,
      c.LimitBelow config.levels := by
    intro c hc
    simp only [List.mem_append, List.mem_cons] at hc hbelow
    rcases hc with (hc | rfl | hc) | rfl | hc
    · exact hbelow c (.inl (.inl hc))
    · exact fun _ => hprice
    · exact hbelow c (.inl (.inr hc))
    · trivial
    · exact hbelow c (.inr hc)
  have hnames₁ : ∀ c ∈ H₁, c.names x.id = false := fun c hc => hnames c (by simp [hc])
  have hnames₂ : ∀ c ∈ H₂, c.names x.id = false := fun c hc => hnames c (by simp [hc])
  -- the run with the order, in five parts
  obtain ⟨engine', events', hrun', hsound, hbook⟩ := hstart.run_book hall
  obtain ⟨rfl, rfl⟩ := result_unique hrun hrun'
  have hlacks := hstart.room_along hall hroom
  rw [← hr, config.engine_book] at hbook hlacks
  obtain ⟨A₁, hA₁⟩ : ∃ A, A = (Book.run room {} H₁).1 := ⟨_, rfl⟩
  obtain ⟨A₂, hA₂⟩ : ∃ A, A = (A₁.process room x).1 := ⟨_, rfl⟩
  obtain ⟨A₃, hA₃⟩ : ∃ A, A = (A₂.run room H₂).1 := ⟨_, rfl⟩
  obtain ⟨A₄, hA₄⟩ : ∃ A, A = (A₃.cancel x.id).1 := ⟨_, rfl⟩
  have hmiddle : ∀ pre, (Book.run room {} (H₁ ++ .processOrder x :: pre)).1 =
      (A₂.run room pre).1 := by
    intro pre
    rw [Book.run_append, ← hA₁, Book.run, Book.step, ← hA₂]
  have hfull : Book.run room {} (H₁ ++ .processOrder x :: H₂ ++ .cancelOrder x.id :: H₃) =
      ((A₄.run room H₃).1, (Book.run room {} H₁).2 ++ (A₁.process room x).2 ::
        (A₂.run room H₂).2 ++ (A₃.cancel x.id).2 :: (A₄.run room H₃).2) := by
    rw [Book.run_append, hmiddle, ← hA₃, Book.run, Book.step, ← hA₄, Book.run_append, ← hA₁,
      Book.run, Book.step, ← hA₂]
  rw [hfull] at hbook
  obtain ⟨hlast, rfl⟩ := Prod.mk.inj hbook
  -- what comes before the order is sorted and does not have its id
  have hsorted : A₁.Sorted := by
    rw [hA₁]
    exact Book.run_sorted fun side => by cases side <;> exact List.Pairwise.nil
  have habsent : A₁.Absent x.id := by
    rw [hA₁]
    apply Book.run_absent
    · exact fun order horder => Book.submits_of_names (hnames₁ _ horder) order rfl
    · exact fun side => by cases side <;> rfl
  have hplace : A₁.lacksRoom room (.processOrder x) = false := by
    rw [hA₁]
    exact hlacks H₁ (.processOrder x) (H₂ ++ .cancelOrder x.id :: H₃) (by simp)
  have hrun₂ := @Book.run_withdrawn A₁ x room H₂ hnames₂ hsorted hmono habsent hlimit
    (htrades _ (by simp)) hplace
  rw [← hA₂, ← hA₃, ← hA₄] at hrun₂
  have hbetween : A₁.run room H₂ = (A₄, (A₂.run room H₂).2) := by
    apply hrun₂
    · exact fun event hevent => htrades event (by simp [hevent])
    · intro pre c post hsplit
      rw [← hmiddle]
      exact hlacks _ c (post ++ .cancelOrder x.id :: H₃) (by rw [hsplit]; simp)
  -- the run without it
  obtain ⟨other, outs, hrunOther, ⟨L, hother⟩, hbookOther⟩ :=
    hstart.run_book hbelow
  have hshort : Book.run room {} (H₁ ++ H₂ ++ H₃) =
      ((A₄.run room H₃).1,
        (Book.run room {} H₁).2 ++ (A₂.run room H₂).2 ++ (A₄.run room H₃).2) := by
    rw [Book.run_append, Book.run_append, ← hA₁, hbetween]
  rw [← hr, config.engine_book, hshort] at hbookOther
  obtain ⟨hlastOther, rfl⟩ := Prod.mk.inj hbookOther
  obtain ⟨L', hs⟩ := hsound
  have hsame : other.book = engine.book := hlastOther.symm.trans hlast
  exact ⟨_, _, _, _, _, other, Book.run_length, Book.run_length, Book.run_length, rfl, hrunOther,
    hsame, hother.orderMap_congr hs hsame⟩

/-- A bid below the asks; a buy that empties the better ask and rests above the
    bid; after the cancel, a sell that stops where the bid was. -/
theorem sample_invisible : ∃ engine events other outs,
    Config.small.engine.run
      ([.processOrder (makeOrder 1 .sell 5 20), .processOrder (makeOrder 2 .sell 6 10)] ++
        .processOrder (makeOrder 9 .buy 4 5) :: [.processOrder (makeOrder 3 .buy 5 35)] ++
        .cancelOrder 9 :: [.processOrder (makeOrder 4 .sell 4 20)]) = some (engine, events) ∧
    Config.small.engine.run
      ([.processOrder (makeOrder 1 .sell 5 20), .processOrder (makeOrder 2 .sell 6 10)] ++
        [.processOrder (makeOrder 3 .buy 5 35)] ++
        [.processOrder (makeOrder 4 .sell 4 20)]) = some (other, outs) ∧
    other.book = engine.book := by
  obtain ⟨⟨engine, events⟩, hrun, htrades⟩ := Option.map_eq_some_iff.mp
    (show (Config.small.engine.run
      ([.processOrder (makeOrder 1 .sell 5 20), .processOrder (makeOrder 2 .sell 6 10)] ++
        .processOrder (makeOrder 9 .buy 4 5) :: [.processOrder (makeOrder 3 .buy 5 35)] ++
        .cancelOrder 9 :: [.processOrder (makeOrder 4 .sell 4 20)])).map
          (fun r => decide (∀ event ∈ r.2, event.tradesOn 9 = [])) = some true by decide +kernel)
  obtain ⟨E₁, E₂, E₃, -, -, other, -, -, -, -, hother, hbook, -⟩ :=
    run_invisible Config.small _ _ _ (makeOrder 9 .buy 4 5) rfl (by decide) (by decide)
      (by decide) hrun (of_decide_eq_true htrades) (along_not_of_check (by decide +kernel))
  exact ⟨engine, events, other, _, hrun, hother, hbook⟩

end LimitOrderBook
