/-
  LimitOrderBook.QueueOrder

  Nobody overtakes at a price.

  Whatever calls follow, the queue of a price holds in front what is left of its old
  orders, in their old order, and behind them only orders that were submitted since.
  Ids play no part: a queue is followed member by member.
-/
import LimitOrderBook.Lib.Queue
import LimitOrderBook.PartialFills
import LimitOrderBook.Replay

namespace LimitOrderBook

open Lib MatchingEngine

/-- `a` is what is left of `b`. -/
structure Entry.LeftOf (a b : Entry) : Prop where
  id : a.id = b.id
  price : a.price = b.price
  quantity : a.quantity = b.quantity
  remaining : a.remaining ≤ b.remaining

instance : Std.Refl Entry.LeftOf := ⟨fun _ => ⟨rfl, rfl, rfl, Int.le_refl _⟩⟩

instance : IsTrans Entry Entry.LeftOf where
  trans _ _ _ hab hbc := ⟨hab.id.trans hbc.id, hab.price.trans hbc.price,
    hab.quantity.trans hbc.quantity, hab.remaining.trans hbc.remaining⟩

/-- What is left of an order stands for it. -/
theorem Entry.StandsFor.leftOf {a b : Entry} {side : Side} {x : IncomingOrder} (hab : a.LeftOf b)
    (h : b.StandsFor side x) : a.StandsFor side x where
  valid := h.valid
  side := h.side
  type := h.type
  id := h.id.trans hab.id.symm
  price := h.price.trans hab.price.symm
  quantity := h.quantity.trans hab.quantity.symm
  le := (hab.remaining.trans h.le).trans_eq hab.quantity.symm

namespace Book

/-- The queue of a price. -/
def level (B : Book) (side : Side) (price : Int) : List Entry :=
  (B.side side).filter fun e => e.price = price

/-- The entry stands for an order of these calls. -/
def SubmittedIn (cs : List Command) (side : Side) (e : Entry) : Prop :=
  ∃ x, .processOrder x ∈ cs ∧ e.StandsFor side x

section

variable {B : Book} {order : IncomingOrder} {left : Int} {room : Nat → Bool} {c : Command}
  {side : Side} {price : Int} {l xs : List Entry}

/-- A map update leaves an order as it is. -/
theorem leftOf_forgetAll (ids : List OrderID) (h : l.SublistForall₂ Entry.LeftOf xs) :
    (l.map (Entry.forgetAll ids)).SublistForall₂ Entry.LeftOf xs := by
  obtain ⟨m, hl, hm⟩ := List.sublistForall₂_iff.mp h
  refine List.sublistForall₂_iff.mpr ⟨m, List.forall₂_map_left_iff.mpr (hl.imp ?_), hm⟩
  intro a b hab
  exact ⟨(Entry.forgetAll_id ..).trans hab.id, (Entry.forgetAll_price ..).trans hab.price,
    (Entry.forgetAll_quantity ..).trans hab.quantity,
    (Entry.forgetAll_remaining ..).trans_le hab.remaining⟩

/-- The price of an order does not depend on how much is left. -/
theorem level_shrink {B' : Book} (h : (B'.side side).SublistForall₂ Entry.LeftOf (B.side side))
    (price : Int) : (B'.level side price).SublistForall₂ Entry.LeftOf (B.level side price) :=
  sublistForall₂_filter (fun a b hab => by rw [hab.price]) h

theorem matched_shrink (side : Side) :
    ((B.matched order left).book.side side).SublistForall₂ Entry.LeftOf (B.side side) := by
  rcases Side.eq_or_eq_opposite order.side side with rfl | rfl
  · rw [matched_own]
    exact leftOf_forgetAll _ (Std.Refl.refl _)
  · rw [matched_opposite]
    refine leftOf_forgetAll _ (Supply.sweep_serves fun e q hq => ⟨rfl, rfl, rfl, ?_⟩)
    exact Int.sub_le_self _ (Int.le_of_lt hq)

theorem forget_shrink (id : OrderID) (side : Side) :
    ((B.forget id).side side).SublistForall₂ Entry.LeftOf (B.side side) := by
  rw [forget_side]
  exact leftOf_forgetAll [id] (Std.Refl.refl _)

theorem setSide_level (side : Side) (l : List Entry) (price : Int) :
    (B.setSide side l).level side price = l.filter fun e => e.price = price := by
  rw [level, setSide_side]

theorem setSide_level_opposite (side : Side) (l : List Entry) (price : Int) :
    (B.setSide side l).level side.opposite price = B.level side.opposite price := by
  rw [level, setSide_side_opposite, level]

/-- An order that rests goes behind all of its price, -/
theorem rest_level_own (hsorted : B.Sorted) :
    (B.rest order left).level order.side order.price =
      (B.forget order.id).level order.side order.price ++ [order.entry left] := by
  have hbehind : ∀ e ∈ (B.forget order.id).level order.side order.price,
      ¬ order.side.better order.price e.price := by
    intro e he hbetter
    rw [of_decide_eq_true (List.mem_filter.mp he).2] at hbetter
    exact order.side.better_asymm _ _ hbetter hbetter
  rw [rest, setSide_level, Buckets.filter_orderedInsert_of_pos (better_trans_price order.side)
      (by exact decide_eq_true rfl) ((forget_sorted order.id hsorted).pairwise order.side),
    ← level, ← List.append_nil ((B.forget order.id).level order.side order.price),
    Buckets.orderedInsert_append hbehind fun _ hb => absurd hb List.not_mem_nil, List.append_nil]
  rfl

/-- and the other queues stay. -/
theorem rest_level_other (h : side ≠ order.side ∨ price ≠ order.price) :
    (B.rest order left).level side price = (B.forget order.id).level side price := by
  rcases Side.eq_or_eq_opposite order.side side with rfl | rfl
  · rw [rest, setSide_level, Buckets.filter_orderedInsert_of_neg, level]
    exact decide_eq_false fun heq => h.elim (fun hs => hs rfl) fun hp => hp heq.symm
  · rw [rest, setSide_level_opposite]

theorem rest_follows {cs : List Command} (hsorted : B.Sorted) (hx : .processOrder order ∈ cs)
    (hv : validateOrder order = true) (hlimit : order.type = .limit)
    (hleft : left ≤ order.quantity) (side : Side) (price : Int) :
    Follows Entry.LeftOf (SubmittedIn cs side) (B.level side price)
      ((B.rest order left).level side price) := by
  have hforget : Follows Entry.LeftOf (SubmittedIn cs side) (B.level side price)
      ((B.forget order.id).level side price) := .shrink (level_shrink (forget_shrink _ _) price)
  by_cases hown : side = order.side ∧ price = order.price
  · obtain ⟨rfl, rfl⟩ := hown
    rw [rest_level_own hsorted]
    exact hforget.snoc ⟨order, hx, hv, rfl, hlimit, rfl, rfl, rfl, hleft⟩
  · rw [rest_level_other (not_and_or.mp hown)]
    exact hforget

/-- What is left of an order was submitted in the same calls. -/
theorem submittedIn_leftOf {cs : List Command} (a b : Entry) (hab : a.LeftOf b)
    (h : SubmittedIn cs side b) : SubmittedIn cs side a := by
  obtain ⟨x, hx, hstands⟩ := h
  exact ⟨x, hx, hstands.leftOf hab⟩

/-- A call serves every queue from the front and appends to one at the back. -/
theorem step_follows (hsorted : B.Sorted) (hpositive : B.Positive) (c : Command) (side : Side)
    (price : Int) : Follows Entry.LeftOf (SubmittedIn [c] side) (B.level side price)
      ((B.step room c).1.level side price) := by
  cases c with
  | cancelOrder id =>
      exact .shrink (level_shrink (cancel_sublist B id side).sublistForall₂ price)
  | processOrder order =>
      rw [step]
      cases hv : validateOrder order with
      | false =>
          rw [process_rejected room B hv]
          exact .refl _
      | true =>
          have hm := @Follows.shrink _ _ (SubmittedIn [.processOrder order] side) _ _
            (level_shrink (@matched_shrink B order order.quantity side) price)
          obtain ⟨status, -, ⟨-, -, hbook⟩ | ⟨-, -, hlimit, hbook⟩ | ⟨-, -, hbook⟩⟩ :=
            process_cases room B hv
          · rw [hbook]
            exact hm
          · rw [hbook]
            have hle := @matched_left_le B order order.quantity hpositive
              (Int.le_of_lt (validateOrder_pos hv).1)
            exact hm.trans submittedIn_leftOf (rest_follows (matched_sorted order _ hsorted)
              (List.mem_singleton_self _) hv hlimit hle side price)
          · rw [hbook]
            exact hm

end

end Book

-- ============================================================================
-- Runs
-- ============================================================================

/-- After a run from a sound engine every queue follows the one before it. -/
theorem MatchingEngine.Sound.run_follows {self : MatchingEngine} {n capacity : Nat} {L : Layout}
    (h : self.Sound n capacity L) {cs : List Command} (hcs : ∀ c ∈ cs, c.LimitBelow n) :
    ∃ engine events, self.run cs = some (engine, events) ∧ ∀ side price,
      Follows Entry.LeftOf (Book.SubmittedIn cs side) (self.book.level side price)
        (engine.book.level side price) := by
  obtain ⟨engine, events, hrun, -, hfollows⟩ := @exec_along_history _ _ _ MatchingEngine.step
    (fun pre _ s => (∃ L, s.Sound n capacity L) ∧ ∀ side price,
      Follows Entry.LeftOf (Book.SubmittedIn pre side) (self.book.level side price)
        (s.book.level side price))
    (fun _ c => c.LimitBelow n) self cs ⟨⟨L, h⟩, fun side price => .refl _⟩
    (by
      rintro pre c post - events s ⟨⟨L, hs⟩, hfollows⟩ hc
      obtain ⟨s', event, L', hstep, hs', hbook, -⟩ := step_spec hs hc
      refine ⟨s', event, hstep, ⟨L', hs'⟩, fun side price => ?_⟩
      have hnext := @Book.step_follows s.book (roomIn capacity) hs.book_sorted hs.book_positive c
        side price
      rw [show s.book.step (roomIn capacity) c = (s'.book, event) from hbook] at hnext
      refine Follows.trans Book.submittedIn_leftOf ((hfollows side price).mono ?_) (hnext.mono ?_)
      · rintro e ⟨x, hx, hstands⟩
        exact ⟨x, List.mem_append_left _ hx, hstands⟩
      · rintro e ⟨x, hx, hstands⟩
        exact ⟨x, List.mem_append_right _ hx, hstands⟩)
    (fun pre c post hsplit t os _ => hcs c (by rw [hsplit]; simp))
  exact ⟨engine, events, hrun, hfollows⟩

/-- After every run on the ladder and whatever run on it follows, each queue is what is
    left of its old orders, in their old order and none with more, followed by orders of
    later calls. -/
theorem run_queueOrder (config : Config) (cs ds : List Command)
    (h : ∀ c ∈ cs ++ ds, c.LimitBelow config.maxLevels) :
    ∃ before events after later, config.engine.run cs = some (before, events) ∧
      before.run ds = some (after, later) ∧ ∀ side price, ∃ survivors newcomers,
        after.book.level side price = survivors ++ newcomers ∧
        survivors.SublistForall₂ Entry.LeftOf (before.book.level side price) ∧
        ∀ e ∈ newcomers, ∃ x, .processOrder x ∈ ds ∧ e.StandsFor side x := by
  obtain ⟨before, events, hrun, ⟨L, hsound⟩, -⟩ :=
    config.run_calls fun c hc => h c (List.mem_append_left _ hc)
  obtain ⟨after, later, hrun', hfollows⟩ := hsound.run_follows fun c hc => by
    rw [config.levels_eq]
    exact h c (List.mem_append_right _ hc)
  exact ⟨before, events, after, later, hrun, hrun', hfollows⟩

/-- Two asks at one price and the calls that fill the first and half of the second. -/
theorem sample_queueOrder : ∃ before events after later,
    Config.small.engine.run (sampleCommands.take 3) = some (before, events) ∧
      before.run (sampleCommands.drop 3) = some (after, later) ∧
      ∀ side price, ∃ survivors newcomers,
        after.book.level side price = survivors ++ newcomers ∧
        survivors.SublistForall₂ Entry.LeftOf (before.book.level side price) ∧
        ∀ e ∈ newcomers, ∃ x, .processOrder x ∈ sampleCommands.drop 3 ∧ e.StandsFor side x :=
  run_queueOrder Config.small (sampleCommands.take 3) (sampleCommands.drop 3) (by decide)

end LimitOrderBook
