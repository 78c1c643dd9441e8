/-
  LimitOrderBook.Differential

  The two engines agree on every run in which the pool does not run out.

  Both are compared with the book: they take the same steps there, and what they
  answer to `resting_quantity` is a function of the book.
-/
import LimitOrderBook.Quotes
import LimitOrderBook.ReferenceCalls
import LimitOrderBook.Runs

namespace LimitOrderBook

open Lib MatchingEngine

/-- The price of a Limit order is positive and on the ladder. -/
def Command.PricedWithin (maxLevels : Int) : Command → Prop
  | .processOrder order => order.type = .limit → 0 < order.price ∧ order.price < maxLevels
  | .cancelOrder _ => True

instance (maxLevels : Int) : (c : Command) → Decidable (c.PricedWithin maxLevels)
  | .processOrder order =>
      inferInstanceAs
        (Decidable (order.type = .limit → 0 < order.price ∧ order.price < maxLevels))
  | .cancelOrder _ => inferInstanceAs (Decidable True)

/-- The call asks the pool for a slot and gets none. -/
def MatchingEngine.runsOut (self : MatchingEngine) : Command → Bool
  | .processOrder order =>
      validateOrder order &&
        match self.matchOrder order with
        | none => false
        | some st =>
            (finalStatus order.type (order.quantity - st.order.quantity) st.order.quantity).1 &&
              st.engine.pool.allocate.isNone
  | .cancelOrder _ => false

namespace Book

/-- The call leaves a Limit residual for which there is no room. -/
def lacksRoom (room : Nat → Bool) (B : Book) : Command → Bool
  | .processOrder order =>
      let m := B.matched order order.quantity
      validateOrder order && order.type = .limit && m.left ≠ 0 && !room m.book.size
  | .cancelOrder _ => false

/-- A call that does not lack room does what it would do with room for all. -/
theorem step_of_room {room : Nat → Bool} {B : Book} {c : Command}
    (h : B.lacksRoom room c = false) :
    B.step room c = B.step (fun _ => true) c := by
  cases c with
  | cancelOrder id => rfl
  | processOrder order =>
      cases hv : validateOrder order with
      | false => simp [step, process, hv]
      | true =>
          simp only [step, process, hv, Bool.not_true, Bool.false_eq_true, if_false]
          split
          · rfl
          · next hz =>
              by_cases hl : order.type = .limit
              · have hroom : room (B.matched order order.quantity).book.size = true := by
                  simpa [lacksRoom, hv, hl, hz] using h
                simp only [hroom]
              · rw [if_neg fun hc => hl hc.1, if_neg fun hc => hl hc.1]

end Book

namespace MatchingEngine

section

variable {self : MatchingEngine} {n capacity : Nat} {L : Layout} {c : Command}

/-- The pool runs out in a call exactly when the book has no room for it. -/
theorem Sound.runsOut_eq (h : self.Sound n capacity L) :
    self.runsOut c = self.book.lacksRoom (roomIn capacity) c := by
  cases c with
  | cancelOrder id => rfl
  | processOrder order =>
      cases hv : validateOrder order with
      | false => simp [runsOut, Book.lacksRoom, hv]
      | true =>
          obtain ⟨hpos, -, -⟩ := validateOrder_pos hv
          obtain ⟨st, L', hmatch, hm, hswept⟩ := matchOrder_spec h.settled (Int.le_of_lt hpos)
          have hfree : st.engine.pool.allocate.isNone = !roomIn capacity st.engine.book.size := by
            have hsize := hm.rep.book_size
            rw [hm.held, h.held, List.length_nil] at hsize
            rw [Bool.eq_iff_iff, Option.isNone_iff_eq_none, hm.rep.allocate_none, roomIn,
              Bool.not_eq_true', decide_eq_false_iff_not, ← List.length_eq_zero_iff]
            omega
          simp only [runsOut, Book.lacksRoom, hv, hmatch, hswept.eq, finalStatus_eq, hfree,
            Bool.true_and]
          by_cases hz : st.order.quantity = 0
          · simp [hz]
          · by_cases hl : order.type = .limit <;> simp [hz, hl]

/-- While the pool does not run out there is room for every order. -/
theorem Sound.step_room (h : self.Sound n capacity L) (hroom : self.runsOut c = false) :
    self.book.step (roomIn capacity) c = self.book.step (fun _ => true) c := by
  rw [h.runsOut_eq] at hroom
  exact Book.step_of_room hroom

end

end MatchingEngine

namespace ReferenceEngine

/-- The live orders at a price are those of the level found under it. -/
theorem liveNodes_filter {side : Side} {levels : RefLevels} {price : Int}
    (hsorted : (levels.map Prod.fst).Pairwise side.better) (hplaced : PlacedIn side levels) :
    (liveNodes levels).filter (fun x => x.order.price = price) =
      match levels.find? fun l => l.1 == price with
      | none => []
      | some l => l.2.filter RefNode.live := by
  induction levels with
  | nil => rfl
  | cons l rest ih =>
      obtain ⟨hbetter, hsorted'⟩ := List.pairwise_cons.mp hsorted
      have hrest : PlacedIn side rest := fun k hk => hplaced k (List.mem_cons_of_mem _ hk)
      have hl : ∀ x ∈ l.2.filter RefNode.live, x.order.price = l.1 := fun x hx =>
        (hplaced l (List.mem_cons_self ..) x (List.mem_filter.mp hx).1).price
      rw [liveNodes_cons, List.filter_append]
      by_cases hkey : l.1 = price
      · have hbehind : (liveNodes rest).filter (fun x => x.order.price = price) = [] := by
          rw [List.filter_eq_nil_iff]
          intro x hx hprice
          obtain ⟨k, hk, hxk⟩ := List.mem_flatMap.mp (mem_of_live hx)
          have hb := hbetter k.1 (List.mem_map_of_mem hk)
          rw [(hrest k hk x hxk).price, decide_eq_true_eq] at hprice
          rw [hprice, ← hkey] at hb
          cases side <;> simp [Side.better] at hb
        have hself : (l.2.filter RefNode.live).filter (fun x => x.order.price = price) =
            l.2.filter RefNode.live := by
          rw [List.filter_eq_self]
          intro x hx
          rw [hl x hx, decide_eq_true_eq, hkey]
        rw [hbehind, hself, List.append_nil, List.find?_cons_of_pos (by simpa using hkey)]
      · have hfront : (l.2.filter RefNode.live).filter (fun x => x.order.price = price) = [] := by
          rw [List.filter_eq_nil_iff]
          intro x hx hprice
          rw [hl x hx, decide_eq_true_eq] at hprice
          exact hkey hprice
        rw [hfront, List.nil_append, ih hsorted' hrest,
          List.find?_cons_of_neg (by simpa using hkey)]

theorem restingQuantity_eq {self : ReferenceEngine} (h : self.Wellformed) (side : Side)
    (price : Int) : self.restingQuantity side price = self.book.restingQuantity side price := by
  have hfilter := @liveNodes_filter side _ price (h.sorted side) (h.placed side)
  have hbook : (self.book.side side).filter (fun e => e.price = price) =
      ((liveNodes (self.levels side)).filter fun x => x.order.price = price).map
        (RefNode.entry self.orderMap) := by
    rw [book_side, List.filter_map]
    rfl
  rw [Book.restingQuantity, hbook, hfilter, restingQuantity, List.foldlM_map]
  cases (self.levels side).find? fun l => l.1 == price with
  | none => rfl
  | some l =>
      rw [List.foldlM_filter]
      rfl

end ReferenceEngine

-- ============================================================================
-- The two engines
-- ============================================================================

/-- Sound states with the same book. -/
structure Agree (n capacity : Nat) (engine : MatchingEngine) (reference : ReferenceEngine) :
    Prop where
  sound : ∃ L, engine.Sound n capacity L
  wellformed : reference.Wellformed
  book : engine.book = reference.book

/-- One call keeps the two engines together, with the same event. -/
theorem Agree.step {n capacity : Nat} {engine : MatchingEngine} {reference : ReferenceEngine}
    {c : Command} (h : Agree n capacity engine reference) (hc : c.PricedWithin n)
    (hroom : engine.runsOut c = false) :
    ∃ engine' reference' event, engine.step c = some (engine', event) ∧
      reference.step c = some (reference', event) ∧ Agree n capacity engine' reference' := by
  obtain ⟨L, hs⟩ := h.sound
  have hbelow : c.LimitBelow n := by
    cases c with
    | cancelOrder id => trivial
    | processOrder order => exact fun hl => (hc hl).2
  have hpos : ∀ order, c = .processOrder order → order.type = .limit → 0 < order.price := by
    rintro order rfl hl
    exact (hc hl).1
  obtain ⟨engine', event, L', hstep, hs', hbook, -⟩ := step_spec hs hbelow
  obtain ⟨reference', event', hstep', hwf, hbook'⟩ :=
    @ReferenceEngine.step_spec reference h.wellformed c hpos
  have heq : (engine'.book, event) = (reference'.book, event') := by
    rw [← show _ = _ from hbook, ← show _ = _ from hbook', hs.step_room hroom, h.book]
  obtain ⟨hb, rfl⟩ := Prod.mk.inj heq
  exact ⟨engine', reference', event, hstep, hstep', ⟨L', hs'⟩, hwf, hb⟩

/-- Over every run in which the pool does not run out, and after every call of
    it, the engines have returned the same events and answer alike. -/
theorem run_agree (config : Config) (cs : List Command)
    (h : ∀ c ∈ cs, c.PricedWithin config.maxLevels)
    (hroom : Along MatchingEngine.step (fun s c => s.runsOut c = false) config.engine cs) :
    ∀ pre post, cs = pre ++ post → ∃ engine reference events,
      config.engine.run pre = some (engine, events) ∧
      ReferenceEngine.run {} pre = some (reference, events) ∧
      ∀ side price,
        engine.restingQuantity side price = reference.restingQuantity side price := by
  rintro pre post rfl
  have hstart : Agree config.levels config.poolCapacity config.engine {} :=
    ⟨⟨_, config.engine_sound⟩, ReferenceEngine.wellformed_empty, config.engine_book⟩
  have hgood : Along MatchingEngine.step
      (fun s c => c.PricedWithin config.levels ∧ s.runsOut c = false) config.engine pre := by
    intro before c after hpre t os ht
    refine ⟨?_, hroom.prefix before c after hpre t os ht⟩
    rw [config.levels_eq]
    exact h c (by rw [hpre]; simp)
  obtain ⟨engine, reference, events, hrun, hrun', hagree⟩ :=
    @exec_lockstep _ _ _ _ MatchingEngine.step ReferenceEngine.step
      (Agree config.levels config.poolCapacity) _ (fun s t c hst hc => hst.step hc.1 hc.2)
      _ _ hstart _ hgood
  obtain ⟨L, hs⟩ := hagree.sound
  refine ⟨engine, reference, events, hrun, hrun', fun side price => ?_⟩
  rw [hs.restingQuantity_eq, ReferenceEngine.restingQuantity_eq hagree.wellformed, hagree.book]

/-- The engines agree after the sample run. -/
theorem sample_agree : ∃ engine reference events,
    Config.small.engine.run sampleCommands = some (engine, events) ∧
    ReferenceEngine.run {} sampleCommands = some (reference, events) ∧
    ∀ side price,
      engine.restingQuantity side price = reference.restingQuantity side price :=
  run_agree Config.small sampleCommands (by decide) (along_not_of_check (by decide +kernel))
    sampleCommands [] (List.append_nil _).symm

end LimitOrderBook
