/-
  LimitOrderBook.DuplicateIds

  Orders that no cancel can reach.

  The cancel map has one entry for an id, and an order that rests overwrites it
  (`reusesId`).  An order that rested before under the same id then stays on its
  level without an entry.  As long as no call reuses the id of an order that stays
  on the book, every resting order is the target of its id, and cancelling all
  ids that were ever submitted empties the engine.
-/
import LimitOrderBook.OffLadder
import LimitOrderBook.Withdrawal

namespace LimitOrderBook

open Lib MatchingEngine

-- ============================================================================
-- The book
-- ============================================================================

namespace Book

section

variable {B : Book} {order : IncomingOrder} {id : OrderID} {left : Int} {room : Nat → Bool}

/-- Matching takes an order out with its map entry, or leaves both. -/
theorem Listed.matched (h : B.Listed id) : (B.matched order left).book.Listed id := by
  rcases h with ⟨side, e, hholds, hmapped⟩ | habsent
  · rcases matched_holds hholds with ⟨hsame, -⟩ | ⟨q, -, -, hsame, -⟩ | ⟨hgone, -⟩
    · exact .inl ⟨side, e, hsame, hmapped⟩
    · exact .inl ⟨side, _, hsame, hmapped⟩
    · exact .inr hgone
  · exact .inr (matched_absent habsent).1

/-- What a residual leaves under an id: its own side and what it does not cross. -/
theorem matched_absent_iff (hleft : 0 < (B.matched order left).left) :
    (B.matched order left).book.Absent id ↔
      ∀ e ∈ B.side order.side ++ B.beyond order, e.id ≠ id := by
  have hmap : ∀ l : List Entry, (l.map (Entry.forgetAll ((B.consumed order left).map
      Entry.id))).filter (fun e => e.id = id) = [] ↔ ∀ e ∈ l, e.id ≠ id := by
    intro l
    simp [List.filter_eq_nil_iff]
  have hown : (B.matched order left).book.under id order.side = [] ↔
      ∀ e ∈ B.side order.side, e.id ≠ id := by
    rw [under, matched_own]
    exact hmap _
  have hopp : (B.matched order left).book.under id order.side.opposite = [] ↔
      ∀ e ∈ B.beyond order, e.id ≠ id := by
    rw [under, matched_opposite, sweep_kept_beyond hleft]
    exact hmap _
  constructor
  · intro h e he
    rcases List.mem_append.mp he with he | he
    · exact hown.mp (h order.side) e he
    · exact hopp.mp (h order.side.opposite) e he
  · intro h side
    rcases Side.eq_or_eq_opposite order.side side with rfl | rfl
    · exact hown.mpr fun e he => h e (List.mem_append_left _ he)
    · exact hopp.mpr fun e he => h e (List.mem_append_right _ he)

/-- The submitted id stays listed, if the order does not rest beside another one. -/
theorem process_listed (h : B.Listed order.id)
    (hfresh : validateOrder order = true → (B.matched order order.quantity).left ≠ 0 →
      order.type = .limit → room (B.matched order order.quantity).book.size = true →
      (B.matched order order.quantity).book.Absent order.id) :
    (B.process room order).1.Listed order.id := by
  cases hv : validateOrder order with
  | false =>
      rw [process_rejected room B hv]
      exact h
  | true =>
      have hmatched : (B.matched order order.quantity).book.Listed order.id := h.matched
      simp only [process, hv, Bool.not_true, Bool.false_eq_true, if_false]
      split
      · exact hmatched
      · next hz =>
          split
          · next hrest => exact .inl ⟨_, _, rest_holds (hfresh hv hz hrest.1 hrest.2), rfl⟩
          · exact hmatched

/-- An order that rests beside another one with its id leaves that one without a
    map entry. -/
theorem rest_unmapped (h : ¬ B.Absent order.id) :
    ∃ side, ∃ e ∈ (B.rest order left).side side, e.mapped = false := by
  have hex : ∃ side, ∃ e ∈ B.side side, e.id = order.id := by
    by_contra hnone
    refine h fun side => ?_
    rw [under, List.filter_eq_nil_iff]
    exact fun e he hid => hnone ⟨side, e, he, by simpa using hid⟩
  obtain ⟨side, e, he, hid⟩ := hex
  have hforget : e.forget order.id ∈ (B.forget order.id).side side := by
    rw [forget_side]
    exact List.mem_map_of_mem he
  have hmapped : (e.forget order.id).mapped = false := by rw [Entry.forget, if_pos hid]
  refine ⟨side, e.forget order.id, ?_, hmapped⟩
  rw [rest]
  rcases Side.eq_or_eq_opposite order.side side with rfl | rfl
  · rw [setSide_side]
    exact (List.mem_orderedInsert _).mpr (.inr hforget)
  · rw [setSide_side_opposite]
    exact hforget

theorem without_self (B : Book) (id : OrderID) : (B.without id).Absent id := by
  intro side
  rw [under, without_side, List.filter_filter]
  simp

/-- Cancelling an id that is listed leaves nothing under it. -/
theorem cancel_self (h : B.Listed id) : (B.cancel id).1.Absent id := by
  rw [cancel_listed h]
  exact without_self B id

/-- A cancel keeps every id listed. -/
theorem cancel_all_listed (h : ∀ id, B.Listed id) (k : OrderID) :
    ∀ id, (B.cancel k).1.Listed id := by
  intro id
  by_cases hid : id = k
  · subst hid
    exact .inr (cancel_self (h id))
  · have hstep : (B.step (fun _ => true) (.cancelOrder k)).1.Listed id :=
      (h id).step (by simpa [Command.names] using Ne.symm hid)
    exact hstep

/-- Cancelling every id that is on the book empties it. -/
theorem run_cancels {ids : List OrderID} (h : ∀ id, B.Listed id)
    (hids : ∀ id, id ∈ ids ∨ B.Absent id) :
    ∀ id, (B.run room (ids.map .cancelOrder)).1.Absent id := by
  induction ids generalizing B with
  | nil => exact fun id => (hids id).resolve_left List.not_mem_nil
  | cons k ids ih =>
      apply ih (cancel_all_listed h k)
      intro id
      by_cases hid : id = k
      · subst hid
        exact .inr (cancel_self (h id))
      · rcases hids id with hin | habsent
        · exact .inl ((List.mem_cons.mp hin).resolve_left hid)
        · exact .inr (cancel_absent k habsent).1

theorem eq_nil_of_absent (h : ∀ id, B.Absent id) (side : Side) : B.side side = [] := by
  rw [List.eq_nil_iff_forall_not_mem]
  exact fun e he => (h e.id).not_mem he rfl

end

end Book

-- ============================================================================
-- The engine
-- ============================================================================

namespace MatchingEngine

/-- Every linked order is the target of the map entry for its id. -/
def Cancellable (self : MatchingEngine) : Prop :=
  ∀ side, ∀ p ∈ self.sideSlots side, self.orderMap.lookup (self.heap p).id = some p

/-- The call rests an order under the id of one that stays on the book: on its own
    side, or opposite and beyond its price. -/
def reusesId (self : MatchingEngine) : Command → Bool
  | .processOrder order =>
      validateOrder order && order.type = .limit && self.LeavesResidual order &&
        self.FindsSlot order &&
        (self.book.side order.side ++ self.book.beyond order).any fun e => e.id = order.id
  | .cancelOrder _ => false

/-- Cancelling the ids empties both ladders and the map. -/
def EmptiedBy (self : MatchingEngine) (ids : List OrderID) : Prop :=
  ∃ last answers, self.run (ids.map .cancelOrder) = some (last, answers) ∧
    (∀ side, last.sideSlots side = []) ∧ last.orderMap = ∅

section

variable {self : MatchingEngine} {n capacity : Nat} {L : Layout} {order : IncomingOrder}
  {c : Command}

theorem cancellable_iff (self : MatchingEngine) :
    self.Cancellable ↔ ∀ side, ∀ e ∈ self.book.side side, e.mapped = true := by
  constructor
  · intro h side e he
    rw [book_side] at he
    obtain ⟨p, hp, rfl⟩ := List.mem_map.mp he
    exact decide_eq_true (h side p hp)
  · intro h side p hp
    have hmapped := h side (self.entry p) (by rw [book_side]; exact List.mem_map_of_mem hp)
    exact of_decide_eq_true hmapped

theorem cancellable_of_listed (h : ∀ id, self.book.Listed id) : self.Cancellable := by
  rw [cancellable_iff]
  intro side e he
  rcases h e.id with ⟨s, x, hholds, hmapped⟩ | habsent
  · rw [(hholds.unique he rfl).2]
    exact hmapped
  · exact absurd rfl (habsent.not_mem he)

/-- When a Limit order rests, told from the state before the call. -/
theorem Sound.rests_iff (h : self.Sound n capacity L) (hpos : 0 < order.quantity) :
    ((self.book.matched order order.quantity).left ≠ 0 ∧
      roomIn capacity (self.book.matched order order.quantity).book.size = true) ↔
    (self.LeavesResidual order ∧ self.FindsSlot order) := by
  have hleft := @Book.matched_left self.book order _ h.book_positive (Int.le_of_lt hpos)
  have hres : (self.book.matched order order.quantity).left ≠ 0 ↔ self.LeavesResidual order := by
    rw [hleft, LeavesResidual]
    omega
  rw [hres]
  apply and_congr_right
  intro hresidual
  have hsize := @Book.matched_size self.book order order.quantity
    (by rw [LeavesResidual] at hresidual; omega)
  have hbook := h.book_size
  have htop : self.pool.freeHead ≠ UINT32_MAX ↔ L.free ≠ [] := not_congr h.pool.chain.top_eq_nil
  rw [h.held, List.length_nil] at hbook
  rw [FindsSlot, htop, ← List.length_pos_iff, ← List.length_pos_iff, roomIn, decide_eq_true_eq]
  omega

/-- The book after the call of a Limit order that rests. -/
theorem Sound.book_rests (h : self.Sound n capacity L) (hv : validateOrder order = true)
    (hlimit : order.type = .limit) (hres : self.LeavesResidual order)
    (hslot : self.FindsSlot order) :
    (self.book.step (roomIn capacity) (.processOrder order)).1 =
      (self.book.matched order order.quantity).book.rest order
        (self.book.matched order order.quantity).left := by
  obtain ⟨hleft, hroom⟩ := (h.rests_iff (validateOrder_pos hv).1).mpr ⟨hres, hslot⟩
  rw [Book.step, Book.process, hv]
  simp only [Bool.not_true, Bool.false_eq_true, if_false, if_neg hleft,
    if_pos (And.intro hlimit hroom)]

/-- A call that reuses no id keeps every id listed. -/
theorem Sound.step_listed (h : self.Sound n capacity L) (hlisted : ∀ id, self.book.Listed id)
    (hc : self.reusesId c = false) :
    ∀ id, (self.book.step (roomIn capacity) c).1.Listed id := by
  cases c with
  | cancelOrder k => exact Book.cancel_all_listed hlisted k
  | processOrder order =>
      intro id
      by_cases hid : order.id = id
      · subst hid
        apply Book.process_listed (hlisted order.id)
        intro hv hleft hlimit hroom
        obtain ⟨hpos, -, -⟩ := validateOrder_pos hv
        obtain ⟨hres, hslot⟩ := (h.rests_iff hpos).mp ⟨hleft, hroom⟩
        have hnonneg : 0 ≤ (self.book.matched order order.quantity).left :=
          Supply.sweep_left_nonneg (Int.le_of_lt hpos)
        rw [Book.matched_absent_iff (by omega)]
        simp only [reusesId, hv, hlimit, hres, hslot] at hc
        intro e he hid
        simp only [decide_true, Bool.and_true, Bool.true_and, List.any_eq_false,
          decide_eq_true_eq] at hc
        exact hc e he hid
      · exact (hlisted id).step (by simpa [Command.names] using hid)

/-- A call that reuses an id leaves an order that no cancel can reach. -/
theorem Sound.not_cancellable (h : self.Sound n capacity L) (hbelow : c.LimitBelow n)
    (hc : self.reusesId c = true) {s : MatchingEngine} {event : MatchEvent}
    (hstep : self.step c = some (s, event)) : ¬ s.Cancellable := by
  cases c with
  | cancelOrder k => exact absurd hc (by simp [reusesId])
  | processOrder order =>
      simp only [reusesId, Bool.and_eq_true, decide_eq_true_eq, List.any_eq_true] at hc
      obtain ⟨⟨⟨⟨hv, hlimit⟩, hres⟩, hslot⟩, e, he, hid⟩ := hc
      obtain ⟨hpos, -, -⟩ := validateOrder_pos hv
      obtain ⟨hleft, -⟩ := (h.rests_iff hpos).mpr ⟨hres, hslot⟩
      have hnonneg : 0 ≤ (self.book.matched order order.quantity).left :=
        Supply.sweep_left_nonneg (Int.le_of_lt hpos)
      have hpresent : ¬ (self.book.matched order order.quantity).book.Absent order.id := by
        rw [Book.matched_absent_iff (by omega)]
        exact fun hnone => hnone e he hid
      obtain ⟨t, event', -, hstep', -, hbook, -⟩ := step_spec h hbelow
      obtain ⟨rfl, rfl⟩ := result_unique hstep hstep'
      have hrest : s.book = (self.book.matched order order.quantity).book.rest order
          (self.book.matched order order.quantity).left := by
        rw [← h.book_rests hv hlimit hres hslot]
        exact (congrArg Prod.fst hbook).symm
      obtain ⟨side, x, hx, hunmapped⟩ := @Book.rest_unmapped _ order
        (self.book.matched order order.quantity).left hpresent
      rw [cancellable_iff, hrest]
      intro hall
      rw [hall side x hx] at hunmapped
      exact absurd hunmapped (by decide)

/-- While every id is listed, cancelling all that is on the book empties the
    engine. -/
theorem Sound.emptiedBy (h : self.Sound n capacity L) (hlisted : ∀ id, self.book.Listed id)
    {ids : List OrderID} (hids : ∀ id, id ∈ ids ∨ self.book.Absent id) : self.EmptiedBy ids := by
  have hbelow : ∀ c ∈ ids.map Command.cancelOrder, c.LimitBelow n := by
    intro c hc
    obtain ⟨id, -, rfl⟩ := List.mem_map.mp hc
    trivial
  obtain ⟨last, answers, hrun, ⟨L', hs⟩, hbook⟩ := h.run_book hbelow
  have habsent := @Book.run_cancels _ (roomIn capacity) ids hlisted hids
  rw [hbook] at habsent
  have hempty := Book.eq_nil_of_absent habsent
  refine ⟨last, answers, hrun, fun side => ?_, ?_⟩
  · have hside := hempty side
    rw [book_side] at hside
    exact List.map_eq_nil_iff.mp hside
  · apply AList.ext
    rw [AList.empty_entries, List.eq_nil_iff_forall_not_mem]
    intro entry hentry
    have hsome : (last.orderMap.lookup entry.1).isSome = true := by
      rw [AList.lookup_isSome, AList.mem_keys]
      exact List.mem_map_of_mem hentry
    obtain ⟨side, e, he, -⟩ := (hs.mem_orderMap entry.1).mp hsome
    rw [hempty side] at he
    exact absurd he List.not_mem_nil

end

end MatchingEngine

-- ============================================================================
-- Runs
-- ============================================================================

/-- What a run that reuses no id has reached. -/
structure Tidy (config : Config) (cs : List Command) (engine : MatchingEngine) : Prop where
  sound : ∃ L, engine.Sound config.levels config.poolCapacity L
  listed : ∀ id, engine.book.Listed id
  submitted : ∀ id, (∀ order, .processOrder order ∈ cs → order.id ≠ id) → engine.book.Absent id

theorem tidy_start (config : Config) : Tidy config [] config.engine := by
  have hempty : ∀ id, config.engine.book.Absent id := by
    intro id side
    rw [config.engine_book]
    cases side <;> rfl
  exact ⟨⟨_, config.engine_sound⟩, fun id => .inr (hempty id), fun id _ => hempty id⟩

/-- A call that reuses no id. -/
theorem Tidy.step {config : Config} {cs : List Command} {engine : MatchingEngine} {c : Command}
    (h : Tidy config cs engine) (hbelow : c.LimitBelow config.levels)
    (hc : engine.reusesId c = false) :
    ∃ engine' event, engine.step c = some (engine', event) ∧ Tidy config (cs ++ [c]) engine' := by
  obtain ⟨L, hs⟩ := h.sound
  obtain ⟨engine', event, L', hstep, hs', hbook, -⟩ := step_spec hs hbelow
  have hlisted := hs.step_listed h.listed hc
  rw [hbook] at hlisted
  refine ⟨engine', event, hstep, ⟨L', hs'⟩, hlisted, fun id hid => ?_⟩
  have hnew : ∀ order, c = .processOrder order → order.id ≠ id := by
    rintro order rfl
    exact hid order (by simp)
  exact (Book.step_absent hnew hbook
    (h.submitted id fun order horder => hid order (List.mem_append_left _ horder))).1

/-- Everything can be cancelled. -/
theorem Tidy.emptiedBy {config : Config} {cs : List Command} {engine : MatchingEngine}
    (h : Tidy config cs engine) {ids : List OrderID}
    (hids : ∀ order, .processOrder order ∈ cs → order.id ∈ ids) : engine.EmptiedBy ids := by
  obtain ⟨L, hs⟩ := h.sound
  apply hs.emptiedBy h.listed
  intro id
  by_cases hin : id ∈ ids
  · exact .inl hin
  · refine .inr (h.submitted id fun order horder hid => hin ?_)
    rw [← hid]
    exact hids order horder

/-- A second bid under the id of the first: the map leads to the second only. -/
theorem retried_not_cancellable : ∃ engine events,
    Config.small.engine.run
      [.processOrder (makeOrder 1 .buy 5 20), .processOrder (makeOrder 1 .buy 4 10)] =
        some (engine, events) ∧ ¬ engine.Cancellable ∧ ¬ engine.EmptiedBy [1] := by
  obtain ⟨engine, events, hrun, htest⟩ := @exec_test _ _ _ step Config.small.engine
    [.processOrder (makeOrder 1 .buy 5 20), .processOrder (makeOrder 1 .buy 4 10)]
    (fun s => ((s.sideSlots .buy).all fun p => s.orderMap.lookup (s.heap p).id = some p) = false ∧
      (s.run [.cancelOrder 1]).map (fun r => (r.1.sideSlots .buy).length) = some 1)
    (by decide +kernel)
  obtain ⟨hunmapped, hleft⟩ := of_decide_eq_true htest
  refine ⟨engine, events, hrun, fun hall => ?_, ?_⟩
  · rw [List.all_eq_true.mpr fun p hp => decide_eq_true (hall .buy p hp)] at hunmapped
    exact absurd hunmapped (by decide)
  · rintro ⟨last, answers, hcancels, hempty, -⟩
    rw [show engine.run [.cancelOrder 1] = some (last, answers) from hcancels, Option.map_some,
      hempty .buy] at hleft
    exact absurd hleft (by decide)

/-- At every point of a run all resting orders can be cancelled by their ids, and
    cancelling all submitted ids empties the engine, exactly when no call of the
    run reuses the id of an order that stays on the book. -/
theorem run_cancellable_iff (config : Config) (cs : List Command)
    (hcs : ∀ c ∈ cs, c.LimitBelow config.maxLevels) :
    (∀ pre post, cs = pre ++ post → ∃ engine events,
      config.engine.run pre = some (engine, events) ∧ engine.Cancellable ∧
      ∀ ids : List OrderID, (∀ order, .processOrder order ∈ pre → order.id ∈ ids) →
        engine.EmptiedBy ids) ↔
    Along step (fun s c => s.reusesId c = false) config.engine cs := by
  rw [← config.levels_eq] at hcs
  have hbelow : ∀ pre c post, cs = pre ++ c :: post → c.LimitBelow config.levels :=
    fun pre c post hsplit => hcs c (by rw [hsplit]; simp)
  apply @exec_prefix_iff _ _ _ step (fun pre _ s => Tidy config pre s)
  · exact tidy_start config
  · exact fun pre _ s h => ⟨cancellable_of_listed h.listed, fun ids hids => h.emptiedBy hids⟩
  · intro pre c post hsplit events s h hc
    obtain ⟨t, event, hstep, ht⟩ := h.step (hbelow pre c post hsplit) hc
    exact ⟨t, event, hstep, ht⟩
  · rintro pre c post hsplit events s h hc t event hstep ⟨hcancellable, -⟩
    obtain ⟨L, hs⟩ := h.sound
    exact hs.not_cancellable (hbelow pre c post hsplit) (Bool.not_eq_false _ ▸ hc) hstep
      hcancellable

/-- An id that is used again after its order is filled. -/
def againCommands : List Command :=
  [.processOrder (makeOrder 1 .sell 5 20), .processOrder (makeOrder 2 .buy 5 20),
    .processOrder (makeOrder 1 .sell 6 7)]

theorem again_cancellable : ∃ engine events,
    Config.small.engine.run againCommands = some (engine, events) ∧ engine.Cancellable ∧
    ∀ ids : List OrderID, (∀ order, .processOrder order ∈ againCommands → order.id ∈ ids) →
      engine.EmptiedBy ids :=
  (run_cancellable_iff Config.small againCommands (by decide)).mpr
    (along_not_of_check (by decide +kernel)) againCommands [] (List.append_nil _).symm

end LimitOrderBook
