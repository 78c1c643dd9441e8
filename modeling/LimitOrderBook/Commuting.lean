/-
  LimitOrderBook.Commuting

  Two calls that have nothing to do with each other may be swapped.

  A call that does not trade either adds one order behind its price level or
  takes one out, whatever the rest of the book is (`Book.quiet`).  Two such
  edits under different ids commute, unless both append to the same level.  The
  engines after the two orders of execution differ in slots and free lists, but
  they have the same book, and so the same future (`Sound.run_book`).
-/
import LimitOrderBook.Invariants
import LimitOrderBook.Replay

namespace LimitOrderBook

open Lib MatchingEngine

namespace Command

/-- The id that a command is about. -/
def id : Command → OrderID
  | .processOrder order => order.id
  | .cancelOrder id => id

/-- A valid Limit submission below `max_levels`, or a cancel. -/
def RestsOrCancels (maxLevels : Int) : Command → Prop
  | .processOrder order =>
      validateOrder order = true ∧ order.type = .limit ∧ order.price < maxLevels
  | .cancelOrder _ => True

/-- Both commands append to the same level. -/
def SameLevel : Command → Command → Prop
  | .processOrder a, .processOrder b => a.side = b.side ∧ a.price = b.price
  | _, _ => False

theorem RestsOrCancels.limitBelow {maxLevels : Int} {c : Command}
    (h : c.RestsOrCancels maxLevels) : c.LimitBelow maxLevels := by
  cases c with
  | processOrder order => exact fun _ => h.2.2
  | cancelOrder id => trivial

end Command

instance (maxLevels : Int) : (c : Command) → Decidable (c.RestsOrCancels maxLevels)
  | .processOrder order =>
      inferInstanceAs (Decidable
        (validateOrder order = true ∧ order.type = .limit ∧ order.price < maxLevels))
  | .cancelOrder _ => inferInstanceAs (Decidable True)

instance : (c d : Command) → Decidable (c.SameLevel d)
  | .processOrder a, .processOrder b =>
      inferInstanceAs (Decidable (a.side = b.side ∧ a.price = b.price))
  | .processOrder _, .cancelOrder _ => inferInstanceAs (Decidable False)
  | .cancelOrder _, _ => inferInstanceAs (Decidable False)

-- ============================================================================
-- Quiet calls of the book
-- ============================================================================

namespace Book

/-- What a call does that neither trades nor lacks room. -/
def quiet (B : Book) : Command → Book × MatchEvent
  | .processOrder order =>
      (B.rest order order.quantity, { reports := [takerReport order .resting 0 order.quantity] })
  | .cancelOrder id => B.cancel id

section

variable {B : Book} {order : IncomingOrder} {id : OrderID} {left : Int} {room : Nat → Bool}
  {c d : Command} {maxLevels : Int}

theorem step_quiet (hc : c.RestsOrCancels maxLevels) (htrades : (B.step room c).2.trades = [])
    (hroom : room B.size = true) : B.step room c = B.quiet c := by
  cases c with
  | cancelOrder id => rfl
  | processOrder order =>
      obtain ⟨hv, hlimit, -⟩ := hc
      obtain ⟨status, hevent, -⟩ := process_cases room B hv
      rw [step, hevent] at htrades
      exact process_of_taken_nil hv hlimit (List.map_eq_nil_iff.mp htrades) hroom

theorem rest_size : (B.rest order left).size = B.size + 1 := by
  rw [size_eq _ order.side, rest, setSide_side, setSide_side_opposite, List.orderedInsert_length,
    ← forget_size B order.id, size_eq _ order.side]
  omega

theorem quiet_size : (B.quiet c).1.size ≤ B.size + 1 := by
  cases c with
  | processOrder order => exact Nat.le_of_eq rest_size
  | cancelOrder id =>
      have hbids := (cancel_sublist B id .buy).length_le
      have hasks := (cancel_sublist B id .sell).length_le
      simp only [quiet, size]
      simp only [side_buy, side_sell] at hbids hasks
      omega

-- ============================================================================
-- What a quiet call does to another id
-- ============================================================================

theorem isTarget_forget {k : OrderID} (h : k ≠ id) (e : Entry) :
    (e.forget k).isTarget id = e.isTarget id := by
  by_cases he : e.id = k
  · have hid : e.id ≠ id := he ▸ h
    simp [Entry.forget, Entry.isTarget, he, h]
  · rw [Entry.forget, if_neg he]

theorem find_map_forget {k : OrderID} (h : k ≠ id) (l : List Entry) :
    (l.map (Entry.forget k)).find? (Entry.isTarget id) = l.find? (Entry.isTarget id) := by
  have hsame : Entry.isTarget id ∘ Entry.forget k = Entry.isTarget id :=
    funext (isTarget_forget h)
  rw [List.find?_map, hsame]
  cases hfind : l.find? (Entry.isTarget id) with
  | none => rfl
  | some e =>
      have hid := Entry.id_of_isTarget (List.find?_some hfind)
      rw [Option.map_some, Entry.forget, if_neg (by rw [hid]; exact h.symm)]

theorem erase_map_forget {k : OrderID} (h : k ≠ id) (l : List Entry) :
    (l.map (Entry.forget k)).eraseP (Entry.isTarget id) =
      (l.eraseP (Entry.isTarget id)).map (Entry.forget k) := by
  have hsame : Entry.isTarget id ∘ Entry.forget k = Entry.isTarget id :=
    funext (isTarget_forget h)
  rw [List.eraseP_map, hsame]

/-- The entry of a resting order. -/
def restEntry (order : IncomingOrder) (left : Int) : Entry :=
  { id := order.id, price := order.price, quantity := order.quantity, remaining := left,
    mapped := true }

/-- Resting, one side at a time. -/
theorem rest_side (B : Book) (order : IncomingOrder) (left : Int) (side : Side) :
    (B.rest order left).side side =
      if side = order.side then
        ((B.side side).map (Entry.forget order.id)).orderedInsert
          (fun a b => side.better a.price b.price) (restEntry order left)
      else (B.side side).map (Entry.forget order.id) := by
  rcases Side.eq_or_eq_opposite order.side side with rfl | rfl
  · rw [if_pos rfl, rest, setSide_side, forget_side]
    rfl
  · rw [if_neg (Side.opposite_ne _), rest, setSide_side_opposite, forget_side]

theorem map_forget_insert {side : Side} (h : order.id ≠ id) (l : List Entry) :
    (l.orderedInsert (fun a b => side.better a.price b.price) (restEntry order left)).map
        (Entry.forget id) =
      (l.map (Entry.forget id)).orderedInsert (fun a b => side.better a.price b.price)
        (restEntry order left) := by
  rw [@List.map_orderedInsert _ _ _ (fun a b : Entry => side.better a.price b.price)]
  · rw [Entry.forget, if_neg (show ¬ (restEntry order left).id = id from h)]
  · intro a _
    rw [Entry.forget_price, Entry.forget_price]
  · intro a _
    rw [Entry.forget_price, Entry.forget_price]

theorem map_forget_comm (i j : OrderID) (l : List Entry) :
    (l.map (Entry.forget i)).map (Entry.forget j) =
      (l.map (Entry.forget j)).map (Entry.forget i) := by
  rw [List.map_map, List.map_map]
  apply List.map_congr_left
  intro e _
  simp only [Function.comp_apply, Entry.forget]
  split_ifs <;> grind

/-- A quiet call does not change what another id leads to. -/
theorem quiet_find (h : c.id ≠ id) (side : Side) :
    ((B.quiet c).1.side side).find? (Entry.isTarget id) =
      (B.side side).find? (Entry.isTarget id) := by
  cases c with
  | processOrder order =>
      have hid : order.id ≠ id := h
      have hnew : (restEntry order order.quantity).isTarget id = false := by
        simpa [restEntry, Entry.isTarget] using hid
      rw [quiet, rest_side]
      split
      · rw [Buckets.find?_orderedInsert hnew, find_map_forget hid]
      · exact find_map_forget hid _
  | cancelOrder k =>
      have hother : ∀ e : Entry, e.isTarget k = true → e.isTarget id = false := by
        intro e he
        rw [Bool.eq_false_iff]
        exact fun he' => h ((Entry.id_of_isTarget he).symm.trans (Entry.id_of_isTarget he'))
      rw [quiet]
      rcases cancel_cases B k with ⟨-, hcancel⟩ | ⟨s, e, -, hcancel⟩
      · rw [hcancel]
      · rw [hcancel]
        rcases Side.eq_or_eq_opposite s side with rfl | rfl
        · rw [setSide_side, Buckets.find?_eraseP hother]
        · rw [setSide_side_opposite]

/-- Two books in which a cancel finds the same order. -/
theorem cancel_congr {A : Book} (h : ∀ side, (A.side side).find? (Entry.isTarget id) =
      (B.side side).find? (Entry.isTarget id)) :
    (A.cancel id = (A, {}) ∧ B.cancel id = (B, {})) ∨
    ∃ side event, A.cancel id = (A.setSide side ((A.side side).eraseP (Entry.isTarget id)), event) ∧
      B.cancel id = (B.setSide side ((B.side side).eraseP (Entry.isTarget id)), event) := by
  have hbids := h .buy
  have hasks := h .sell
  simp only [side_buy, side_sell] at hbids hasks
  cases hb : B.bids.find? (Entry.isTarget id) with
  | some e =>
      refine .inr ⟨.buy, { reports := [cancelReport .buy e] }, ?_, ?_⟩
      · simp only [cancel, hbids, hb]
        rfl
      · simp only [cancel, hb]
        rfl
  | none =>
      cases ha : B.asks.find? (Entry.isTarget id) with
      | some e =>
          refine .inr ⟨.sell, { reports := [cancelReport .sell e] }, ?_, ?_⟩
          · simp only [cancel, hbids, hasks, hb, ha]
            rfl
          · simp only [cancel, hb, ha]
            rfl
      | none =>
          refine .inl ⟨?_, ?_⟩
          · simp only [cancel, hbids, hasks, hb, ha]
          · simp only [cancel, hb, ha]

/-- A quiet call does not change the answer to one about another id. -/
theorem quiet_answer (h : c.id ≠ d.id) : ((B.quiet c).1.quiet d).2 = (B.quiet d).2 := by
  cases d with
  | processOrder order => rfl
  | cancelOrder id =>
      rw [quiet, quiet]
      rcases @cancel_congr B id (B.quiet c).1 (quiet_find h) with
        ⟨hA, hB⟩ | ⟨side, event, hA, hB⟩
      · rw [hA, hB]
      · rw [hA, hB]

-- ============================================================================
-- Quiet calls commute
-- ============================================================================

/-- Resting two orders at different levels. -/
theorem rest_rest {other : IncomingOrder} {left' : Int} (h : order.id ≠ other.id)
    (hlevel : ¬ (order.side = other.side ∧ order.price = other.price)) :
    (B.rest order left).rest other left' = (B.rest other left').rest order left := by
  refine ext_side fun side => ?_
  simp only [rest_side]
  by_cases ho : side = order.side
  · by_cases ho' : side = other.side
    · -- both are inserted, the better price in front of the other
      have hprice : order.price ≠ other.price := fun he => hlevel ⟨ho.symm.trans ho', he⟩
      have hasymm : ∀ a b : Entry, side.better a.price b.price → ¬ side.better b.price a.price :=
        fun a b => Side.better_asymm side a.price b.price
      rw [if_pos ho, if_pos ho', if_pos ho, if_pos ho', map_forget_insert h,
        map_forget_insert h.symm, map_forget_comm order.id]
      by_cases hbetter : side.better order.price other.price
      · exact (Buckets.orderedInsert_comm hasymm (better_trans_price side) hbetter _).symm
      · have hbetter' : side.better other.price order.price := by
          cases side <;> simp only [Side.better] at hbetter ⊢ <;> omega
        exact Buckets.orderedInsert_comm hasymm (better_trans_price side) hbetter' _
    · rw [if_pos ho, if_neg ho', if_pos ho, if_neg ho', map_forget_insert h,
        map_forget_comm order.id]
  · by_cases ho' : side = other.side
    · rw [if_neg ho, if_pos ho', if_neg ho, if_pos ho', map_forget_insert h.symm,
        map_forget_comm order.id]
    · rw [if_neg ho, if_neg ho', if_neg ho, if_neg ho', map_forget_comm order.id]

/-- Taking out one entry and resting an order under another id. -/
theorem rest_setSide_erase (hsorted : B.Sorted) (h : order.id ≠ id) (side : Side) :
    (B.rest order left).setSide side
        (((B.rest order left).side side).eraseP (Entry.isTarget id)) =
      (B.setSide side ((B.side side).eraseP (Entry.isTarget id))).rest order left := by
  have hnew : (restEntry order left).isTarget id = false := by
    simpa [restEntry, Entry.isTarget] using h
  refine ext_side fun s => ?_
  rw [rest_side _ _ _ s]
  rcases Side.eq_or_eq_opposite side s with rfl | rfl
  · rw [setSide_side, setSide_side, rest_side]
    split
    · rw [Buckets.eraseP_orderedInsert (better_trans_price s) hnew, erase_map_forget h]
      rw [← forget_side]
      exact (forget_sorted order.id hsorted).pairwise s
    · exact erase_map_forget h _
  · rw [setSide_side_opposite, setSide_side_opposite, rest_side]

theorem rest_cancel (hsorted : B.Sorted) (h : order.id ≠ id) :
    ((B.rest order order.quantity).cancel id).1 =
      ((B.cancel id).1.rest order order.quantity) := by
  rcases @cancel_congr B id (B.rest order order.quantity)
    (@quiet_find B id (.processOrder order) h) with ⟨hA, hB⟩ | ⟨side, event, hA, hB⟩
  · rw [hA, hB]
  · rw [hA, hB]
    exact rest_setSide_erase hsorted h side

theorem cancel_cancel {k : OrderID} (h : k ≠ id) :
    ((B.cancel k).1.cancel id).1 = ((B.cancel id).1.cancel k).1 := by
  have herase : ∀ l : List Entry, (l.eraseP (Entry.isTarget k)).eraseP (Entry.isTarget id) =
      (l.eraseP (Entry.isTarget id)).eraseP (Entry.isTarget k) := by
    intro l
    apply List.eraseP_comm
    intro e _
    by_cases he : e.isTarget k = true
    · exact .inr (fun he' => h ((Entry.id_of_isTarget he).symm.trans (Entry.id_of_isTarget he')))
    · exact .inl he
  rcases @cancel_congr B id (B.cancel k).1 (@quiet_find B id (.cancelOrder k) h) with
    ⟨hA, hB⟩ | ⟨s, event, hA, hB⟩
  · rw [hA, hB]
  · rcases @cancel_congr B k (B.cancel id).1 (@quiet_find B k (.cancelOrder id) h.symm) with
      ⟨hA', hB'⟩ | ⟨s', event', hA', hB'⟩
    · rw [hA, hA', hB', hB]
    · rw [hA, hA', hB', hB]
      refine ext_side fun side => ?_
      rcases Side.eq_or_eq_opposite s s' with rfl | rfl
      · rcases Side.eq_or_eq_opposite s' side with rfl | rfl
        · simp [herase]
        · simp
      · rcases Side.eq_or_eq_opposite s side with rfl | rfl
        · simp
        · simp

/-- Quiet calls about different ids commute, unless both append to one level. -/
theorem quiet_comm (hsorted : B.Sorted) (h : c.id ≠ d.id) (hlevel : ¬ c.SameLevel d) :
    ((B.quiet c).1.quiet d).1 = ((B.quiet d).1.quiet c).1 := by
  cases c with
  | processOrder order =>
      cases d with
      | processOrder other => exact rest_rest h hlevel
      | cancelOrder id => exact rest_cancel hsorted h
  | cancelOrder k =>
      cases d with
      | processOrder order => exact (rest_cancel hsorted h.symm).symm
      | cancelOrder id => exact cancel_cancel h

end

end Book

-- ============================================================================
-- Swapping two calls
-- ============================================================================

namespace MatchingEngine

section

variable {self : MatchingEngine} {n capacity : Nat} {L : Layout} {c d : Command}

/-- Two calls on an engine with two free slots: if neither trades, both are quiet. -/
theorem Sound.run_pair (h : self.Sound n capacity L) (hfree : self.pool.hasFree 2 = true)
    (hc : c.RestsOrCancels n) (hd : d.RestsOrCancels n) (hids : c.id ≠ d.id) :
    ∃ s a b, self.run [c, d] = some (s, [a, b]) ∧ (∃ L', s.Sound n capacity L') ∧
      (a.trades = [] → b.trades = [] →
        s.book = ((self.book.quiet c).1.quiet d).1 ∧ a = (self.book.quiet c).2 ∧
          b = (self.book.quiet d).2) := by
  have hbelow : ∀ e ∈ [c, d], e.LimitBelow n := by
    intro e he
    simp only [List.mem_cons, List.not_mem_nil, or_false] at he
    rcases he with rfl | rfl
    · exact hc.limitBelow
    · exact hd.limitBelow
  have hsize := h.book_size
  have htwo := (h.pool.hasFree_iff 2).mp hfree
  have hroom : ∀ size ≤ self.book.size + 1, roomIn capacity size = true := by
    intro size hle
    rw [roomIn, decide_eq_true_eq]
    omega
  obtain ⟨s, events, hrun, hsound, hbook⟩ := h.run_book hbelow
  simp only [Book.run] at hbook
  obtain ⟨hlast, rfl⟩ := Prod.mk.inj hbook
  refine ⟨s, _, _, hrun, hsound, fun ha hb => ?_⟩
  have hfirst := Book.step_quiet hc ha (hroom _ (by omega))
  rw [hfirst] at hb hlast ⊢
  have hsecond := Book.step_quiet hd hb (hroom _ Book.quiet_size)
  rw [hsecond] at hlast ⊢
  exact ⟨hlast.symm, rfl, Book.quiet_answer hids⟩

end

end MatchingEngine

/-- Two calls about different ids that do not trade in either order, and do not
    both append to one level, give the same answers in both orders and the same
    book; no later run can tell the two engines apart. -/
theorem run_swap (config : Config) (cs : List Command)
    (hcs : ∀ c ∈ cs, c.LimitBelow config.maxLevels) {s : MatchingEngine}
    {events : List MatchEvent} (hrun : config.engine.run cs = some (s, events))
    (hfree : s.pool.hasFree 2 = true) (A B : Command) (hA : A.RestsOrCancels config.maxLevels)
    (hB : B.RestsOrCancels config.maxLevels) (hids : A.id ≠ B.id) (hlevel : ¬ A.SameLevel B) :
    ∃ s₁ s₂ a₁ b₁ a₂ b₂,
      s.run [A, B] = some (s₁, [a₁, b₁]) ∧ s.run [B, A] = some (s₂, [b₂, a₂]) ∧
      ((∀ event ∈ [a₁, b₁, a₂, b₂], event.trades = []) →
        a₁ = a₂ ∧ b₁ = b₂ ∧ s₁.book = s₂.book ∧
        (∀ id, (s₁.orderMap.lookup id).isSome = (s₂.orderMap.lookup id).isSome) ∧
        ∀ later, (∀ c ∈ later, c.LimitBelow config.maxLevels) →
          ∃ t₁ t₂ outs, s₁.run later = some (t₁, outs) ∧ s₂.run later = some (t₂, outs)) := by
  rw [← config.levels_eq] at hcs hA hB ⊢
  obtain ⟨t, outs, hrun', ⟨L, hs⟩, hbook⟩ := config.engine_sound.run_book hcs
  obtain rfl := (result_unique hrun hrun').1
  have hsorted : s.book.Sorted := hs.book_sorted
  obtain ⟨s₁, a₁, b₁, hrun₁, ⟨L₁, hs₁⟩, hquiet₁⟩ := hs.run_pair hfree hA hB hids
  obtain ⟨s₂, b₂, a₂, hrun₂, ⟨L₂, hs₂⟩, hquiet₂⟩ := hs.run_pair hfree hB hA hids.symm
  refine ⟨s₁, s₂, a₁, b₁, a₂, b₂, hrun₁, hrun₂, fun htrades => ?_⟩
  obtain ⟨hbook₁, rfl, rfl⟩ := hquiet₁ (htrades _ (by simp)) (htrades _ (by simp))
  obtain ⟨hbook₂, rfl, rfl⟩ := hquiet₂ (htrades _ (by simp)) (htrades _ (by simp))
  have hsame : s₁.book = s₂.book := by
    rw [hbook₁, hbook₂]
    exact Book.quiet_comm hsorted hids hlevel
  refine ⟨rfl, rfl, hsame, hs₁.orderMap_congr hs₂ hsame, fun later hlater => ?_⟩
  obtain ⟨t₁, outs₁, hrun₁', -, hlater₁⟩ := hs₁.run_book hlater
  obtain ⟨t₂, outs₂, hrun₂', -, hlater₂⟩ := hs₂.run_book hlater
  rw [hsame, hlater₂] at hlater₁
  obtain ⟨-, rfl⟩ := Prod.mk.inj hlater₁
  exact ⟨t₁, t₂, _, hrun₁', hrun₂'⟩

/-- A bid behind another one of its level, and the cancel of the order in front. -/
theorem sample_swap : ∃ s events s₁ s₂ outs₁ outs₂,
    Config.small.engine.run [.processOrder (makeOrder 1 .buy 5 20)] = some (s, events) ∧
    s.run [.processOrder (makeOrder 2 .buy 5 10), .cancelOrder 1] = some (s₁, outs₁) ∧
    s.run [.cancelOrder 1, .processOrder (makeOrder 2 .buy 5 10)] = some (s₂, outs₂) ∧
    s₁.book = s₂.book := by
  obtain ⟨s, events, hrun, htest⟩ := @exec_test _ _ _ MatchingEngine.step Config.small.engine
    [.processOrder (makeOrder 1 .buy 5 20)]
    (fun s => s.pool.hasFree 2 &&
      ((s.run [.processOrder (makeOrder 2 .buy 5 10), .cancelOrder 1]).all fun r =>
        r.2.all fun event => event.trades = []) &&
      ((s.run [.cancelOrder 1, .processOrder (makeOrder 2 .buy 5 10)]).all fun r =>
        r.2.all fun event => event.trades = []))
    (by decide +kernel)
  simp only [Bool.and_eq_true] at htest
  obtain ⟨⟨hfree, hquiet₁⟩, hquiet₂⟩ := htest
  obtain ⟨s₁, s₂, a₁, b₁, a₂, b₂, hrun₁, hrun₂, hswap⟩ :=
    run_swap Config.small [.processOrder (makeOrder 1 .buy 5 20)] (by decide) hrun hfree
      (.processOrder (makeOrder 2 .buy 5 10)) (.cancelOrder 1) (by decide) (by decide) (by decide)
      (by decide)
  have htrades : ∀ event ∈ [a₁, b₁, a₂, b₂], event.trades = [] := by
    simp only [hrun₁, hrun₂, Option.all_some, List.all_eq_true,
      decide_eq_true_eq] at hquiet₁ hquiet₂
    intro event hevent
    simp only [List.mem_cons, List.not_mem_nil, or_false] at hevent hquiet₁ hquiet₂
    rcases hevent with rfl | rfl | rfl | rfl
    · exact hquiet₁ _ (.inl rfl)
    · exact hquiet₁ _ (.inr rfl)
    · exact hquiet₂ _ (.inr rfl)
    · exact hquiet₂ _ (.inl rfl)
  exact ⟨s, events, s₁, s₂, _, _, hrun, hrun₁, hrun₂, (hswap htrades).2.2.1⟩

end LimitOrderBook
