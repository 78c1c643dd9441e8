/-
  LimitOrderBook.BookOrder

  Price order in the book: each side is sorted best price first, and the two
  sides do not cross.  A call keeps the sides apart, because an order rests only
  after every opposite price that it crosses has been taken.
-/
import LimitOrderBook.Book
import Mathlib.Data.List.TakeWhile

namespace LimitOrderBook

open Lib MatchingEngine

namespace Entry

/-- None of the ids leads to it any more. -/
def forgetAll (ids : List OrderID) (e : Entry) : Entry := ids.foldl (fun e id => e.forget id) e

section

variable (ids : List OrderID) (e : Entry)

@[simp] theorem forgetAll_nil : e.forgetAll [] = e := rfl
@[simp] theorem forgetAll_cons (id : OrderID) :
    e.forgetAll (id :: ids) = (e.forget id).forgetAll ids := rfl

@[simp] theorem forgetAll_id : (e.forgetAll ids).id = e.id := by
  induction ids generalizing e with
  | nil => rfl
  | cons id ids ih => rw [forgetAll_cons, ih, forget_id]

@[simp] theorem forgetAll_price : (e.forgetAll ids).price = e.price := by
  induction ids generalizing e with
  | nil => rfl
  | cons id ids ih => rw [forgetAll_cons, ih, forget_price]

@[simp] theorem forgetAll_quantity : (e.forgetAll ids).quantity = e.quantity := by
  induction ids generalizing e with
  | nil => rfl
  | cons id ids ih => rw [forgetAll_cons, ih, forget_quantity]

@[simp] theorem forgetAll_remaining : (e.forgetAll ids).remaining = e.remaining := by
  induction ids generalizing e with
  | nil => rfl
  | cons id ids ih => rw [forgetAll_cons, ih, forget_remaining]

/-- An entry whose id is not erased keeps its bit. -/
theorem forgetAll_of_notMem (h : e.id ∉ ids) : e.forgetAll ids = e := by
  induction ids with
  | nil => rfl
  | cons id ids ih =>
      have hne : ¬ e.id = id := fun he => h (he ▸ List.mem_cons_self ..)
      rw [forgetAll_cons, forget, if_neg hne]
      exact ih fun hin => h (List.mem_cons_of_mem _ hin)

end

end Entry

namespace Book

-- ============================================================================
-- What matching leaves on each side
-- ============================================================================

section

variable {B : Book} {order : IncomingOrder} {left : Int}

theorem forgetAll_side (B : Book) (ids : List OrderID) (side : Side) :
    (B.forgetAll ids).side side = (B.side side).map (Entry.forgetAll ids) := by
  induction ids generalizing B with
  | nil =>
      rw [forgetAll_nil]
      exact (List.map_id' _).symm
  | cons id ids ih =>
      rw [forgetAll_cons, ih, forget_side, List.map_map]
      rfl

theorem matched_own : (B.matched order left).book.side order.side =
    (B.side order.side).map (Entry.forgetAll ((B.consumed order left).map Entry.id)) := by
  rw [matched, forgetAll_side, setSide_opposite_side]

theorem matched_opposite : (B.matched order left).book.side order.side.opposite =
    (B.sweep order left).kept.map (Entry.forgetAll ((B.consumed order left).map Entry.id)) := by
  rw [matched, forgetAll_side, setSide_side]

/-- The opposite prices are a suffix of what they were. -/
theorem matched_opposite_price :
    ((B.matched order left).book.side order.side.opposite).map Entry.price <:+
      (B.side order.side.opposite).map Entry.price := by
  have hprice : Entry.price ∘ Entry.forgetAll ((B.consumed order left).map Entry.id) =
      Entry.price := by
    funext e
    exact Entry.forgetAll_price ..
  rw [matched_opposite, List.map_map, hprice]
  exact Supply.sweep_kept_suffix fun _ _ => rfl

theorem matched_own_price :
    ((B.matched order left).book.side order.side).map Entry.price =
      (B.side order.side).map Entry.price := by
  rw [matched_own, List.map_map]
  exact List.map_congr_left fun e _ => Entry.forgetAll_price ..

end

-- ============================================================================
-- Sorted and uncrossed
-- ============================================================================

/-- Each side has its best price first. -/
def Sorted (B : Book) : Prop :=
  ∀ side, ((B.side side).map Entry.price).Pairwise fun p q => ¬ side.better q p

/-- Every bid is below every ask. -/
def Uncrossed (B : Book) : Prop := ∀ b ∈ B.bids, ∀ a ∈ B.asks, b.price < a.price

/-- Seen from either side. -/
theorem uncrossed_iff {B : Book} (side : Side) : B.Uncrossed ↔
    ∀ p ∈ (B.side side).map Entry.price, ∀ q ∈ (B.side side.opposite).map Entry.price,
      side.better q p := by
  cases side <;> simp only [Uncrossed, Side.better, Side.opposite, side_buy, side_sell,
    List.mem_map, forall_exists_index, and_imp, forall_apply_eq_imp_iff₂]
  exact ⟨fun h a ha b hb => h b hb a ha, fun h b hb a ha => h a ha b hb⟩

/-- A priced order crosses exactly the prices that are not beyond its own. -/
theorem crosses_eq_false {order : IncomingOrder} {p : Int}
    (h : order.crosses p = false) : order.side.better p order.price := by
  simp only [IncomingOrder.crosses, Bool.or_eq_false_iff] at h
  obtain ⟨-, h⟩ := h
  cases hs : order.side with
  | buy =>
      simp only [hs, decide_eq_false_iff_not] at h
      simp only [Side.better]
      omega
  | sell =>
      simp only [hs, decide_eq_false_iff_not] at h
      simp only [Side.better]
      omega

/-- An order that does not cross a price crosses no worse one. -/
theorem crosses_of_better {order : IncomingOrder} {p q : Int}
    (h : order.crosses p = false) (hpq : order.side.opposite.better p q) :
    order.crosses q = false := by
  simp only [IncomingOrder.crosses, Bool.or_eq_false_iff] at h ⊢
  refine ⟨h.1, ?_⟩
  have hp := h.2
  cases hs : order.side with
  | buy =>
      simp only [hs, decide_eq_false_iff_not] at hp ⊢
      simp only [hs, Side.opposite, Side.better] at hpq
      omega
  | sell =>
      simp only [hs, decide_eq_false_iff_not] at hp ⊢
      simp only [hs, Side.opposite, Side.better] at hpq
      omega

section

variable {B : Book} {order : IncomingOrder} {left : Int}

/-- An order crosses nothing exactly when no opposite order is at a price that it
    crosses. -/
theorem crossing_eq_nil_iff (hsorted : B.Sorted) : B.crossing order = [] ↔
    ∀ e ∈ B.side order.side.opposite, order.crosses e.price = false := by
  have hpair := hsorted order.side.opposite
  rw [crossing]
  cases hside : B.side order.side.opposite with
  | nil => simp
  | cons e es =>
      rw [hside, List.map_cons, List.pairwise_cons] at hpair
      constructor
      · intro hnil x hx
        have he : order.crosses e.price = false := by
          rw [Bool.eq_false_iff]
          intro hcross
          simp [hcross] at hnil
        rcases List.mem_cons.mp hx with rfl | hx
        · exact he
        · have hworse := hpair.1 x.price (List.mem_map_of_mem hx)
          by_cases hprice : x.price = e.price
          · rw [hprice]
            exact he
          · apply crosses_of_better he
            cases hs : order.side <;>
              simp only [hs, Side.opposite, Side.better] at hworse ⊢ <;> omega
      · intro h
        have he := h e (List.mem_cons_self ..)
        simp [he]

theorem matched_uncross (order : IncomingOrder) (left : Int) (h : B.Uncrossed) :
    (B.matched order left).book.Uncrossed := by
  rw [uncrossed_iff order.side] at h ⊢
  intro p hp q hq
  rw [matched_own_price] at hp
  exact h p hp q (matched_opposite_price.subset hq)

/-- While the order has something left, no opposite price crosses it. -/
theorem matched_beyond (hsorted : B.Sorted) (hleft : 0 < (B.matched order left).left) :
    ∀ q ∈ ((B.matched order left).book.side order.side.opposite).map Entry.price,
      order.side.better q order.price := by
  have hhead := @Supply.sweep_left_pos _ Entry.supply (fun e => order.crosses e.price) left
    (B.side order.side.opposite) hleft
  have hpair := (hsorted order.side.opposite).sublist
    (@matched_opposite_price B order left).sublist
  rw [matched_opposite] at hpair ⊢
  rw [sweep] at hpair ⊢
  revert hhead hpair
  generalize (Entry.supply.sweep (fun e => order.crosses e.price) left
    (B.side order.side.opposite)).kept = kept
  intro hhead hpair q hq
  cases kept with
  | nil => exact absurd hq (by simp)
  | cons e es =>
      have he := crosses_eq_false (hhead e rfl)
      simp only [List.map_cons, Entry.forgetAll_price, List.mem_cons, List.pairwise_cons]
        at hq hpair
      rcases hq with rfl | hq
      · exact he
      · have hnot := hpair.1 q hq
        cases hs : order.side <;> simp only [hs, Side.better, Side.opposite] at he hnot ⊢ <;> omega

/-- An order that has something left keeps of the opposite side what it does not
    cross. -/
theorem sweep_kept_beyond (hleft : 0 < (B.sweep order left).left) :
    (B.sweep order left).kept = B.beyond order := by
  have hsweep := @Supply.sweep_takeWhile _ Entry.supply (fun e => order.crosses e.price) left
    (B.side order.side.opposite)
  have hcross : ∀ e ∈ B.crossing order, order.crosses e.price = true := fun e he =>
    @List.mem_takeWhile_imp _ (fun e : Entry => order.crosses e.price) _ e he
  have hhead := @Supply.sweep_left_pos _ Entry.supply (fun e => order.crosses e.price) left
    (B.crossing order)
  have hmem := @Supply.sweep_kept _ Entry.supply (fun e => order.crosses e.price) left
    (B.crossing order)
  rw [sweep, hsweep] at hleft ⊢
  rw [crossing] at hhead hmem hcross
  revert hleft hhead hmem
  generalize Entry.supply.sweep (fun e => order.crosses e.price) left
    ((B.side order.side.opposite).takeWhile fun e => order.crosses e.price) = s
  intro hleft hhead hmem
  cases hk : s.kept with
  | nil => rfl
  | cons e es =>
      -- what is kept crosses, so it would have been taken
      have hno := hhead hleft e (by rw [hk]; rfl)
      rcases hmem e (by rw [hk]; exact List.mem_cons_self ..) with he | ⟨x, hx, q, -, -, he⟩
      · exact absurd (hcross e he) (by simp [hno])
      · exact absurd (hcross x hx) (by
          rw [show x.price = e.price by rw [he]; rfl]
          simp [hno])

/-- An order that has something left has taken every order that it crosses. -/
theorem matched_size (hleft : 0 < (B.matched order left).left) :
    (B.matched order left).book.size + (B.crossing order).length = B.size := by
  have hkept := sweep_kept_beyond hleft
  have hlen := congrArg List.length
    (@List.takeWhile_append_dropWhile _ (fun e => order.crosses e.price)
      (B.side order.side.opposite))
  rw [List.length_append] at hlen
  have hown := congrArg List.length (@matched_own B order left)
  have hopp := congrArg List.length (@matched_opposite B order left)
  rw [List.length_map] at hown hopp
  rw [hkept] at hopp
  rw [size_eq _ order.side, size_eq B order.side, hown, hopp, crossing, beyond]
  omega

theorem matched_sorted (order : IncomingOrder) (left : Int) (h : B.Sorted) :
    (B.matched order left).book.Sorted := by
  intro side
  rcases Side.eq_or_eq_opposite order.side side with rfl | rfl
  · rw [matched_own_price]
    exact h order.side
  · exact (h order.side.opposite).sublist matched_opposite_price.sublist

theorem forget_sorted (id : OrderID) (h : B.Sorted) : (B.forget id).Sorted := by
  intro side
  have hprice : ((B.side side).map (Entry.forget id)).map Entry.price =
      (B.side side).map Entry.price := by
    rw [List.map_map]
    exact List.map_congr_left fun e _ => Entry.forget_price ..
  rw [forget_side, hprice]
  exact h side

/-- A sorted side, entry by entry. -/
theorem Sorted.pairwise (h : B.Sorted) (side : Side) :
    (B.side side).Pairwise fun a b => ¬ side.better b.price a.price :=
  List.pairwise_map.mp (h side)

/-- The transitivity that sorted insertion asks for. -/
theorem better_trans_price (side : Side) (a b c : Entry) (hab : side.better a.price b.price)
    (hcb : ¬ side.better c.price b.price) : side.better a.price c.price :=
  Side.better_trans side _ _ _ hab hcb

theorem rest_sorted (order : IncomingOrder) (left : Int) (h : B.Sorted) :
    (B.rest order left).Sorted := by
  intro side
  have hforget := forget_sorted order.id h
  rcases Side.eq_or_eq_opposite order.side side with rfl | rfl
  · rw [rest, setSide_side, List.pairwise_map]
    exact Buckets.orderedInsert_pairwise (fun a b => Side.better_asymm order.side a.price b.price)
      (better_trans_price order.side) _ (hforget.pairwise order.side)
  · rw [rest, setSide_side_opposite]
    exact hforget order.side.opposite

/-- A cancel only takes entries out. -/
theorem cancel_sublist (B : Book) (id : OrderID) (side : Side) :
    ((B.cancel id).1.side side).Sublist (B.side side) := by
  unfold cancel
  split
  · cases side
    · exact List.eraseP_sublist
    · exact List.Sublist.refl _
  · split
    · cases side
      · exact List.Sublist.refl _
      · exact List.eraseP_sublist
    · exact List.Sublist.refl _

/-- A call keeps the sides sorted. -/
theorem step_sorted (room : Nat → Bool) (c : Command) (h : B.Sorted) :
    (B.step room c).1.Sorted := by
  cases c with
  | cancelOrder id => exact fun side => (h side).sublist ((cancel_sublist B id side).map _)
  | processOrder order =>
      rw [step]
      cases hv : validateOrder order with
      | false =>
          rw [process_rejected room B hv]
          exact h
      | true =>
          have hm := matched_sorted order order.quantity h
          obtain ⟨status, -, ⟨-, -, hbook⟩ | ⟨-, -, -, hbook⟩ | ⟨-, -, hbook⟩⟩ :=
            process_cases room B hv
          · rw [hbook]
            exact hm
          · rw [hbook]
            exact rest_sorted order _ hm
          · rw [hbook]
            exact hm

/-- A call keeps the sides apart. -/
theorem process_uncrossed {room : Nat → Bool} (hsorted : B.Sorted) (h : B.Uncrossed) :
    (B.process room order).1.Uncrossed := by
  cases hv : validateOrder order with
  | false =>
      rw [process_rejected room B hv]
      exact h
  | true =>
      have hm := matched_uncross order order.quantity h
      have hnonneg : 0 ≤ (B.matched order order.quantity).left :=
         Supply.sweep_left_nonneg (Int.le_of_lt (validateOrder_pos hv).1)
      simp only [process, hv, Bool.not_true, Bool.false_eq_true, if_false]
      split
      · exact hm
      · split
        · rw [uncrossed_iff order.side] at hm ⊢
          have hbeyond := @matched_beyond B order order.quantity hsorted (by omega)
          have hforget : ∀ l : List Entry,
              (l.map (Entry.forget order.id)).map Entry.price = l.map Entry.price := by
            intro l
            rw [List.map_map]
            exact List.map_congr_left fun e _ => Entry.forget_price ..
          intro p hp q hq
          rw [rest, setSide_side_opposite, forget_side, hforget] at hq
          rw [rest, setSide_side, forget_side] at hp
          obtain ⟨e, he, rfl⟩ := List.mem_map.mp hp
          rcases (List.mem_orderedInsert _).mp he with rfl | he
          · exact hbeyond q hq
          · exact hm e.price (hforget _ ▸ List.mem_map_of_mem he) q hq
        · exact hm

theorem step_uncrossed {room : Nat → Bool} {c : Command} (hsorted : B.Sorted)
    (h : B.Uncrossed) : (B.step room c).1.Uncrossed := by
  cases c with
  | processOrder order => exact process_uncrossed hsorted h
  | cancelOrder id =>
      intro b hb a ha
      exact h b ((cancel_sublist B id .buy).subset hb) a ((cancel_sublist B id .sell).subset ha)

end

end Book

end LimitOrderBook
