/-
  LimitOrderBook.Quotes

  What the engine answers about prices and quantities is a function of the book:
  the quantity at a price is the sum of the remaining quantities there, as long as
  it fits `int64_t`, and the best price of a side is that of its best order.
-/
import LimitOrderBook.View

namespace LimitOrderBook

open Lib MatchingEngine

namespace Book

/-- The running sum of the remaining quantities at a price. -/
def restingQuantity (B : Book) (side : Side) (price : Int) : Option Int :=
  ((B.side side).filter fun e => e.price = price).foldlM
    (fun total e => addInt64 total e.remaining) 0

/-- The sum itself. -/
def restingTotal (B : Book) (side : Side) (price : Int) : Int :=
  Entry.supply.total ((B.side side).filter fun e => e.price = price)

/-- A running sum of positive quantities overflows exactly when the sum does. -/
theorem foldlM_addInt64 {es : List Entry} (hpos : ∀ e ∈ es, 0 < e.remaining) {acc : Int}
    (hacc : 0 ≤ acc) (hmax : acc ≤ INT64_MAX) :
    es.foldlM (fun total e => addInt64 total e.remaining) acc =
      if acc + Entry.supply.total es ≤ INT64_MAX then some (acc + Entry.supply.total es)
      else none := by
  induction es generalizing acc with
  | nil =>
      rw [Supply.total_nil, Int.add_zero, if_pos hmax]
      rfl
  | cons e es ih =>
      have he := hpos e (List.mem_cons_self ..)
      have hes : ∀ e ∈ es, 0 < e.remaining := fun e h => hpos e (List.mem_cons_of_mem _ h)
      have hrest : 0 ≤ Entry.supply.total es := Supply.total_nonneg hes
      have hamount : Entry.supply.amount e = e.remaining := rfl
      have hmin : INT64_MIN ≤ acc + e.remaining := by
        have : INT64_MIN ≤ 0 := by decide
        omega
      rw [List.foldlM_cons, Supply.total_cons, hamount]
      by_cases hfits : acc + e.remaining ≤ INT64_MAX
      · rw [addInt64, if_pos ⟨hmin, hfits⟩]
        show es.foldlM _ (acc + e.remaining) = _
        rw [ih hes (by omega) hfits, Int.add_assoc]
      · have hno : ¬ acc + (e.remaining + Entry.supply.total es) ≤ INT64_MAX := by omega
        rw [addInt64, if_neg (fun hc => hfits hc.2), if_neg hno]
        rfl

theorem restingQuantity_eq {B : Book} (hpos : B.Positive) (side : Side) (price : Int) :
    B.restingQuantity side price =
      if B.restingTotal side price ≤ INT64_MAX then some (B.restingTotal side price)
      else none := by
  have h := @foldlM_addInt64 ((B.side side).filter fun e => e.price = price)
    (fun e he => hpos side e (List.mem_filter.mp he).1) 0 (Int.le_refl 0) (by decide)
  rwa [Int.zero_add] at h

end Book

namespace MatchingEngine

section

variable {self : MatchingEngine} {n capacity : Nat} {L : Layout}

/-- The orders of a level are those of its price. -/
theorem Rep.slots_filter (h : self.Rep n capacity L) (side : Side) {i : Nat} (hi : i < n) :
    (L.slots n side).filter (fun p => (self.entry p).price = i) = L.queue side i := by
  obtain ⟨pre, post, hsplit, hpre, hpost⟩ :=
    Buckets.split_of_mem (ladderOrder_nodup side n) (mem_ladderOrder.mpr hi)
  have hprice : ∀ j, ∀ p ∈ L.queue side j, (self.entry p).price = j := fun j p hp =>
    (h.live hp).price
  have hnone : ∀ js : List Nat, i ∉ js →
      (js.flatMap (L.queue side)).filter (fun p => (self.entry p).price = i) = [] := by
    intro js hjs
    rw [List.filter_eq_nil_iff]
    intro p hp hpi
    obtain ⟨j, hj, hpj⟩ := List.mem_flatMap.mp hp
    rw [hprice j p hpj, decide_eq_true_eq] at hpi
    exact hjs (Int.ofNat_inj.mp hpi ▸ hj)
  have hall : (L.queue side i).filter (fun p => (self.entry p).price = i) = L.queue side i := by
    rw [List.filter_eq_self]
    intro p hp
    rw [hprice i p hp, decide_eq_true_eq]
  rw [Layout.slots, hsplit, List.flatMap_append, List.flatMap_cons, List.filter_append,
    List.filter_append, hnone pre hpre, hnone post hpost, hall, List.nil_append, List.append_nil]

/-- Every order of the book is at a price of the ladder. -/
theorem Rep.price_mem (h : self.Rep n capacity L) {side : Side} {e : Entry}
    (he : e ∈ self.book.side side) : 0 ≤ e.price ∧ e.price < n := by
  rw [h.book_side] at he
  obtain ⟨p, hp, rfl⟩ := List.mem_map.mp he
  obtain ⟨i, hi⟩ := h.mem_slots_iff.mp hp
  have hlt := h.lt_of_mem hi
  have hpi : (self.entry p).price = i := (h.live hi).price
  omega

/-- No order is at a price off the ladder. -/
theorem Rep.filter_off (h : self.Rep n capacity L) (side : Side) {price : Int}
    (hout : ¬ (0 ≤ price ∧ price < n)) :
    (self.book.side side).filter (fun e => e.price = price) = [] := by
  rw [List.filter_eq_nil_iff]
  intro e he hprice
  rw [← of_decide_eq_true hprice] at hout
  exact hout (h.price_mem he)

/-- A level holds what the book has at its price. -/
theorem Rep.level_entries (h : self.Rep n capacity L) (side : Side) (i : Nat) :
    (L.queue side i).map self.entry =
      (self.book.side side).filter fun e => e.price = (i : Int) := by
  by_cases hi : i < n
  · rw [h.book_side, List.filter_map, ← h.slots_filter side hi]
    rfl
  · have hnil : L.queue side i = [] :=
      List.eq_nil_iff_forall_not_mem.mpr fun p hp => hi (h.lt_of_mem hp)
    rw [hnil, h.filter_off side (by omega)]
    rfl

/-- What the engine answers is a function of the book. -/
theorem Rep.restingQuantity_eq (h : self.Rep n capacity L) (side : Side) (price : Int) :
    self.restingQuantity side price = self.book.restingQuantity side price := by
  by_cases hin : 0 ≤ price ∧ price < n
  · obtain ⟨i, rfl⟩ : ∃ i : Nat, price = i := ⟨price.toNat, (Int.toNat_of_nonneg hin.1).symm⟩
    have hindex : (self.ladder side).priceToIndex i = some i :=
      (h.ladder side).ticks.priceToIndex_natCast (by omega)
    simp only [restingQuantity, hindex, h.forEach_eq, Option.bind_eq_bind, Option.bind_some]
    rw [Book.restingQuantity, ← h.level_entries, List.foldlM_map]
    rfl
  · have hindex : (self.ladder side).priceToIndex price = none := by
      rw [(h.ladder side).ticks.priceToIndex, if_neg hin]
    simp only [restingQuantity, hindex]
    rw [Book.restingQuantity, h.filter_off side hin]
    rfl

end

end MatchingEngine

-- ============================================================================
-- The quote of a book
-- ============================================================================

/-- The best price of a side, or 0 when no order rests there. -/
def Book.Quoted (B : Book) (side : Side) (price : Int) : Prop :=
  (B.side side = [] ∧ price = 0) ∨
    ∃ e ∈ B.side side, e.price = price ∧ ∀ x ∈ B.side side, ¬ side.better x.price price

theorem Book.Quoted.unique {B : Book} {side : Side} {p q : Int} (hp : B.Quoted side p)
    (hq : B.Quoted side q) : p = q := by
  rcases hp with ⟨hnil, rfl⟩ | ⟨e, he, rfl, hbest⟩
  · rcases hq with ⟨-, rfl⟩ | ⟨x, hx, -⟩
    · rfl
    · rw [hnil] at hx
      exact absurd hx List.not_mem_nil
  · rcases hq with ⟨hnil, -⟩ | ⟨x, hx, rfl, hbest'⟩
    · rw [hnil] at he
      exact absurd he List.not_mem_nil
    · exact Side.eq_of_not_better (hbest' e he) (hbest x hx)

namespace MatchingEngine

/-- `best_bid` or `best_ask`. -/
def bestPrice (self : MatchingEngine) : Side → Int
  | .buy => self.bestBid
  | .sell => self.bestAsk

/-- The engine quotes the best price at which an order rests. -/
theorem Rep.bestPrice_quoted {self : MatchingEngine} {n capacity : Nat} {L : Layout}
    (h : self.Rep n capacity L) (side : Side) : self.book.Quoted side (self.bestPrice side) := by
  have hprice : self.bestPrice side =
      (PriceLadder.findBest side (self.ladder side)).elim 0 (self.ladder side).indexToPrice := by
    cases side with
    | buy =>
        show self.bids.bestBidPrice = self.bids.findBestBid.elim 0 self.bids.indexToPrice
        rw [PriceLadder.bestBidPrice]
        cases self.bids.findBestBid <;> rfl
    | sell =>
        show self.asks.bestAskPrice = self.asks.findBestAsk.elim 0 self.asks.indexToPrice
        rw [PriceLadder.bestAskPrice]
        cases self.asks.findBestAsk <;> rfl
  rw [hprice, Book.Quoted, h.book_side]
  cases hbest : PriceLadder.findBest side (self.ladder side) with
  | none =>
      have hslots : L.slots n side = [] :=
        List.flatMap_eq_nil_iff.mpr fun i _ => (h.ladder side).findBest_none hbest i
      rw [hslots]
      exact .inl ⟨rfl, rfl⟩
  | some i =>
      obtain ⟨hne, hfirst⟩ := (h.ladder side).findBest_some hbest
      obtain ⟨p, hp⟩ := List.exists_mem_of_ne_nil _ hne
      have hindex : (self.ladder side).indexToPrice i = (self.entry p).price :=
        ((h.ladder side).ticks.indexToPrice i).trans (h.live hp).price.symm
      refine .inr ⟨self.entry p, List.mem_map_of_mem (h.mem_slots hp), hindex.symm, ?_⟩
      intro x hx
      obtain ⟨r, hr, rfl⟩ := List.mem_map.mp hx
      obtain ⟨j, hj⟩ := h.mem_slots_iff.mp hr
      have hr' : (self.entry r).price = j := (h.live hj).price
      have hp' : (self.entry p).price = i := (h.live hp).price
      show ¬ side.better _ ((self.ladder side).indexToPrice i)
      rw [hindex, hr', hp']
      by_cases hji : j = i
      · subst hji
        cases side <;> simp [Side.better]
      · exact Side.better_asymm side _ _
          (hfirst.better (h.lt_of_mem hj) (List.ne_nil_of_mem hj) hji)

end MatchingEngine

end LimitOrderBook
