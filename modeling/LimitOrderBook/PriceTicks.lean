/-
  LimitOrderBook.PriceTicks

  The two conversions of a ladder between prices and levels, for any base price
  and tick size.

  Level `i` holds the prices of one tick from `index_to_price(i)` on.  The
  division in `price_to_index` truncates towards zero, so a price less than one
  tick below the base price (`belowBase`) lands on level 0, which does not hold
  it.  Every other price is mapped to the level that holds it, or to none.
-/
import LimitOrderBook.PriceLadder

namespace LimitOrderBook

namespace PriceLadder

/-- The price is in the tick of level `index`. -/
def Holds (self : PriceLadder) (index : Nat) (price : Int) : Prop :=
  (index : Int) < self.maxLevels ∧ self.indexToPrice index ≤ price ∧
    price < self.indexToPrice index + self.tickSize

/-- The price is below the base price, by less than a tick. -/
def belowBase (self : PriceLadder) (price : Int) : Prop :=
  self.basePrice - self.tickSize < price ∧ price < self.basePrice

/-- What the conversions promise of two prices. -/
structure PricesMapped (ladder : PriceLadder) (p q : Int) : Prop where
  /-- A price is mapped to the level that holds it. -/
  index : ∀ price, price = p ∨ price = q → ∀ i,
    ladder.priceToIndex price = some i ↔ ladder.Holds i price
  /-- It is out of range when no level holds it. -/
  outside : ∀ price, price = p ∨ price = q →
    (ladder.priceToIndex price = none ↔ ∀ i, ¬ ladder.Holds i price)
  /-- A price on the grid is that of its level. -/
  roundTrip : ∀ price, price = p ∨ price = q → ladder.basePrice ≤ price →
    price < ladder.basePrice + ladder.maxLevels * ladder.tickSize →
    ladder.tickSize ∣ price - ladder.basePrice →
    ∃ i, ladder.priceToIndex price = some i ∧ ladder.indexToPrice i = price
  /-- Prices in different ticks do not share a level. -/
  separate : ∀ i, ladder.priceToIndex p = some i → ladder.priceToIndex q = some i →
    (p - ladder.basePrice) / ladder.tickSize = (q - ladder.basePrice) / ladder.tickSize

section

variable {self : PriceLadder} {price : Int} {i : Nat}

/-- The quotient of a price that is not below the base price. -/
theorem priceToIndex_of_le (htick : 0 < self.tickSize) (hle : self.basePrice ≤ price) :
    self.priceToIndex price =
      if (price - self.basePrice) / self.tickSize < self.maxLevels then
        some ((price - self.basePrice) / self.tickSize).toNat
      else none := by
  have hne : ¬ self.tickSize = 0 := by omega
  have hdiv : (price - self.basePrice).tdiv self.tickSize =
      (price - self.basePrice) / self.tickSize := Int.tdiv_eq_ediv_of_nonneg (by omega)
  have hnonneg : 0 ≤ (price - self.basePrice) / self.tickSize :=
    Int.ediv_nonneg (by omega) (by omega)
  rw [priceToIndex, if_neg hne, hdiv]
  by_cases hlt : (price - self.basePrice) / self.tickSize < self.maxLevels
  · rw [if_pos hlt]
    exact if_neg (by omega)
  · rw [if_neg hlt]
    exact if_pos (by omega)

/-- A price at least one tick below the base price is out of range. -/
theorem priceToIndex_of_far (htick : 0 < self.tickSize)
    (hfar : price ≤ self.basePrice - self.tickSize) : self.priceToIndex price = none := by
  have hne : ¬ self.tickSize = 0 := by omega
  have hdiv : (price - self.basePrice).tdiv self.tickSize =
      -((self.basePrice - price) / self.tickSize) := by
    rw [← Int.tdiv_eq_ediv_of_nonneg (by omega), ← Int.neg_tdiv, Int.neg_sub]
  have hone : 1 ≤ (self.basePrice - price) / self.tickSize := by
    rw [Int.le_ediv_iff_mul_le htick]
    omega
  rw [priceToIndex, if_neg hne, hdiv]
  exact if_pos (by omega)

/-- A price less than a tick below the base price lands on level 0. -/
theorem priceToIndex_of_belowBase (hmax : 0 < self.maxLevels) (h : self.belowBase price) :
    self.priceToIndex price = some 0 := by
  obtain ⟨hlow, hhigh⟩ := h
  have hne : ¬ self.tickSize = 0 := by omega
  have hdiv : (price - self.basePrice).tdiv self.tickSize = 0 := by
    rw [← Int.neg_sub, Int.neg_tdiv, Int.tdiv_eq_zero_of_lt (by omega) (by omega)]
    rfl
  rw [priceToIndex, if_neg hne, hdiv]
  exact if_neg (by omega)

/-- Level `i` holds the prices whose offset is `i` ticks, rounded down. -/
theorem holds_iff (htick : 0 < self.tickSize) : self.Holds i price ↔
    (i : Int) < self.maxLevels ∧ (price - self.basePrice) / self.tickSize = i := by
  rw [Holds, indexToPrice, Int.ediv_eq_iff_of_pos htick]
  constructor
  · rintro ⟨hlt, hlow, hhigh⟩
    exact ⟨hlt, by omega, by omega⟩
  · rintro ⟨hlt, hlow, hhigh⟩
    exact ⟨hlt, by omega, by omega⟩

/-- No level holds a price below the base price. -/
theorem not_holds_of_lt (htick : 0 < self.tickSize) (hlt : price < self.basePrice) :
    ¬ self.Holds i price := by
  rintro ⟨-, hlow, -⟩
  have hnonneg : 0 ≤ (i : Int) * self.tickSize := Int.mul_nonneg (by omega) (by omega)
  rw [indexToPrice] at hlow
  omega

theorem priceToIndex_eq_some_iff (htick : 0 < self.tickSize) (hnot : ¬ self.belowBase price) :
    self.priceToIndex price = some i ↔ self.Holds i price := by
  by_cases hle : self.basePrice ≤ price
  · have hnonneg : 0 ≤ (price - self.basePrice) / self.tickSize :=
      Int.ediv_nonneg (by omega) (by omega)
    rw [priceToIndex_of_le htick hle, holds_iff htick]
    split
    · next hlt =>
        rw [Option.some.injEq]
        omega
    · next hge => exact iff_of_false (by simp) (by omega)
  · have hfar : price ≤ self.basePrice - self.tickSize := by
      by_contra hnear
      exact hnot ⟨by omega, by omega⟩
    rw [priceToIndex_of_far htick hfar]
    exact iff_of_false (by simp) (not_holds_of_lt htick (by omega))

theorem priceToIndex_eq_none_iff (htick : 0 < self.tickSize) (hnot : ¬ self.belowBase price) :
    self.priceToIndex price = none ↔ ∀ i, ¬ self.Holds i price := by
  rw [Option.eq_none_iff_forall_ne_some]
  exact forall_congr' fun i => not_congr (priceToIndex_eq_some_iff htick hnot)

/-- On the grid the conversions are inverse to each other. -/
theorem indexToPrice_priceToIndex (htick : 0 < self.tickSize) (hle : self.basePrice ≤ price)
    (hlt : price < self.basePrice + self.maxLevels * self.tickSize)
    (hgrid : self.tickSize ∣ price - self.basePrice) :
    ∃ i, self.priceToIndex price = some i ∧ self.indexToPrice i = price := by
  have hnonneg : 0 ≤ (price - self.basePrice) / self.tickSize :=
    Int.ediv_nonneg (by omega) (by omega)
  have hin : (price - self.basePrice) / self.tickSize < self.maxLevels := by
    rw [Int.ediv_lt_iff_lt_mul htick]
    omega
  have hmul : (price - self.basePrice) / self.tickSize * self.tickSize = price - self.basePrice :=
    Int.ediv_mul_cancel hgrid
  refine ⟨((price - self.basePrice) / self.tickSize).toNat, ?_, ?_⟩
  · rw [priceToIndex_of_le htick hle, if_pos hin]
  · rw [indexToPrice, Int.toNat_of_nonneg hnonneg, hmul]
    omega

/-- Level 0 from price 100 on, with ticks of 5, gets the price 96. -/
theorem lowered_not_held : ∃ ladder, PriceLadder.make 10 = some ladder ∧
    ((ladder.setBasePrice 100).setTickSize 5).priceToIndex 96 = some 0 ∧
    ((ladder.setBasePrice 100).setTickSize 5).indexToPrice 0 = 100 ∧
    ¬ ((ladder.setBasePrice 100).setTickSize 5).Holds 0 96 := by
  refine ⟨_, rfl, by decide, by decide, ?_⟩
  rintro ⟨-, hlow, -⟩
  exact absurd hlow (by decide)

/-- The conversions keep their promises of two prices exactly when neither is less
    than a tick below the base price. -/
theorem pricesMapped_iff (self : PriceLadder) (hmax : 0 < self.maxLevels)
    (htick : 0 < self.tickSize) (p q : Int) :
    self.PricesMapped p q ↔ ¬ self.belowBase p ∧ ¬ self.belowBase q := by
  constructor
  · intro h
    have hnot : ∀ price, price = p ∨ price = q → ¬ self.belowBase price := by
      intro price hprice hbelow
      have hheld := (h.index price hprice 0).mp (priceToIndex_of_belowBase hmax hbelow)
      exact not_holds_of_lt htick hbelow.2 hheld
    exact ⟨hnot p (.inl rfl), hnot q (.inr rfl)⟩
  · rintro ⟨hp, hq⟩
    have hnot : ∀ price, price = p ∨ price = q → ¬ self.belowBase price := by
      rintro price (rfl | rfl)
      · exact hp
      · exact hq
    refine ⟨?_, ?_, ?_, ?_⟩
    · exact fun price hprice i => priceToIndex_eq_some_iff htick (hnot price hprice)
    · exact fun price hprice => priceToIndex_eq_none_iff htick (hnot price hprice)
    · exact fun price _ => indexToPrice_priceToIndex htick
    · intro i hi hi'
      have hheld := (priceToIndex_eq_some_iff htick hp).mp hi
      have hheld' := (priceToIndex_eq_some_iff htick hq).mp hi'
      rw [((holds_iff htick).mp hheld).2, ((holds_iff htick).mp hheld').2]

end

/-- Ticks of 5 from price 100 on. -/
def coarse : PriceLadder :=
  { maxLevels := 10, levels := fun _ => {},
    occupiedBits := { numBits := 10, numWords := 1, data := fun _ => 0 },
    basePrice := 100, tickSize := 5 }

theorem coarse_pricesMapped : coarse.PricesMapped 107 95 :=
  (pricesMapped_iff coarse (by decide) (by decide) 107 95).mpr
    ⟨fun h => absurd h.2 (by decide), fun h => absurd h.1 (by decide)⟩

end PriceLadder

end LimitOrderBook
