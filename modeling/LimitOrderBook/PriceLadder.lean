/-
  LimitOrderBook.PriceLadder

  `price_ladder.h` and `price_ladder.cpp`: the price levels of one side as an
  array, with the bitset that marks the non-empty ones.

  The vector of levels is a function from indices to lists.  A conversion that
  answers `-1` in the source answers `none` here.
-/
import LimitOrderBook.Order
import LimitOrderBook.Bitset

namespace LimitOrderBook

structure PriceLadder where
  maxLevels : Int
  levels : Nat → PriceLevelList
  occupiedBits : DynamicBitset
  basePrice : Int
  tickSize : Int

namespace PriceLadder

def DEFAULT_MAX_LEVELS : Int := 20000

/-- The constructor; a vector of negative size is not built. -/
def make (maxLevels : Int := DEFAULT_MAX_LEVELS) : Option PriceLadder := do
  if maxLevels < 0 then none
  let occupiedBits ← DynamicBitset.make maxLevels
  return { maxLevels, levels := fun _ => {}, occupiedBits, basePrice := 0, tickSize := 1 }

def setBasePrice (self : PriceLadder) (base : Int) : PriceLadder :=
  { self with basePrice := base }

def setTickSize (self : PriceLadder) (tick : Int) : PriceLadder :=
  { self with tickSize := tick }

/-- Convert price to index; the division truncates towards zero. -/
def priceToIndex (self : PriceLadder) (price : Int) : Option Nat :=
  if self.tickSize = 0 then none
  else
    let offset := (price - self.basePrice).tdiv self.tickSize
    if offset < 0 ∨ offset ≥ self.maxLevels then none else some offset.toNat

/-- Convert index back to price. -/
def indexToPrice (self : PriceLadder) (index : Nat) : Int :=
  self.basePrice + index * self.tickSize

def levelAt (self : PriceLadder) (index : Nat) : PriceLevelList := self.levels index

/-- Write a level back. -/
def setLevel (self : PriceLadder) (index : Nat) (level : PriceLevelList) : PriceLadder :=
  { self with levels := Function.update self.levels index level }

def markOccupied (self : PriceLadder) (index : Nat) : PriceLadder :=
  { self with occupiedBits := self.occupiedBits.set index }

def markEmpty (self : PriceLadder) (index : Nat) : PriceLadder :=
  if (self.levels index).empty then
    { self with occupiedBits := self.occupiedBits.clear index }
  else self

def findBestBid (self : PriceLadder) : Option Nat := self.occupiedBits.findHighest

def findBestAsk (self : PriceLadder) : Option Nat := self.occupiedBits.findLowest

def bestBidPrice (self : PriceLadder) : Int :=
  match self.findBestBid with
  | some idx => self.indexToPrice idx
  | none => 0

def bestAskPrice (self : PriceLadder) : Int :=
  match self.findBestAsk with
  | some idx => self.indexToPrice idx
  | none => 0

/-- The ladder's own check; `none` when a level's traversal does not end.  The
    second loop visits every order, but its callback only returns. -/
def verifyInvariants (self : PriceLadder) (heap : Heap) (fuel : Nat) : Option Bool :=
  let indices := List.range self.maxLevels.toNat
  if indices.any fun (i : Nat) => self.occupiedBits.test i != !(self.levels i).empty then
    some false
  else do
    let _ ← indices.mapM fun i => (self.levels i).forEach heap fuel
    return true

-- ============================================================================
-- What the edits of a ladder write
-- ============================================================================

section Edits

variable (self : PriceLadder) (i : Nat) (level : PriceLevelList)

@[simp] theorem setLevel_levels :
    (self.setLevel i level).levels = Function.update self.levels i level := rfl

@[simp] theorem setLevel_occupiedBits :
    (self.setLevel i level).occupiedBits = self.occupiedBits := rfl

@[simp] theorem markOccupied_levels : (self.markOccupied i).levels = self.levels := rfl

@[simp] theorem markEmpty_levels : (self.markEmpty i).levels = self.levels := by
  rw [markEmpty]; split <;> rfl

/-- The bit of a level is cleared when the level is empty. -/
theorem markEmpty_occupiedBits : (self.markEmpty i).occupiedBits =
    if (self.levels i).empty then self.occupiedBits.clear i else self.occupiedBits := by
  rw [markEmpty]; split <;> rfl

end Edits

-- ============================================================================
-- Base price 0 and tick size 1
-- ============================================================================

/-- The ladder of an engine: `n` levels, level `i` at price `i`. -/
structure UnitTicks (ladder : PriceLadder) (n : Nat) : Prop where
  maxLevels : ladder.maxLevels = n
  basePrice : ladder.basePrice = 0
  tickSize : ladder.tickSize = 1

section UnitTicks

variable {self : PriceLadder} {n : Nat}

theorem UnitTicks.setLevel (h : self.UnitTicks n) (i : Nat) (level : PriceLevelList) :
    (self.setLevel i level).UnitTicks n := ⟨h.maxLevels, h.basePrice, h.tickSize⟩

theorem UnitTicks.markOccupied (h : self.UnitTicks n) (i : Nat) :
    (self.markOccupied i).UnitTicks n := ⟨h.maxLevels, h.basePrice, h.tickSize⟩

theorem UnitTicks.markEmpty (h : self.UnitTicks n) (i : Nat) :
    (self.markEmpty i).UnitTicks n := by
  rw [PriceLadder.markEmpty]
  split
  · exact ⟨h.maxLevels, h.basePrice, h.tickSize⟩
  · exact h

theorem UnitTicks.indexToPrice (h : self.UnitTicks n) (i : Nat) : self.indexToPrice i = i := by
  simp [PriceLadder.indexToPrice, h.basePrice, h.tickSize]

theorem UnitTicks.priceToIndex (h : self.UnitTicks n) (price : Int) :
    self.priceToIndex price = if 0 ≤ price ∧ price < n then some price.toNat else none := by
  unfold PriceLadder.priceToIndex
  have htick : ¬ self.tickSize = 0 := by rw [h.tickSize]; decide
  rw [if_neg htick, h.tickSize, h.basePrice, h.maxLevels, Int.sub_zero, Int.tdiv_one]
  by_cases hin : 0 ≤ price ∧ price < n
  · have hout : ¬ (price < 0 ∨ price ≥ n) := by omega
    simp only [hin, hout, and_self, if_true, if_false]
  · have hout : price < 0 ∨ price ≥ n := by omega
    simp only [hin, hout, if_true, if_false]

theorem UnitTicks.priceToIndex_natCast (h : self.UnitTicks n) {i : Nat} (hi : i < n) :
    self.priceToIndex i = some i := by
  have hin : 0 ≤ (i : Int) ∧ (i : Int) < n := by omega
  rw [h.priceToIndex, if_pos hin, Int.toNat_natCast]

theorem UnitTicks.priceToIndex_none (h : self.UnitTicks n) {price : Int}
    (hp : (n : Int) ≤ price) : self.priceToIndex price = none := by
  have hout : ¬ (0 ≤ price ∧ price < n) := by omega
  rw [h.priceToIndex, if_neg hout]

end UnitTicks

end PriceLadder

end LimitOrderBook
