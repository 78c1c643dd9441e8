/-
  LimitOrderBook.Bitset

  `bitset.h`: the occupancy bitset of a price ladder, 64 levels to a word.

  Bits are addressed by `int`, so `set`, `clear` and `test` take any integer and
  ignore one outside `[0, num_bits)`.  The scans return `none` for the source's
  `-1`.  `__builtin_clzll` and `__builtin_ctzll` count the leading and trailing
  zeros of a non-zero word.
-/
import LimitOrderBook.Types
import LimitOrderBook.Lib.WordSet

namespace LimitOrderBook

open Lib

structure DynamicBitset where
  numBits : Int
  numWords : Nat
  data : Nat → BitVec 64

namespace DynamicBitset

/-- The constructor.  `num_bits + 63` is `int` arithmetic, which must not
    overflow, and the word count is a vector size, which must not be negative. -/
def make (numBits : Int) : Option DynamicBitset :=
  let numWords := (numBits + 63).tdiv 64
  if numBits + 63 ≤ INT_MAX ∧ 0 ≤ numWords then
    some { numBits, numWords := numWords.toNat, data := fun _ => 0 }
  else none

def set (self : DynamicBitset) (bit : Int) : DynamicBitset :=
  if 0 ≤ bit ∧ bit < self.numBits then
    let i := bit.toNat >>> 6
    { self with
      data := Function.update self.data i (self.data i ||| (1#64 <<< (bit.toNat &&& 63))) }
  else self

def clear (self : DynamicBitset) (bit : Int) : DynamicBitset :=
  if 0 ≤ bit ∧ bit < self.numBits then
    let i := bit.toNat >>> 6
    { self with
      data := Function.update self.data i (self.data i &&& ~~~(1#64 <<< (bit.toNat &&& 63))) }
  else self

def test (self : DynamicBitset) (bit : Int) : Bool :=
  if bit < 0 ∨ bit ≥ self.numBits then false
  else (self.data (bit.toNat >>> 6) >>> (bit.toNat &&& 63)).getLsbD 0

/-- The highest set bit. -/
def findHighest (self : DynamicBitset) : Option Nat :=
  (List.range self.numWords).reverse.findSome? fun i =>
    if self.data i ≠ 0 then some ((i <<< 6) + (63 - (self.data i).clz.toNat)) else none

/-- The lowest set bit. -/
def findLowest (self : DynamicBitset) : Option Nat :=
  (List.range self.numWords).findSome? fun i =>
    if self.data i ≠ 0 then some ((i <<< 6) + (self.data i).ctz.toNat) else none

def empty (self : DynamicBitset) : Bool :=
  (List.range self.numWords).all fun i => decide (self.data i = 0)

def reset (self : DynamicBitset) : DynamicBitset := { self with data := fun _ => 0 }

-- ============================================================================
-- The bitset as a set of levels
-- ============================================================================

/-- Level `b` is in the set. -/
def mem (self : DynamicBitset) (b : Nat) : Bool := WordSet.mem self.data b

/-- Well formed: the words cover the bits and no bit outside them is set. -/
structure WF (bits : DynamicBitset) (n : Nat) : Prop where
  numBits : bits.numBits = n
  numWords : n ≤ 64 * bits.numWords
  outside : ∀ b, n ≤ b → bits.mem b = false

theorem make_wf {n : Nat} {bits : DynamicBitset} (h : make n = some bits) :
    bits.WF n ∧ ∀ b, bits.mem b = false := by
  have hdiv : ((n : Int) + 63).tdiv 64 = (n + 63) / 64 :=
    Int.tdiv_eq_ediv_of_nonneg (by omega)
  simp only [make, hdiv] at h
  split at h
  · obtain rfl := Option.some.inj h
    have hzero : ∀ w, DynamicBitset.mem { numBits := n, numWords := w, data := fun _ => 0 }
        = fun _ => false := by
      intro w; funext b; simp [mem, WordSet.mem]
    refine ⟨⟨rfl, by simp only; omega, fun b _ => by rw [hzero]⟩, fun b => by rw [hzero]⟩
  · exact absurd h (by simp)

theorem make_isSome {n : Nat} (h : (n : Int) ≤ 2 ^ 31 - 64) : ∃ bits, make n = some bits := by
  have hdiv : ((n : Int) + 63).tdiv 64 = (n + 63) / 64 :=
    Int.tdiv_eq_ediv_of_nonneg (by omega)
  have hin : (n : Int) + 63 ≤ INT_MAX ∧ 0 ≤ ((n : Int) + 63).tdiv 64 := by
    rw [hdiv, INT_MAX]; omega
  exact ⟨_, by rw [make, if_pos hin]⟩

section WF

variable {self : DynamicBitset} {n b c : Nat}

theorem set_mem (h : self.WF n) (hb : b < n) :
    (self.set b).mem c = (self.mem c || decide (c = b)) := by
  have hin : (0 : Int) ≤ b ∧ (b : Int) < self.numBits := by rw [h.numBits]; omega
  have hand : b &&& 63 = b % 64 := Nat.and_two_pow_sub_one_eq_mod b 6
  simp only [set, if_pos hin, mem, Int.toNat_natCast, Nat.shiftRight_eq_div_pow, hand]
  exact WordSet.mem_insert

theorem clear_mem (h : self.WF n) (hb : b < n) :
    (self.clear b).mem c = (self.mem c && decide (c ≠ b)) := by
  have hin : (0 : Int) ≤ b ∧ (b : Int) < self.numBits := by rw [h.numBits]; omega
  have hand : b &&& 63 = b % 64 := Nat.and_two_pow_sub_one_eq_mod b 6
  simp only [clear, if_pos hin, mem, Int.toNat_natCast, Nat.shiftRight_eq_div_pow, hand]
  exact WordSet.mem_erase

@[simp] theorem set_numBits {b : Int} : (self.set b).numBits = self.numBits := by
  unfold set; split <;> rfl

@[simp] theorem set_numWords {b : Int} : (self.set b).numWords = self.numWords := by
  unfold set; split <;> rfl

@[simp] theorem clear_numBits {b : Int} : (self.clear b).numBits = self.numBits := by
  unfold clear; split <;> rfl

@[simp] theorem clear_numWords {b : Int} : (self.clear b).numWords = self.numWords := by
  unfold clear; split <;> rfl

theorem WF.set (h : self.WF n) (hb : b < n) : (self.set b).WF n := by
  refine ⟨by simpa using h.numBits, by simpa using h.numWords, ?_⟩
  intro c hc
  have hne : c ≠ b := by omega
  rw [set_mem h hb, h.outside c hc]
  simp [hne]

theorem WF.clear (h : self.WF n) (hb : b < n) : (self.clear b).WF n := by
  refine ⟨by simpa using h.numBits, by simpa using h.numWords, ?_⟩
  intro c hc
  rw [clear_mem h hb, h.outside c hc]
  simp

/-- `test` reads membership. -/
theorem test_eq_mem (h : self.WF n) : self.test b = self.mem b := by
  unfold test
  have hand : b &&& 63 = b % 64 := Nat.and_two_pow_sub_one_eq_mod b 6
  by_cases hb : b < n
  · have hin : ¬ ((b : Int) < 0 ∨ (b : Int) ≥ self.numBits) := by rw [h.numBits]; omega
    rw [if_neg hin]
    simp only [mem, WordSet.mem, Int.toNat_natCast, Nat.shiftRight_eq_div_pow, hand,
      BitVec.getLsbD_ushiftRight, Nat.add_zero]
  · have hout : (b : Int) < 0 ∨ (b : Int) ≥ self.numBits := by rw [h.numBits]; omega
    rw [if_pos hout, h.outside b (by omega)]

theorem findLowest_eq : self.findLowest = WordSet.lowest self.data self.numWords := by
  unfold findLowest WordSet.lowest
  congr 1
  funext i
  by_cases hz : self.data i = 0 <;> simp [hz, Nat.shiftLeft_eq]

theorem findHighest_eq : self.findHighest = WordSet.highest self.data self.numWords := by
  unfold findHighest WordSet.highest
  congr 1
  funext i
  by_cases hz : self.data i = 0 <;> simp [hz, Nat.shiftLeft_eq]

/-- The lowest set bit is a member below which there is none. -/
theorem findLowest_some (h : self.findLowest = some b) :
    self.mem b = true ∧ ∀ c < b, self.mem c = false :=
  WordSet.lowest_eq_some (findLowest_eq ▸ h)

/-- The highest set bit is a member above which there is none. -/
theorem findHighest_some (hwf : self.WF n) (h : self.findHighest = some b) :
    self.mem b = true ∧ ∀ c, b < c → self.mem c = false := by
  obtain ⟨hb, hrest⟩ := WordSet.highest_eq_some (findHighest_eq ▸ h)
  refine ⟨hb, fun c hc => ?_⟩
  by_cases hcn : c < 64 * self.numWords
  · exact hrest c hc hcn
  · exact hwf.outside c (Nat.le_trans hwf.numWords (Nat.le_of_not_lt hcn))

theorem findLowest_none (hwf : self.WF n) (h : self.findLowest = none) :
    ∀ b, self.mem b = false := by
  intro b
  by_cases hb : b < 64 * self.numWords
  · exact WordSet.lowest_eq_none (findLowest_eq ▸ h) hb
  · exact hwf.outside b (Nat.le_trans hwf.numWords (Nat.le_of_not_lt hb))

theorem findHighest_none (hwf : self.WF n) (h : self.findHighest = none) :
    ∀ b, self.mem b = false := by
  intro b
  by_cases hb : b < 64 * self.numWords
  · exact WordSet.highest_eq_none (findHighest_eq ▸ h) hb
  · exact hwf.outside b (Nat.le_trans hwf.numWords (Nat.le_of_not_lt hb))

end WF

end DynamicBitset

end LimitOrderBook
