/-
  LimitOrderBook.Lib.WordSet

  Sets of natural numbers packed into 64-bit words, with the two scans that
  find the least and the greatest member: words in increasing (decreasing)
  order, then the trailing (leading) zeros of the first word that is not zero.
-/
import Mathlib.Data.List.Range
import Mathlib.Logic.Function.Basic

namespace LimitOrderBook.Lib.WordSet

/-- Number `b` is in the set: bit `b % 64` of word `b / 64`. -/
def mem (w : Nat → BitVec 64) (b : Nat) : Bool := (w (b / 64)).getLsbD (b % 64)

/-- The least member below `64 * n`. -/
def lowest (w : Nat → BitVec 64) (n : Nat) : Option Nat :=
  (List.range n).findSome? fun i =>
    if w i = 0 then none else some (i * 64 + (w i).ctz.toNat)

/-- The greatest member below `64 * n`. -/
def highest (w : Nat → BitVec 64) (n : Nat) : Option Nat :=
  (List.range n).reverse.findSome? fun i =>
    if w i = 0 then none else some (i * 64 + (63 - (w i).clz.toNat))

-- ============================================================================
-- Adding and removing one member
-- ============================================================================

section Update

variable {w : Nat → BitVec 64} {b c : Nat}

theorem getLsbD_one_shiftLeft {i j : Nat} (hi : i < 64) :
    (1#64 <<< j).getLsbD i = decide (i = j) := by
  rw [BitVec.getLsbD_shiftLeft]
  by_cases h : i < j
  · simp [h, hi, Nat.ne_of_lt h]
  · have hge : j ≤ i := Nat.le_of_not_gt h
    by_cases he : i = j
    · subst he; simp [hi]
    · simp [he, hi, h]
      omega

/-- Two numbers share word and bit exactly when they are equal. -/
theorem eq_iff_div_mod : c = b ↔ c / 64 = b / 64 ∧ c % 64 = b % 64 := by omega

theorem mem_insert :
    mem (Function.update w (b / 64) (w (b / 64) ||| 1#64 <<< (b % 64))) c =
      (mem w c || decide (c = b)) := by
  unfold mem
  by_cases hw : c / 64 = b / 64
  · rw [hw, Function.update_self, BitVec.getLsbD_or,
      getLsbD_one_shiftLeft (Nat.mod_lt _ (by omega))]
    have hcb : c = b ↔ c % 64 = b % 64 := by rw [eq_iff_div_mod, hw]; simp
    simp only [hcb]
  · have hne : c ≠ b := fun e => hw (by rw [e])
    rw [Function.update_of_ne hw]
    simp [hne]

theorem mem_erase :
    mem (Function.update w (b / 64) (w (b / 64) &&& ~~~(1#64 <<< (b % 64)))) c =
      (mem w c && decide (c ≠ b)) := by
  unfold mem
  by_cases hw : c / 64 = b / 64
  · have hlt : c % 64 < 64 := Nat.mod_lt _ (by omega)
    rw [hw, Function.update_self, BitVec.getLsbD_and, BitVec.getLsbD_not,
      getLsbD_one_shiftLeft hlt]
    have hcb : c = b ↔ c % 64 = b % 64 := by rw [eq_iff_div_mod, hw]; simp
    simp [hlt, hcb]
  · have hne : c ≠ b := fun e => hw (by rw [e])
    rw [Function.update_of_ne hw]
    simp [hne]

/-- A zero word holds no member. -/
theorem mem_of_word_zero (h : w (c / 64) = 0) : mem w c = false := by
  unfold mem; rw [h]; simp

end Update

-- ============================================================================
-- The scans
-- ============================================================================

section Scan

variable {w : Nat → BitVec 64} {n b c : Nat}

theorem ctz_lt {x : BitVec 64} (hx : x ≠ 0) : x.ctz.toNat < 64 := by
  have h := (BitVec.ctz_lt_iff_ne_zero).mpr hx
  simpa [BitVec.lt_def] using h

theorem clz_lt {x : BitVec 64} (hx : x ≠ 0) : x.clz.toNat < 64 := by
  have h := (BitVec.clz_lt_iff_ne_zero).mpr hx
  simpa [BitVec.lt_def] using h

/-- Bits above the leading one are clear. -/
theorem getLsbD_of_clz_lt {x : BitVec 64} {i : Nat} (hi : 63 - x.clz.toNat < i) :
    x.getLsbD i = false := by
  have hlt := BitVec.toNat_lt_two_pow_sub_clz (x := x)
  rw [BitVec.getLsbD]
  apply Nat.testBit_lt_two_pow
  calc x.toNat < 2 ^ (64 - x.clz.toNat) := hlt
    _ ≤ 2 ^ i := Nat.pow_le_pow_right (by omega) (by omega)

/-- A word the scan passes over is zero. -/
theorem eq_zero_of_passed {i x : Nat} (h : (if w i = 0 then none else some x) = none) :
    w i = 0 := by
  by_contra h0
  rw [if_neg h0] at h
  exact absurd h (by simp)

/-- What is not behind the split of an ordered list is in front of it. -/
theorem mem_before {R : Nat → Nat → Prop} {l₁ l₂ : List Nat} {i j : Nat}
    (hsorted : (l₁ ++ i :: l₂).Pairwise R) (hin : j ∈ l₁ ++ i :: l₂) (hne : j ≠ i)
    (hnot : ¬ R i j) : j ∈ l₁ := by
  rcases List.mem_append.mp hin with hj | hj
  · exact hj
  · rcases List.mem_cons.mp hj with hj | hj
    · exact absurd hj hne
    · exact absurd ((List.pairwise_cons.mp (List.pairwise_append.mp hsorted).2.1).1 j hj) hnot

theorem lowest_eq_some (h : lowest w n = some b) :
    mem w b = true ∧ ∀ c < b, mem w c = false := by
  obtain ⟨l₁, i, l₂, hl, hi, hl₁⟩ := List.findSome?_eq_some_iff.mp h
  have hne : w i ≠ 0 := by
    intro h0
    simp [h0] at hi
  rw [if_neg hne] at hi
  have hb : i * 64 + (w i).ctz.toNat = b := by simpa using hi
  have hctz := ctz_lt hne
  have hdiv : b / 64 = i := by omega
  have hmod : b % 64 = (w i).ctz.toNat := by omega
  refine ⟨?_, ?_⟩
  · unfold mem
    rw [hdiv, hmod]
    exact BitVec.getLsbD_true_ctz_of_ne_zero hne
  · intro c hc
    by_cases hci : c / 64 = i
    · unfold mem
      rw [hci]
      exact BitVec.getLsbD_false_of_lt_ctz (by omega)
    · -- words before the first non-zero one
      apply mem_of_word_zero
      have hlt : c / 64 < i := by omega
      have hmem : c / 64 ∈ l₁ := by
        have hsorted : List.Pairwise (· < ·) (l₁ ++ i :: l₂) := hl ▸ List.pairwise_lt_range
        have hin : c / 64 ∈ l₁ ++ i :: l₂ := by
          rw [← hl, List.mem_range]
          have : i ∈ List.range n := by rw [hl]; simp
          exact Nat.lt_trans hlt (List.mem_range.mp this)
        exact mem_before hsorted hin (by omega) (by omega)
      exact eq_zero_of_passed (hl₁ _ hmem)

theorem lowest_eq_none (h : lowest w n = none) (hc : c < 64 * n) : mem w c = false := by
  have hpass := List.findSome?_eq_none_iff.mp h (c / 64) (List.mem_range.mpr (by omega))
  exact mem_of_word_zero (eq_zero_of_passed hpass)

theorem highest_eq_some (h : highest w n = some b) :
    mem w b = true ∧ ∀ c, b < c → c < 64 * n → mem w c = false := by
  obtain ⟨l₁, i, l₂, hl, hi, hl₁⟩ := List.findSome?_eq_some_iff.mp h
  have hne : w i ≠ 0 := by
    intro h0
    simp [h0] at hi
  rw [if_neg hne] at hi
  have hb : i * 64 + (63 - (w i).clz.toNat) = b := by simpa using hi
  have hclz := clz_lt hne
  have hdiv : b / 64 = i := by omega
  have hmod : b % 64 = 63 - (w i).clz.toNat := by omega
  refine ⟨?_, ?_⟩
  · unfold mem
    rw [hdiv, hmod]
    exact BitVec.getLsbD_true_clz_of_ne_zero (by decide) hne
  · intro c hc hcn
    by_cases hci : c / 64 = i
    · unfold mem
      rw [hci]
      exact getLsbD_of_clz_lt (by omega)
    · -- words after the last non-zero one
      apply mem_of_word_zero
      have hlt : i < c / 64 := by omega
      have hmem : c / 64 ∈ l₁ := by
        have hsorted : List.Pairwise (· > ·) (l₁ ++ i :: l₂) := by
          rw [← hl, List.pairwise_reverse]
          exact List.pairwise_lt_range
        have hin : c / 64 ∈ l₁ ++ i :: l₂ := by
          rw [← hl, List.mem_reverse, List.mem_range]
          omega
        exact mem_before hsorted hin (by omega) (by omega)
      exact eq_zero_of_passed (hl₁ _ hmem)

theorem highest_eq_none (h : highest w n = none) (hc : c < 64 * n) : mem w c = false := by
  have hin : c / 64 ∈ (List.range n).reverse := by
    rw [List.mem_reverse, List.mem_range]
    omega
  have hpass := List.findSome?_eq_none_iff.mp h (c / 64) hin
  exact mem_of_word_zero (eq_zero_of_passed hpass)

end Scan

end LimitOrderBook.Lib.WordSet
