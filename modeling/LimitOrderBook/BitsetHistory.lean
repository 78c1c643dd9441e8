/-
  LimitOrderBook.BitsetHistory

  The bitset after any sequence of `set`, `clear` and `reset` calls holds the
  bits whose last call was a `set`, and its queries are those of that set.

  A call may name any integer.  One outside `[0, num_bits)` does nothing, so the
  history of a bit is read back to the last call that names it or resets all
  (`lastCall`), and only the bits in range have a history.
-/
import Mathlib.Order.Bounds.Basic
import LimitOrderBook.Bitset

namespace LimitOrderBook

namespace DynamicBitset

/-- A call that writes. -/
inductive Edit where
  | set (bit : Int)
  | clear (bit : Int)
  | reset
  deriving DecidableEq, Repr

def edit (self : DynamicBitset) : Edit → DynamicBitset
  | .set bit => self.set bit
  | .clear bit => self.clear bit
  | .reset => self.reset

/-- The calls one after the other. -/
def edits (self : DynamicBitset) (es : List Edit) : DynamicBitset := es.foldl edit self

/-- The call is about bit `b`. -/
def Edit.names (b : Int) : Edit → Bool
  | .set bit => decide (bit = b)
  | .clear bit => decide (bit = b)
  | .reset => true

/-- The last call about bit `b`. -/
def lastCall (b : Int) (es : List Edit) : Option Edit := es.reverse.find? (Edit.names b)

/-- Bit `b` is in range and its last call was a `set`. -/
def IsMember (numBits : Int) (es : List Edit) (b : Int) : Prop :=
  0 ≤ b ∧ b < numBits ∧ lastCall b es = some (.set b)

/-- The bitset of `numBits` bits stands for the set of these members. -/
structure StandsFor (bits : DynamicBitset) (numBits : Int) (member : Int → Prop) : Prop where
  test : ∀ b, bits.test b = true ↔ member b
  highest : ∀ b : Nat, bits.findHighest = some b ↔ IsGreatest {c | member c} (b : Int)
  highest_none : bits.findHighest = none ↔ ∀ b, ¬ member b
  lowest : ∀ b : Nat, bits.findLowest = some b ↔ IsLeast {c | member c} (b : Int)
  lowest_none : bits.findLowest = none ↔ ∀ b, ¬ member b
  empty : bits.empty = true ↔ ∀ b, ¬ member b
  /-- No bit of a word outside `numBits` is set. -/
  spare : ∀ word bit : Nat, numBits ≤ 64 * word + bit → bit < 64 →
    (bits.data word).getLsbD bit = false

-- ============================================================================
-- The set a well-formed bitset stands for
-- ============================================================================

section WF

variable {self : DynamicBitset} {n : Nat}

/-- `test` reads membership at any integer. -/
theorem WF.test_iff (h : self.WF n) (b : Int) :
    self.test b = true ↔ 0 ≤ b ∧ self.mem b.toNat = true := by
  by_cases hb : 0 ≤ b
  · obtain ⟨c, rfl⟩ := Int.eq_ofNat_of_zero_le hb
    rw [test_eq_mem h, Int.toNat_natCast]
    exact ⟨fun hm => ⟨hb, hm⟩, fun hm => hm.2⟩
  · have hout : b < 0 ∨ b ≥ self.numBits := .inl (by omega)
    rw [test, if_pos hout]
    exact iff_of_false Bool.false_ne_true (fun hm => hb hm.1)

/-- A scan whose results have a property that only one bit can have, and which
    fails only when no bit has it. -/
theorem eq_some_iff_of_unique {found : Option Nat} {P : Int → Prop} {b : Nat}
    (hsome : ∀ c : Nat, found = some c → P c) (hnone : found = none → ∀ c, ¬ P c)
    (hunique : ∀ c d : Int, P c → P d → c = d) : found = some b ↔ P b := by
  constructor
  · exact hsome b
  · intro hb
    cases hfound : found with
    | none => exact absurd hb (hnone hfound b)
    | some c =>
        have hcb := hunique c b (hsome c hfound) hb
        rw [Int.natCast_inj.mp hcb]

/-- The members of a bitset without any are read as false. -/
theorem WF.not_test (h : self.WF n) (hmem : ∀ b, self.mem b = false) (b : Int) :
    ¬ self.test b = true := by
  rw [h.test_iff, hmem]
  exact fun hb => absurd hb.2 Bool.false_ne_true

theorem WF.isGreatest (h : self.WF n) {b : Nat} (hfind : self.findHighest = some b) :
    IsGreatest {c : Int | self.test c = true} b := by
  obtain ⟨hmem, habove⟩ := findHighest_some h hfind
  refine ⟨(h.test_iff b).mpr ⟨by omega, hmem⟩, ?_⟩
  intro c hc
  obtain ⟨hpos, hcmem⟩ := (h.test_iff c).mp hc
  by_contra hlt
  rw [habove c.toNat (by omega)] at hcmem
  exact absurd hcmem Bool.false_ne_true

theorem WF.isLeast (h : self.WF n) {b : Nat} (hfind : self.findLowest = some b) :
    IsLeast {c : Int | self.test c = true} b := by
  obtain ⟨hmem, hbelow⟩ := findLowest_some hfind
  refine ⟨(h.test_iff b).mpr ⟨by omega, hmem⟩, ?_⟩
  intro c hc
  obtain ⟨hpos, hcmem⟩ := (h.test_iff c).mp hc
  by_contra hlt
  rw [hbelow c.toNat (by omega)] at hcmem
  exact absurd hcmem Bool.false_ne_true

/-- A bitset without a set word has no members, and the other way round. -/
theorem WF.empty_iff (h : self.WF n) : self.empty = true ↔ ∀ b : Int, ¬ self.test b = true := by
  rw [empty, List.all_eq_true]
  constructor
  · intro hzero b hb
    obtain ⟨hpos, hmem⟩ := (h.test_iff b).mp hb
    have hword : self.data (b.toNat / 64) = 0 := by
      have hlt : b.toNat < n := by
        by_contra hge
        rw [h.outside b.toNat (by omega)] at hmem
        exact absurd hmem Bool.false_ne_true
      have hcover := h.numWords
      exact of_decide_eq_true (hzero _ (List.mem_range.mpr (by omega)))
    rw [mem, Lib.WordSet.mem_of_word_zero hword] at hmem
    exact absurd hmem Bool.false_ne_true
  · intro hnone word _
    apply decide_eq_true
    apply BitVec.eq_of_getLsbD_eq
    intro bit hbit
    have hmem : self.mem (64 * word + bit) = (self.data word).getLsbD bit := by
      rw [mem, Lib.WordSet.mem, show (64 * word + bit) / 64 = word by omega,
        show (64 * word + bit) % 64 = bit by omega]
    have hfalse := mt (fun hm => (h.test_iff _).mpr ⟨by omega, hm⟩) (hnone (64 * word + bit : Nat))
    rw [Int.toNat_natCast, hmem, Bool.not_eq_true] at hfalse
    rw [hfalse]
    exact BitVec.getLsbD_zero.symm

/-- A well-formed bitset stands for the set that `test` reads. -/
theorem WF.standsFor (h : self.WF n) : self.StandsFor n fun b => self.test b = true where
  test b := Iff.rfl
  highest b := eq_some_iff_of_unique (fun c hc => h.isGreatest hc)
    (fun hnone c hc => h.not_test (findHighest_none h hnone) c hc.1)
    (fun c d hc hd => hc.unique hd)
  highest_none := by
    constructor
    · exact fun hnone => h.not_test (findHighest_none h hnone)
    · intro hnot
      rw [Option.eq_none_iff_forall_ne_some]
      exact fun b hb => hnot b (h.isGreatest hb).1
  lowest b := eq_some_iff_of_unique (fun c hc => h.isLeast hc)
    (fun hnone c hc => h.not_test (findLowest_none h hnone) c hc.1)
    (fun c d hc hd => hc.unique hd)
  lowest_none := by
    constructor
    · exact fun hnone => h.not_test (findLowest_none h hnone)
    · intro hnot
      rw [Option.eq_none_iff_forall_ne_some]
      exact fun b hb => hnot b (h.isLeast hb).1
  empty := h.empty_iff
  spare word bit hspare hbit := by
    have hfalse := h.outside (64 * word + bit) (by omega)
    rwa [mem, Lib.WordSet.mem, show (64 * word + bit) / 64 = word by omega,
      show (64 * word + bit) % 64 = bit by omega] at hfalse

end WF

-- ============================================================================
-- The history of a bit
-- ============================================================================

section History

variable {self : DynamicBitset} {n : Nat}

/-- A call outside the range does nothing. -/
theorem set_of_outside {bit : Int} (hout : ¬ (0 ≤ bit ∧ bit < self.numBits)) :
    self.set bit = self := if_neg hout

theorem clear_of_outside {bit : Int} (hout : ¬ (0 ≤ bit ∧ bit < self.numBits)) :
    self.clear bit = self := if_neg hout

@[simp] theorem reset_mem (b : Nat) : self.reset.mem b = false := by
  simp [reset, mem, Lib.WordSet.mem]

/-- A call that gives one bit a value, if the bit is in range. -/
theorem WF.write (h : self.WF n) {bits : DynamicBitset} {bit : Int} {value : Bool}
    (hout : ¬ (0 ≤ bit ∧ bit < self.numBits) → bits = self)
    (hin : ∀ c : Nat, bit = c → c < n →
      bits.WF n ∧ ∀ b, bits.mem b = if b = c then value else self.mem b) :
    bits.WF n ∧ ∀ b < n, bits.mem b = if bit = b then value else self.mem b := by
  rw [h.numBits] at hout
  by_cases hrange : 0 ≤ bit ∧ bit < n
  · obtain ⟨c, rfl⟩ := Int.eq_ofNat_of_zero_le hrange.1
    obtain ⟨hwf, hmem⟩ := hin c rfl (by omega)
    refine ⟨hwf, fun b _ => ?_⟩
    rw [hmem b]
    exact if_congr (by omega) rfl rfl
  · obtain rfl := hout hrange
    refine ⟨h, fun b hb => ?_⟩
    rw [if_neg (by omega)]

/-- A call decides the bits it is about and keeps the others. -/
theorem WF.edit (h : self.WF n) (e : Edit) : (self.edit e).WF n ∧
    ∀ b < n, (self.edit e).mem b = if e.names b then decide (e = .set b) else self.mem b := by
  cases e with
  | set bit =>
      have hwrite : (self.set bit).WF n ∧
          ∀ b < n, (self.set bit).mem b = if bit = b then true else self.mem b := by
        apply h.write set_of_outside
        rintro c rfl hc
        refine ⟨h.set hc, fun b => ?_⟩
        rw [set_mem h hc]
        by_cases hbc : b = c <;> simp [hbc]
      refine ⟨hwrite.1, fun b hb => ?_⟩
      rw [DynamicBitset.edit, hwrite.2 b hb]
      by_cases hbc : bit = b <;> simp [Edit.names, hbc]
  | clear bit =>
      have hwrite : (self.clear bit).WF n ∧
          ∀ b < n, (self.clear bit).mem b = if bit = b then false else self.mem b := by
        apply h.write clear_of_outside
        rintro c rfl hc
        refine ⟨h.clear hc, fun b => ?_⟩
        rw [clear_mem h hc]
        by_cases hbc : b = c <;> simp [hbc]
      refine ⟨hwrite.1, fun b hb => ?_⟩
      rw [DynamicBitset.edit, hwrite.2 b hb]
      by_cases hbc : bit = b <;> simp [Edit.names, hbc]
  | reset =>
      refine ⟨⟨h.numBits, h.numWords, fun b _ => reset_mem b⟩, fun b _ => ?_⟩
      rw [DynamicBitset.edit, reset_mem]
      simp [Edit.names]

theorem lastCall_concat (b : Int) (es : List Edit) (e : Edit) :
    lastCall b (es ++ [e]) = if e.names b then some e else lastCall b es := by
  rw [lastCall, List.reverse_append, List.reverse_singleton, List.singleton_append,
    List.find?_cons]
  cases e.names b <;> rfl

/-- After any calls on a bitset without members, a bit is set exactly when its
    last call set it. -/
theorem WF.edits (h : self.WF n) (hzero : ∀ b, self.mem b = false) (es : List Edit) :
    (self.edits es).WF n ∧
    ∀ b < n, (self.edits es).mem b = decide (lastCall b es = some (.set b)) := by
  induction es using List.reverseRecOn with
  | nil => exact ⟨h, fun b _ => by rw [lastCall]; simpa [DynamicBitset.edits] using hzero b⟩
  | append_singleton es e ih =>
      obtain ⟨hwf, hmem⟩ := ih
      obtain ⟨hwf', hmem'⟩ := hwf.edit e
      have hlast : self.edits (es ++ [e]) = (self.edits es).edit e := List.foldl_concat ..
      rw [hlast]
      refine ⟨hwf', fun b hb => ?_⟩
      rw [hmem' b hb, hmem b hb, lastCall_concat]
      cases e.names b <;> simp

end History

/-- A new bitset stands for the set of the bits whose last call was a `set`, after
    any calls with any arguments. -/
theorem make_edits_standsFor (numBits : Int) (hpos : 0 ≤ numBits) (hsize : numBits ≤ 2 ^ 31 - 64)
    (es : List Edit) : ∃ bits, make numBits = some bits ∧
      (bits.edits es).StandsFor numBits (IsMember numBits es) := by
  obtain ⟨n, rfl⟩ := Int.eq_ofNat_of_zero_le hpos
  obtain ⟨bits, hmake⟩ := make_isSome hsize
  obtain ⟨hnew, hzero⟩ := make_wf hmake
  obtain ⟨hwf, hmem⟩ := hnew.edits hzero es
  refine ⟨bits, hmake, ?_⟩
  have hmember : (fun b => (bits.edits es).test b = true) = IsMember n es := by
    funext b
    apply propext
    rw [hwf.test_iff, IsMember]
    by_cases hb : 0 ≤ b ∧ b < n
    · obtain ⟨c, rfl⟩ := Int.eq_ofNat_of_zero_le hb.1
      rw [Int.toNat_natCast, hmem c (by omega), decide_eq_true_eq]
      exact ⟨fun hc => ⟨hb.1, hb.2, hc.2⟩, fun hc => ⟨hb.1, hc.2.2⟩⟩
    · constructor
      · rintro ⟨hle, hc⟩
        rw [hwf.outside b.toNat (by omega)] at hc
        exact absurd hc Bool.false_ne_true
      · exact fun hc => absurd ⟨hc.1, hc.2.1⟩ hb
  rw [← hmember]
  exact hwf.standsFor

/-- 100 bits: bit 99 is the highest after bit 3 is cleared, and 200 is ignored. -/
theorem hundred_standsFor : ∃ bits, make 100 = some bits ∧
    (bits.edits [.set 3, .set 99, .clear 3, .set 200, .set (-1)]).StandsFor 100
      (IsMember 100 [.set 3, .set 99, .clear 3, .set 200, .set (-1)]) :=
  make_edits_standsFor 100 (by omega) (by omega) _

end DynamicBitset

end LimitOrderBook
