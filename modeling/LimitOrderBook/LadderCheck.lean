/-
  LimitOrderBook.LadderCheck

  What the ladder's own check `verify_invariants` detects, over every state of a
  ladder whose levels are lists that end.

  The first loop compares each bit with its level and leaves at the first that
  disagrees.  The second loop goes over the orders of every level, but none of
  its branches fails, so a level out of arrival order or with nothing remaining
  passes.
-/
import LimitOrderBook.PriceLadder

namespace LimitOrderBook

namespace PriceLadder

/-- Every bit is set exactly when its level is not empty. -/
def BitsAgree (self : PriceLadder) : Prop :=
  ∀ i : Nat, (i : Int) < self.maxLevels →
    (self.occupiedBits.test i = true ↔ (self.levels i).empty = false)

/-- Every level is in arrival order and each of its orders has something
    remaining. -/
def LevelsInOrder (self : PriceLadder) (heap : Heap) (queue : Nat → List Slot) : Prop :=
  ∀ i : Nat, (i : Int) < self.maxLevels →
    (queue i).Pairwise (fun p q => (heap p).timestamp ≤ (heap q).timestamp) ∧
      ∀ p ∈ queue i, 0 < (heap p).remaining

/-- The check answers, and with true exactly when all it is said to check holds. -/
def CheckDetects (self : PriceLadder) (heap : Heap) (fuel : Nat) (queue : Nat → List Slot) :
    Prop :=
  ∃ passed, self.verifyInvariants heap fuel = some passed ∧
    (passed = true ↔ self.BitsAgree ∧ self.LevelsInOrder heap queue)

theorem mapM_eq_some {α β : Type*} {f : α → Option β} {g : α → β} {l : List α}
    (h : ∀ x ∈ l, f x = some (g x)) : l.mapM f = some (l.map g) := by
  induction l with
  | nil => rfl
  | cons x l ih =>
      rw [List.mapM_cons, h x (List.mem_cons_self ..),
        ih fun y hy => h y (List.mem_cons_of_mem _ hy)]
      rfl

section

variable {self : PriceLadder} {heap : Heap} {fuel : Nat} {queue : Nat → List Slot}

/-- The first loop runs through exactly when the bits agree. -/
theorem any_disagrees_eq_false_iff :
    ((List.range self.maxLevels.toNat).any fun (i : Nat) =>
      self.occupiedBits.test i != !(self.levels i).empty) = false ↔ self.BitsAgree := by
  have hbool : ∀ bit empty : Bool,
      ¬ (bit != !empty) = true ↔ (bit = true ↔ empty = false) := by decide
  rw [List.any_eq_false]
  constructor
  · intro h i hi
    exact (hbool _ _).mp (h i (List.mem_range.mpr (by omega)))
  · intro h i hi
    have hlt := List.mem_range.mp hi
    exact (hbool _ _).mpr (h i (by omega))

/-- The second loop returns when every level's traversal ends. -/
theorem verifyInvariants_of_bitsAgree (hbits : self.BitsAgree)
    (hwalk : ∀ i : Nat, (i : Int) < self.maxLevels →
      (self.levels i).forEach heap fuel = some (queue i)) :
    self.verifyInvariants heap fuel = some true := by
  have hany := any_disagrees_eq_false_iff.mpr hbits
  have hall := @mapM_eq_some Nat (List Slot) (fun i => (self.levels i).forEach heap fuel) queue
    (List.range self.maxLevels.toNat)
    (fun i hi => hwalk i (Int.lt_toNat.mp (List.mem_range.mp hi)))
  simp only [verifyInvariants, hany, hall]
  rfl

theorem verifyInvariants_of_not_bitsAgree (hbits : ¬ self.BitsAgree) :
    self.verifyInvariants heap fuel = some false := by
  have hany := mt any_disagrees_eq_false_iff.mp hbits
  rw [Bool.not_eq_false] at hany
  simp only [verifyInvariants, hany]
  rfl

/-- The check only tells whether the bits agree with the levels. -/
theorem verifyInvariants_eq_true_iff
    (hwalk : ∀ i : Nat, (i : Int) < self.maxLevels →
      (self.levels i).forEach heap fuel = some (queue i)) :
    ∃ passed, self.verifyInvariants heap fuel = some passed ∧
      (passed = true ↔ self.BitsAgree) := by
  by_cases hbits : self.BitsAgree
  · exact ⟨true, verifyInvariants_of_bitsAgree hbits hwalk, by simp [hbits]⟩
  · exact ⟨false, verifyInvariants_of_not_bitsAgree hbits, by simp [hbits]⟩

end

/-- The check detects what it is said to detect exactly in the states whose bits
    disagree somewhere or whose levels are all in order. -/
theorem checkDetects_iff (self : PriceLadder) (heap : Heap) (fuel : Nat)
    (queue : Nat → List Slot)
    (hwalk : ∀ i : Nat, (i : Int) < self.maxLevels →
      (self.levels i).forEach heap fuel = some (queue i)) :
    self.CheckDetects heap fuel queue ↔ (self.BitsAgree → self.LevelsInOrder heap queue) := by
  obtain ⟨passed, hresult, hpassed⟩ := verifyInvariants_eq_true_iff hwalk
  constructor
  · rintro ⟨passed', hresult', hdetects⟩ hbits
    obtain rfl : passed = passed' := Option.some.inj (hresult.symm.trans hresult')
    exact (hdetects.mp (hpassed.mpr hbits)).2
  · intro horder
    refine ⟨passed, hresult, hpassed.trans ?_⟩
    exact ⟨fun hbits => ⟨hbits, horder hbits⟩, fun h => h.1⟩

/-- Level 1 of four levels holds order 0 and then order 1, and its bit is set. -/
def twoOrders : PriceLadder :=
  { maxLevels := 4, levels := Function.update (fun _ => {}) 1 ⟨some 0, some 1, 2⟩,
    occupiedBits := { numBits := 4, numWords := 1, data := fun _ => 2 },
    basePrice := 0, tickSize := 1 }

/-- The links of `twoOrders` with these timestamps and this much remaining. -/
def twoOrdersHeap (timestamps : Nat × Nat) (remaining : Int) : Heap := fun p =>
  if p = 0 then { timestamp := timestamps.1, remaining, next := some 1 }
  else { timestamp := timestamps.2, remaining, prev := some 0 }

theorem twoOrders_forEach (timestamps : Nat × Nat) (remaining : Int) (i : Nat) :
    (twoOrders.levels i).forEach (twoOrdersHeap timestamps remaining) 2 =
      some (if i = 1 then [0, 1] else []) := by
  by_cases hi : i = 1
  · subst hi
    rfl
  · rw [if_neg hi]
    simp [twoOrders, hi, PriceLevelList.forEach, Lib.DList.walk]

/-- Orders that came at 3 and 7 and have 5 remaining each. -/
theorem twoOrders_checkDetects :
    twoOrders.CheckDetects (twoOrdersHeap (3, 7) 5) 2 (fun i => if i = 1 then [0, 1] else []) := by
  refine (checkDetects_iff _ _ _ _ fun i _ => twoOrders_forEach (3, 7) 5 i).mpr ?_
  intro _ i _
  by_cases hi : i = 1
  · subst hi
    exact ⟨by decide, by decide⟩
  · simp [hi]

/-- An order that came at 7 stands before one that came at 3, and neither has
    anything remaining; the check passes. -/
theorem twoOrders_passed : twoOrders.verifyInvariants (twoOrdersHeap (7, 3) 0) 2 = some true ∧
    ¬ twoOrders.LevelsInOrder (twoOrdersHeap (7, 3) 0) (fun i => if i = 1 then [0, 1] else []) := by
  refine ⟨by decide +kernel, fun horder => ?_⟩
  exact absurd ((horder 1 (by decide)).2 0 (by decide)) (by decide)

end PriceLadder

end LimitOrderBook
