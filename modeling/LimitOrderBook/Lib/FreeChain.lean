/-
  LimitOrderBook.Lib.FreeChain

  A stack of free nodes threaded through the nodes themselves: each free node
  names the next one and the last one names the sentinel `nil`.  Taking the top
  follows one link, putting a node back writes one link.
-/
import Mathlib.Data.List.Range
import Mathlib.Logic.Function.Basic

namespace LimitOrderBook.Lib

variable {α : Type*}

/-- The chain that starts at `top` and ends at `nil` visits `xs` in order. -/
def FreeChain (next : α → α) (nil : α) : α → List α → Prop
  | top, [] => top = nil
  | top, x :: xs => top = x ∧ x ≠ nil ∧ FreeChain next nil (next x) xs

section

variable {next next' : α → α} {nil top x : α} {xs : List α}

/-- The chain is empty exactly when its top is the sentinel. -/
theorem FreeChain.top_eq_nil (h : FreeChain next nil top xs) : top = nil ↔ xs = [] := by
  cases xs with
  | nil => exact ⟨fun _ => rfl, fun _ => h⟩
  | cons y ys =>
      obtain ⟨rfl, hne, -⟩ := h
      exact ⟨fun e => absurd e hne, fun e => absurd e (by simp)⟩

/-- Only the links of the chain's own nodes matter. -/
theorem FreeChain.congr (hnext : ∀ y ∈ xs, next' y = next y)
    (h : FreeChain next nil top xs) : FreeChain next' nil top xs := by
  induction xs generalizing top with
  | nil => exact h
  | cons z zs ih =>
      obtain ⟨htop, hne, hrest⟩ := h
      refine ⟨htop, hne, ?_⟩
      rw [hnext z (List.mem_cons_self ..)]
      exact ih (fun y hy => hnext y (List.mem_cons_of_mem _ hy)) hrest

/-- Taking the top leaves the chain from its link. -/
theorem FreeChain.pop (h : FreeChain next nil top (x :: xs)) :
    top = x ∧ FreeChain next nil (next x) xs :=
  ⟨h.1, h.2.2⟩

/-- Putting a node back: its link is the old top. -/
theorem FreeChain.push (hx : x ≠ nil) (hlink : next x = top)
    (h : FreeChain next nil top xs) : FreeChain next nil x (x :: xs) :=
  ⟨rfl, hx, hlink ▸ h⟩

/-- A chain from a given top has only one list of nodes. -/
theorem FreeChain.unique {ys : List α} (h : FreeChain next nil top xs)
    (h' : FreeChain next nil top ys) : xs = ys := by
  induction xs generalizing top ys with
  | nil => exact ((h'.top_eq_nil).mp h).symm
  | cons x xs ih =>
      cases ys with
      | nil => exact absurd ((h.top_eq_nil).mp h') (by simp)
      | cons y ys =>
          obtain ⟨rfl, -, hrest⟩ := h
          obtain ⟨rfl, -, hrest'⟩ := h'
          rw [ih hrest hrest']

end

/-- A chain laid out in increasing order from `k` to `n`. -/
theorem freeChain_range' {next : Nat → Nat} {nil n : Nat} :
    ∀ {m k : Nat}, k + m = n →
      (∀ i, k ≤ i → i < n → i ≠ nil ∧ next i = if i + 1 < n then i + 1 else nil) →
      FreeChain next nil (if k < n then k else nil) (List.range' k m)
  | 0, k, hkm, _ => by
      simp only [List.range'_zero, FreeChain]
      rw [if_neg (by omega)]
  | m + 1, k, hkm, hnext => by
      obtain ⟨hne, hk⟩ := hnext k (Nat.le_refl _) (by omega)
      have hlt : k < n := by omega
      simp only [List.range'_succ, FreeChain, if_pos hlt, true_and]
      refine ⟨hne, ?_⟩
      rw [hk]
      exact freeChain_range' (by omega) (fun i hi => hnext i (by omega))

end LimitOrderBook.Lib
