/-
  LimitOrderBook.Lib.Ring

  A ring of `n` slots that holds a window of a growing sequence.

  Element `i` of the sequence belongs in slot `i % n`.  Two positions share a
  slot only when they are a multiple of `n` apart, so a window of at most `n`
  positions has a slot for each of them, and the position behind a shorter
  window has a slot that none of them uses.
-/
import Mathlib.Data.List.Basic
import Mathlib.Logic.Function.Basic

namespace LimitOrderBook.Lib.Ring

variable {α : Type*} {n first : Nat} {buffer : Nat → α} {xs : List α}

/-- From position `first` on, the elements of the sequence are in their slots. -/
def Window (n : Nat) (buffer : Nat → α) (first : Nat) (xs : List α) : Prop :=
  ∀ i x, first ≤ i → xs[i]? = some x → buffer (i % n) = x

/-- Positions less than a ring apart have different slots. -/
theorem slot_ne {i j : Nat} (hlt : i < j) (hj : j < i + n) : j % n ≠ i % n := by
  intro he
  obtain ⟨k, hk⟩ : n ∣ j - i := Nat.dvd_of_mod_eq_zero (Nat.sub_mod_eq_zero_of_mod_eq he)
  have hpos : 0 < k := by
    by_contra hzero
    obtain rfl : k = 0 := by omega
    omega
  have hle : n * 1 ≤ n * k := Nat.mul_le_mul_left n hpos
  omega

/-- A prefix that takes the next element is a prefix. -/
theorem prefix_snoc {xs ys : List α} {y : α} (h : xs <+: ys) (hy : ys[xs.length]? = some y) :
    xs ++ [y] <+: ys := by
  obtain ⟨rest, rfl⟩ := h
  rw [List.getElem?_append_right (Nat.le_refl _), Nat.sub_self] at hy
  cases rest with
  | nil => exact absurd hy (by simp)
  | cons x rest =>
      obtain rfl : x = y := Option.some.inj hy
      exact ⟨rest, by rw [List.append_assoc, List.singleton_append]⟩

theorem window_nil : Window n buffer first [] := by
  intro i x _ hx
  exact absurd hx (by simp)

/-- The window moves on past elements that are not needed any more. -/
theorem Window.drop (h : Window n buffer first xs) {next : Nat} (hnext : first ≤ next) :
    Window n buffer next xs := fun i x hi hx => h i x (Nat.le_trans hnext hi) hx

/-- Writing into the slot behind the window leaves the window alone. -/
theorem Window.write (h : Window n buffer first xs) (hroom : xs.length < first + n) (x : α) :
    Window n (Function.update buffer (xs.length % n) x) first xs := by
  intro i y hi hy
  have hlt : i < xs.length := (List.getElem?_eq_some_iff.mp hy).1
  have hne := slot_ne hlt (by omega : xs.length < i + n)
  rw [Function.update_of_ne hne.symm]
  exact h i y hi hy

/-- The element that was written joins the window. -/
theorem Window.append (h : Window n buffer first xs) {x : α}
    (hx : buffer (xs.length % n) = x) : Window n buffer first (xs ++ [x]) := by
  intro i y hi hy
  by_cases hlt : i < xs.length
  · rw [List.getElem?_append_left hlt] at hy
    exact h i y hi hy
  · obtain rfl : i = xs.length := by
      have hbound := (List.getElem?_eq_some_iff.mp hy).1
      rw [List.length_append, List.length_singleton] at hbound
      omega
    rw [List.getElem?_concat_length] at hy
    exact hx.trans (Option.some.inj hy)

end LimitOrderBook.Lib.Ring
