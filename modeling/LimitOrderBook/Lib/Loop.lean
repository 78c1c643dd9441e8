/-
  LimitOrderBook.Lib.Loop

  While loops over an arbitrary state.  A loop body inspects the state and
  either leaves the loop or goes round again; `none` is a body that itself does
  not return.  `runLoop` runs a body on a fuel budget and is `none` when the
  budget runs out, so that a loop which never ends has no result at any budget.

  The two rules a proof uses are `runLoop_total` (an invariant with a variant
  below the budget gives a result) and `Visits.invariant` (an invariant holds
  whenever the loop is about to start a round).
-/
import Mathlib.Tactic.Common

namespace LimitOrderBook.Lib

variable {σ : Type*}

/-- What one round of a loop does: leave it, or go round again. -/
inductive Round (σ : Type*) where
  | stop (s : σ)
  | again (s : σ)

/-- Run `body` until it stops, for at most `fuel` rounds. -/
def runLoop (body : σ → Option (Round σ)) : Nat → σ → Option σ
  | 0, _ => none
  | fuel + 1, s =>
      match body s with
      | none => none
      | some (.stop s') => some s'
      | some (.again s') => runLoop body fuel s'

/-- The states in which a loop started in `s` begins a round. -/
inductive Visits (body : σ → Option (Round σ)) (s : σ) : σ → Prop where
  | start : Visits body s s
  | round {t u : σ} : Visits body s t → body t = some (.again u) → Visits body s u

-- ============================================================================
-- Equations
-- ============================================================================

section Equations

variable {body : σ → Option (Round σ)} {s s' : σ} {fuel : Nat}

@[simp] theorem runLoop_zero : runLoop body 0 s = none := rfl

theorem runLoop_stop (h : body s = some (.stop s')) :
    runLoop body (fuel + 1) s = some s' := by
  simp only [runLoop, h]

theorem runLoop_again (h : body s = some (.again s')) :
    runLoop body (fuel + 1) s = runLoop body fuel s' := by
  simp only [runLoop, h]

end Equations

-- ============================================================================
-- Rules
-- ============================================================================

/-- Total correctness: every round from a state of the invariant stops in `Post`
    or keeps the invariant and lowers the variant. -/
theorem runLoop_total {body : σ → Option (Round σ)} {Inv Post : σ → Prop}
    {variant : σ → Nat}
    (hround : ∀ s, Inv s →
      (∃ s', body s = some (.stop s') ∧ Post s') ∨
      (∃ s', body s = some (.again s') ∧ Inv s' ∧ variant s' < variant s)) :
    ∀ (fuel : Nat) (s : σ), Inv s → variant s < fuel →
      ∃ s', runLoop body fuel s = some s' ∧ Post s' := by
  intro fuel
  induction fuel with
  | zero => intro s _ hlt; exact absurd hlt (Nat.not_lt_zero _)
  | succ fuel ih =>
      intro s hs hlt
      rcases hround s hs with ⟨s', hstop, hpost⟩ | ⟨s', hagain, hs', hdec⟩
      · exact ⟨s', runLoop_stop hstop, hpost⟩
      · obtain ⟨t, ht, hpost⟩ := ih s' hs' (by omega)
        exact ⟨t, by rw [runLoop_again hagain]; exact ht, hpost⟩

/-- More fuel never changes a result. -/
theorem runLoop_mono {body : σ → Option (Round σ)} {fuel fuel' : Nat} {s t : σ}
    (hle : fuel ≤ fuel') (h : runLoop body fuel s = some t) :
    runLoop body fuel' s = some t := by
  induction fuel generalizing fuel' s with
  | zero => simp at h
  | succ fuel ih =>
      obtain ⟨k, rfl⟩ : ∃ k, fuel' = k + 1 := ⟨fuel' - 1, by omega⟩
      simp only [runLoop] at h ⊢
      split at h
      · exact absurd h (by simp)
      · exact h
      · exact ih (by omega) h

/-- What every round preserves holds at the start of every round. -/
theorem Visits.invariant {body : σ → Option (Round σ)} {Inv : σ → Prop} {s t : σ}
    (hround : ∀ u v, Inv u → body u = some (.again v) → Inv v)
    (hs : Inv s) (hv : Visits body s t) : Inv t := by
  induction hv with
  | start => exact hs
  | round _ hb ih => exact hround _ _ ih hb

theorem Visits.head {body : σ → Option (Round σ)} {s t u : σ}
    (hb : body s = some (.again t)) (hv : Visits body t u) : Visits body s u := by
  induction hv with
  | start => exact .round .start hb
  | round _ hb' ih => exact .round ih hb'

/-- A loop that returns does so from a state it visits. -/
theorem runLoop_visits {body : σ → Option (Round σ)} {fuel : Nat} {s t : σ}
    (h : runLoop body fuel s = some t) :
    ∃ u, Visits body s u ∧ body u = some (.stop t) := by
  induction fuel generalizing s with
  | zero => simp at h
  | succ fuel ih =>
      simp only [runLoop] at h
      split at h
      · exact absurd h (by simp)
      · next s' hb =>
          obtain rfl : s' = t := by simpa using h
          exact ⟨s, .start, hb⟩
      · next s' hb =>
          obtain ⟨u, hu, hstop⟩ := ih h
          exact ⟨u, hu.head hb, hstop⟩

-- ============================================================================
-- Counted rounds
-- ============================================================================

/-- The states in which a loop started in `s` begins its next round after `k`. -/
inductive VisitsIn (body : σ → Option (Round σ)) (s : σ) : Nat → σ → Prop where
  | start : VisitsIn body s 0 s
  | round {k : Nat} {t u : σ} :
      VisitsIn body s k t → body t = some (.again u) → VisitsIn body s (k + 1) u

section Counted

variable {body : σ → Option (Round σ)} {s t : σ} {k : Nat}

theorem VisitsIn.visits (h : VisitsIn body s k t) : Visits body s t := by
  induction h with
  | start => exact .start
  | round _ hb ih => exact .round ih hb

theorem Visits.counted (h : Visits body s t) : ∃ k, VisitsIn body s k t := by
  induction h with
  | start => exact ⟨0, .start⟩
  | round _ hb ih =>
      obtain ⟨k, hk⟩ := ih
      exact ⟨k + 1, .round hk hb⟩

/-- A measure that every round lowers bounds the number of rounds. -/
theorem VisitsIn.bound {Inv : σ → Prop} {measure : σ → Nat}
    (hround : ∀ u v, Inv u → body u = some (.again v) → Inv v ∧ measure v < measure u)
    (hs : Inv s) (h : VisitsIn body s k t) : Inv t ∧ k + measure t ≤ measure s := by
  induction h with
  | start => exact ⟨hs, Nat.le_of_eq (Nat.zero_add _)⟩
  | round _ hb ih =>
      obtain ⟨hinv, hle⟩ := ih
      obtain ⟨hinv', hlt⟩ := hround _ _ hinv hb
      exact ⟨hinv', by omega⟩

end Counted

end LimitOrderBook.Lib
