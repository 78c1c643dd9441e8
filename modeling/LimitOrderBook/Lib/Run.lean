/-
  LimitOrderBook.Lib.Run

  Runs of a machine that takes commands and answers with outputs.

  `exec` runs a partial step function over a list of commands.  `Trace` is the
  same for an arbitrary step relation, grown at the end of the run, which is the
  shape an invariant over histories is proved by.  `exec_total` is the rule that
  turns a total, invariant-preserving step into a total run; `Trace.simulate`
  carries a trace along a simulation.  `SameFuture` is what a client can tell of
  two states, and `SameFuture.of_relation` proves it by a bisimulation.  `Peak` is
  the most that a size of the state ever was in a run.
-/
import Mathlib.Data.List.Induction
import Mathlib.Tactic.Common

namespace LimitOrderBook.Lib

variable {σ τ C O : Type*}

/-- Run a step function over a list of commands and collect the outputs. -/
def exec (step : σ → C → Option (σ × O)) : σ → List C → Option (σ × List O)
  | s, [] => some (s, [])
  | s, c :: cs =>
      match step s c with
      | none => none
      | some (t, o) =>
          match exec step t cs with
          | none => none
          | some (u, os) => some (u, o :: os)

/-- The runs of a step relation: commands, outputs and last state. -/
inductive Trace (R : σ → C → O → σ → Prop) (s : σ) : List C → List O → σ → Prop where
  | nil : Trace R s [] [] s
  | snoc {cs : List C} {os : List O} {t u : σ} {c : C} {o : O} :
      Trace R s cs os t → R t c o u → Trace R s (cs ++ [c]) (os ++ [o]) u

/-- A partial computation has one result. -/
theorem result_unique {α β : Type*} {x : Option (α × β)} {a a' : α} {b b' : β}
    (h : x = some (a, b)) (h' : x = some (a', b')) : a = a' ∧ b = b' :=
  Prod.mk.inj (Option.some.inj (h.symm.trans h'))

/-- A split of a list that grew by one element. -/
theorem split_snoc {α : Type*} {xs pre post : List α} {x a : α}
    (h : xs ++ [x] = pre ++ a :: post) :
    (pre = xs ∧ a = x ∧ post = []) ∨ ∃ post', xs = pre ++ a :: post' ∧ post = post' ++ [x] := by
  rcases List.eq_nil_or_concat post with rfl | ⟨post', y, rfl⟩
  · obtain ⟨rfl, hx⟩ := List.append_inj' h rfl
    exact .inl ⟨rfl, (List.cons.inj hx).1.symm, rfl⟩
  · rw [List.concat_eq_append, ← List.cons_append, ← List.append_assoc] at h
    obtain ⟨hxs, hx⟩ := List.append_inj' h rfl
    refine .inr ⟨post', hxs, ?_⟩
    rw [List.concat_eq_append, (List.cons.inj hx).1]

/-- When every failure comes after `n` successes, the first `n` attempts succeed. -/
theorem take_outcomes {outcome : O → Option Bool} {n : Nat} {os : List O}
    (h : ∀ pre o post, os = pre ++ o :: post → outcome o = some false →
      n ≤ pre.countP fun p => outcome p = some true) :
    ∀ ok ∈ (os.filterMap outcome).take n, ok = true := by
  induction os generalizing n with
  | nil => simp
  | cons p os ih =>
      cases hp : outcome p with
      | none =>
          rw [List.filterMap_cons_none hp]
          apply ih
          intro pre o post hos ho
          have hcount := h (p :: pre) o post (by rw [hos]; rfl) ho
          rwa [List.countP_cons_of_neg (by simp [hp])] at hcount
      | some ok =>
          rw [List.filterMap_cons_some hp]
          cases n with
          | zero => simp
          | succ n =>
              cases ok with
              | false => exact absurd (h [] p os rfl hp) (by simp)
              | true =>
                  rw [List.take_succ_cons, List.forall_mem_cons]
                  refine ⟨rfl, ih ?_⟩
                  intro pre o post hos ho
                  have hcount := h (p :: pre) o post (by rw [hos]; rfl) ho
                  rw [List.countP_cons_of_pos (by simp [hp])] at hcount
                  omega

-- ============================================================================
-- `exec`
-- ============================================================================

section Exec

variable {step : σ → C → Option (σ × O)}

@[simp] theorem exec_nil (s : σ) : exec step s [] = some (s, []) := rfl

theorem exec_cons {s t u : σ} {c : C} {cs : List C} {o : O} {os : List O}
    (h : step s c = some (t, o)) (hr : exec step t cs = some (u, os)) :
    exec step s (c :: cs) = some (u, o :: os) := by
  simp only [exec, h, hr]

theorem exec_cons_inv {s u : σ} {c : C} {cs : List C} {os : List O}
    (h : exec step s (c :: cs) = some (u, os)) :
    ∃ t o os', step s c = some (t, o) ∧ exec step t cs = some (u, os') ∧ os = o :: os' := by
  simp only [exec] at h
  split at h
  · exact absurd h (by simp)
  · next t o hs =>
      split at h
      · exact absurd h (by simp)
      · next u' os' hr =>
          simp only [Option.some.injEq, Prod.mk.injEq] at h
          obtain ⟨rfl, rfl⟩ := h
          exact ⟨t, o, os', hs, hr, rfl⟩

theorem exec_append {s t u : σ} {cs ds : List C} {os ps : List O}
    (h : exec step s cs = some (t, os)) (h' : exec step t ds = some (u, ps)) :
    exec step s (cs ++ ds) = some (u, os ++ ps) := by
  induction cs generalizing s os with
  | nil =>
      simp only [exec_nil, Option.some.injEq, Prod.mk.injEq] at h
      obtain ⟨rfl, rfl⟩ := h
      exact h'
  | cons c cs ih =>
      obtain ⟨t', o, os', hs, hr, rfl⟩ := exec_cons_inv h
      exact exec_cons hs (ih hr)

/-- A run over an append splits at the seam. -/
theorem exec_append_inv {s u : σ} {cs ds : List C} {os : List O}
    (h : exec step s (cs ++ ds) = some (u, os)) :
    ∃ t os₁ os₂, exec step s cs = some (t, os₁) ∧ exec step t ds = some (u, os₂) ∧
      os = os₁ ++ os₂ := by
  induction cs generalizing s os with
  | nil => exact ⟨s, [], os, rfl, h, rfl⟩
  | cons c cs ih =>
      obtain ⟨t', o, os', hs, hr, rfl⟩ := exec_cons_inv h
      obtain ⟨t, os₁, os₂, h₁, h₂, rfl⟩ := ih hr
      exact ⟨t, o :: os₁, os₂, exec_cons hs h₁, h₂, rfl⟩

/-- The last step of a run. -/
theorem exec_snoc_inv {s u : σ} {cs : List C} {c : C} {os : List O}
    (h : exec step s (cs ++ [c]) = some (u, os)) :
    ∃ t os' o, exec step s cs = some (t, os') ∧ step t c = some (u, o) ∧ os = os' ++ [o] := by
  obtain ⟨t, os₁, os₂, hrun, hlast, rfl⟩ := exec_append_inv h
  obtain ⟨v, o, os', hstep, hnil, rfl⟩ := exec_cons_inv hlast
  obtain ⟨rfl, rfl⟩ := Prod.mk.inj (Option.some.inj hnil)
  exact ⟨t, os₁, o, hrun, hstep, rfl⟩

/-- The step that makes a given output of a run. -/
theorem exec_split {s t : σ} {cs : List C} {pre post : List O} {o : O}
    (h : exec step s cs = some (t, pre ++ o :: post)) :
    ∃ cs₁ c cs₂ u v, cs = cs₁ ++ c :: cs₂ ∧ exec step s cs₁ = some (u, pre) ∧
      step u c = some (v, o) ∧ exec step v cs₂ = some (t, post) := by
  induction cs generalizing s pre with
  | nil => exact absurd (congrArg Prod.snd (Option.some.inj h)) (by simp)
  | cons c cs ih =>
      obtain ⟨v, o', os', hstep, hrest, heq⟩ := exec_cons_inv h
      cases pre with
      | nil =>
          obtain ⟨rfl, rfl⟩ := List.cons.inj heq
          exact ⟨[], c, cs, s, v, rfl, rfl, hstep, hrest⟩
      | cons p pre =>
          obtain ⟨rfl, rfl⟩ := List.cons.inj heq
          obtain ⟨cs₁, d, cs₂, u, w, rfl, hfirst, hmiddle, hlast⟩ := ih hrest
          exact ⟨c :: cs₁, d, cs₂, u, w, rfl, exec_cons hstep hfirst, hmiddle, hlast⟩

/-- A step that always succeeds from the invariant and keeps it succeeds over
    every list of admitted commands, and the run is a trace. -/
theorem exec_total {Inv : σ → Prop} {admitted : C → Prop}
    (hstep : ∀ s c, Inv s → admitted c → ∃ t o, step s c = some (t, o) ∧ Inv t) :
    ∀ (cs : List C) (s : σ), Inv s → (∀ c ∈ cs, admitted c) →
      ∃ t os, exec step s cs = some (t, os) ∧ Inv t := by
  intro cs
  induction cs with
  | nil => intro s hs _; exact ⟨s, [], rfl, hs⟩
  | cons c cs ih =>
      intro s hs hadm
      obtain ⟨t, o, hst, ht⟩ := hstep s c hs (hadm c (List.mem_cons_self ..))
      obtain ⟨u, os, hr, hu⟩ := ih t ht (fun d hd => hadm d (List.mem_cons_of_mem _ hd))
      exact ⟨u, o :: os, exec_cons hst hr, hu⟩

/-- What every step preserves, of the state and of all outputs so far, holds at
    the end of a run. -/
theorem exec_history {Inv : σ → List O → Prop}
    (hstep : ∀ s os c t o, Inv s os → step s c = some (t, o) → Inv t (os ++ [o]))
    {s t : σ} (hs : Inv s []) {cs : List C} {os : List O} (h : exec step s cs = some (t, os)) :
    Inv t os := by
  induction cs using List.reverseRecOn generalizing t os with
  | nil =>
      obtain ⟨rfl, rfl⟩ := Prod.mk.inj (Option.some.inj h)
      exact hs
  | append_singleton cs c ih =>
      obtain ⟨u, os, o, hrun, hc, rfl⟩ := exec_snoc_inv h
      exact hstep u os c t o (ih hrun) hc

/-- A computed fact about the state that a run ends in. -/
theorem exec_test {s : σ} {cs : List C} {p : σ → Bool}
    (h : ((exec step s cs).map fun r => p r.1) = some true) :
    ∃ t os, exec step s cs = some (t, os) ∧ p t = true := by
  obtain ⟨r, hr, hp⟩ := Option.map_eq_some_iff.mp h
  exact ⟨r.1, r.2, hr, hp⟩

/-- Every command of the list is good in the state in which it is executed. -/
def Along (step : σ → C → Option (σ × O)) (good : σ → C → Prop) (s : σ) (cs : List C) : Prop :=
  ∀ pre c post, cs = pre ++ c :: post → ∀ t os, exec step s pre = some (t, os) → good t c

theorem Along.prefix {good : σ → C → Prop} {s : σ} {cs ds : List C}
    (h : Along step good s (cs ++ ds)) : Along step good s cs := by
  intro pre c post hcs t os ht
  exact h pre c (post ++ ds) (by rw [hcs]; simp) t os ht

theorem Along.snoc {good : σ → C → Prop} {s : σ} {cs : List C} {c : C}
    (h : Along step good s cs)
    (hc : ∀ t os, exec step s cs = some (t, os) → good t c) : Along step good s (cs ++ [c]) := by
  intro pre d post hcs t os ht
  rcases split_snoc hcs with ⟨rfl, rfl, -⟩ | ⟨post', hcs, -⟩
  · exact hc t os ht
  · exact h pre d post' hcs t os ht

/-- To judge a command in its state, the commands before it may be taken as good. -/
theorem along_induction {good : σ → C → Prop} {s : σ} {cs : List C}
    (h : ∀ pre c post, cs = pre ++ c :: post → Along step good s pre →
      ∀ t os, exec step s pre = some (t, os) → good t c) : Along step good s cs := by
  induction cs using List.reverseRecOn with
  | nil =>
      intro pre c post hcs
      exact absurd hcs.symm (by simp)
  | append_singleton cs c ih =>
      have hbefore : Along step good s cs := by
        apply ih
        rintro pre d post rfl
        exact h pre d (post ++ [c]) (by rw [List.append_assoc]; rfl)
      exact hbefore.snoc (h cs c [] rfl hbefore)

/-- `Along` for a test, as a function. -/
def checkAlong (step : σ → C → Option (σ × O)) (good : σ → C → Bool) : σ → List C → Bool
  | _, [] => true
  | s, c :: cs =>
      good s c &&
        match step s c with
        | none => true
        | some (t, _) => checkAlong step good t cs

theorem along_of_check {good : σ → C → Bool} {s : σ} {cs : List C}
    (h : checkAlong step good s cs = true) :
    Along step (fun s c => good s c = true) s cs := by
  induction cs generalizing s with
  | nil =>
      intro pre c post hcs
      exact absurd hcs.symm (by simp)
  | cons d cs ih =>
      rw [checkAlong, Bool.and_eq_true] at h
      intro pre c post hcs t os ht
      cases pre with
      | nil =>
          obtain ⟨rfl, -⟩ := List.cons.inj hcs
          obtain ⟨rfl, -⟩ := Prod.mk.inj (Option.some.inj ht)
          exact h.1
      | cons e pre =>
          obtain ⟨rfl, htail⟩ := List.cons.inj hcs
          obtain ⟨u, o, os', hstep, hrun, -⟩ := exec_cons_inv ht
          have hu : checkAlong step good u cs = true := by
            have hrest := h.2
            rwa [hstep] at hrest
          exact ih hu pre c post htail t os' hrun

/-- `along_of_check` for what must not happen. -/
theorem along_not_of_check {bad : σ → C → Bool} {s : σ} {cs : List C}
    (h : checkAlong step (fun s c => !bad s c) s cs = true) :
    Along step (fun s c => bad s c = false) s cs := by
  intro pre c post hcs t os ht
  simpa using along_of_check h pre c post hcs t os ht

/-- A run of good commands keeps an invariant over its history. -/
theorem exec_along_history {Inv : List C → List O → σ → Prop} {good : σ → C → Prop} {s : σ}
    {cs : List C} (hstart : Inv [] [] s)
    (hgood : ∀ pre c post, cs = pre ++ c :: post → ∀ os t, Inv pre os t → good t c →
      ∃ u o, step t c = some (u, o) ∧ Inv (pre ++ [c]) (os ++ [o]) u)
    (h : Along step good s cs) : ∃ t os, exec step s cs = some (t, os) ∧ Inv cs os t := by
  induction cs using List.reverseRecOn with
  | nil => exact ⟨s, [], rfl, hstart⟩
  | append_singleton cs c ih =>
      obtain ⟨t, os, hrun, ht⟩ := ih (fun pre d post hsplit =>
        hgood pre d (post ++ [c]) (by rw [hsplit, List.append_assoc]; rfl)) h.prefix
      obtain ⟨u, o, hstep, hu⟩ := hgood cs c [] rfl os t ht (h cs c [] rfl t os hrun)
      exact ⟨u, os ++ [o], exec_append hrun (exec_cons hstep rfl), hu⟩

/-- The rule of `exec_total` for commands that are judged in their states. -/
theorem exec_along {Inv : σ → Prop} {good : σ → C → Prop}
    (hstep : ∀ s c, Inv s → good s c → ∃ t o, step s c = some (t, o) ∧ Inv t) {s : σ}
    (hs : Inv s) {cs : List C} (h : Along step good s cs) :
    ∃ t os, exec step s cs = some (t, os) ∧ Inv t :=
  @exec_along_history _ _ _ step (fun _ _ t => Inv t) good s cs hs
    (fun _ c _ _ _ t ht hc => hstep t c ht hc) h

/-- What holds as long as all commands are good, and fails after the first one that
    is not, holds after every prefix of a run exactly when all are good. -/
theorem exec_prefix_iff {Inv P : List C → List O → σ → Prop} {good : σ → C → Prop} {s : σ}
    {cs : List C} (hstart : Inv [] [] s) (hP : ∀ pre os t, Inv pre os t → P pre os t)
    (hgood : ∀ pre c post, cs = pre ++ c :: post → ∀ os t, Inv pre os t → good t c →
      ∃ u o, step t c = some (u, o) ∧ Inv (pre ++ [c]) (os ++ [o]) u)
    (hbad : ∀ pre c post, cs = pre ++ c :: post → ∀ os t, Inv pre os t → ¬ good t c →
      ∀ u o, step t c = some (u, o) → ¬ P (pre ++ [c]) (os ++ [o]) u) :
    (∀ pre post, cs = pre ++ post → ∃ t os, exec step s pre = some (t, os) ∧ P pre os t) ↔
      Along step good s cs := by
  constructor
  · intro h
    apply along_induction
    rintro pre c post rfl hpre t os hrun
    by_contra hnot
    obtain ⟨t', os', hrun', ht⟩ := exec_along_history hstart
      (fun before d after hsplit =>
        hgood before d (after ++ c :: post) (by rw [hsplit, List.append_assoc]; rfl)) hpre
    obtain ⟨rfl, rfl⟩ := result_unique hrun hrun'
    obtain ⟨u, os', hall, hu⟩ := h (pre ++ [c]) post (by rw [List.append_assoc]; rfl)
    obtain ⟨v, ps, o, hfirst, hstep, rfl⟩ := exec_snoc_inv hall
    obtain ⟨rfl, rfl⟩ := result_unique hrun hfirst
    exact hbad pre c post rfl _ _ ht hnot _ o hstep hu
  · rintro h pre post rfl
    obtain ⟨t, os, hrun, ht⟩ := exec_along_history hstart
      (fun before d after hpre =>
        hgood before d (after ++ post) (by rw [hpre, List.append_assoc]; rfl)) h.prefix
    exact ⟨t, os, hrun, hP pre os t ht⟩

/-- Two machines that answer alike from related states, for commands that are
    good in the state of the first, answer alike over whole runs. -/
theorem exec_lockstep {step' : τ → C → Option (τ × O)} {Rel : σ → τ → Prop}
    {good : σ → C → Prop}
    (hstep : ∀ s t c, Rel s t → good s c →
      ∃ s' t' o, step s c = some (s', o) ∧ step' t c = some (t', o) ∧ Rel s' t')
    {s : σ} {t : τ} (hs : Rel s t) {cs : List C} (h : Along step good s cs) :
    ∃ s' t' os, exec step s cs = some (s', os) ∧ exec step' t cs = some (t', os) ∧ Rel s' t' := by
  induction cs using List.reverseRecOn with
  | nil => exact ⟨s, t, [], rfl, rfl, hs⟩
  | append_singleton cs c ih =>
      obtain ⟨s', t', os, hrun, hrun', hrel⟩ := ih h.prefix
      obtain ⟨s'', t'', o, hs'', ht'', hrel'⟩ := hstep s' t' c hrel (h cs c [] rfl s' os hrun)
      exact ⟨s'', t'', os ++ [o], exec_append hrun (exec_cons hs'' rfl),
        exec_append hrun' (exec_cons ht'' rfl), hrel'⟩

/-- The commands of a run with their outputs, without those that are dropped. -/
def kept (step : σ → C → Option (σ × O)) (drop : σ → C → Bool) : σ → List C → List (C × O)
  | _, [] => []
  | s, c :: cs =>
      match step s c with
      | none => []
      | some (t, o) => if drop s c then kept step drop t cs else (c, o) :: kept step drop t cs

theorem kept_cons {drop : σ → C → Bool} {s t : σ} {c : C} {o : O} {cs : List C}
    (h : step s c = some (t, o)) : kept step drop s (c :: cs) =
      if drop s c then kept step drop t cs else (c, o) :: kept step drop t cs := by
  simp only [kept, h]

/-- What is kept stands in the run in this order. -/
theorem kept_sublist {drop : σ → C → Bool} {s t : σ} {cs : List C} {os : List O}
    (h : exec step s cs = some (t, os)) : (kept step drop s cs).Sublist (cs.zip os) := by
  induction cs generalizing s os with
  | nil => exact List.nil_sublist _
  | cons c cs ih =>
      obtain ⟨u, o, os', hstep, hrun, rfl⟩ := exec_cons_inv h
      rw [kept_cons hstep, List.zip_cons_cons]
      cases drop s c with
      | true => exact (ih hrun).cons _
      | false => exact (ih hrun).cons_cons _

/-- A machine that stays related over the dropped commands, and answers the others
    alike, answers the run without the dropped commands. -/
theorem exec_kept {step' : τ → C → Option (τ × O)} {drop : σ → C → Bool} {Rel : σ → τ → Prop}
    {admitted : C → Prop}
    (hdrop : ∀ s t c, Rel s t → admitted c → drop s c = true →
      ∃ s' o, step s c = some (s', o) ∧ Rel s' t)
    (hkeep : ∀ s t c, Rel s t → admitted c → drop s c = false →
      ∃ s' t' o, step s c = some (s', o) ∧ step' t c = some (t', o) ∧ Rel s' t')
    {s : σ} {t : τ} (hs : Rel s t) {cs : List C} (hcs : ∀ c ∈ cs, admitted c) :
    ∃ s' t' os, exec step s cs = some (s', os) ∧
      exec step' t ((kept step drop s cs).map Prod.fst) =
        some (t', (kept step drop s cs).map Prod.snd) ∧ Rel s' t' := by
  induction cs generalizing s t with
  | nil => exact ⟨s, t, [], rfl, rfl, hs⟩
  | cons c cs ih =>
      have hc := hcs c (List.mem_cons_self ..)
      have hrest : ∀ d ∈ cs, admitted d := fun d hd => hcs d (List.mem_cons_of_mem _ hd)
      cases hd : drop s c with
      | true =>
          obtain ⟨s₁, o, hstep, hrel⟩ := hdrop s t c hs hc hd
          obtain ⟨s', t', os, hrun, hrun', hend⟩ := ih hrel hrest
          rw [kept_cons hstep, if_pos hd]
          exact ⟨s', t', o :: os, exec_cons hstep hrun, hrun', hend⟩
      | false =>
          obtain ⟨s₁, t₁, o, hstep, hstep', hrel⟩ := hkeep s t c hs hc hd
          obtain ⟨s', t', os, hrun, hrun', hend⟩ := ih hrel hrest
          rw [kept_cons hstep, if_neg (ne_true_of_eq_false hd)]
          exact ⟨s', t', o :: os, exec_cons hstep hrun, exec_cons hstep' hrun', hend⟩

/-- Two machines answer every admitted run alike. -/
def SameFuture (step : σ → C → Option (σ × O)) (step' : τ → C → Option (τ × O))
    (admitted : C → Prop) (s : σ) (t : τ) : Prop :=
  ∀ cs : List C, (∀ c ∈ cs, admitted c) →
    ∃ s' t' os, exec step s cs = some (s', os) ∧ exec step' t cs = some (t', os)

section Future

variable {υ : Type*} {step' : τ → C → Option (τ × O)} {step'' : υ → C → Option (υ × O)}
  {admitted : C → Prop} {s : σ} {t : τ} {u : υ} {c : C}

theorem SameFuture.symm (h : SameFuture step step' admitted s t) :
    SameFuture step' step admitted t s := by
  intro cs hcs
  obtain ⟨s', t', os, hs, ht⟩ := h cs hcs
  exact ⟨t', s', os, ht, hs⟩

theorem SameFuture.trans (h : SameFuture step step' admitted s t)
    (h' : SameFuture step' step'' admitted t u) : SameFuture step step'' admitted s u := by
  intro cs hcs
  obtain ⟨s', t', os, hs, ht⟩ := h cs hcs
  obtain ⟨t'', u', os', ht', hu⟩ := h' cs hcs
  obtain ⟨-, rfl⟩ := result_unique ht ht'
  exact ⟨s', u', os, hs, hu⟩

theorem SameFuture.mono {admitted' : C → Prop} (h : SameFuture step step' admitted s t)
    (hsub : ∀ c, admitted' c → admitted c) : SameFuture step step' admitted' s t :=
  fun cs hcs => h cs fun c hc => hsub c (hcs c hc)

/-- One command is answered alike, and so is all that follows it. -/
theorem SameFuture.next (h : SameFuture step step' admitted s t) (hc : admitted c) :
    ∃ s' t' o, step s c = some (s', o) ∧ step' t c = some (t', o) ∧
      SameFuture step step' admitted s' t' := by
  obtain ⟨s₁, t₁, os, hs, ht⟩ := h [c] fun d hd => List.mem_singleton.mp hd ▸ hc
  obtain ⟨s', o, os', hstep, -, rfl⟩ := exec_cons_inv hs
  obtain ⟨t', o', ps, hstep', -, heq⟩ := exec_cons_inv ht
  obtain ⟨rfl, -⟩ := List.cons.inj heq
  refine ⟨s', t', o, hstep, hstep', fun cs hcs => ?_⟩
  obtain ⟨s₂, t₂, qs, hs₂, ht₂⟩ := h (c :: cs) (List.forall_mem_cons.mpr ⟨hc, hcs⟩)
  obtain ⟨s₃, p, qs₁, hfirst, hrun, rfl⟩ := exec_cons_inv hs₂
  obtain ⟨t₃, p', qs₂, hfirst', hrun', hqs⟩ := exec_cons_inv ht₂
  obtain ⟨rfl, rfl⟩ := List.cons.inj hqs
  obtain ⟨rfl, rfl⟩ := result_unique hstep hfirst
  obtain ⟨rfl, -⟩ := result_unique hstep' hfirst'
  exact ⟨s₂, t₂, qs₁, hrun, hrun'⟩

/-- The rule for `SameFuture`: a relation that admitted commands keep. -/
theorem SameFuture.of_relation {Rel : σ → τ → Prop}
    (hstep : ∀ s t c, Rel s t → admitted c →
      ∃ s' t' o, step s c = some (s', o) ∧ step' t c = some (t', o) ∧ Rel s' t')
    (h : Rel s t) : SameFuture step step' admitted s t := by
  intro cs hcs
  have hgood : Along step (fun _ c => admitted c) s cs := by
    rintro pre c post rfl t os -
    exact hcs c (List.mem_append_right _ (List.mem_cons_self ..))
  obtain ⟨s', t', os, hs, ht, -⟩ := exec_lockstep hstep h hgood
  exact ⟨s', t', os, hs, ht⟩

end Future

/-- The most that `size` ever was in a run. -/
structure Peak (step : σ → C → Option (σ × O)) (size : σ → Nat) (s : σ) (cs : List C)
    (n : Nat) : Prop where
  le : ∀ pre t os, pre <+: cs → exec step s pre = some (t, os) → size t ≤ n
  attained : ∃ pre t os, pre <+: cs ∧ exec step s pre = some (t, os) ∧ size t = n

section Peak

variable {size : σ → Nat} {s t : σ} {cs : List C} {c : C} {os : List O} {n n' : Nat}

theorem Peak.start (s : σ) : Peak step size s [] (size s) where
  le pre t os hpre hrun := by
    rw [List.prefix_nil.mp hpre] at hrun
    obtain ⟨rfl, -⟩ := Prod.mk.inj (Option.some.inj hrun)
    exact Nat.le_refl _
  attained := ⟨[], s, [], List.prefix_refl _, rfl, rfl⟩

/-- One more command: the peak stays, or it is the size that was just reached. -/
theorem Peak.snoc (h : Peak step size s cs n) (hrun : exec step s (cs ++ [c]) = some (t, os))
    (hle : n ≤ n') (hsize : size t ≤ n') (hor : n' = n ∨ n' = size t) :
    Peak step size s (cs ++ [c]) n' := by
  constructor
  · intro pre u us hpre hu
    rcases List.prefix_concat_iff.mp hpre with rfl | hpre
    · obtain ⟨rfl, -⟩ := result_unique hu hrun
      exact hsize
    · exact Nat.le_trans (h.le pre u us hpre hu) hle
  · rcases hor with rfl | rfl
    · obtain ⟨pre, u, us, hpre, hu, hsize⟩ := h.attained
      exact ⟨pre, u, us, hpre.trans (List.prefix_append ..), hu, hsize⟩
    · exact ⟨_, t, os, List.prefix_refl _, hrun, rfl⟩

end Peak

end Exec

-- ============================================================================
-- `Trace`
-- ============================================================================

section Trace

variable {R : σ → C → O → σ → Prop}

theorem Trace.length {s t : σ} {cs : List C} {os : List O}
    (h : Trace R s cs os t) : os.length = cs.length := by
  induction h with
  | nil => rfl
  | snoc _ _ ih => simp [ih]

/-- A run of a step function over admitted commands is a trace of its graph. -/
theorem exec_trace {step : σ → C → Option (σ × O)} {admitted : C → Prop} {s t : σ} {cs : List C}
    {os : List O} (hadm : ∀ c ∈ cs, admitted c) (h : exec step s cs = some (t, os)) :
    Trace (fun s c o t => admitted c ∧ step s c = some (t, o)) s cs os t := by
  induction cs using List.reverseRecOn generalizing os t with
  | nil =>
      simp only [exec_nil, Option.some.injEq, Prod.mk.injEq] at h
      obtain ⟨rfl, rfl⟩ := h
      exact .nil
  | append_singleton cs c ih =>
      obtain ⟨u, os', o, hrun, hs, rfl⟩ := exec_snoc_inv h
      exact .snoc (ih (fun d hd => hadm d (List.mem_append_left _ hd)) hrun) ⟨hadm c (by simp), hs⟩

/-- A trace of (a restriction of) a step function is a run of it. -/
theorem Trace.exec {step : σ → C → Option (σ × O)} {s t : σ} {cs : List C} {os : List O}
    (hstep : ∀ s c o t, R s c o t → step s c = some (t, o))
    (h : Trace R s cs os t) : exec step s cs = some (t, os) := by
  induction h with
  | nil => rfl
  | snoc _ hr ih => exact exec_append ih (exec_cons (hstep _ _ _ _ hr) rfl)

/-- What every step preserves holds in the last state of a trace. -/
theorem Trace.invariant {Inv : σ → Prop} {s t : σ} {cs : List C} {os : List O}
    (hstep : ∀ s c o t, Inv s → R s c o t → Inv t) (hs : Inv s)
    (h : Trace R s cs os t) : Inv t := by
  induction h with
  | nil => exact hs
  | snoc _ hr ih => exact hstep _ _ _ _ ih hr

/-- A simulation that holds along an invariant carries traces over, with the
    same commands and the same outputs. -/
theorem Trace.simulate {Q : τ → C → O → τ → Prop} {Inv : σ → Prop} {f : σ → τ}
    {s t : σ} {cs : List C} {os : List O}
    (hstep : ∀ s c o t, Inv s → R s c o t → Inv t ∧ Q (f s) c o (f t)) (hs : Inv s)
    (h : Trace R s cs os t) : Inv t ∧ Trace Q (f s) cs os (f t) := by
  induction h with
  | nil => exact ⟨hs, .nil⟩
  | snoc _ hr ih =>
      obtain ⟨hinv, htr⟩ := ih
      obtain ⟨hinv', hq⟩ := hstep _ _ _ _ hinv hr
      exact ⟨hinv', .snoc htr hq⟩

/-- A trace of steps that an invariant refines is a trace of the refined steps. -/
theorem Trace.refine {Q : σ → C → O → σ → Prop} {Inv : σ → Prop} {s t : σ} {cs : List C}
    {os : List O} (hstep : ∀ s c o t, Inv s → R s c o t → Inv t ∧ Q s c o t) (hs : Inv s)
    (h : Trace R s cs os t) : Inv t ∧ Trace Q s cs os t :=
  @Trace.simulate σ σ C O R Q Inv id s t cs os hstep hs h

end Trace

end LimitOrderBook.Lib
