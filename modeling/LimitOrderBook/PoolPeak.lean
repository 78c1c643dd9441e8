/-
  LimitOrderBook.PoolPeak

  How much of the pool is ever handed out.

  The freelist starts out in index order and takes freed slots back at its head, so it
  always consists of slots that were used before and, behind them, of all that were not,
  in order.  `mark` is where those begin.  It rises only when every slot below it is
  held, so it is the largest number of slots that were held at once.
-/
import LimitOrderBook.PoolAllocator

namespace LimitOrderBook

open Lib

namespace PoolUse

/-- The most slots that were held at once in a run. -/
def PeakHeld (start : PoolUse) (cs : List PoolCall) (mark : Nat) : Prop :=
  Peak step (fun s => s.allocated.length) start cs mark

/-- Behind the slots that were used before, the freelist has all that were not. -/
structure Marked (s : PoolUse) (capacity : Nat) (recycled : List Slot) (mark : Nat) : Prop where
  rep : PoolRep s.pool capacity s.allocated
    (recycled ++ List.range' mark (OrderPool.usable capacity - mark))
  le : mark ≤ OrderPool.usable capacity
  used : (s.allocated ++ recycled).Perm (List.range mark)

/-- What a call does to the mark. -/
inductive Raises (mark : Nat) (t : PoolUse) : Option Slot → Nat → Prop where
  | stays (answer : Option Slot) : (∀ p, answer = some p → p < mark) →
      t.allocated.length ≤ mark → Raises mark t answer mark
  | rises : t.allocated.length = mark + 1 → Raises mark t (some mark) (mark + 1)

section

variable {s t : PoolUse} {capacity mark : Nat} {recycled : List Slot} {answer : Option Slot}

theorem Marked.length (h : s.Marked capacity recycled mark) :
    s.allocated.length + recycled.length = mark := by
  rw [← List.length_append, h.used.length_eq, List.length_range]

theorem Marked.allocate (h : s.Marked capacity recycled mark)
    (hstep : s.step .allocate = some (t, answer)) :
    ∃ recycled' mark', t.Marked capacity recycled' mark' ∧ Raises mark t answer mark' := by
  have hlength := h.length
  have hrep := h.rep
  cases recycled with
  | cons p recycled =>
      obtain ⟨hallocate, hrep'⟩ := hrep.allocate
      rw [step, hallocate] at hstep
      obtain ⟨rfl, rfl⟩ := Prod.mk.inj (Option.some.inj hstep)
      have hused := List.perm_middle.symm.trans h.used
      have hp : p < mark := List.mem_range.mp (hused.subset (List.mem_cons_self ..))
      refine ⟨recycled, mark, ⟨hrep', h.le, hused⟩, .stays _ ?_ ?_⟩
      · intro q hq
        exact Option.some.inj hq ▸ hp
      · rw [List.length_cons] at hlength ⊢
        omega
  | nil =>
      rw [List.nil_append] at hrep
      rw [List.length_nil] at hlength
      have hused := h.used
      rw [List.append_nil] at hused
      by_cases hfull : mark = OrderPool.usable capacity
      · -- no slot is left
        rw [hfull, Nat.sub_self, List.range'_zero] at hrep
        rw [step, hrep.allocate_none.mpr rfl] at hstep
        obtain ⟨rfl, rfl⟩ := Prod.mk.inj (Option.some.inj hstep)
        refine ⟨[], mark, h, .stays none (fun p hp => absurd hp.symm (Option.some_ne_none p)) ?_⟩
        omega
      · have hlt : mark < OrderPool.usable capacity := lt_of_le_of_ne h.le hfull
        obtain ⟨k, hk⟩ : ∃ k, OrderPool.usable capacity - mark = k + 1 :=
          ⟨OrderPool.usable capacity - mark - 1, by omega⟩
        rw [hk, List.range'_succ] at hrep
        obtain ⟨hallocate, hrep'⟩ := hrep.allocate
        rw [step, hallocate] at hstep
        obtain ⟨rfl, rfl⟩ := Prod.mk.inj (Option.some.inj hstep)
        refine ⟨[], mark + 1, ⟨?_, hlt, ?_⟩, .rises ?_⟩
        · rw [List.nil_append, show OrderPool.usable capacity - (mark + 1) = k by omega]
          exact hrep'
        · rw [List.append_nil, List.range_succ]
          exact (hused.cons mark).trans (List.perm_append_singleton mark _).symm
        · rw [List.length_cons]
          omega

theorem Marked.deallocate (h : s.Marked capacity recycled mark) {p : Slot}
    (hstep : s.step (.deallocate p) = some (t, answer)) :
    t.Marked capacity (p :: recycled) mark ∧ Raises mark t answer mark := by
  have hlength := h.length
  rw [step] at hstep
  split at hstep
  · next hp =>
      obtain ⟨rfl, rfl⟩ := Prod.mk.inj (Option.some.inj hstep)
      have hperm := (List.perm_cons_erase hp).symm
      have hfront := h.rep.congr rfl rfl (fun _ => rfl) hperm
      refine ⟨⟨hfront.deallocate, h.le, ?_⟩, .stays none (fun q hq => ?_) ?_⟩
      · exact List.perm_middle.trans ((hperm.append_right recycled).trans h.used)
      · exact absurd hq.symm (Option.some_ne_none q)
      · exact List.length_erase_le.trans (Nat.le.intro hlength)
  · exact absurd hstep.symm (Option.some_ne_none _)

theorem Marked.write (h : s.Marked capacity recycled mark) {p : Slot} {fields : Order}
    (hstep : s.step (.write p fields) = some (t, answer)) :
    t.Marked capacity recycled mark ∧ Raises mark t answer mark := by
  rw [step] at hstep
  obtain ⟨rfl, rfl⟩ := Prod.mk.inj (Option.some.inj hstep)
  refine ⟨⟨h.rep.congr rfl rfl ?_ (.refl _), h.le, h.used⟩, .stays none (fun q hq => ?_) ?_⟩
  · exact fun r => Heap.modify_proj (fun o => o.poolIndex) (by intro o; rfl) s.pool.pool p r
  · exact absurd hq.symm (Option.some_ne_none q)
  · exact Nat.le.intro h.length

/-- The mark rises only when all slots below it are held. -/
theorem Marked.step (h : s.Marked capacity recycled mark) {c : PoolCall}
    (hstep : s.step c = some (t, answer)) :
    ∃ recycled' mark', t.Marked capacity recycled' mark' ∧ Raises mark t answer mark' := by
  cases c with
  | allocate => exact h.allocate hstep
  | deallocate p => exact ⟨_, _, h.deallocate hstep⟩
  | write p fields => exact ⟨_, _, h.write hstep⟩

theorem PeakHeld.snoc {start : PoolUse} {cs : List PoolCall} {c : PoolCall} {mark' : Nat}
    {answers : List (Option Slot)} (h : PeakHeld start cs mark)
    (hrun : exec PoolUse.step start (cs ++ [c]) = some (t, answers))
    (hraises : Raises mark t answer mark') : PeakHeld start (cs ++ [c]) mark' := by
  cases hraises with
  | stays _ _ hlength => exact Peak.snoc h hrun (Nat.le_refl _) hlength (.inl rfl)
  | rises hlength => exact Peak.snoc h hrun (Nat.le_succ _) hlength.le (.inr hlength.symm)

end

/-- A run from the constructor with its mark. -/
structure Served (capacity : Nat) (cs : List PoolCall) (s : PoolUse)
    (answers : List (Option Slot)) (mark : Nat) : Prop where
  run : exec step ⟨OrderPool.fresh capacity, []⟩ cs = some (s, answers)
  marked : ∃ recycled, s.Marked capacity recycled mark
  peak : PeakHeld ⟨OrderPool.fresh capacity, []⟩ cs mark
  answers : ∀ p, some p ∈ answers ↔ p < mark

section

variable {capacity mark : Nat} {cs : List PoolCall} {s t : PoolUse}
  {answers : List (Option Slot)} {answer : Option Slot}

theorem Served.start (hpos : 0 < capacity) :
    Served capacity [] ⟨OrderPool.fresh capacity, []⟩ [] 0 where
  run := rfl
  marked := by
    refine ⟨[], ?_, Nat.zero_le _, .refl _⟩
    rw [List.nil_append, Nat.sub_zero, ← List.range_eq_range']
    exact PoolRep.fresh hpos
  peak := Peak.start _
  answers p := iff_of_false List.not_mem_nil (Nat.not_lt_zero p)

theorem Served.snoc (h : Served capacity cs s answers mark) {c : PoolCall}
    (hstep : s.step c = some (t, answer)) :
    ∃ mark', Served capacity (cs ++ [c]) t (answers ++ [answer]) mark' ∧
      Raises mark t answer mark' := by
  obtain ⟨recycled, hmarked⟩ := h.marked
  obtain ⟨recycled', mark', hmarked', hraises⟩ := hmarked.step hstep
  have hlast : exec PoolUse.step s [c] = some (t, [answer]) := exec_cons hstep (exec_nil t)
  have hrun := exec_append h.run hlast
  refine ⟨mark', ⟨hrun, ⟨recycled', hmarked'⟩, h.peak.snoc hrun hraises, fun p => ?_⟩, hraises⟩
  rw [List.mem_append, h.answers, List.mem_singleton]
  cases hraises with
  | stays _ hlt _ => exact or_iff_left_of_imp fun hp => hlt p hp.symm
  | rises _ =>
      rw [Option.some.injEq]
      exact Nat.lt_succ_iff_lt_or_eq.symm

end

/-- Whatever the client does, the slots that the pool ever hands out are the first ones,
    as many as were held at once at the most. -/
theorem run_peak (capacity : Nat) (hpos : 1 ≤ capacity) (hsize : capacity < 2 ^ 64) :
    ∃ pool, OrderPool.make capacity = some pool ∧
      ∀ (cs : List PoolCall) (s : PoolUse) (answers : List (Option Slot)),
        exec step ⟨pool, []⟩ cs = some (s, answers) →
          ∃ mark, PeakHeld ⟨pool, []⟩ cs mark ∧ ∀ p, some p ∈ answers ↔ p < mark := by
  refine ⟨OrderPool.fresh capacity, OrderPool.make_eq hpos hsize, ?_⟩
  intro cs s answers hrun
  suffices hserved : ∃ mark, Served capacity cs s answers mark by
    obtain ⟨mark, hserved⟩ := hserved
    exact ⟨mark, hserved.peak, hserved.answers⟩
  induction cs using List.reverseRecOn generalizing s answers with
  | nil =>
      obtain ⟨rfl, rfl⟩ := Prod.mk.inj (Option.some.inj hrun)
      exact ⟨0, Served.start hpos⟩
  | append_singleton cs c ih =>
      obtain ⟨t, before, answer, hbefore, hstep, rfl⟩ := exec_snoc_inv hrun
      obtain ⟨mark, hserved⟩ := ih t before hbefore
      obtain ⟨mark', hserved', -⟩ := hserved.snoc hstep
      exact ⟨mark', hserved'⟩

/-- Two slots are used for three allocations, because one is given back in between. -/
theorem three_peak : ∃ pool s answers mark, OrderPool.make 3 = some pool ∧
    exec step ⟨pool, []⟩ [.allocate, .allocate, .deallocate 0, .allocate] = some (s, answers) ∧
    PeakHeld ⟨pool, []⟩ [.allocate, .allocate, .deallocate 0, .allocate] mark ∧
    ∀ p, some p ∈ answers ↔ p < mark := by
  obtain ⟨pool, hmake, hall⟩ := run_peak 3 (by omega) (by omega)
  obtain rfl := Option.some.inj ((OrderPool.make_eq (by omega) (by omega)).symm.trans hmake)
  obtain ⟨mark, hpeak, hanswers⟩ := hall [.allocate, .allocate, .deallocate 0, .allocate] _ _ rfl
  exact ⟨_, _, _, mark, hmake, rfl, hpeak, hanswers⟩

end PoolUse

end LimitOrderBook
