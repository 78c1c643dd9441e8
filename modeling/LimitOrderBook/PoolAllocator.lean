/-
  LimitOrderBook.PoolAllocator

  The slot pool by itself, under any client that gives back only what it holds
  and does not write `pool_index`.

  `PoolUse` is the pool together with the slots its client holds.  The calls so
  far say when a slot was given back (`freedAt`), and the freelist keeps the free
  slots in the order of these times, the latest first.

  For the constructor the range of its argument matters at both ends: without a
  slot it stores outside its vector, and from `2 ^ 32` slots on a link is cut to
  the sentinel and the chain ends early.
-/
import LimitOrderBook.Lib.Run
import LimitOrderBook.Layout

namespace LimitOrderBook

open Lib

/-- What a client does with the pool.  It may write every field of a slot but
    `pool_index`. -/
inductive PoolCall where
  | allocate
  | deallocate (order : Slot)
  | write (order : Slot) (fields : Order)
  deriving DecidableEq, Repr

/-- The call gives slot `p` back. -/
def PoolCall.frees (p : Slot) : PoolCall → Bool
  | .deallocate order => decide (order = p)
  | _ => false

/-- When slot `p` was last given back, as a count of calls; 0 when it never was. -/
def freedAt (p : Slot) (cs : List PoolCall) : Nat :=
  (cs.reverse.dropWhile fun c => !c.frees p).length

/-- The pool and the slots its client holds. -/
structure PoolUse where
  pool : OrderPool
  allocated : List Slot

namespace PoolUse

/-- One call and the slot it hands out; `none` for a slot given back that the
    client does not hold. -/
def step (s : PoolUse) : PoolCall → Option (PoolUse × Option Slot)
  | .allocate =>
      match s.pool.allocate with
      | some (p, pool) => some (⟨pool, p :: s.allocated⟩, some p)
      | none => some (s, none)
  | .deallocate p =>
      if p ∈ s.allocated then some (⟨s.pool.deallocate p, s.allocated.erase p⟩, none) else none
  | .write p fields =>
      some (⟨{ s.pool with
        pool := s.pool.pool.modify p fun o => { fields with poolIndex := o.poolIndex } },
        s.allocated⟩, none)

/-- What the pool promises its client after the calls `cs`. -/
structure Sound (s : PoolUse) (capacity : Nat) (cs : List PoolCall) : Prop where
  /-- `allocate` fails exactly when all slots are held. -/
  allocate_none : s.pool.allocate = none ↔ s.allocated.length = capacity
  /-- Otherwise it hands out a slot in range that is not held, and of these the
      one given back last. -/
  allocate_some : ∀ p pool, s.pool.allocate = some (p, pool) →
    p < capacity ∧ p ∉ s.allocated ∧
      ∀ q < capacity, q ∉ s.allocated → freedAt q cs ≤ freedAt p cs
  /-- The freelist ends at the sentinel and runs once through the slots that are
      not held, the one given back last first. -/
  freelist : ∃ free,
    FreeChain (fun p => (s.pool.pool p).poolIndex) UINT32_MAX s.pool.freeHead free ∧
    free.Nodup ∧ (∀ p, p ∈ free ↔ p < capacity ∧ p ∉ s.allocated) ∧
    free.Pairwise fun p q => freedAt q cs ≤ freedAt p cs
  /-- A held slot carries its own index. -/
  index : ∀ p ∈ s.allocated, (s.pool.pool p).poolIndex = p
  /-- No slot is held twice. -/
  nodup : s.allocated.Nodup

-- ============================================================================
-- When a slot was given back
-- ============================================================================

theorem freedAt_concat (p : Slot) (cs : List PoolCall) (c : PoolCall) :
    freedAt p (cs ++ [c]) = if c.frees p then cs.length + 1 else freedAt p cs := by
  rw [freedAt, List.reverse_append, List.reverse_singleton, List.singleton_append,
    List.dropWhile_cons]
  cases c.frees p
  · rfl
  · simp

theorem freedAt_le (p : Slot) (cs : List PoolCall) : freedAt p cs ≤ cs.length := by
  have hsuffix := (List.dropWhile_suffix (fun c => !PoolCall.frees p c) (l := cs.reverse)).length_le
  rwa [List.length_reverse] at hsuffix

/-- The free slots by the time they were given back, the latest first. -/
def LatestFirst (cs : List PoolCall) (free : List Slot) : Prop :=
  free.Pairwise fun p q => freedAt q cs ≤ freedAt p cs

/-- A call that gives nothing back keeps the order. -/
theorem LatestFirst.keep {cs : List PoolCall} {free : List Slot} {c : PoolCall}
    (h : LatestFirst cs free) (hc : ∀ p, c.frees p = false) : LatestFirst (cs ++ [c]) free := by
  refine h.imp ?_
  intro p q hpq
  rw [freedAt_concat, freedAt_concat, hc p, hc q]
  exact hpq

/-- The slot that is given back now comes first. -/
theorem LatestFirst.push {cs : List PoolCall} {free : List Slot} {p : Slot}
    (h : LatestFirst cs free) (hp : p ∉ free) :
    LatestFirst (cs ++ [.deallocate p]) (p :: free) := by
  have hother : ∀ q ∈ free, freedAt q (cs ++ [.deallocate p]) = freedAt q cs := by
    intro q hq
    have hne : ¬ p = q := fun e => hp (e ▸ hq)
    rw [freedAt_concat, PoolCall.frees, decide_eq_false hne]
    rfl
  apply List.pairwise_cons.mpr
  constructor
  · intro q hq
    rw [hother q hq, freedAt_concat, PoolCall.frees, decide_eq_true rfl, if_pos rfl]
    exact Nat.le_succ_of_le (freedAt_le q cs)
  · refine h.imp_of_mem ?_
    intro q r hq hr hqr
    rw [hother q hq, hother r hr]
    exact hqr

-- ============================================================================
-- What one call keeps
-- ============================================================================

/-- The freelist is `free`, in the order in which its slots were given back. -/
structure Tracks (s : PoolUse) (capacity : Nat) (cs : List PoolCall) (free : List Slot) : Prop where
  rep : PoolRep s.pool capacity s.allocated free
  latest : LatestFirst cs free

section

variable {s t : PoolUse} {capacity : Nat} {cs : List PoolCall} {free : List Slot}

theorem Tracks.allocate (h : s.Tracks capacity cs free) {answer : Option Slot}
    (hstep : s.step .allocate = some (t, answer)) :
    ∃ free', t.Tracks capacity (cs ++ [.allocate]) free' := by
  have hlatest := @LatestFirst.keep cs free .allocate h.latest (fun _ => rfl)
  cases free with
  | nil =>
      rw [step, h.rep.allocate_none.mpr rfl] at hstep
      obtain ⟨rfl, -⟩ := Prod.mk.inj (Option.some.inj hstep)
      exact ⟨[], h.rep, hlatest⟩
  | cons p free =>
      obtain ⟨hallocate, hrep⟩ := h.rep.allocate
      rw [step, hallocate] at hstep
      obtain ⟨rfl, -⟩ := Prod.mk.inj (Option.some.inj hstep)
      exact ⟨free, hrep, (List.pairwise_cons.mp hlatest).2⟩

theorem Tracks.deallocate (h : s.Tracks capacity cs free) {p : Slot} {answer : Option Slot}
    (hstep : s.step (.deallocate p) = some (t, answer)) :
    t.Tracks capacity (cs ++ [.deallocate p]) (p :: free) := by
  rw [step] at hstep
  split at hstep
  · next hp =>
      obtain ⟨rfl, -⟩ := Prod.mk.inj (Option.some.inj hstep)
      have hfront := h.rep.congr rfl rfl (fun _ => rfl) (List.perm_cons_erase hp).symm
      have hfree : p ∉ free := by
        have hnotin := (List.nodup_cons.mp hfront.nodup).1
        exact fun hin => hnotin (List.mem_append_right _ hin)
      exact ⟨hfront.deallocate, h.latest.push hfree⟩
  · exact absurd hstep (by simp)

theorem Tracks.write (h : s.Tracks capacity cs free) {p : Slot} {fields : Order}
    {answer : Option Slot} (hstep : s.step (.write p fields) = some (t, answer)) :
    t.Tracks capacity (cs ++ [.write p fields]) free := by
  rw [step] at hstep
  obtain ⟨rfl, -⟩ := Prod.mk.inj (Option.some.inj hstep)
  refine ⟨h.rep.congr rfl rfl ?_ (.refl _), h.latest.keep fun _ => rfl⟩
  intro r
  exact Heap.modify_proj (fun o => o.poolIndex) (by intro o; rfl) s.pool.pool p r

theorem Tracks.step {c : PoolCall} {answer : Option Slot} (h : s.Tracks capacity cs free)
    (hstep : s.step c = some (t, answer)) : ∃ free', t.Tracks capacity (cs ++ [c]) free' := by
  cases c with
  | allocate => exact h.allocate hstep
  | deallocate p => exact ⟨_, h.deallocate hstep⟩
  | write p fields => exact ⟨_, h.write hstep⟩

/-- A freelist in order is all that the pool promises. -/
theorem Tracks.sound (h : s.Tracks capacity cs free) (hsize : capacity < 2 ^ 32) :
    s.Sound capacity cs := by
  have husable : OrderPool.usable capacity = capacity := by
    have hval : UINT32_MAX = 2 ^ 32 - 1 := rfl
    obtain ⟨hle, -, hor⟩ := OrderPool.usable_bounds capacity
    omega
  have hslots := h.rep.slots
  rw [husable] at hslots
  have hlength : s.allocated.length + free.length = capacity := by
    rw [← List.length_append, hslots.length_eq, List.length_range]
  have hnodup := List.nodup_append.mp h.rep.nodup
  have hmem : ∀ p, p ∈ free ↔ p < capacity ∧ p ∉ s.allocated := by
    intro p
    rw [← List.mem_range, ← hslots.mem_iff, List.mem_append]
    constructor
    · exact fun hp => ⟨.inr hp, fun hheld => hnodup.2.2 p hheld p hp rfl⟩
    · exact fun hp => hp.1.resolve_left hp.2
  refine ⟨?_, ?_, ⟨free, h.rep.chain, hnodup.2.1, hmem, h.latest⟩, h.rep.index, hnodup.1⟩
  · rw [h.rep.allocate_none, ← List.length_eq_zero_iff]
    omega
  · intro p pool hallocate
    cases free with
    | nil =>
        rw [h.rep.allocate_none.mpr rfl] at hallocate
        exact absurd hallocate (by simp)
    | cons q rest =>
        rw [h.rep.allocate.1] at hallocate
        obtain ⟨rfl, -⟩ := Prod.mk.inj (Option.some.inj hallocate)
        obtain ⟨hlt, hnotin⟩ := (hmem q).mp (List.mem_cons_self ..)
        refine ⟨hlt, hnotin, ?_⟩
        intro r hr hheld
        rcases List.mem_cons.mp ((hmem r).mpr ⟨hr, hheld⟩) with rfl | hin
        · exact Nat.le_refl _
        · exact (List.pairwise_cons.mp h.latest).1 r hin

end

/-- The pool keeps its promises after any calls of its client. -/
theorem run_pool_sound (capacity : Nat) (hpos : 1 ≤ capacity) (hsize : capacity < 2 ^ 32) :
    ∃ pool, OrderPool.make capacity = some pool ∧
      ∀ (cs : List PoolCall) (s : PoolUse) (answers : List (Option Slot)),
        exec step ⟨pool, []⟩ cs = some (s, answers) → s.Sound capacity cs := by
  refine ⟨OrderPool.fresh capacity, OrderPool.make_eq hpos (by omega), ?_⟩
  intro cs s answers hrun
  have hstart : Tracks ⟨OrderPool.fresh capacity, []⟩ capacity []
      (List.range (OrderPool.usable capacity)) :=
    ⟨PoolRep.fresh hpos, List.pairwise_of_forall_mem_list fun p _ q _ => Nat.le_refl _⟩
  have htrace := @exec_trace _ _ _ step (fun _ => True) _ _ _ _ (fun _ _ => trivial) hrun
  suffices htracks : ∃ free, s.Tracks capacity cs free by
    obtain ⟨free, htracks⟩ := htracks
    exact htracks.sound hsize
  clear hrun
  induction htrace with
  | nil => exact ⟨_, hstart⟩
  | snoc _ hlast ih =>
      obtain ⟨free, htracks⟩ := ih
      exact htracks.step hlast.2

/-- A pool of three slots, two of them handed out and the first given back. -/
theorem three_pool_sound : ∃ pool s answers, OrderPool.make 3 = some pool ∧
    exec step ⟨pool, []⟩ [.allocate, .allocate, .deallocate 0] = some (s, answers) ∧
    s.Sound 3 [.allocate, .allocate, .deallocate 0] := by
  obtain ⟨pool, hmake, hsound⟩ := run_pool_sound 3 (by omega) (by omega)
  obtain rfl := Option.some.inj ((OrderPool.make_eq (by omega) (by omega)).symm.trans hmake)
  exact ⟨_, _, _, hmake, rfl, hsound _ _ _ rfl⟩

end PoolUse

-- ============================================================================
-- The constructor
-- ============================================================================

namespace OrderPool

/-- The chain of a pool visits each of `capacity` slots once, and that many
    allocations succeed and no more. -/
structure Complete (pool : OrderPool) (capacity : Nat) : Prop where
  chain : ∃ xs, FreeChain (fun p => (pool.pool p).poolIndex) UINT32_MAX pool.freeHead xs ∧
    xs.Perm (List.range capacity)
  allocations : pool.hasFree capacity = true ∧ pool.hasFree (capacity + 1) = false

/-- Without slots the loop bound wraps around and its first store is outside the
    vector. -/
theorem make_zero : make 0 = none := by
  obtain ⟨k, hk⟩ : ∃ k, lastIndex 0 = k + 1 := ⟨2 ^ 64 - 2, by rw [lastIndex]; omega⟩
  have hstore : ∀ (pool : Heap) link, storeIndex 0 pool 0 link = none := fun _ _ => rfl
  rw [make, hk, List.range_succ_eq_map, List.foldlM_cons, hstore]
  rfl

/-- A new pool has its usable slots, in a chain and for allocation. -/
theorem fresh_complete_iff {capacity : Nat} (hpos : 0 < capacity) :
    (fresh capacity).Complete capacity ↔ usable capacity = capacity := by
  have hrep := PoolRep.fresh hpos
  constructor
  · rintro ⟨⟨xs, hchain, hperm⟩, -⟩
    have hlength := hperm.length_eq
    rw [hchain.unique hrep.chain, List.length_range, List.length_range] at hlength
    exact hlength
  · intro husable
    refine ⟨⟨_, hrep.chain, by rw [husable]⟩, ?_, ?_⟩
    · rw [hrep.hasFree_iff, List.length_range, husable]
    · rw [← Bool.not_eq_true, hrep.hasFree_iff, List.length_range, husable]
      omega

/-- A pool is built without a store outside its vector, and completely, exactly
    for the capacities from 1 to `2 ^ 32 - 1`. -/
theorem make_complete_iff (capacity : Nat) (hsize : capacity < 2 ^ 64) :
    (∃ pool, make capacity = some pool ∧ pool.Complete capacity) ↔
      1 ≤ capacity ∧ capacity < 2 ^ 32 := by
  have hval : UINT32_MAX = 2 ^ 32 - 1 := rfl
  rcases Nat.eq_zero_or_pos capacity with rfl | hpos
  · apply iff_of_false
    · rintro ⟨pool, hmake, -⟩
      rw [make_zero] at hmake
      exact absurd hmake (by simp)
    · omega
  · rw [make_eq hpos hsize]
    have hcomplete := fresh_complete_iff hpos
    rw [usable] at hcomplete
    constructor
    · rintro ⟨pool, hpool, hall⟩
      obtain rfl := Option.some.inj hpool
      have hmin := hcomplete.mp hall
      omega
    · intro hrange
      exact ⟨_, rfl, hcomplete.mpr (by omega)⟩

/-- A pool of three slots is complete exactly because 3 is in range. -/
theorem three_complete_iff : (∃ pool, make 3 = some pool ∧ pool.Complete 3) ↔ 1 ≤ 3 ∧ 3 < 2 ^ 32 :=
  make_complete_iff 3 (by omega)

/-- No pool is built for capacity 0. -/
theorem zero_not_built : ¬ ∃ pool, make 0 = some pool ∧ pool.Complete 0 := by
  rintro ⟨pool, hmake, -⟩
  rw [make_zero] at hmake
  exact absurd hmake (by simp)

end OrderPool

end LimitOrderBook
