/-
  LimitOrderBook.Layout

  The representation invariant of the engine.

  A `Layout` says where every slot of the pool is: queued at a level, free, or
  held.  A held slot is allocated but on no level.  Between calls only an order
  whose price is off the ladder is held; inside a call a slot is held on its way
  from the freelist to a level and back.

  `MatchingEngine.Rep` is stated by parts, one for each structure that a call
  writes: the two ladders, the pool and the map.  Each part has one lemma for
  each edit the engine makes, and the calls are sequences of these edits.
-/
import LimitOrderBook.Book

namespace LimitOrderBook

open Lib

/-- The levels of a side, best price first. -/
def ladderOrder : Side → Nat → List Nat
  | .buy, n => (List.range n).reverse
  | .sell, n => List.range n

theorem mem_ladderOrder {side : Side} {n i : Nat} : i ∈ ladderOrder side n ↔ i < n := by
  cases side <;> simp [ladderOrder]

theorem ladderOrder_nodup (side : Side) (n : Nat) : (ladderOrder side n).Nodup := by
  cases side
  · exact List.nodup_reverse.mpr List.nodup_range
  · exact List.nodup_range

/-- Levels earlier in the order have strictly better prices. -/
theorem ladderOrder_pairwise (side : Side) (n : Nat) :
    (ladderOrder side n).Pairwise (fun i j : Nat => side.better i j) := by
  cases side
  · simpa [ladderOrder, Side.better, List.pairwise_reverse] using List.pairwise_lt_range
  · simpa [ladderOrder, Side.better] using List.pairwise_lt_range

/-- Where the slots of the pool are. -/
structure Layout where
  queue : Side → Nat → List Slot
  held : List Slot
  free : List Slot

namespace Layout

/-- The queued slots of a side in priority order. -/
def slots (L : Layout) (n : Nat) (side : Side) : List Slot :=
  (ladderOrder side n).flatMap (L.queue side)

def allocated (L : Layout) (n : Nat) : List Slot := L.held ++ (L.slots n .buy ++ L.slots n .sell)

def setQueue (L : Layout) (side : Side) (i : Nat) (xs : List Slot) : Layout :=
  { L with queue := Function.update L.queue side (Function.update (L.queue side) i xs) }

/-- Queues lose orders, and a new slot, which none of them kept, is appended to
    one of them. -/
def Evolves (L L' : Layout) (new : Option Slot) : Prop :=
  ∀ side i, ∃ xs, xs.Sublist (L.queue side i) ∧ (∀ p, new = some p → p ∉ xs) ∧
    (L'.queue side i = xs ∨ ∃ p, new = some p ∧ L'.queue side i = xs ++ [p])

end Layout

/-- An order that rests at level `i` of a side. -/
structure Order.Live (o : Order) (side : Side) (i : Nat) : Prop where
  side : o.side = side
  price : o.price = i
  pos : 0 < o.remaining
  le : o.remaining ≤ o.quantity
  status : o.status = .resting ∨ o.status = .partiallyFilled

/-- Level `i` of the ladder is the doubly linked list `q i` of live orders, and
    the bits mark the non-empty levels. -/
structure LadderRep (heap : Heap) (ladder : PriceLadder) (side : Side) (n : Nat)
    (q : Nat → List Slot) : Prop where
  ticks : ladder.UnitTicks n
  bits : ladder.occupiedBits.WF n
  occupied : ∀ i, ladder.occupiedBits.mem i = true ↔ q i ≠ []
  list : ∀ i, DList.Rep heap.links (ladder.levels i).ends (q i)
  size : ∀ i, (ladder.levels i).size = (q i).length
  live : ∀ i, ∀ p ∈ q i, (heap p).Live side i

/-- The allocated slots carry their own index, the freelist runs through the
    free ones, and there are no others. -/
structure PoolRep (pool : OrderPool) (capacity : Nat) (allocated free : List Slot) : Prop where
  capacity_eq : pool.capacity = capacity
  index : ∀ p ∈ allocated, (pool.pool p).poolIndex = p
  chain : FreeChain (fun p => (pool.pool p).poolIndex) UINT32_MAX pool.freeHead free
  slots : (allocated ++ free).Perm (List.range (OrderPool.usable capacity))

/-- Every entry leads to an allocated slot whose order has its id. -/
def MapRep (heap : Heap) (orderMap : AList fun _ : OrderID => Slot) (allocated : List Slot) :
    Prop :=
  ∀ id p, orderMap.lookup id = some p → (heap p).id = id ∧ p ∈ allocated

/-- The representation invariant of the engine. -/
structure MatchingEngine.Rep (engine : MatchingEngine) (n capacity : Nat) (L : Layout) : Prop where
  ladder : ∀ side, LadderRep engine.heap (engine.ladder side) side n (L.queue side)
  pool : PoolRep engine.pool capacity (L.allocated n) L.free
  map : MapRep engine.heap engine.orderMap (L.allocated n)

/-- The invariant between calls: what is held is off the ladder. -/
structure MatchingEngine.Settled (engine : MatchingEngine) (n capacity : Nat) (L : Layout) :
    Prop where
  rep : engine.Rep n capacity L
  parked : ∀ p ∈ L.held, (n : Int) ≤ (engine.heap p).price

-- ============================================================================
-- Layouts
-- ============================================================================

namespace Layout

section

variable (L : Layout) (side : Side) (n i : Nat) (xs : List Slot)

@[simp] theorem setQueue_queue_self : (L.setQueue side i xs).queue side i = xs := by
  simp [setQueue]

@[simp] theorem setQueue_queue :
    (L.setQueue side i xs).queue side = Function.update (L.queue side) i xs := by
  simp [setQueue]

@[simp] theorem setQueue_held : (L.setQueue side i xs).held = L.held := rfl
@[simp] theorem setQueue_free : (L.setQueue side i xs).free = L.free := rfl

variable {side}

@[simp] theorem setQueue_queue_of_ne {other : Side} (h : other ≠ side) :
    (L.setQueue side i xs).queue other = L.queue other := by
  simp [setQueue, h]

@[simp] theorem setQueue_slots_of_ne {other : Side} (h : other ≠ side) :
    (L.setQueue side i xs).slots n other = L.slots n other := by
  rw [slots, setQueue_queue_of_ne _ _ _ h, slots]

end

section

variable {L L' : Layout} {side : Side} {n i : Nat} {xs : List Slot} {p : Slot}

theorem Evolves.of_sublist (h : ∀ side i, (L'.queue side i).Sublist (L.queue side i)) :
    L.Evolves L' none :=
  fun side i => ⟨_, h side i, fun _ hp => absurd hp (by simp), .inl rfl⟩

theorem Evolves.of_append {free : List Slot}
    (h : ∀ side i, (L'.queue side i).Sublist (L.queue side i))
    (hp : ∀ side i, p ∉ L'.queue side i) :
    L.Evolves { L'.setQueue side i (L'.queue side i ++ [p]) with free } (some p) := by
  intro other j
  refine ⟨L'.queue other j, h other j, fun r hr => Option.some.inj hr ▸ hp other j, ?_⟩
  show (L'.setQueue side i (L'.queue side i ++ [p])).queue other j = _ ∨
    ∃ r, _ ∧ (L'.setQueue side i (L'.queue side i ++ [p])).queue other j = _
  by_cases hs : other = side
  · subst hs
    by_cases hj : j = i
    · subst hj
      exact .inr ⟨p, rfl, by simp⟩
    · exact .inl (by simp [hj])
  · exact .inl (by simp [hs])

theorem mem_slots : p ∈ L.slots n side ↔ ∃ i < n, p ∈ L.queue side i := by
  simp [slots, mem_ladderOrder]

theorem mem_allocated :
    p ∈ L.allocated n ↔ p ∈ L.held ∨ ∃ side, p ∈ L.slots n side := by
  simp only [allocated, List.mem_append]
  refine or_congr_right ?_
  constructor
  · rintro (h | h)
    · exact ⟨_, h⟩
    · exact ⟨_, h⟩
  · rintro ⟨side, h⟩
    cases side
    · exact .inl h
    · exact .inr h

/-- Both sides' slots, the named side's first. -/
theorem slots_perm (L : Layout) (n : Nat) (side : Side) :
    (L.slots n .buy ++ L.slots n .sell).Perm (L.slots n side ++ L.slots n side.opposite) := by
  cases side
  · exact .refl _
  · exact List.perm_append_comm

/-- A slot that joins a queue. -/
theorem slots_setQueue_cons (hi : i < n) (hxs : xs.Perm (p :: L.queue side i)) :
    ((L.setQueue side i xs).slots n .buy ++ (L.setQueue side i xs).slots n .sell).Perm
      (p :: (L.slots n .buy ++ L.slots n .sell)) := by
  refine (slots_perm _ n side).trans ?_
  refine .trans ?_ ((slots_perm L n side).symm.cons p)
  rw [setQueue_slots_of_ne _ _ _ _ side.opposite_ne, ← List.cons_append]
  refine List.Perm.append_right _ ?_
  rw [slots, setQueue_queue]
  exact Buckets.flatMap_update_perm_cons (ladderOrder_nodup side n) (mem_ladderOrder.mpr hi) hxs

/-- A slot that leaves a queue. -/
theorem slots_setQueue_of_cons (hi : i < n) (hxs : (L.queue side i).Perm (p :: xs)) :
    (L.slots n .buy ++ L.slots n .sell).Perm
      (p :: ((L.setQueue side i xs).slots n .buy ++ (L.setQueue side i xs).slots n .sell)) := by
  refine (slots_perm L n side).trans ?_
  refine .trans ?_ ((slots_perm _ n side).symm.cons p)
  rw [setQueue_slots_of_ne _ _ _ _ side.opposite_ne, ← List.cons_append]
  refine List.Perm.append_right _ ?_
  rw [slots, slots, setQueue_queue]
  exact Buckets.flatMap_update_perm_of_cons (ladderOrder_nodup side n) (mem_ladderOrder.mpr hi) hxs

end

end Layout

-- ============================================================================
-- The ladder
-- ============================================================================

namespace LadderRep

variable {heap heap' : Heap} {ladder : PriceLadder} {side : Side} {n i : Nat}
  {q : Nat → List Slot} {xs ys : List Slot} {p : Slot} {level : PriceLevelList}

theorem lt_of_mem (h : LadderRep heap ladder side n q) (hp : p ∈ q i) : i < n := by
  by_contra hge
  have hout := h.bits.outside i (Nat.le_of_not_lt hge)
  have hocc := (h.occupied i).mpr (List.ne_nil_of_mem hp)
  rw [hout] at hocc
  exact absurd hocc Bool.false_ne_true

/-- A slot is queued at one level only, that of its order's price. -/
theorem level_unique (h : LadderRep heap ladder side n q) {j : Nat} (hi : p ∈ q i)
    (hj : p ∈ q j) : j = i := by
  have hpi := (h.live i p hi).price
  have hpj := (h.live j p hj).price
  omega

/-- Only the links and the orders of queued slots matter. -/
theorem congr (h : LadderRep heap ladder side n q)
    (hlinks : ∀ j, ∀ r ∈ q j,
      heap'.links.prev r = heap.links.prev r ∧ heap'.links.next r = heap.links.next r)
    (hlive : ∀ j, ∀ r ∈ q j, (heap r).Live side j → (heap' r).Live side j) :
    LadderRep heap' ladder side n q where
  ticks := h.ticks
  bits := h.bits
  occupied := h.occupied
  list j := (h.list j).congr (hlinks j)
  size := h.size
  live j r hr := hlive j r hr (h.live j r hr)

/-- Taking a slot out of its level and clearing the bit of an empty level. -/
theorem unlink (h : LadderRep heap ladder side n q) (hq : q i = xs ++ p :: ys)
    (hlinks : heap'.links = (DList.unlink heap.links (ladder.levels i).ends p).1)
    (hends : level.ends = (DList.unlink heap.links (ladder.levels i).ends p).2)
    (hsize : level.size = (ladder.levels i).size - 1)
    (hlive : ∀ j, ∀ r ∈ q j, r ≠ p → (heap r).Live side j → (heap' r).Live side j) :
    LadderRep heap' ((ladder.setLevel i level).markEmpty i) side n
      (Function.update q i (xs ++ ys)) := by
  have hpi : p ∈ q i := by rw [hq]; simp
  have hi : i < n := h.lt_of_mem hpi
  have hrep : DList.Rep heap.links (ladder.levels i).ends (xs ++ p :: ys) := hq ▸ h.list i
  have hnew : DList.Rep heap'.links level.ends (xs ++ ys) := by
    rw [hlinks, hends]
    exact hrep.unlink
  have hnotin : p ∉ xs ++ ys := (List.nodup_cons.mp (List.nodup_middle.mp hrep.nodup)).1
  have hempty : level.empty = true ↔ xs ++ ys = [] := by
    rw [← hnew.head_isNone]
    exact Option.isNone_iff_eq_none
  have hmem : ∀ j, ((ladder.setLevel i level).markEmpty i).occupiedBits.mem j =
      (ladder.occupiedBits.mem j && !(decide (j = i) && level.empty)) := by
    intro j
    rw [PriceLadder.markEmpty_occupiedBits, PriceLadder.setLevel_levels, Function.update_self,
      PriceLadder.setLevel_occupiedBits]
    cases level.empty with
    | true => rw [if_pos rfl, DynamicBitset.clear_mem h.bits hi]; simp
    | false => rw [if_neg (by decide)]; simp
  refine ⟨(h.ticks.setLevel i level).markEmpty i, ?_, ?_, ?_, ?_, ?_⟩
  · rw [PriceLadder.markEmpty_occupiedBits]
    split
    · exact h.bits.clear hi
    · exact h.bits
  · intro j
    rw [hmem]
    by_cases hj : j = i
    · subst hj
      have hocc : ladder.occupiedBits.mem j = true :=
        (h.occupied j).mpr (List.ne_nil_of_mem hpi)
      rw [hocc, Function.update_self, Ne, ← hempty]
      simp
    · rw [Function.update_of_ne hj, ← h.occupied j]
      simp [hj]
  · intro j
    rw [PriceLadder.markEmpty_levels, PriceLadder.setLevel_levels]
    by_cases hj : j = i
    · subst hj
      rw [Function.update_self, Function.update_self]
      exact hnew
    · rw [Function.update_of_ne hj, Function.update_of_ne hj]
      refine (h.list j).congr fun r hr => ?_
      rw [hlinks]
      refine hrep.unlink_outside fun hin => hj ?_
      exact h.level_unique (hq ▸ hin) hr
  · intro j
    rw [PriceLadder.markEmpty_levels, PriceLadder.setLevel_levels]
    by_cases hj : j = i
    · subst hj
      rw [Function.update_self, Function.update_self, hsize, h.size, hq]
      simp
    · rw [Function.update_of_ne hj, Function.update_of_ne hj]
      exact h.size j
  · intro j r hr
    by_cases hj : j = i
    · subst hj
      rw [Function.update_self] at hr
      have hrq : r ∈ q j := by
        rw [hq]
        simp only [List.mem_append, List.mem_cons] at hr ⊢
        exact hr.imp_right .inr
      exact hlive j r hrq (ne_of_mem_of_not_mem hr hnotin) (h.live j r hrq)
    · rw [Function.update_of_ne hj] at hr
      have hne : r ≠ p := by
        rintro rfl
        exact hj (h.level_unique hpi hr)
      exact hlive j r hr hne (h.live j r hr)

/-- Appending a slot that is on no level and setting the bit of its level. -/
theorem link (h : LadderRep heap ladder side n q) (hi : i < n) (hp : ∀ j, p ∉ q j)
    (hlinks : heap'.links = (DList.pushBack heap.links (ladder.levels i).ends p).1)
    (hends : level.ends = (DList.pushBack heap.links (ladder.levels i).ends p).2)
    (hsize : level.size = (ladder.levels i).size + 1)
    (hlive : ∀ j, ∀ r ∈ q j, r ≠ p → (heap r).Live side j → (heap' r).Live side j)
    (hnew : (heap' p).Live side i) :
    LadderRep heap' ((ladder.setLevel i level).markOccupied i) side n
      (Function.update q i (q i ++ [p])) := by
  have hne : ∀ j, ∀ r ∈ q j, r ≠ p := fun j r hr => ne_of_mem_of_not_mem hr (hp j)
  refine ⟨(h.ticks.setLevel i level).markOccupied i, h.bits.set hi, ?_, ?_, ?_, ?_⟩
  · intro j
    have hmem : ((ladder.setLevel i level).markOccupied i).occupiedBits.mem j =
        (ladder.occupiedBits.mem j || decide (j = i)) := DynamicBitset.set_mem h.bits hi
    rw [hmem]
    by_cases hj : j = i
    · subst hj
      rw [Function.update_self]
      simp
    · rw [Function.update_of_ne hj, ← h.occupied j]
      simp [hj]
  · intro j
    rw [PriceLadder.markOccupied_levels, PriceLadder.setLevel_levels]
    by_cases hj : j = i
    · subst hj
      rw [Function.update_self, Function.update_self, hlinks, hends]
      exact (h.list j).pushBack (hp j)
    · rw [Function.update_of_ne hj, Function.update_of_ne hj]
      refine (h.list j).congr fun r hr => ?_
      rw [hlinks]
      exact (h.list i).pushBack_outside (hne j r hr) fun hin => hj (h.level_unique hin hr)
  · intro j
    rw [PriceLadder.markOccupied_levels, PriceLadder.setLevel_levels]
    by_cases hj : j = i
    · subst hj
      rw [Function.update_self, Function.update_self, hsize, h.size]
      simp
    · rw [Function.update_of_ne hj, Function.update_of_ne hj]
      exact h.size j
  · intro j r hr
    by_cases hj : j = i
    · subst hj
      rw [Function.update_self] at hr
      rcases List.mem_append.mp hr with hr | hr
      · exact hlive j r hr (hne j r hr) (h.live j r hr)
      · obtain rfl := List.mem_singleton.mp hr
        exact hnew
    · rw [Function.update_of_ne hj] at hr
      exact hlive j r hr (hne j r hr) (h.live j r hr)

end LadderRep

-- ============================================================================
-- The pool
-- ============================================================================

/-- The pool after `allocate` has handed out slot `p`. -/
def OrderPool.handOut (pool : OrderPool) (p : Slot) : OrderPool :=
  { pool with
    freeHead := (pool.pool p).poolIndex
    pool := pool.pool.modify p fun o => { o with poolIndex := p, prev := none, next := none } }

@[simp] theorem OrderPool.handOut_pool (pool : OrderPool) (p : Slot) : (pool.handOut p).pool =
    pool.pool.modify p fun o => { o with poolIndex := p, prev := none, next := none } := rfl

/-- That many calls of `allocate` in a row succeed. -/
def OrderPool.hasFree : Nat → OrderPool → Bool
  | 0, _ => true
  | k + 1, pool =>
      match pool.allocate with
      | some (_, pool) => pool.hasFree k
      | none => false

namespace PoolRep

variable {pool pool' : OrderPool} {capacity : Nat} {allocated allocated' free : List Slot}
  {p : Slot}

theorem nodup (h : PoolRep pool capacity allocated free) : (allocated ++ free).Nodup :=
  h.slots.nodup_iff.mpr List.nodup_range

/-- In a new pool no slot is allocated and the usable ones are free in order. -/
theorem fresh (hpos : 0 < capacity) :
    PoolRep (OrderPool.fresh capacity) capacity [] (List.range (OrderPool.usable capacity)) :=
  ⟨rfl, fun p hp => absurd hp (by simp), OrderPool.fresh_chain hpos, .refl _⟩

/-- Only the indices matter, and which slots are allocated. -/
theorem congr (h : PoolRep pool capacity allocated free) (hcap : pool'.capacity = pool.capacity)
    (hfree : pool'.freeHead = pool.freeHead)
    (hindex : ∀ r, (pool'.pool r).poolIndex = (pool.pool r).poolIndex)
    (hperm : allocated'.Perm allocated) : PoolRep pool' capacity allocated' free where
  capacity_eq := hcap.trans h.capacity_eq
  index r hr := (hindex r).trans (h.index r (hperm.subset hr))
  chain := by
    rw [hfree]
    exact h.chain.congr fun r _ => hindex r
  slots := (hperm.append_right free).trans h.slots

theorem allocate_none (h : PoolRep pool capacity allocated free) :
    pool.allocate = none ↔ free = [] := by
  rw [← h.chain.top_eq_nil, OrderPool.allocate]
  split <;> simp_all

/-- `allocate` hands out the head of the freelist. -/
theorem allocate (h : PoolRep pool capacity allocated (p :: free)) :
    pool.allocate = some (p, pool.handOut p) ∧
      PoolRep (pool.handOut p) capacity (p :: allocated) free := by
  obtain ⟨htop, hchain⟩ := h.chain.pop
  have hne : ¬ pool.freeHead = UINT32_MAX := by
    rw [h.chain.top_eq_nil]
    exact List.cons_ne_nil _ _
  have hp : p ∉ allocated ∧ p ∉ free := by
    have hmid := (List.nodup_cons.mp (List.nodup_middle.mp h.nodup)).1
    exact ⟨fun hin => hmid (List.mem_append_left _ hin),
      fun hin => hmid (List.mem_append_right _ hin)⟩
  refine ⟨?_, h.capacity_eq, ?_, ?_, List.perm_middle.symm.trans h.slots⟩
  · rw [OrderPool.allocate, if_neg hne, htop]
    rfl
  · intro r hr
    rcases List.mem_cons.mp hr with rfl | hr
    · rw [OrderPool.handOut_pool, Heap.modify_self]
    · rw [OrderPool.handOut_pool, Heap.modify_of_ne (ne_of_mem_of_not_mem hr hp.1)]
      exact h.index r hr
  · refine hchain.congr fun r hr => ?_
    rw [OrderPool.handOut_pool, Heap.modify_of_ne (ne_of_mem_of_not_mem hr hp.2)]

/-- `deallocate` puts an allocated slot at the head of the freelist. -/
theorem deallocate (h : PoolRep pool capacity (p :: allocated) free) :
    PoolRep (pool.deallocate p) capacity allocated (p :: free) := by
  have hindex := h.index p (List.mem_cons_self ..)
  have hp := (List.nodup_cons.mp h.nodup).1
  have hfree : p ∉ free := fun hin => hp (List.mem_append_right _ hin)
  have hlt : p < OrderPool.usable capacity := by
    rw [← List.mem_range]
    exact h.slots.subset (List.mem_cons_self ..)
  refine ⟨h.capacity_eq, ?_, ?_, List.perm_middle.trans h.slots⟩
  · intro r hr
    have hne : r ≠ p := ne_of_mem_of_not_mem hr fun hin => hp (List.mem_append_left _ hin)
    rw [OrderPool.deallocate_pool, Heap.modify_of_ne hne]
    exact h.index r (List.mem_cons_of_mem _ hr)
  · rw [OrderPool.deallocate_freeHead, hindex]
    refine FreeChain.push ?_ ?_ (h.chain.congr fun r hr => ?_)
    · exact Nat.ne_of_lt (Nat.lt_of_lt_of_le hlt (OrderPool.usable_bounds capacity).2.1)
    · rw [OrderPool.deallocate_pool, Heap.modify_self, Order.setPoolIndex_poolIndex]
    · rw [OrderPool.deallocate_pool, Heap.modify_of_ne (ne_of_mem_of_not_mem hr hfree)]

theorem hasFree_iff (h : PoolRep pool capacity allocated free) (k : Nat) :
    pool.hasFree k = true ↔ k ≤ free.length := by
  induction k generalizing pool allocated free with
  | zero => simp [OrderPool.hasFree]
  | succ k ih =>
      cases free with
      | nil =>
          rw [OrderPool.hasFree, h.allocate_none.mpr rfl]
          simp
      | cons p free =>
          obtain ⟨hallocate, hrep⟩ := h.allocate
          rw [OrderPool.hasFree, hallocate, List.length_cons, Nat.succ_le_succ_iff]
          exact ih hrep

end PoolRep

-- ============================================================================
-- The map
-- ============================================================================

namespace MapRep

variable {heap heap' : Heap} {orderMap : AList fun _ : OrderID => Slot}
  {allocated allocated' : List Slot} {p : Slot} {id : OrderID}

/-- Only the ids of allocated slots matter. -/
theorem congr (h : MapRep heap orderMap allocated)
    (hid : ∀ r ∈ allocated, (heap' r).id = (heap r).id) (hsub : allocated ⊆ allocated') :
    MapRep heap' orderMap allocated' := by
  intro id r hr
  obtain ⟨hidr, hmem⟩ := h id r hr
  exact ⟨(hid r hmem).trans hidr, hsub hmem⟩

theorem erase (h : MapRep heap orderMap allocated) : MapRep heap (orderMap.erase id) allocated := by
  intro k r hr
  by_cases hk : k = id
  · subst hk
    rw [AList.lookup_erase] at hr
    exact absurd hr (by simp)
  · rw [AList.lookup_erase_ne hk] at hr
    exact h k r hr

/-- Once its id is erased no entry leads to a slot. -/
theorem erase_not_to (h : MapRep heap orderMap allocated) (k : OrderID) :
    (orderMap.erase (heap p).id).lookup k ≠ some p := by
  intro hk
  by_cases he : k = (heap p).id
  · rw [he, AList.lookup_erase] at hk
    exact absurd hk (by simp)
  · rw [AList.lookup_erase_ne he] at hk
    exact he (h k p hk).1.symm

theorem insert (h : MapRep heap orderMap allocated) (hid : (heap p).id = id)
    (hp : p ∈ allocated) : MapRep heap (orderMap.insert id p) allocated := by
  intro k r hr
  by_cases hk : k = id
  · subst hk
    rw [AList.lookup_insert] at hr
    obtain rfl := Option.some.inj hr
    exact ⟨hid, hp⟩
  · rw [AList.lookup_insert_ne hk] at hr
    exact h k r hr

end MapRep

end LimitOrderBook
