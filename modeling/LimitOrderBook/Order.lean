/-
  LimitOrderBook.Order

  `order.h`: the order slot with its intrusive links, the FIFO list of one price
  level and the slot pool with its freelist.

  A pointer `Order*` is the index of a slot in the pool (`Slot`), null is `none`.
  The pool's vector is a function from slots to orders, so writing through a
  pointer is a function update.  `pool_index` is the slot's own index while it
  is allocated and the next link of the freelist while it is free.
-/
import LimitOrderBook.Types
import LimitOrderBook.Lib.DList
import LimitOrderBook.Lib.FreeChain

namespace LimitOrderBook

open Lib

/-- An `Order*` into the pool. -/
abbrev Slot := Nat

structure Order where
  id : OrderID := 0
  side : Side := .buy
  type : OrderType := .limit
  price : Int := 0
  quantity : Int := 0
  remaining : Int := 0
  timestamp : Timestamp := 0
  status : OrderStatus := .new
  prev : Option Slot := none
  next : Option Slot := none
  poolIndex : Nat := 0
  deriving DecidableEq, Repr

def Order.isFullyFilled (o : Order) : Bool := o.remaining == 0

def Order.isMarketable (o : Order) : Bool := o.type == .market

def Order.wouldCrossBuy (o : Order) (bestAsk : Int) : Bool :=
  o.side == .buy && (o.type == .market || decide (o.price ≥ bestAsk))

def Order.wouldCrossSell (o : Order) (bestBid : Int) : Bool :=
  o.side == .sell && (o.type == .market || decide (o.price ≤ bestBid))

def Order.setPoolIndex (link : Nat) (o : Order) : Order := { o with poolIndex := link }

@[simp] theorem Order.setPoolIndex_poolIndex (link : Nat) (o : Order) :
    (o.setPoolIndex link).poolIndex = link := rfl

/-- The orders of the pool by slot. -/
abbrev Heap := Slot → Order

/-- Write through a pointer. -/
def Heap.modify (heap : Heap) (p : Slot) (f : Order → Order) : Heap :=
  Function.update heap p (f (heap p))

theorem Heap.modify_self (heap : Heap) (p : Slot) (f : Order → Order) :
    heap.modify p f p = f (heap p) := by simp [Heap.modify]

theorem Heap.modify_of_ne {p x : Slot} (h : x ≠ p) (heap : Heap) (f : Order → Order) :
    heap.modify p f x = heap x := by simp [Heap.modify, h]

/-- A write reads back what an untouched projection read before. -/
theorem Heap.modify_proj {β : Type*} (proj : Order → β) {f : Order → Order}
    (hf : ∀ o, proj (f o) = proj o) (heap : Heap) (p x : Slot) :
    proj (heap.modify p f x) = proj (heap x) := by
  by_cases h : x = p
  · subst h; rw [Heap.modify_self, hf]
  · rw [Heap.modify_of_ne h]

/-- All of an order but its links. -/
def Order.core (o : Order) : Order := { o with prev := none, next := none }

/-- The link fields of every slot. -/
def Heap.links (heap : Heap) : DList.Links Slot :=
  ⟨fun p => (heap p).prev, fun p => (heap p).next⟩

-- ============================================================================
-- PriceLevelList
-- ============================================================================

structure PriceLevelList where
  head : Option Slot := none
  tail : Option Slot := none
  size : Nat := 0
  deriving DecidableEq, Repr

namespace PriceLevelList

def pushBack (level : PriceLevelList) (heap : Heap) (order : Slot) : PriceLevelList × Heap :=
  let heap := heap.modify order fun o => { o with prev := level.tail, next := none }
  match level.tail with
  | some t =>
      (⟨level.head, some order, level.size + 1⟩,
        heap.modify t fun o => { o with next := some order })
  | none => (⟨some order, some order, level.size + 1⟩, heap)

def remove (level : PriceLevelList) (heap : Heap) (order : Slot) : PriceLevelList × Heap :=
  let (level, heap) :=
    match (heap order).prev with
    | some y => (level, heap.modify y fun o => { o with next := (heap order).next })
    | none => ({ level with head := (heap order).next }, heap)
  let (level, heap) :=
    match (heap order).next with
    | some z => (level, heap.modify z fun o => { o with prev := (heap order).prev })
    | none => ({ level with tail := (heap order).prev }, heap)
  ({ level with size := level.size - 1 },
    heap.modify order fun o => { o with prev := none, next := none })

def front (level : PriceLevelList) : Option Slot := level.head

def back (level : PriceLevelList) : Option Slot := level.tail

def empty (level : PriceLevelList) : Bool := level.head.isNone

/-- The slots `for_each` visits, in order; `none` when it does not come to an
    end within `fuel` slots. -/
def forEach (level : PriceLevelList) (heap : Heap) (fuel : Nat) : Option (List Slot) :=
  DList.walk (fun p => (heap p).next) fuel level.head

/-- The end pointers of a level. -/
def ends (level : PriceLevelList) : DList.Ends Slot := ⟨level.head, level.tail⟩

-- ============================================================================
-- The two edits as edits of links
-- ============================================================================

section Links

variable (level : PriceLevelList) (heap : Heap) (p : Slot)

theorem links_modify_prev (x : Slot) (v : Option Slot) :
    (heap.modify x fun o => { o with prev := v }).links = heap.links.setPrev x v := by
  apply DList.Links.ext
  · funext y
    by_cases h : y = x
    · subst h; simp [Heap.links, Heap.modify]
    · rw [DList.setPrev_prev_of_ne h]; simp [Heap.links, Heap.modify, h]
  · funext y
    exact Heap.modify_proj (fun o => o.next) (by intro o; rfl) heap x y

theorem links_modify_next (x : Slot) (v : Option Slot) :
    (heap.modify x fun o => { o with next := v }).links = heap.links.setNext x v := by
  apply DList.Links.ext
  · funext y
    exact Heap.modify_proj (fun o => o.prev) (by intro o; rfl) heap x y
  · funext y
    by_cases h : y = x
    · subst h; simp [Heap.links, Heap.modify]
    · rw [DList.setNext_next_of_ne h]; simp [Heap.links, Heap.modify, h]

theorem links_modify_both (x : Slot) (v w : Option Slot) :
    (heap.modify x fun o => { o with prev := v, next := w }).links
      = (heap.links.setPrev x v).setNext x w := by
  rw [← links_modify_prev, ← links_modify_next]
  simp [Heap.modify]

/-- A write that keeps the links keeps the list structure. -/
theorem links_modify_other {f : Order → Order} (hprev : ∀ o, (f o).prev = o.prev)
    (hnext : ∀ o, (f o).next = o.next) (x : Slot) :
    (heap.modify x f).links = heap.links := by
  apply DList.Links.ext
  · funext y
    exact Heap.modify_proj (fun o => o.prev) hprev heap x y
  · funext y
    exact Heap.modify_proj (fun o => o.next) hnext heap x y

theorem pushBack_links :
    (level.pushBack heap p).2.links = (DList.pushBack heap.links level.ends p).1 ∧
    (level.pushBack heap p).1.ends = (DList.pushBack heap.links level.ends p).2 := by
  unfold pushBack DList.pushBack ends
  cases level.tail with
  | none => exact ⟨links_modify_both .., rfl⟩
  | some t =>
      refine ⟨?_, rfl⟩
      simp only
      rw [links_modify_next, links_modify_both]

theorem remove_links :
    (level.remove heap p).2.links = (DList.unlink heap.links level.ends p).1 ∧
    (level.remove heap p).1.ends = (DList.unlink heap.links level.ends p).2 := by
  have hprev : (heap p).prev = heap.links.prev p := rfl
  have hnext : ∀ h : Heap, (h p).next = h.links.next p := fun _ => rfl
  have hprev' : ∀ h : Heap, (h p).prev = h.links.prev p := fun _ => rfl
  unfold remove DList.unlink DList.bypassPrev
  cases hp : heap.links.prev p with
  | none =>
      simp only [hprev, hp]
      unfold DList.bypassNext
      cases hn : heap.links.next p with
      | none =>
          simp only [hnext, hn, hp]
          exact ⟨links_modify_both .., rfl⟩
      | some z =>
          simp only [hnext, hn, hp]
          rw [links_modify_both, links_modify_prev]
          exact ⟨rfl, rfl⟩
  | some y =>
      simp only [hprev, hp]
      unfold DList.bypassNext
      have hy := links_modify_next heap y (heap.links.next p)
      simp only [hnext heap]
      cases hn : (heap.links.setNext y (heap.links.next p)).next p with
      | none =>
          simp only [hnext, hy, hn, hprev']
          rw [links_modify_both, hy]
          exact ⟨rfl, rfl⟩
      | some z =>
          simp only [hnext, hy, hn, hprev']
          rw [links_modify_both, links_modify_prev, hy]
          exact ⟨rfl, rfl⟩

/-- `pushBack` writes links only. -/
theorem pushBack_core (x : Slot) : ((level.pushBack heap p).2 x).core = (heap x).core := by
  unfold pushBack
  cases level.tail with
  | none => exact Heap.modify_proj Order.core (by intro o; rfl) heap p x
  | some t =>
      refine (Heap.modify_proj Order.core (by intro o; rfl) _ t x).trans ?_
      exact Heap.modify_proj Order.core (by intro o; rfl) heap p x

/-- `remove` writes links only. -/
theorem remove_core (x : Slot) : ((level.remove heap p).2 x).core = (heap x).core := by
  unfold remove
  cases (heap p).prev with
  | none =>
      refine (Heap.modify_proj Order.core (by intro o; rfl) _ p x).trans ?_
      split
      · exact Heap.modify_proj Order.core (by intro o; rfl) heap _ x
      · rfl
  | some y =>
      refine (Heap.modify_proj Order.core (by intro o; rfl) _ p x).trans ?_
      split
      · refine (Heap.modify_proj Order.core (by intro o; rfl) _ _ x).trans ?_
        exact Heap.modify_proj Order.core (by intro o; rfl) heap y x
      · exact Heap.modify_proj Order.core (by intro o; rfl) heap y x

@[simp] theorem pushBack_size : (level.pushBack heap p).1.size = level.size + 1 := by
  unfold pushBack
  cases level.tail <;> rfl

@[simp] theorem remove_size : (level.remove heap p).1.size = level.size - 1 := by
  unfold remove
  cases (heap p).prev <;> simp only <;> split <;> rfl

end Links

end PriceLevelList

-- ============================================================================
-- OrderPool
-- ============================================================================

structure OrderPool where
  capacity : Nat
  pool : Heap
  freeHead : Nat

namespace OrderPool

/-- Store a link into the pool's vector; a slot outside it is undefined. -/
def storeIndex (capacity : Nat) (pool : Heap) (i link : Nat) : Option Heap :=
  if i < capacity then some (pool.modify i (Order.setPoolIndex link)) else none

/-- `capacity_ - 1` in `size_t`. -/
def lastIndex (capacity : Nat) : Nat := (capacity + (2 ^ 64 - 1)) % 2 ^ 64

/-- The constructor: slot `i` links to `i + 1` and the last slot to the sentinel. -/
def make (capacity : Nat) : Option OrderPool := do
  let pool ← (List.range (lastIndex capacity)).foldlM
    (fun pool i => storeIndex capacity pool i ((i + 1) % 2 ^ 32)) (fun _ => {})
  let pool ← storeIndex capacity pool (lastIndex capacity) UINT32_MAX
  return { capacity, pool, freeHead := 0 }

def allocate (self : OrderPool) : Option (Slot × OrderPool) :=
  if self.freeHead = UINT32_MAX then none
  else
    let idx := self.freeHead
    some (idx,
      { self with
        freeHead := (self.pool idx).poolIndex
        pool := self.pool.modify idx fun o =>
          { o with poolIndex := idx, prev := none, next := none } })

def deallocate (self : OrderPool) (order : Slot) : OrderPool :=
  let idx := (self.pool order).poolIndex
  { self with
    pool := self.pool.modify order (Order.setPoolIndex self.freeHead)
    freeHead := idx }

@[simp] theorem deallocate_pool (self : OrderPool) (order : Slot) :
    (self.deallocate order).pool = self.pool.modify order (Order.setPoolIndex self.freeHead) := rfl

@[simp] theorem deallocate_freeHead (self : OrderPool) (order : Slot) :
    (self.deallocate order).freeHead = (self.pool order).poolIndex := rfl

/-- How many slots the freelist of a new pool holds: a link is 32 bits wide and
    its greatest value is the sentinel. -/
def usable (capacity : Nat) : Nat := min capacity UINT32_MAX

theorem foldlM_storeIndex {capacity : Nat} (link : Nat → Nat) (init : Heap) :
    ∀ k ≤ capacity,
      (List.range k).foldlM (fun pool i => storeIndex capacity pool i (link i)) init =
        some fun i => if i < k then (init i).setPoolIndex (link i) else init i := by
  intro k
  induction k with
  | zero => intro _; rfl
  | succ k ih =>
      intro hk
      rw [List.range_succ, List.foldlM_append, ih (by omega)]
      have hlt : k < capacity := hk
      simp only [Option.bind_eq_bind, Option.bind_some, List.foldlM_cons, List.foldlM_nil,
        storeIndex, if_pos hlt, Option.pure_def, Option.some.injEq]
      funext i
      rcases Nat.lt_trichotomy i k with h | rfl | h
      · rw [Heap.modify_of_ne (Nat.ne_of_lt h), if_pos h, if_pos (by omega)]
      · rw [Heap.modify_self, if_pos (Nat.lt_succ_self i), if_neg (Nat.lt_irrefl i)]
      · rw [Heap.modify_of_ne (Nat.ne_of_gt h), if_neg (by omega), if_neg (by omega)]

/-- What the constructor builds. -/
def fresh (capacity : Nat) : OrderPool where
  capacity := capacity
  pool := Heap.modify
    (fun i => if i < capacity - 1 then Order.setPoolIndex ((i + 1) % 2 ^ 32) {} else {})
    (capacity - 1) (Order.setPoolIndex UINT32_MAX)
  freeHead := 0

/-- A pool of at least one slot is built without a store outside its vector. -/
theorem make_eq {capacity : Nat} (hpos : 0 < capacity) (hsize : capacity < 2 ^ 64) :
    make capacity = some (fresh capacity) := by
  have hlast : lastIndex capacity = capacity - 1 := by unfold lastIndex; omega
  have hstore : capacity - 1 < capacity := by omega
  unfold make
  rw [hlast, foldlM_storeIndex (fun i => (i + 1) % 2 ^ 32) _ _ (Nat.sub_le _ _)]
  simp only [Option.bind_eq_bind, Option.bind_some, storeIndex, if_pos hstore, Option.pure_def,
    fresh]

theorem usable_bounds (capacity : Nat) :
    usable capacity ≤ capacity ∧ usable capacity ≤ UINT32_MAX ∧
      (usable capacity = capacity ∨ usable capacity = UINT32_MAX) := by
  unfold usable; omega

/-- The freelist of a new pool runs through its usable slots in order. -/
theorem fresh_chain {capacity : Nat} (hpos : 0 < capacity) :
    FreeChain (fun p => ((fresh capacity).pool p).poolIndex) UINT32_MAX (fresh capacity).freeHead
      (List.range (usable capacity)) := by
  obtain ⟨hle, hmax, hor⟩ := usable_bounds capacity
  have hval : UINT32_MAX = 2 ^ 32 - 1 := rfl
  have hzero : (fresh capacity).freeHead = if 0 < usable capacity then 0 else UINT32_MAX := by
    rw [if_pos (by omega)]
    rfl
  rw [List.range_eq_range', hzero]
  refine freeChain_range' (by omega) ?_
  intro i _ hi
  refine ⟨by omega, ?_⟩
  simp only [fresh]
  by_cases he : i = capacity - 1
  · rw [he, Heap.modify_self, Order.setPoolIndex_poolIndex]
    rw [if_neg (by omega)]
  · have hlt : i < capacity - 1 := by omega
    rw [Heap.modify_of_ne he]
    simp only [hlt, if_true, Order.setPoolIndex_poolIndex]
    by_cases hnext : i + 1 < usable capacity
    · rw [if_pos hnext]
      omega
    · rw [if_neg hnext]
      omega

end OrderPool

end LimitOrderBook
