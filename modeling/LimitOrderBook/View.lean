/-
  LimitOrderBook.View

  The book that an engine's state stands for, read off its ladders by the same
  traversals the engine makes.  Under the representation invariant it is the
  layout's queues, and the bitset scan finds the level that heads a side.
-/
import LimitOrderBook.Edits

namespace LimitOrderBook

open Lib

namespace MatchingEngine

/-- The order in a slot as the public sees it. -/
def entry (self : MatchingEngine) (p : Slot) : Entry where
  id := (self.heap p).id
  price := (self.heap p).price
  quantity := (self.heap p).quantity
  remaining := (self.heap p).remaining
  mapped := self.orderMap.lookup (self.heap p).id = some p

/-- The slots at a level, front first. -/
def levelSlots (self : MatchingEngine) (side : Side) (i : Nat) : List Slot :=
  (((self.ladder side).levelAt i).forEach self.heap self.pool.capacity).getD []

/-- The slots of a side in priority order. -/
def sideSlots (self : MatchingEngine) (side : Side) : List Slot :=
  (ladderOrder side (self.ladder side).maxLevels.toNat).flatMap (self.levelSlots side)

def book (self : MatchingEngine) : Book where
  bids := (self.sideSlots .buy).map self.entry
  asks := (self.sideSlots .sell).map self.entry

theorem book_side (self : MatchingEngine) (side : Side) :
    self.book.side side = (self.sideSlots side).map self.entry := by
  cases side <;> rfl

-- ============================================================================
-- Entries
-- ============================================================================

section Entries

variable {self self' : MatchingEngine} {p r : Slot} {id : OrderID}

/-- An order that no write touched, with the map unchanged. -/
theorem entry_of_same (hcore : (self'.heap r).core = (self.heap r).core)
    (hmap : self'.orderMap = self.orderMap) : self'.entry r = self.entry r := by
  obtain ⟨v, w, heq⟩ := Order.eq_of_core hcore
  rw [entry, heq, hmap]
  rfl

/-- An order that no write touched, with one id erased from the map. -/
theorem entry_of_erase (hcore : (self'.heap r).core = (self.heap r).core)
    (hmap : self'.orderMap = self.orderMap.erase id) :
    self'.entry r = (self.entry r).forget id := by
  obtain ⟨v, w, heq⟩ := Order.eq_of_core hcore
  rw [entry, heq, hmap]
  by_cases h : (self.heap r).id = id
  · subst h
    simp [entry, Entry.forget, AList.lookup_erase]
  · simp [entry, Entry.forget, h, AList.lookup_erase_ne]

/-- An order that no write touched, with one id led to another slot. -/
theorem entry_of_insert (hr : r ≠ p) (hcore : (self'.heap r).core = (self.heap r).core)
    (hmap : self'.orderMap = self.orderMap.insert id p) :
    self'.entry r = (self.entry r).forget id := by
  obtain ⟨v, w, heq⟩ := Order.eq_of_core hcore
  rw [entry, heq, hmap]
  by_cases h : (self.heap r).id = id
  · subst h
    simp [entry, Entry.forget, AList.lookup_insert, Ne.symm hr]
  · simp [entry, Entry.forget, h, AList.lookup_insert_ne]

end Entries

-- ============================================================================
-- The view under the invariant
-- ============================================================================

namespace Rep

variable {self : MatchingEngine} {n capacity : Nat} {L : Layout} {side : Side} {i : Nat}

/-- All allocated slots fit the pool. -/
theorem allocated_length (h : self.Rep n capacity L) :
    (L.allocated n).length + L.free.length = OrderPool.usable capacity := by
  rw [← List.length_append, h.pool.slots.length_eq, List.length_range]

theorem queue_length (h : self.Rep n capacity L) (side : Side) (i : Nat) :
    (L.queue side i).length ≤ self.pool.capacity := by
  have hsub : (L.queue side i).length ≤ (L.allocated n).length :=
    (List.subperm_of_subset ((h.ladder side).list i).nodup fun _ hp =>
      h.mem_allocated hp).length_le
  have hlen := h.allocated_length
  have husable := (OrderPool.usable_bounds capacity).1
  rw [h.pool.capacity_eq]
  omega

/-- A traversal of a level visits its queue. -/
theorem forEach_eq (h : self.Rep n capacity L) (side : Side) (i : Nat) :
    ((self.ladder side).levelAt i).forEach self.heap self.pool.capacity
      = some (L.queue side i) :=
  ((h.ladder side).list i).walk (h.queue_length side i)

theorem levelSlots_eq (h : self.Rep n capacity L) (side : Side) (i : Nat) :
    self.levelSlots side i = L.queue side i := by
  rw [levelSlots, h.forEach_eq, Option.getD_some]

theorem sideSlots_eq (h : self.Rep n capacity L) (side : Side) :
    self.sideSlots side = L.slots n side := by
  have hq : self.levelSlots side = L.queue side := funext (h.levelSlots_eq side)
  rw [sideSlots, (h.ladder side).ticks.maxLevels, Int.toNat_natCast, hq, Layout.slots]

theorem book_side (h : self.Rep n capacity L) (side : Side) :
    self.book.side side = (L.slots n side).map self.entry := by
  rw [MatchingEngine.book_side, h.sideSlots_eq]

theorem book_positive (h : self.Rep n capacity L) : self.book.Positive := by
  intro side e he
  rw [h.book_side] at he
  obtain ⟨p, hp, rfl⟩ := List.mem_map.mp he
  obtain ⟨i, -, hpi⟩ := Layout.mem_slots.mp hp
  exact (h.live hpi).pos

/-- As many orders rest as slots are queued. -/
theorem book_size (h : self.Rep n capacity L) :
    self.book.size + L.held.length + L.free.length = OrderPool.usable capacity := by
  rw [← h.allocated_length, Book.size_eq _ .buy, h.book_side, h.book_side]
  simp only [Layout.allocated, List.length_append, List.length_map, Side.opposite]
  omega

theorem slots_nodup (h : self.Rep n capacity L) (side : Side) : (L.slots n side).Nodup := by
  have hnodup := (List.nodup_append.mp (List.nodup_append.mp h.pool.nodup).1).2.1
  exact (List.nodup_append.mp ((L.slots_perm n side).nodup_iff.mp hnodup)).1

/-- Every queued slot is at the level of its order's price. -/
theorem mem_slots_iff (h : self.Rep n capacity L) {p : Slot} :
    p ∈ L.slots n side ↔ ∃ i, p ∈ L.queue side i := by
  rw [Layout.mem_slots]
  exact ⟨fun ⟨i, _, hp⟩ => ⟨i, hp⟩, fun ⟨i, hp⟩ => ⟨i, h.lt_of_mem hp, hp⟩⟩

end Rep

end MatchingEngine

-- ============================================================================
-- The best level
-- ============================================================================

/-- The scan for the best level of a side. -/
def PriceLadder.findBest : Side → PriceLadder → Option Nat
  | .buy => PriceLadder.findBestBid
  | .sell => PriceLadder.findBestAsk

/-- Level `i` heads its side: all levels with better prices are empty. -/
def Best (q : Nat → List Slot) (side : Side) (n i : Nat) : Prop :=
  ∃ pre post, ladderOrder side n = pre ++ i :: post ∧ i ∉ pre ∧ i ∉ post ∧ ∀ j ∈ pre, q j = []

/-- The queue of the best level heads the side's slots, whatever it is. -/
theorem Best.slots {L : Layout} {side : Side} {n i : Nat} (h : Best (L.queue side) side n i) :
    ∃ rest, L.slots n side = L.queue side i ++ rest ∧
      ∀ xs, (L.setQueue side i xs).slots n side = xs ++ rest ∧
        Best ((L.setQueue side i xs).queue side) side n i := by
  obtain ⟨pre, post, hsplit, hpre, hpost, hempty⟩ := h
  refine ⟨post.flatMap (L.queue side), ?_, fun xs => ⟨?_, pre, post, hsplit, hpre, hpost, ?_⟩⟩
  · rw [Layout.slots, hsplit, Buckets.flatMap_of_prefix_empty hempty]
  · have hnil : pre.flatMap (L.queue side) = [] := List.flatMap_eq_nil_iff.mpr hempty
    rw [Layout.slots, hsplit, Layout.setQueue_queue, Buckets.flatMap_update hpre hpost, hnil,
      List.nil_append]
  · intro j hj
    rw [Layout.setQueue_queue, Function.update_of_ne (ne_of_mem_of_not_mem hj hpre)]
    exact hempty j hj

/-- The levels behind the best one have worse prices. -/
theorem Best.better {q : Nat → List Slot} {side : Side} {n i j : Nat} (h : Best q side n i)
    (hj : j < n) (hne : q j ≠ []) (hother : j ≠ i) : side.better i j := by
  obtain ⟨pre, post, hsplit, -, -, hempty⟩ := h
  have hmem : j ∈ pre ++ i :: post := hsplit ▸ mem_ladderOrder.mpr hj
  have hpost : j ∈ post := by
    rcases List.mem_append.mp hmem with hin | hin
    · exact absurd (hempty j hin) hne
    · exact (List.mem_cons.mp hin).resolve_left hother
  have hpair := ladderOrder_pairwise side n
  rw [hsplit] at hpair
  exact (List.pairwise_cons.mp (List.pairwise_append.mp hpair).2.1).1 j hpost

namespace LadderRep

variable {heap : Heap} {ladder : PriceLadder} {side : Side} {n i : Nat} {q : Nat → List Slot}

theorem eq_nil_of_clear (h : LadderRep heap ladder side n q)
    (hclear : ladder.occupiedBits.mem i = false) : q i = [] := by
  by_contra hne
  have hset := (h.occupied i).mpr hne
  rw [hclear] at hset
  exact absurd hset Bool.false_ne_true

/-- The scan finds the first non-empty level. -/
theorem findBest_some (h : LadderRep heap ladder side n q)
    (hbest : PriceLadder.findBest side ladder = some i) :
    q i ≠ [] ∧ Best q side n i := by
  have hscan : ladder.occupiedBits.mem i = true ∧
      ∀ j : Nat, side.better j i → ladder.occupiedBits.mem j = false := by
    cases side with
    | buy =>
        obtain ⟨hi, habove⟩ := DynamicBitset.findHighest_some h.bits hbest
        exact ⟨hi, fun j hj => habove j (by simpa [Side.better] using hj)⟩
    | sell =>
        obtain ⟨hi, hbelow⟩ := DynamicBitset.findLowest_some hbest
        exact ⟨hi, fun j hj => hbelow j (by simpa [Side.better] using hj)⟩
  have hne := (h.occupied i).mp hscan.1
  obtain ⟨p, hp⟩ := List.exists_mem_of_ne_nil _ hne
  obtain ⟨pre, post, hsplit, hpre, hpost⟩ :=
    Buckets.split_of_mem (ladderOrder_nodup side n) (mem_ladderOrder.mpr (h.lt_of_mem hp))
  refine ⟨hne, pre, post, hsplit, hpre, hpost, fun j hj => h.eq_nil_of_clear (hscan.2 j ?_)⟩
  have hpair := ladderOrder_pairwise side n
  rw [hsplit] at hpair
  exact (List.pairwise_append.mp hpair).2.2 j hj i (List.mem_cons_self ..)

/-- The scan finds nothing when every level is empty. -/
theorem findBest_none (h : LadderRep heap ladder side n q)
    (hbest : PriceLadder.findBest side ladder = none) (j : Nat) : q j = [] := by
  apply h.eq_nil_of_clear
  cases side with
  | buy => exact DynamicBitset.findHighest_none h.bits hbest j
  | sell => exact DynamicBitset.findLowest_none h.bits hbest j

end LadderRep

-- ============================================================================
-- The fresh engine
-- ============================================================================

namespace MatchingEngine

/-- Nothing queued, every usable slot free. -/
def emptyLayout (capacity : Nat) : Layout where
  queue := fun _ _ => []
  held := []
  free := List.range (OrderPool.usable capacity)

theorem emptyLayout_slots (capacity n : Nat) (side : Side) :
    (emptyLayout capacity).slots n side = [] := by
  simp [Layout.slots, emptyLayout]

/-- A ladder that was just built is empty. -/
theorem make_ladderRep {n : Nat} {ladder : PriceLadder} {heap : Heap} (side : Side)
    (h : PriceLadder.make n = some ladder) :
    LadderRep heap (ladder.setBasePrice 0) side n fun _ => [] := by
  have hneg : ¬ ((n : Int) < 0) := by omega
  simp only [PriceLadder.make, hneg, if_false, Option.pure_def, Option.bind_eq_bind,
    Option.bind_eq_some_iff, Option.some.injEq] at h
  obtain ⟨bits, hbits, rfl⟩ := h
  obtain ⟨hwf, hclear⟩ := DynamicBitset.make_wf hbits
  refine ⟨⟨rfl, rfl, rfl⟩, hwf, ?_, ?_, ?_, ?_⟩
  · intro i
    show bits.mem i = true ↔ _
    rw [hclear i]
    simp
  · intro i
    exact DList.Rep.nil
  · intro i
    rfl
  · intro i p hp
    exact absurd hp (by simp)

theorem empty_mapRep {heap : Heap} {allocated : List Slot} : MapRep heap ∅ allocated := by
  intro id p hp
  rw [AList.lookup_empty] at hp
  exact absurd hp (by simp)

end MatchingEngine

/-- Constructor arguments for which no vector, link or bit is out of range. -/
structure Config where
  maxPriceLevels : Int
  poolCapacity : Nat
  levels_le : maxPriceLevels ≤ 2 ^ 31 - 64
  capacity_pos : 0 < poolCapacity
  capacity_lt : poolCapacity < 2 ^ 64

namespace Config

/-- `max_levels` of both ladders. -/
def maxLevels (config : Config) : Int :=
  if config.maxPriceLevels > 0 then config.maxPriceLevels else 20000

def levels (config : Config) : Nat := config.maxLevels.toNat

theorem levels_eq (config : Config) : (config.levels : Int) = config.maxLevels := by
  have hpos : 0 ≤ config.maxLevels := by
    rw [maxLevels]
    split <;> omega
  exact Int.toNat_of_nonneg hpos

/-- The constructor builds an engine that represents the empty layout. -/
theorem make_rep (config : Config) :
    ∃ engine, MatchingEngine.make config.maxPriceLevels config.poolCapacity = some engine ∧
      engine.Rep config.levels config.poolCapacity
        (MatchingEngine.emptyLayout config.poolCapacity) ∧ engine.orderMap = ∅ := by
  have hle : (config.levels : Int) ≤ 2 ^ 31 - 64 := by
    have := config.levels_le
    rw [levels_eq, maxLevels]
    split <;> omega
  obtain ⟨bits, hbits⟩ := DynamicBitset.make_isSome hle
  obtain ⟨ladder, hladder⟩ : ∃ ladder, PriceLadder.make config.levels = some ladder := by
    have hneg : ¬ ((config.levels : Int) < 0) := by omega
    simp [PriceLadder.make, hneg, hbits]
  refine ⟨⟨OrderPool.fresh config.poolCapacity, ladder.setBasePrice 0, ladder.setBasePrice 0, ∅⟩,
    ?_, ⟨?_, ?_, MatchingEngine.empty_mapRep⟩, rfl⟩
  · have hlevels : (if config.maxPriceLevels > 0 then config.maxPriceLevels else 20000)
        = (config.levels : Int) := config.levels_eq.symm
    simp only [MatchingEngine.make, hlevels, hladder,
      OrderPool.make_eq config.capacity_pos config.capacity_lt, Option.bind_eq_bind,
      Option.bind_some, Option.pure_def]
  · intro side
    cases side
    · exact MatchingEngine.make_ladderRep .buy hladder
    · exact MatchingEngine.make_ladderRep .sell hladder
  · have hnone : (MatchingEngine.emptyLayout config.poolCapacity).allocated config.levels = [] := by
      rw [Layout.allocated, MatchingEngine.emptyLayout_slots, MatchingEngine.emptyLayout_slots]
      rfl
    rw [hnone]
    exact PoolRep.fresh config.capacity_pos

/-- The engine that the constructor builds. -/
def engine (config : Config) : MatchingEngine :=
  (MatchingEngine.make config.maxPriceLevels config.poolCapacity).get
    (by obtain ⟨engine, h, -⟩ := config.make_rep; rw [h]; rfl)

theorem make_eq (config : Config) :
    MatchingEngine.make config.maxPriceLevels config.poolCapacity = some config.engine :=
  (Option.some_get _).symm

theorem engine_rep (config : Config) :
    config.engine.Rep config.levels config.poolCapacity
      (MatchingEngine.emptyLayout config.poolCapacity) ∧ config.engine.orderMap = ∅ := by
  obtain ⟨engine, h, hrep⟩ := config.make_rep
  obtain rfl : config.engine = engine := Option.some.inj (config.make_eq.symm.trans h)
  exact hrep

end Config

end LimitOrderBook
