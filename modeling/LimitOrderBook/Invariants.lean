/-
  LimitOrderBook.Invariants

  What holds of the engine after every call: its structures are consistent, and
  its own check `verify_invariants` passes.
-/
import LimitOrderBook.LadderCheck
import LimitOrderBook.Runs
import LimitOrderBook.BookOrder
import LimitOrderBook.Quotes

namespace LimitOrderBook

open Lib MatchingEngine

-- ============================================================================
-- The representation of the book, the map and the pool
-- ============================================================================

/-- The ladders, the map and the pool of an engine agree on where every order
    is. -/
structure Consistent (engine : MatchingEngine) (capacity : Nat) (L : Layout) : Prop where
  /-- Every level is a doubly linked list without a cycle, and knows its length. -/
  level : ∀ side i, DList.Rep engine.heap.links ((engine.ladder side).levelAt i).ends
    (L.queue side i) ∧ ((engine.ladder side).levelAt i).size = (L.queue side i).length
  /-- No order is on two lists. -/
  disjoint : ∀ side i other j p, p ∈ L.queue side i → p ∈ L.queue other j → other = side ∧ j = i
  /-- Every linked order belongs where it is. -/
  linked : ∀ side i, ∀ p ∈ L.queue side i, (i : Int) < (engine.ladder side).maxLevels ∧
    (engine.heap p).side = side ∧ (engine.heap p).price = i ∧
    0 < (engine.heap p).remaining ∧ (engine.heap p).remaining ≤ (engine.heap p).quantity ∧
    ((engine.heap p).status = .resting ∨ (engine.heap p).status = .partiallyFilled)
  /-- Every map entry leads to a linked order with that id. -/
  map : ∀ id p, engine.orderMap.lookup id = some p →
    (engine.heap p).id = id ∧ ∃ side i, p ∈ L.queue side i
  /-- The freelist starts at `free_head_`. -/
  freelist : FreeChain (fun p => (engine.heap p).poolIndex) UINT32_MAX engine.pool.freeHead L.free
  /-- The pool's slots are the linked orders and the free slots, each once. -/
  partition : ((engine.sideSlots .buy ++ engine.sideSlots .sell) ++ L.free).Perm
    (List.range capacity)
  /-- The linked orders of a side are those of its levels. -/
  sides : ∀ side p, p ∈ engine.sideSlots side ↔ ∃ i, p ∈ L.queue side i

theorem MatchingEngine.Sound.consistent {engine : MatchingEngine} {n capacity : Nat} {L : Layout}
    (h : engine.Sound n capacity L) (hcap : capacity < 2 ^ 32) : Consistent engine capacity L where
  level side i := ⟨(h.ladder side).list i, (h.ladder side).size i⟩
  disjoint side i other j p hp hp' := h.queue_unique hp hp'
  linked side i p hp := by
    have hlive := h.live hp
    have hi := h.lt_of_mem hp
    rw [(h.ladder side).ticks.maxLevels]
    exact ⟨by omega, hlive.side, hlive.price, hlive.pos, hlive.le, hlive.status⟩
  map id p hid := by
    obtain ⟨side, i, xs, ys, hq⟩ := h.queued hid
    exact ⟨(h.map id p hid).1, side, i, by rw [hq]; simp⟩
  freelist := h.pool.chain
  partition := by
    have husable : OrderPool.usable capacity = capacity := by
      have hval : UINT32_MAX = 2 ^ 32 - 1 := rfl
      obtain ⟨hle, -, hor⟩ := OrderPool.usable_bounds capacity
      omega
    have hslots := h.pool.slots
    rw [husable, Layout.allocated, h.held, List.nil_append] at hslots
    rw [h.sideSlots_eq, h.sideSlots_eq]
    exact hslots
  sides side p := by
    rw [h.sideSlots_eq]
    exact h.mem_slots_iff

/-- Every state of every run is consistent. -/
theorem run_consistent (config : Config) (hcap : config.poolCapacity < 2 ^ 32)
    (cs : List Command) (h : ∀ c ∈ cs, c.LimitBelow config.maxLevels) :
    ∃ engine events L, config.engine.run cs = some (engine, events) ∧
      Consistent engine config.poolCapacity L := by
  obtain ⟨engine, events, hrun, ⟨L, hsound⟩, -⟩ := config.run_calls h
  exact ⟨engine, events, L, hrun, hsound.consistent hcap⟩

/-- The sample run ends in a consistent state. -/
theorem sample_consistent : ∃ engine events L,
    Config.small.engine.run sampleCommands = some (engine, events) ∧ Consistent engine 3 L :=
  run_consistent Config.small (by decide) sampleCommands (by decide)

-- ============================================================================
-- The engine's own check
-- ============================================================================

namespace MatchingEngine

variable {self : MatchingEngine} {n capacity : Nat} {L : Layout}

/-- Best price first, by the order in which levels are served. -/
theorem Rep.book_sorted (h : self.Rep n capacity L) : self.book.Sorted := by
  intro side
  rw [h.book_side, List.map_map, Layout.slots, List.pairwise_map, List.pairwise_flatMap]
  refine ⟨fun i _ => ?_, (ladderOrder_pairwise side n).imp ?_⟩
  · refine List.pairwise_of_forall_mem_list fun p hp r hr => ?_
    show ¬ side.better (self.heap r).price (self.heap p).price
    rw [(h.live hp).price, (h.live hr).price]
    cases side <;> simp [Side.better]
  · intro i j hij p hp r hr
    show ¬ side.better (self.heap r).price (self.heap p).price
    rw [(h.live hp).price, (h.live hr).price]
    cases side <;> simp only [Side.better] at hij ⊢ <;> omega

/-- A level's bit is set exactly when its list is not empty. -/
theorem Rep.test_eq (h : self.Rep n capacity L) (side : Side) (i : Nat) :
    (self.ladder side).occupiedBits.test i = !((self.ladder side).levelAt i).empty := by
  have hempty : ((self.ladder side).levelAt i).empty = true ↔ L.queue side i = [] := by
    rw [← ((h.ladder side).list i).head_isNone]
    exact Option.isNone_iff_eq_none
  have hocc := (h.ladder side).occupied i
  rw [DynamicBitset.test_eq_mem (h.ladder side).bits]
  cases hb : ((self.ladder side).levelAt i).empty with
  | true =>
      rw [hb] at hempty
      cases hm : (self.ladder side).occupiedBits.mem i with
      | false => rfl
      | true => exact absurd (hempty.mp rfl) (hocc.mp hm)
  | false =>
      rw [hb] at hempty
      have hne : L.queue side i ≠ [] := fun he => absurd (hempty.mpr he) (by decide)
      rw [hocc.mpr hne]
      rfl

theorem Rep.bitsAgree (h : self.Rep n capacity L) (side : Side) :
    (self.ladder side).BitsAgree := by
  intro i _
  rw [h.test_eq side i, Bool.not_eq_true']
  rfl

theorem Rep.ladder_verifyInvariants (h : self.Rep n capacity L) (side : Side) :
    (self.ladder side).verifyInvariants self.heap self.pool.capacity = some true :=
  PriceLadder.verifyInvariants_of_bitsAgree (h.bitsAgree side) fun i _ => h.forEach_eq side i

/-- An uncrossed sound engine passes its own check. -/
theorem Sound.verifyInvariants (h : self.Sound n capacity L) (hun : self.book.Uncrossed) :
    self.verifyInvariants = some true := by
  have hcross : ¬ (self.bestBid > 0 ∧ self.bestAsk > 0 ∧ self.bestBid ≥ self.bestAsk) := by
    rintro ⟨hb, ha, hge⟩
    rcases h.bestPrice_quoted .buy with ⟨-, hbid⟩ | ⟨b, hbmem, hbid, -⟩
    · exact absurd hb (by rw [show self.bestBid = 0 from hbid]; decide)
    · rcases h.bestPrice_quoted .sell with ⟨-, hask⟩ | ⟨a, hamem, hask, -⟩
      · exact absurd ha (by rw [show self.bestAsk = 0 from hask]; decide)
      · have hlt := hun b hbmem a hamem
        rw [← show b.price = self.bestBid from hbid, ← show a.price = self.bestAsk from hask] at hge
        omega
  have hmap : (self.orderMap.entries.all fun entry =>
      (self.heap entry.2).id == entry.1 &&
        ((self.heap entry.2).status == .resting ||
          (self.heap entry.2).status == .partiallyFilled)) = true := by
    rw [List.all_eq_true]
    rintro ⟨id, p⟩ hentry
    have hid : self.orderMap.lookup id = some p := AList.mem_lookup_iff.mpr hentry
    obtain ⟨side, i, xs, ys, hq⟩ := h.queued hid
    have hlive := h.live (show p ∈ L.queue side i by rw [hq]; simp)
    rcases hlive.status with hs | hs <;> simp [(h.map id p hid).1, hs]
  have hbids := h.ladder_verifyInvariants .buy
  have hasks := h.ladder_verifyInvariants .sell
  simp only [ladder] at hbids hasks
  simp only [MatchingEngine.verifyInvariants, if_neg hcross, hbids, hasks, hmap]
  rfl

/-- A sound call keeps the sides of the book apart. -/
theorem Call.uncrossed {s s' : MatchingEngine} {c : Command} {event : MatchEvent}
    (hcall : Call n capacity s c event s') (h : s.book.Uncrossed) : s'.book.Uncrossed := by
  obtain ⟨L, -, hs, -⟩ := hcall.sound
  have hstep : s.book.step (roomIn capacity) c = (s'.book, event) := hcall.book
  have hun := @Book.step_uncrossed _ (roomIn capacity) c hs.book_sorted h
  rwa [hstep] at hun

end MatchingEngine

theorem Config.engine_uncrossed (config : Config) : config.engine.book.Uncrossed := by
  rw [config.engine_book]
  intro b hb
  exact absurd hb (by simp)

/-- `verify_invariants` returns true after every run: the book is neither crossed
    nor locked, the bits mark the non-empty levels, and the map's entries have
    their ids and statuses. -/
theorem run_verifyInvariants (config : Config) (cs : List Command)
    (h : ∀ c ∈ cs, c.LimitBelow config.maxLevels) :
    ∃ engine events, config.engine.run cs = some (engine, events) ∧
      engine.verifyInvariants = some true ∧
      (∀ b ∈ engine.book.bids, ∀ a ∈ engine.book.asks, b.price < a.price) ∧
      (∀ side (i : Nat), (engine.ladder side).occupiedBits.test i =
        !((engine.ladder side).levelAt i).empty) ∧
      (∀ id p, engine.orderMap.lookup id = some p → (engine.heap p).id = id ∧
        ((engine.heap p).status = .resting ∨ (engine.heap p).status = .partiallyFilled)) := by
  obtain ⟨engine, events, hrun, ⟨L, hsound⟩, htrace⟩ := config.run_calls h
  have hun : engine.book.Uncrossed :=
    @Trace.invariant _ _ _ _ (fun s => s.book.Uncrossed) _ _ _ _
      (fun s c event t hs hcall => hcall.uncrossed hs) config.engine_uncrossed htrace
  refine ⟨engine, events, hrun, hsound.verifyInvariants hun, hun, hsound.test_eq, ?_⟩
  intro id p hid
  obtain ⟨side, i, xs, ys, hq⟩ := hsound.queued hid
  exact ⟨(hsound.map id p hid).1, (hsound.live (show p ∈ L.queue side i by rw [hq]; simp)).status⟩

/-- The sample run passes the check. -/
theorem sample_verifyInvariants : ∃ engine events,
    Config.small.engine.run sampleCommands = some (engine, events) ∧
      engine.verifyInvariants = some true ∧
      (∀ b ∈ engine.book.bids, ∀ a ∈ engine.book.asks, b.price < a.price) ∧
      (∀ side (i : Nat), (engine.ladder side).occupiedBits.test i =
        !((engine.ladder side).levelAt i).empty) ∧
      (∀ id p, engine.orderMap.lookup id = some p → (engine.heap p).id = id ∧
        ((engine.heap p).status = .resting ∨ (engine.heap p).status = .partiallyFilled)) :=
  run_verifyInvariants Config.small sampleCommands (by decide)

end LimitOrderBook
