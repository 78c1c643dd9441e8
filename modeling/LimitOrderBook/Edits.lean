/-
  LimitOrderBook.Edits

  Every edit that the engine makes to its state keeps the representation
  invariant, with the layout changed by one move of one slot:

    `unlink`      queue → held        `deallocate`  held → free
    `allocate`    free → held         `link`        held → queue

  The other edits (an order's fields, a map entry) leave the layout alone.
-/
import LimitOrderBook.Layout

namespace LimitOrderBook

open Lib MatchingEngine

/-- A write to an order that leaves its links and its pool index alone. -/
structure Order.Keeps (f : Order → Order) : Prop where
  prev : ∀ o, (f o).prev = o.prev
  next : ∀ o, (f o).next = o.next
  poolIndex : ∀ o, (f o).poolIndex = o.poolIndex

theorem Order.Keeps.links {f : Order → Order} (h : Order.Keeps f) (heap : Heap) (p : Slot) :
    (heap.modify p f).links = heap.links :=
  PriceLevelList.links_modify_other heap h.prev h.next p

/-- Orders with the same core agree in every field but the links. -/
theorem Order.proj_eq {β : Type*} (proj : Order → β) (hproj : ∀ o : Order, proj o.core = proj o)
    {o o' : Order} (h : o'.core = o.core) : proj o' = proj o := by
  rw [← hproj o', h, hproj o]

theorem Order.eq_of_core {o o' : Order} (h : o'.core = o.core) :
    ∃ v w, o' = { o with prev := v, next := w } := by
  refine ⟨o'.prev, o'.next, ?_⟩
  cases o
  cases o'
  simpa [Order.core] using h

theorem Order.Live.of_core {o o' : Order} {side : Side} {i : Nat} (hcore : o'.core = o.core)
    (h : o.Live side i) : o'.Live side i := by
  have hside := Order.proj_eq Order.side (fun _ => rfl) hcore
  have hprice := Order.proj_eq Order.price (fun _ => rfl) hcore
  have hrem := Order.proj_eq Order.remaining (fun _ => rfl) hcore
  have hqty := Order.proj_eq Order.quantity (fun _ => rfl) hcore
  have hstatus := Order.proj_eq Order.status (fun _ => rfl) hcore
  refine ⟨hside.trans h.side, hprice.trans h.price, ?_, ?_, ?_⟩
  · rw [hrem]; exact h.pos
  · rw [hrem, hqty]; exact h.le
  · rw [hstatus]; exact h.status

namespace MatchingEngine.Rep

variable {self : MatchingEngine} {n capacity : Nat} {L : Layout} {side : Side} {i : Nat}
  {xs ys free : List Slot} {p r : Slot} {f : Order → Order} {id : OrderID}

-- ============================================================================
-- Where a slot can be
-- ============================================================================

theorem lt_of_mem (h : self.Rep n capacity L) (hp : p ∈ L.queue side i) : i < n :=
  (h.ladder side).lt_of_mem hp

theorem live (h : self.Rep n capacity L) (hp : p ∈ L.queue side i) :
    (self.heap p).Live side i :=
  (h.ladder side).live i p hp

theorem mem_slots (h : self.Rep n capacity L) (hp : p ∈ L.queue side i) : p ∈ L.slots n side :=
  Layout.mem_slots.mpr ⟨i, h.lt_of_mem hp, hp⟩

theorem mem_allocated (h : self.Rep n capacity L) (hp : p ∈ L.queue side i) :
    p ∈ L.allocated n :=
  Layout.mem_allocated.mpr (.inr ⟨side, h.mem_slots hp⟩)

/-- A slot is queued at one level of one side. -/
theorem queue_unique (h : self.Rep n capacity L) {other : Side} {j : Nat}
    (hp : p ∈ L.queue side i) (hp' : p ∈ L.queue other j) : other = side ∧ j = i := by
  obtain rfl : other = side := (h.live hp').side.symm.trans (h.live hp).side
  exact ⟨rfl, (h.ladder other).level_unique hp hp'⟩

/-- A held slot is on no level. -/
theorem not_queued_of_held (h : self.Rep n capacity L) (hp : p ∈ L.held) :
    ∀ side i, p ∉ L.queue side i := by
  intro side i hq
  have hnodup := (List.nodup_append.mp (List.nodup_append.mp h.pool.nodup).1).2.2
  have hin : p ∈ L.slots n .buy ++ L.slots n .sell :=
    (L.slots_perm n side).symm.subset (List.mem_append_left _ (h.mem_slots hq))
  exact hnodup p hp p hin rfl

/-- A free slot is not allocated. -/
theorem not_allocated_of_free (h : self.Rep n capacity L) (hp : p ∈ L.free) :
    p ∉ L.allocated n := fun hin =>
  (List.nodup_append.mp h.pool.nodup).2.2 p hin p hp rfl

/-- No map entry leads to a free slot. -/
theorem not_mapped_of_free (h : self.Rep n capacity L) (hp : p ∈ L.free) (id : OrderID) :
    self.orderMap.lookup id ≠ some p := fun hid =>
  h.not_allocated_of_free hp (h.map id p hid).2

-- ============================================================================
-- Writes to an order
-- ============================================================================

/-- A fill writes to a queued order. -/
theorem modify_queued (h : self.Rep n capacity L) (hp : p ∈ L.queue side i)
    (hf : Order.Keeps f) (hid : (f (self.heap p)).id = (self.heap p).id)
    (hlive : (f (self.heap p)).Live side i) : (self.modifyOrder p f).Rep n capacity L where
  ladder other := by
    rw [modifyOrder_heap, modifyOrder_ladder]
    refine (h.ladder other).congr (fun j r _ => ?_) fun j r hr hlr => ?_
    · rw [hf.links]
      exact ⟨rfl, rfl⟩
    · by_cases he : r = p
      · subst he
        obtain ⟨rfl, rfl⟩ := h.queue_unique hp hr
        rw [Heap.modify_self]
        exact hlive
      · rw [Heap.modify_of_ne he]
        exact hlr
  pool := by
    refine h.pool.congr rfl rfl (fun r => ?_) (.refl _)
    exact Heap.modify_proj (fun o => o.poolIndex) hf.poolIndex self.heap p r
  map := by
    refine h.map.congr (fun r _ => ?_) (List.Subset.refl _)
    by_cases he : r = p
    · subst he
      rw [modifyOrder_heap, Heap.modify_self, hid]
    · rw [modifyOrder_heap, Heap.modify_of_ne he]

/-- A write to a held order; its id may change when no entry leads to it. -/
theorem modify_held (h : self.Rep n capacity L) (hp : p ∈ L.held) (hf : Order.Keeps f)
    (hid : (f (self.heap p)).id = (self.heap p).id ∨ ∀ id, self.orderMap.lookup id ≠ some p) :
    (self.modifyOrder p f).Rep n capacity L where
  ladder other := by
    rw [modifyOrder_heap, modifyOrder_ladder]
    refine (h.ladder other).congr (fun j r _ => ?_) fun j r hr hlr => ?_
    · rw [hf.links]
      exact ⟨rfl, rfl⟩
    · rw [Heap.modify_of_ne (ne_of_mem_of_not_mem hr (h.not_queued_of_held hp other j))]
      exact hlr
  pool := by
    refine h.pool.congr rfl rfl (fun r => ?_) (.refl _)
    exact Heap.modify_proj (fun o => o.poolIndex) hf.poolIndex self.heap p r
  map := by
    intro id r hr
    obtain ⟨hidr, hmem⟩ := h.map id r hr
    refine ⟨?_, hmem⟩
    by_cases he : r = p
    · subst he
      rw [modifyOrder_heap, Heap.modify_self, ← hidr]
      exact hid.resolve_right fun hno => hno id hr
    · rw [modifyOrder_heap, Heap.modify_of_ne he, hidr]

-- ============================================================================
-- The map
-- ============================================================================

theorem eraseId (h : self.Rep n capacity L) : (self.eraseId id).Rep n capacity L where
  ladder other := by
    rw [eraseId_heap, eraseId_ladder]
    exact h.ladder other
  pool := h.pool
  map := h.map.erase

theorem assignId (h : self.Rep n capacity L) (hid : (self.heap p).id = id)
    (hp : p ∈ L.allocated n) : (self.assignId id p).Rep n capacity L where
  ladder other := by
    rw [assignId_heap, assignId_ladder]
    exact h.ladder other
  pool := h.pool
  map := h.map.insert hid hp

-- ============================================================================
-- The pool
-- ============================================================================

theorem allocate_none (h : self.Rep n capacity L) : self.pool.allocate = none ↔ L.free = [] :=
  h.pool.allocate_none

/-- The next free slot is handed out. -/
theorem allocate (h : self.Rep n capacity L) (hfree : L.free = p :: free) :
    self.pool.allocate = some (p, self.pool.handOut p) ∧
      MatchingEngine.Rep { self with pool := self.pool.handOut p } n capacity
        { L with held := p :: L.held, free } := by
  have hpool := h.pool
  rw [hfree] at hpool
  obtain ⟨halloc, hrep⟩ := hpool.allocate
  have hp : p ∉ L.allocated n :=
    h.not_allocated_of_free (by rw [hfree]; exact List.mem_cons_self ..)
  have hother : ∀ r, r ∈ L.allocated n → (self.pool.handOut p).pool r = self.heap r := by
    intro r hr
    rw [OrderPool.handOut_pool, Heap.modify_of_ne (ne_of_mem_of_not_mem hr hp)]
    rfl
  refine ⟨halloc, ⟨fun other => ?_, hrep, ?_⟩⟩
  · have hladder : MatchingEngine.ladder { self with pool := self.pool.handOut p } other =
        self.ladder other := by cases other <;> rfl
    rw [hladder]
    refine (h.ladder other).congr (fun j r hr => ?_) fun j r hr hlr => ?_
    · exact ⟨congrArg Order.prev (hother r (h.mem_allocated hr)),
        congrArg Order.next (hother r (h.mem_allocated hr))⟩
    · exact hlr.of_core (congrArg Order.core (hother r (h.mem_allocated hr)))
  · exact h.map.congr (fun r hr => congrArg Order.id (hother r hr)) (List.subset_cons_self ..)

/-- A held slot that no entry leads to is given back. -/
theorem deallocate {held : List Slot} (h : self.Rep n capacity L) (hheld : L.held = p :: held)
    (hmap : ∀ id, self.orderMap.lookup id ≠ some p) :
    (self.deallocate p).Rep n capacity { L with held, free := p :: L.free } where
  ladder other := by
    have hp : p ∈ L.held := by rw [hheld]; exact List.mem_cons_self ..
    rw [deallocate_heap, deallocate_ladder]
    refine (h.ladder other).congr (fun j r _ => ?_) fun j r hr hlr => ?_
    · rw [PriceLevelList.links_modify_other _ (by intro o; rfl) (by intro o; rfl)]
      exact ⟨rfl, rfl⟩
    · rw [Heap.modify_of_ne (ne_of_mem_of_not_mem hr (h.not_queued_of_held hp other j))]
      exact hlr
  pool := by
    have hpool := h.pool
    rw [Layout.allocated, hheld] at hpool
    exact hpool.deallocate
  map := by
    intro id r hr
    obtain ⟨hidr, hmem⟩ := h.map id r hr
    have hne : r ≠ p := by
      rintro rfl
      exact hmap id hr
    refine ⟨?_, ?_⟩
    · rw [deallocate_heap, Heap.modify_of_ne hne, hidr]
    · rw [Layout.allocated, hheld] at hmem
      exact (List.mem_cons.mp hmem).resolve_left hne

/-- A slot that was taken off its level leaves the map and goes back to the pool. -/
theorem retire {held : List Slot} (h : self.Rep n capacity L) (hheld : L.held = p :: held) :
    ((self.eraseId (self.heap p).id).deallocate p).Rep n capacity
      { L with held, free := p :: L.free } :=
  h.eraseId.deallocate hheld h.map.erase_not_to

-- ============================================================================
-- The levels
-- ============================================================================

/-- A queued order, perhaps with other fields written first, is taken off its
    level. -/
theorem unlink (h : self.Rep n capacity L) (hq : L.queue side i = xs ++ p :: ys)
    (hf : Order.Keeps f) (hid : ∀ o, (f o).id = o.id) :
    (((self.modifyOrder p f).removeFromLevel side i p).markEmpty side i).Rep n capacity
      { L.setQueue side i (xs ++ ys) with held := p :: L.held } := by
  have hp : p ∈ L.queue side i := by rw [hq]; simp
  have hlist : DList.Rep self.heap.links ((self.ladder side).levels i).ends (xs ++ p :: ys) :=
    hq ▸ (h.ladder side).list i
  obtain ⟨hlinks, hends⟩ :=
    ((self.ladder side).levelAt i).remove_links (self.heap.modify p f) p
  rw [hf.links] at hlinks hends
  have hcore : ∀ r, r ≠ p →
      ((((self.ladder side).levelAt i).remove (self.heap.modify p f) p).2 r).core
        = (self.heap r).core := by
    intro r hr
    rw [PriceLevelList.remove_core, Heap.modify_of_ne hr]
  have hindex : ∀ r,
      ((((self.ladder side).levelAt i).remove (self.heap.modify p f) p).2 r).poolIndex
        = (self.heap r).poolIndex := by
    intro r
    rw [Order.proj_eq Order.poolIndex (fun _ => rfl) (PriceLevelList.remove_core _ _ p r)]
    exact Heap.modify_proj Order.poolIndex hf.poolIndex self.heap p r
  have hids : ∀ r, ((((self.ladder side).levelAt i).remove (self.heap.modify p f) p).2 r).id
      = (self.heap r).id := by
    intro r
    rw [Order.proj_eq Order.id (fun _ => rfl) (PriceLevelList.remove_core _ _ p r)]
    exact Heap.modify_proj Order.id hid self.heap p r
  have hperm : (p :: L.held ++ ((L.setQueue side i (xs ++ ys)).slots n .buy ++
      (L.setQueue side i (xs ++ ys)).slots n .sell)).Perm (L.allocated n) := by
    have hcons := L.slots_setQueue_of_cons (h.lt_of_mem hp) (hq ▸ List.perm_middle)
    exact List.perm_middle.symm.trans (hcons.symm.append_left L.held)
  refine ⟨fun other => ?_, h.pool.congr ?_ ?_ ?_ hperm, ?_⟩
  · rw [markEmpty_heap, markEmpty_ladder, removeFromLevel_ladder, Function.update_self,
      Function.update_idem]
    by_cases hs : other = side
    · subst hs
      rw [Function.update_self]
      show LadderRep _ _ _ _ ((L.setQueue other i (xs ++ ys)).queue other)
      rw [Layout.setQueue_queue]
      exact (h.ladder other).unlink hq hlinks hends (PriceLevelList.remove_size ..)
        fun j r _ hr hlr => hlr.of_core (hcore r hr)
    · rw [Function.update_of_ne hs]
      show LadderRep _ _ _ _ ((L.setQueue side i (xs ++ ys)).queue other)
      rw [Layout.setQueue_queue_of_ne _ _ _ hs]
      refine (h.ladder other).congr (fun j r hr => ?_) fun j r hr hlr => ?_
      · rw [removeFromLevel_heap, modifyOrder_heap, modifyOrder_ladder, hlinks]
        exact hlist.unlink_outside fun hin => hs (h.queue_unique (hq ▸ hin) hr).1
      · refine hlr.of_core (hcore r ?_)
        rintro rfl
        exact hs (h.queue_unique hp hr).1
  · rw [markEmpty_pool, removeFromLevel_pool]
    rfl
  · rw [markEmpty_pool, removeFromLevel_pool]
    rfl
  · rw [markEmpty_pool, removeFromLevel_pool]
    exact hindex
  · rw [markEmpty_heap, removeFromLevel_heap, markEmpty_orderMap, removeFromLevel_orderMap]
    exact h.map.congr (fun r _ => hids r) hperm.symm.subset

/-- A held slot with a live order joins the end of its level. -/
theorem link {held : List Slot} (h : self.Rep n capacity L) (hheld : L.held = p :: held)
    (hi : i < n) (hlive : (self.heap p).Live side i) :
    ((self.pushToLevel side i p).markOccupied side i).Rep n capacity
      { L.setQueue side i (L.queue side i ++ [p]) with held } := by
  have hp : ∀ other j, p ∉ L.queue other j :=
    h.not_queued_of_held (by rw [hheld]; exact List.mem_cons_self ..)
  have hlist := (h.ladder side).list i
  obtain ⟨hlinks, hends⟩ := ((self.ladder side).levelAt i).pushBack_links self.heap p
  have hcore : ∀ r, ((((self.ladder side).levelAt i).pushBack self.heap p).2 r).core
      = (self.heap r).core := fun r => PriceLevelList.pushBack_core _ _ p r
  have hperm : (held ++ ((L.setQueue side i (L.queue side i ++ [p])).slots n .buy ++
      (L.setQueue side i (L.queue side i ++ [p])).slots n .sell)).Perm (L.allocated n) := by
    have hcons := L.slots_setQueue_cons hi (List.perm_append_singleton p (L.queue side i))
    rw [Layout.allocated, hheld]
    exact (hcons.append_left held).trans List.perm_middle
  refine ⟨fun other => ?_, h.pool.congr ?_ ?_ ?_ hperm, ?_⟩
  · rw [markOccupied_heap, markOccupied_ladder, pushToLevel_ladder, Function.update_self,
      Function.update_idem]
    by_cases hs : other = side
    · subst hs
      rw [Function.update_self]
      show LadderRep _ _ _ _ ((L.setQueue other i (L.queue other i ++ [p])).queue other)
      rw [Layout.setQueue_queue]
      exact (h.ladder other).link hi (hp other) hlinks hends (PriceLevelList.pushBack_size ..)
        (fun j r _ _ hlr => hlr.of_core (hcore r)) (hlive.of_core (hcore p))
    · rw [Function.update_of_ne hs]
      show LadderRep _ _ _ _ ((L.setQueue side i (L.queue side i ++ [p])).queue other)
      rw [Layout.setQueue_queue_of_ne _ _ _ hs]
      refine (h.ladder other).congr (fun j r hr => ?_) fun j r hr hlr => hlr.of_core (hcore r)
      rw [pushToLevel_heap, hlinks]
      exact hlist.pushBack_outside (ne_of_mem_of_not_mem hr (hp other j))
        fun hin => hs (h.queue_unique hin hr).1
  · rw [markOccupied_pool, pushToLevel_pool]
  · rw [markOccupied_pool, pushToLevel_pool]
  · rw [markOccupied_pool, pushToLevel_pool]
    intro r
    exact Order.proj_eq Order.poolIndex (fun _ => rfl) (hcore r)
  · rw [markOccupied_heap, pushToLevel_heap, markOccupied_orderMap, pushToLevel_orderMap]
    exact h.map.congr (fun r _ => Order.proj_eq Order.id (fun _ => rfl) (hcore r))
      hperm.symm.subset

end MatchingEngine.Rep

end LimitOrderBook
