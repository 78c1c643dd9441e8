/-
  LimitOrderBook.LevelLists

  Any number of level lists over one heap of orders, and the sequences they
  stand for.

  `push_back` is only given an order that is in no list and `remove` one that is
  in the list.  The orders come with any links: `push_back` writes both links of
  the order it appends.  The lists share the heap, so a call on one of them must
  not write to an order of another, which it does not reach because no order is
  in two lists.
-/
import LimitOrderBook.Order

namespace LimitOrderBook

open Lib

/-- A call on one of the lists. -/
inductive ListCall (ι : Type*) where
  | pushBack (i : ι) (order : Slot)
  | remove (i : ι) (order : Slot)

/-- Lists over one heap of orders. -/
structure LevelLists (ι : Type*) where
  heap : Heap
  lists : ι → PriceLevelList

namespace ListCall

variable {ι : Type*}

/-- The list that the call is on. -/
def list : ListCall ι → ι
  | .pushBack i _ => i
  | .remove i _ => i

def order : ListCall ι → Slot
  | .pushBack _ p => p
  | .remove _ p => p

/-- The call is given an order that it may be given. -/
def Admitted (seqs : ι → List Slot) : ListCall ι → Prop
  | .pushBack _ p => ∀ j, p ∉ seqs j
  | .remove i p => p ∈ seqs i

/-- The sequence of the call's list while the call's order is in it. -/
def around (seqs : ι → List Slot) : ListCall ι → List Slot
  | .pushBack i p => seqs i ++ [p]
  | .remove i _ => seqs i

variable [DecidableEq ι]

/-- What the call does to the sequences. -/
def advance (seqs : ι → List Slot) : ListCall ι → ι → List Slot
  | .pushBack i p => Function.update seqs i (seqs i ++ [p])
  | .remove i p => Function.update seqs i ((seqs i).erase p)

/-- Every call is admitted by the sequences that the calls before it leave. -/
def AllAdmitted : (ι → List Slot) → List (ListCall ι) → Prop
  | _, [] => True
  | seqs, c :: cs => c.Admitted seqs ∧ AllAdmitted (c.advance seqs) cs

end ListCall

/-- `q` stands next to `p`. -/
def Neighbours (seq : List Slot) (p q : Slot) : Prop :=
  ∃ xs ys, seq = xs ++ q :: p :: ys ∨ seq = xs ++ p :: q :: ys

/-- An order is its links and the rest of it. -/
theorem Order.eq_of_core_links {o o' : Order} (hcore : o.core = o'.core) (hprev : o.prev = o'.prev)
    (hnext : o.next = o'.next) : o = o' := by
  cases o
  cases o'
  simp_all [Order.core]

namespace LevelLists

variable {ι : Type*}

/-- What a reader of the lists sees is these sequences. -/
structure Shows (s : LevelLists ι) (seqs : ι → List Slot) : Prop where
  forward : ∀ i fuel, (seqs i).length ≤ fuel → (s.lists i).forEach s.heap fuel = some (seqs i)
  backward : ∀ i fuel, (seqs i).length ≤ fuel →
    DList.walk (fun p => (s.heap p).prev) fuel (s.lists i).back = some (seqs i).reverse
  size : ∀ i, (s.lists i).size = (seqs i).length
  empty : ∀ i, (s.lists i).empty = true ↔ seqs i = []

/-- What a call writes. -/
structure Writes (s : LevelLists ι) (c : ListCall ι) (seqs : ι → List Slot) (t : LevelLists ι) :
    Prop where
  /-- The order that a call takes out has null links. -/
  removed : ∀ i p, c = .remove i p → (t.heap p).prev = none ∧ (t.heap p).next = none
  /-- The other lists stay as they are. -/
  lists : ∀ j, j ≠ c.list → t.lists j = s.lists j
  /-- So do the orders other than the call's and its neighbours. -/
  orders : ∀ q, q ≠ c.order → ¬ Neighbours (c.around seqs) c.order q → t.heap q = s.heap q
  /-- Of every order only the links are written. -/
  core : ∀ q, (t.heap q).core = (s.heap q).core

/-- Every list is its sequence, linked both ways, and no order is in two. -/
structure Rep (s : LevelLists ι) (seqs : ι → List Slot) : Prop where
  list : ∀ i, DList.Rep s.heap.links (s.lists i).ends (seqs i)
  size : ∀ i, (s.lists i).size = (seqs i).length
  disjoint : ∀ i j p, p ∈ seqs i → p ∈ seqs j → i = j

/-- Both traversals, the size and the emptiness of a list are those of its sequence. -/
theorem Rep.shows {s : LevelLists ι} {seqs : ι → List Slot} (h : s.Rep seqs) : s.Shows seqs where
  forward i fuel hfuel := (h.list i).walk hfuel
  backward i fuel hfuel := by
    have htail : (s.lists i).back = (seqs i).getLast? := (h.list i).tail
    rw [htail]
    exact DList.walk_prev_of_seg (h.list i).seg hfuel
  size := h.size
  empty i := by
    rw [← (h.list i).head_isNone]
    exact Option.isNone_iff_eq_none

/-- Empty lists over any heap. -/
theorem Rep.start (heap : Heap) : Rep (⟨heap, fun _ => {}⟩ : LevelLists ι) fun _ => [] :=
  ⟨fun _ => DList.Rep.nil, fun _ => rfl, fun _ _ _ hp => absurd hp (by simp)⟩

variable [DecidableEq ι]

/-- Write a list and the heap back. -/
def store (s : LevelLists ι) (i : ι) (written : PriceLevelList × Heap) : LevelLists ι where
  heap := written.2
  lists := Function.update s.lists i written.1

@[simp] theorem store_heap (s : LevelLists ι) (i : ι) (written : PriceLevelList × Heap) :
    (s.store i written).heap = written.2 := rfl

@[simp] theorem store_lists (s : LevelLists ι) (i : ι) (written : PriceLevelList × Heap) :
    (s.store i written).lists = Function.update s.lists i written.1 := rfl

def step (s : LevelLists ι) : ListCall ι → LevelLists ι
  | .pushBack i p => s.store i ((s.lists i).pushBack s.heap p)
  | .remove i p => s.store i ((s.lists i).remove s.heap p)

def run (s : LevelLists ι) (cs : List (ListCall ι)) : LevelLists ι := cs.foldl step s

/-- The sequences after the calls. -/
def sequences (seqs : ι → List Slot) (cs : List (ListCall ι)) : ι → List Slot :=
  cs.foldl (fun seqs c => c.advance seqs) seqs

section

variable {s : LevelLists ι} {seqs : ι → List Slot} {i : ι} {p : Slot}

/-- A new list in the place of one, over a heap in which the other lists are
    linked as before. -/
theorem Rep.store (h : s.Rep seqs) {written : PriceLevelList × Heap} {xs : List Slot}
    (hlist : DList.Rep written.2.links written.1.ends xs) (hsize : written.1.size = xs.length)
    (hothers : ∀ j, j ≠ i → ∀ r ∈ seqs j, written.2.links.prev r = s.heap.links.prev r ∧
      written.2.links.next r = s.heap.links.next r)
    (hdisjoint : ∀ j, j ≠ i → ∀ r ∈ seqs j, r ∉ xs) :
    (s.store i written).Rep (Function.update seqs i xs) := by
  refine ⟨?_, ?_, ?_⟩
  · intro j
    by_cases hj : j = i
    · subst hj
      rw [store_lists, Function.update_self, Function.update_self]
      exact hlist
    · rw [store_lists, Function.update_of_ne hj, Function.update_of_ne hj]
      exact (h.list j).congr (hothers j hj)
  · intro j
    by_cases hj : j = i
    · subst hj
      rw [store_lists, Function.update_self, Function.update_self]
      exact hsize
    · rw [store_lists, Function.update_of_ne hj, Function.update_of_ne hj]
      exact h.size j
  · intro j k r hrj hrk
    by_cases hj : j = i <;> by_cases hk : k = i
    · rw [hj, hk]
    · rw [hj, Function.update_self] at hrj
      rw [Function.update_of_ne hk] at hrk
      exact absurd hrj (hdisjoint k hk r hrk)
    · rw [Function.update_of_ne hj] at hrj
      rw [hk, Function.update_self] at hrk
      exact absurd hrk (hdisjoint j hj r hrj)
    · rw [Function.update_of_ne hj] at hrj
      rw [Function.update_of_ne hk] at hrk
      exact h.disjoint j k r hrj hrk

-- ============================================================================
-- `push_back`
-- ============================================================================

theorem Rep.pushBack (h : s.Rep seqs) (hp : ∀ j, p ∉ seqs j) :
    (s.step (.pushBack i p)).Rep ((ListCall.pushBack i p).advance seqs) := by
  obtain ⟨hlinks, hends⟩ := PriceLevelList.pushBack_links (s.lists i) s.heap p
  apply h.store
  · rw [hlinks, hends]
    exact (h.list i).pushBack (hp i)
  · rw [PriceLevelList.pushBack_size, h.size, List.length_append, List.length_singleton]
  · intro j hj r hr
    rw [hlinks]
    apply (h.list i).pushBack_outside
    · exact ne_of_mem_of_not_mem hr (hp j)
    · exact fun hin => hj (h.disjoint j i r hr hin)
  · intro j hj r hr hin
    rcases List.mem_append.mp hin with hin | hin
    · exact hj (h.disjoint j i r hr hin)
    · exact hp j (List.mem_singleton.mp hin ▸ hr)

theorem Rep.pushBack_writes (h : s.Rep seqs) :
    s.Writes (.pushBack i p) seqs (s.step (.pushBack i p)) where
  removed j r hcall := by cases hcall
  lists j hj := Function.update_of_ne hj ..
  orders q hq hnot := by
    obtain ⟨hlinks, -⟩ := PriceLevelList.pushBack_links (s.lists i) s.heap p
    have htail : (s.lists i).ends.tail ≠ some q := by
      rw [(h.list i).tail]
      intro hlast
      obtain ⟨xs, hxs⟩ := List.getLast?_eq_some_iff.mp hlast
      apply hnot
      exact ⟨xs, [], .inl (by simp [ListCall.around, ListCall.order, hxs])⟩
    have hframe := @DList.pushBack_frame _ _ s.heap.links _ _ _ hq htail
    rw [ListCall.order, ← hlinks] at hframe
    exact Order.eq_of_core_links (PriceLevelList.pushBack_core ..) hframe.1 hframe.2
  core q := PriceLevelList.pushBack_core ..

-- ============================================================================
-- `remove`
-- ============================================================================

theorem Rep.remove (h : s.Rep seqs) (hp : p ∈ seqs i) :
    (s.step (.remove i p)).Rep ((ListCall.remove i p).advance seqs) := by
  obtain ⟨hlinks, hends⟩ := PriceLevelList.remove_links (s.lists i) s.heap p
  obtain ⟨xs, ys, hseq⟩ := List.append_of_mem hp
  have hlist : DList.Rep s.heap.links (s.lists i).ends (xs ++ p :: ys) := hseq ▸ h.list i
  have hpxs : p ∉ xs := by
    have hmid := (List.nodup_cons.mp (List.nodup_middle.mp hlist.nodup)).1
    exact fun hin => hmid (List.mem_append_left _ hin)
  have herase : (seqs i).erase p = xs ++ ys := by
    rw [hseq, List.erase_append_right _ hpxs, List.erase_cons_head]
  rw [ListCall.advance, herase]
  apply h.store
  · rw [hlinks, hends]
    exact hlist.unlink
  · rw [PriceLevelList.remove_size, h.size, hseq]
    simp
  · intro j hj r hr
    rw [hlinks]
    apply hlist.unlink_outside
    rw [← hseq]
    exact fun hin => hj (h.disjoint j i r hr hin)
  · intro j hj r hr hin
    apply hj
    apply h.disjoint j i r hr
    rw [hseq]
    simp only [List.mem_append, List.mem_cons] at hin ⊢
    exact hin.imp_right .inr

theorem Rep.remove_writes (h : s.Rep seqs) (hp : p ∈ seqs i) :
    s.Writes (.remove i p) seqs (s.step (.remove i p)) where
  removed j r hcall := by
    obtain ⟨rfl, rfl⟩ := ListCall.remove.inj hcall
    obtain ⟨hlinks, -⟩ := PriceLevelList.remove_links (s.lists i) s.heap p
    have hnull := @DList.unlink_self _ _ s.heap.links (s.lists i).ends p
    rw [← hlinks] at hnull
    exact hnull
  lists j hj := Function.update_of_ne hj ..
  orders q hq hnot := by
    obtain ⟨hlinks, -⟩ := PriceLevelList.remove_links (s.lists i) s.heap p
    obtain ⟨xs, ys, hseq⟩ := List.append_of_mem hp
    obtain ⟨hprev, hnext⟩ := DList.seg_middle (hseq ▸ (h.list i).seg)
    have hbefore : s.heap.links.prev p ≠ some q := by
      rw [hprev]
      intro hlast
      obtain ⟨zs, hzs⟩ := List.getLast?_eq_some_iff.mp hlast
      apply hnot
      exact ⟨zs, ys, .inl (by simp [ListCall.around, ListCall.order, hseq, hzs])⟩
    have hafter : s.heap.links.next p ≠ some q := by
      rw [hnext]
      intro hhead
      obtain ⟨zs, hzs⟩ := List.head?_eq_some_iff.mp hhead
      apply hnot
      exact ⟨xs, zs, .inr (by simp [ListCall.around, ListCall.order, hseq, hzs])⟩
    have hframe := @DList.unlink_frame _ _ s.heap.links (s.lists i).ends _ _ hq hbefore hafter
    rw [ListCall.order, ← hlinks] at hframe
    exact Order.eq_of_core_links (PriceLevelList.remove_core ..) hframe.1 hframe.2
  core q := PriceLevelList.remove_core ..

end

-- ============================================================================
-- Runs
-- ============================================================================

section

variable {s : LevelLists ι} {seqs : ι → List Slot}

theorem Rep.step (h : s.Rep seqs) {c : ListCall ι} (hc : c.Admitted seqs) :
    (s.step c).Rep (c.advance seqs) ∧ s.Writes c seqs (s.step c) := by
  cases c with
  | pushBack i p => exact ⟨h.pushBack hc, h.pushBack_writes⟩
  | remove i p => exact ⟨h.remove hc, h.remove_writes hc⟩

theorem Rep.run {cs : List (ListCall ι)} (h : s.Rep seqs) (hcs : ListCall.AllAdmitted seqs cs) :
    (s.run cs).Rep (sequences seqs cs) := by
  induction cs generalizing s seqs with
  | nil => exact h
  | cons c cs ih => exact ih (h.step hcs.1).1 hcs.2

end

/-- Lists that start empty show the sequences of their calls after every admitted
    run, and the next call writes only its order and the neighbours of it. -/
theorem run_shows (heap : Heap) (cs : List (ListCall ι))
    (hcs : ListCall.AllAdmitted (fun _ => []) cs) :
    (run ⟨heap, fun _ => {}⟩ cs).Shows (sequences (fun _ => []) cs) ∧
    ∀ c : ListCall ι, c.Admitted (sequences (fun _ => []) cs) →
      (run ⟨heap, fun _ => {}⟩ cs).Writes c (sequences (fun _ => []) cs)
        ((run ⟨heap, fun _ => {}⟩ cs).step c) := by
  have hrep := (Rep.start heap).run hcs
  exact ⟨hrep.shows, fun c hc => (hrep.step hc).2⟩

/-- Two lists: three orders go to the first, its middle one is taken out and goes
    to the second. -/
def moved : List (ListCall Bool) :=
  [.pushBack true 7, .pushBack true 4, .pushBack true 9, .remove true 4, .pushBack false 4]

theorem moved_shows :
    (run ⟨fun _ => {}, fun _ => {}⟩ moved).Shows (sequences (fun _ => []) moved) ∧
    ∀ c : ListCall Bool, c.Admitted (sequences (fun _ => []) moved) →
      (run ⟨fun _ => {}, fun _ => {}⟩ moved).Writes c (sequences (fun _ => []) moved)
        ((run ⟨fun _ => {}, fun _ => {}⟩ moved).step c) :=
  run_shows _ moved (by simp [moved, ListCall.AllAdmitted, ListCall.Admitted, ListCall.advance])

end LevelLists

end LimitOrderBook
