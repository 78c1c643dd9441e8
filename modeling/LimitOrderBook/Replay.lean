/-
  LimitOrderBook.Replay

  What can be seen of an engine is a function of its book.

  A sound engine answers a run as its book does (`Sound.run_book`), so two
  engines with the same book have the same future, whatever slots their orders
  are in.  The ids in the map and the calls that find the pool empty can be told
  from the book as well.
-/
import LimitOrderBook.Differential

namespace LimitOrderBook

open Lib MatchingEngine

namespace Book

/-- A run of the book. -/
def run (room : Nat → Bool) : Book → List Command → Book × List MatchEvent
  | B, [] => (B, [])
  | B, c :: cs =>
      let r := B.step room c
      let s := run room r.1 cs
      (s.1, r.2 :: s.2)

section

variable {room : Nat → Bool} {B : Book} {c : Command} {cs ds : List Command}

theorem run_append : B.run room (cs ++ ds) =
    (((B.run room cs).1.run room ds).1,
      (B.run room cs).2 ++ ((B.run room cs).1.run room ds).2) := by
  induction cs generalizing B with
  | nil => rfl
  | cons c cs ih =>
      rw [List.cons_append, run, run, ih]
      rfl

theorem run_length : (B.run room cs).2.length = cs.length := by
  induction cs generalizing B with
  | nil => rfl
  | cons c cs ih =>
      rw [run, List.length_cons, List.length_cons, ih]

theorem run_sorted (h : B.Sorted) : (B.run room cs).1.Sorted := by
  induction cs generalizing B with
  | nil => exact h
  | cons c cs ih => exact ih (step_sorted room c h)

/-- A Limit order that takes nothing and finds room rests whole. -/
theorem process_of_taken_nil {order : IncomingOrder} (hv : validateOrder order = true)
    (hlimit : order.type = .limit) (htaken : (B.sweep order order.quantity).taken = [])
    (hroom : room B.size = true) : B.process room order =
      (B.rest order order.quantity,
        { reports := [takerReport order .resting 0 order.quantity] }) := by
  obtain ⟨hpos, -, -⟩ := validateOrder_pos hv
  have hz : ¬ order.quantity = 0 := by omega
  have hm := matched_of_taken_nil (Supply.sweep_of_taken_nil htaken)
  simp [process, hv, hm, hlimit, hz, hroom]

end

end Book

namespace MatchingEngine

section

variable {self : MatchingEngine} {n capacity : Nat} {L : Layout} {c : Command}
  {cs : List Command}

/-- The ids in the map are those that lead to an entry of the book. -/
theorem Sound.mem_orderMap (h : self.Sound n capacity L) (id : OrderID) :
    (self.orderMap.lookup id).isSome = true ↔
      ∃ side, ∃ e ∈ self.book.side side, e.isTarget id = true := by
  constructor
  · intro hsome
    obtain ⟨p, hp⟩ := Option.isSome_iff_exists.mp hsome
    obtain ⟨side, i, xs, ys, hq⟩ := h.queued hp
    refine ⟨side, self.entry p, ?_, (isTarget_entry_iff h.map hp p).mpr rfl⟩
    rw [h.book_side]
    exact List.mem_map_of_mem (h.mem_slots (by rw [hq]; simp))
  · rintro ⟨side, e, he, htarget⟩
    rw [h.book_side] at he
    obtain ⟨p, -, rfl⟩ := List.mem_map.mp he
    rw [isTarget_entry h.map, decide_eq_true_eq] at htarget
    rw [htarget]
    rfl

/-- Two engines with the same book have the same ids in their maps. -/
theorem Sound.orderMap_congr {other : MatchingEngine} {L' : Layout}
    (h : self.Sound n capacity L) (h' : other.Sound n capacity L') (hbook : self.book = other.book)
    (id : OrderID) :
    (self.orderMap.lookup id).isSome = (other.orderMap.lookup id).isSome := by
  rw [Bool.eq_iff_iff, h.mem_orderMap, h'.mem_orderMap, hbook]

/-- A sound engine answers a run as its book does. -/
theorem Sound.run_book (h : self.Sound n capacity L) (hcs : ∀ c ∈ cs, c.LimitBelow n) :
    ∃ engine events, self.run cs = some (engine, events) ∧ (∃ L', engine.Sound n capacity L') ∧
      self.book.run (roomIn capacity) cs = (engine.book, events) := by
  induction cs generalizing self L with
  | nil => exact ⟨self, [], rfl, ⟨L, h⟩, rfl⟩
  | cons c cs ih =>
      obtain ⟨engine, event, L', hstep, hs, hbook, -⟩ := step_spec h (hcs c (List.mem_cons_self ..))
      obtain ⟨engine', events, hrun, hs', hbook'⟩ :=
        ih hs fun d hd => hcs d (List.mem_cons_of_mem _ hd)
      refine ⟨engine', event :: events, exec_cons hstep hrun, hs', ?_⟩
      rw [Book.run, show self.book.step (roomIn capacity) c = (engine.book, event) from hbook,
        hbook']

/-- The pool runs out nowhere in a run: no call of the book's run lacks room. -/
theorem Sound.room_along (h : self.Sound n capacity L) (hcs : ∀ c ∈ cs, c.LimitBelow n)
    (hroom : Along MatchingEngine.step (fun s c => s.runsOut c = false) self cs)
    (pre : List Command) (d : Command) (post : List Command) (hsplit : cs = pre ++ d :: post) :
    (self.book.run (roomIn capacity) pre).1.lacksRoom (roomIn capacity) d = false := by
  have hpre : ∀ c ∈ pre, c.LimitBelow n := fun c hc => hcs c (by rw [hsplit]; simp [hc])
  obtain ⟨engine, events, hrun, ⟨L', hs⟩, hbook⟩ := h.run_book hpre
  rw [hbook, ← hs.runsOut_eq]
  exact hroom pre d post hsplit engine events hrun

end

end MatchingEngine

end LimitOrderBook
