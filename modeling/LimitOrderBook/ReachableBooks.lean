/-
  LimitOrderBook.ReachableBooks

  Which books an engine can have.

  `Attainable` lists what is known of the book after a run in which every accepted id
  is submitted once.  Nothing is missing from the list: every attainable book is built,
  order by order, with Limit orders alone.  The order to submit last is the last one of
  a best price; if it was filled in part, it has that price for itself, and an order of
  the other side that it fills is submitted just before it.
-/
import LimitOrderBook.PartialFills
import LimitOrderBook.Lifecycle
import LimitOrderBook.Replay

namespace LimitOrderBook

open Lib MatchingEngine

/-- The fields are values of their types. -/
structure IncomingOrder.Fits (x : IncomingOrder) : Prop where
  id : x.id < 2 ^ 64
  price : INT64_MIN ≤ x.price ∧ x.price ≤ INT64_MAX
  quantity : INT64_MIN ≤ x.quantity ∧ x.quantity ≤ INT64_MAX
  timestamp : x.timestamp < 2 ^ 64

def Command.Fits : Command → Prop
  | .processOrder order => order.Fits
  | .cancelOrder id => id < 2 ^ 64

/-- What is known of a resting order whose id was submitted once. -/
structure Entry.Attainable (e : Entry) (maxLevels : Int) : Prop where
  id : e.id ≠ 0 ∧ e.id < 2 ^ 64
  price : 0 < e.price ∧ e.price < maxLevels
  remaining : 0 < e.remaining ∧ e.remaining ≤ e.quantity
  quantity : e.quantity ≤ INT64_MAX
  mapped : e.mapped = true

/-- What is known of a book whose ids were submitted once. -/
structure Book.Attainable (B : Book) (maxLevels : Int) (capacity : Nat) : Prop where
  sorted : B.Sorted
  uncrossed : B.Uncrossed
  frontPartial : B.FrontPartial
  entries : ∀ side, ∀ e ∈ B.side side, e.Attainable maxLevels
  ids : ((B.bids ++ B.asks).map Entry.id).Nodup
  size : B.size ≤ OrderPool.usable capacity

/-- A valid Limit order with its price on the ladder. -/
structure IncomingOrder.Placeable (x : IncomingOrder) (maxLevels : Int) : Prop where
  valid : validateOrder x = true
  type : x.type = .limit
  below : x.price < maxLevels
  fits : x.Fits

/-- A list misses one of the numbers up to its length. -/
theorem exists_fresh (used : List Nat) : ∃ k, k ≤ used.length ∧ k ∉ used := by
  by_contra hnone
  push Not at hnone
  have hsub : List.range (used.length + 1) ⊆ used := fun k hk =>
    hnone k (Nat.lt_succ_iff.mp (List.mem_range.mp hk))
  have hlength := (List.nodup_range.subperm hsub).length_le
  rw [List.length_range] at hlength
  omega

namespace Book

section

variable {B : Book} {side : Side} {maxLevels : Int} {capacity : Nat} {room : Nat → Bool}
  {e : Entry} {xs ys : List Entry}

-- ============================================================================
-- Taking out the last order of a best price
-- ============================================================================

/-- The orders of the best price stand in front of the others. -/
theorem exists_best {l : List Entry} (hl : l ≠ [])
    (hsorted : l.Pairwise fun a b => ¬ side.better b.price a.price) :
    ∃ xs e ys, l = xs ++ e :: ys ∧ (∀ x ∈ xs, x.price = e.price) ∧
      ∀ y ∈ ys, side.better e.price y.price := by
  induction l with
  | nil => exact absurd rfl hl
  | cons a l ih =>
      obtain ⟨ha, hrest⟩ := List.pairwise_cons.mp hsorted
      by_cases hnil : l = []
      · subst hnil
        exact ⟨[], a, [], rfl, fun x hx => absurd hx List.not_mem_nil,
          fun y hy => absurd hy List.not_mem_nil⟩
      · obtain ⟨xs, e, ys, rfl, hxs, hys⟩ := ih hnil hrest
        by_cases hbetter : side.better a.price e.price
        · -- the first order has the best price for itself
          refine ⟨[], a, _, rfl, fun x hx => absurd hx List.not_mem_nil, fun y hy => ?_⟩
          rcases List.mem_append.mp hy with hy | hy
          · rw [hxs y hy]
            exact hbetter
          · rcases List.mem_cons.mp hy with rfl | hy
            · exact hbetter
            · exact side.better_trans _ _ _ hbetter (side.better_asymm _ _ (hys y hy))
        · have hprice := Side.eq_of_not_better hbetter (ha e (by simp))
          refine ⟨a :: xs, e, ys, rfl, fun x hx => ?_, hys⟩
          rcases List.mem_cons.mp hx with rfl | hx
          · exact hprice
          · exact hxs x hx

theorem ids_nodup_iff (side : Side) : ((B.bids ++ B.asks).map Entry.id).Nodup ↔
    ((B.side side ++ B.side side.opposite).map Entry.id).Nodup := by
  cases side with
  | buy => rfl
  | sell => exact (List.perm_append_comm.map Entry.id).nodup_iff

/-- A book with fewer orders is attainable as well. -/
theorem Attainable.sublist {B' : Book} (h : B.Attainable maxLevels capacity)
    (hsub : ∀ side, (B'.side side).Sublist (B.side side)) : B'.Attainable maxLevels capacity where
  sorted side := (h.sorted side).sublist ((hsub side).map _)
  uncrossed b hb a ha := h.uncrossed b ((hsub .buy).subset hb) a ((hsub .sell).subset ha)
  frontPartial side := (h.frontPartial side).sublist (hsub side)
  entries side e he := h.entries side e ((hsub side).subset he)
  ids := h.ids.sublist (((hsub .buy).append (hsub .sell)).map _)
  size := (Nat.add_le_add (hsub .buy).length_le (hsub .sell).length_le).trans h.size

theorem Attainable.take (h : B.Attainable maxLevels capacity)
    (hside : B.side side = xs ++ e :: ys) :
    (B.setSide side (xs ++ ys)).Attainable maxLevels capacity := by
  refine h.sublist fun other => ?_
  rcases side.eq_or_eq_opposite other with rfl | rfl
  · rw [setSide_side, hside]
    exact (List.sublist_cons_self e ys).append_left xs
  · rw [setSide_side_opposite]

theorem take_size (hside : B.side side = xs ++ e :: ys) :
    (B.setSide side (xs ++ ys)).size + 1 = B.size := by
  rw [size_eq _ side, size_eq B side, setSide_side, setSide_side_opposite, hside]
  simp only [List.length_append, List.length_cons]
  omega

/-- No other order has the id of the one that is taken out. -/
theorem Attainable.take_absent (h : B.Attainable maxLevels capacity)
    (hside : B.side side = xs ++ e :: ys) :
    ∀ other, ∀ x ∈ (B.setSide side (xs ++ ys)).side other, x.id ≠ e.id := by
  have hnodup := (ids_nodup_iff side).mp h.ids
  rw [hside, List.append_assoc, List.cons_append, List.map_append, List.map_cons] at hnodup
  have hnot := (List.nodup_cons.mp (List.nodup_middle.mp hnodup)).1
  rw [← List.map_append] at hnot
  intro other x hx hid
  refine hnot (List.mem_map.mpr ⟨x, ?_, hid⟩)
  rcases side.eq_or_eq_opposite other with rfl | rfl
  · rw [setSide_side] at hx
    rw [← List.append_assoc]
    exact List.mem_append_left _ hx
  · rw [setSide_side_opposite] at hx
    exact List.mem_append_right _ (List.mem_append_right _ hx)

/-- A map update of an id that no order has. -/
theorem forget_absent {id : OrderID} (h : ∀ side, ∀ e ∈ B.side side, e.id ≠ id) :
    B.forget id = B := by
  refine ext_side fun side => ?_
  rw [forget_side]
  refine (List.map_congr_left fun e he => ?_).trans (List.map_id' _)
  exact if_neg (h side e he)

end

end Book

-- ============================================================================
-- Submitting it again
-- ============================================================================

theorem Side.better_opposite (side : Side) (p q : Int) :
    side.opposite.better p q ↔ side.better q p := by
  cases side <;> rfl

/-- The Limit order that an entry comes from. -/
def Entry.order (e : Entry) (side : Side) : IncomingOrder :=
  { id := e.id, side, type := .limit, price := e.price, quantity := e.quantity, timestamp := 0 }

theorem Entry.order_entry {e : Entry} (side : Side) (h : e.mapped = true) :
    (e.order side).entry e.remaining = e := by
  rw [IncomingOrder.entry, ← h]
  rfl

theorem Entry.Attainable.placeable {e : Entry} {maxLevels : Int} (h : e.Attainable maxLevels)
    (hlevels : maxLevels ≤ INT64_MAX) (side : Side) : (e.order side).Placeable maxLevels where
  valid := by
    have hprice := h.price.1
    have hquantity := h.remaining.1.trans_le h.remaining.2
    rw [validateOrder, if_neg (by exact Int.not_le.mpr hquantity),
      if_neg (fun hc => absurd hc.1 (Int.not_le.mpr hprice)), if_neg (by exact h.id.1)]
  type := rfl
  below := h.price.2
  fits := by
    have hmin : INT64_MIN ≤ 0 := by decide
    have hquantity := h.remaining.1.trans_le h.remaining.2
    refine ⟨h.id.2, ⟨?_, ?_⟩, ⟨?_, h.quantity⟩, Nat.two_pow_pos 64⟩
    · exact hmin.trans (Int.le_of_lt h.price.1)
    · exact (Int.le_of_lt h.price.2).trans hlevels
    · exact hmin.trans (Int.le_of_lt hquantity)

/-- The submissions of some orders. -/
def submitAll (orders : List IncomingOrder) : List Command := orders.map .processOrder

namespace Book

section

variable {B : Book} {side : Side} {maxLevels : Int} {capacity : Nat} {room : Nat → Bool}
  {e : Entry} {xs ys : List Entry} {order : IncomingOrder} {left : Int}

/-- An order of a fresh id rests behind its price. -/
theorem rest_behind (habsent : ∀ side, ∀ x ∈ B.side side, x.id ≠ order.id)
    (hside : B.side order.side = xs ++ ys) (hxs : ∀ x ∈ xs, x.price = order.price)
    (hys : ∀ y ∈ ys, order.side.better order.price y.price) :
    B.rest order left = B.setSide order.side (xs ++ order.entry left :: ys) := by
  rw [rest, forget_absent habsent, hside, Buckets.orderedInsert_append]
  · rfl
  · intro x hx hbetter
    rw [hxs x hx] at hbetter
    exact order.side.better_asymm _ _ hbetter hbetter
  · exact hys

/-- The order that was taken out fills its place. -/
theorem Attainable.rest_take (h : B.Attainable maxLevels capacity)
    (hside : B.side side = xs ++ e :: ys) (hxs : ∀ x ∈ xs, x.price = e.price)
    (hys : ∀ y ∈ ys, side.better e.price y.price) :
    (B.setSide side (xs ++ ys)).rest (e.order side) e.remaining = B := by
  have he := h.entries side e (by rw [hside]; simp)
  rw [@rest_behind _ xs ys (e.order side) _ (h.take_absent hside) (setSide_side ..) hxs hys,
    Entry.order_entry side he.mapped]
  show (B.setSide side (xs ++ ys)).setSide side (xs ++ e :: ys) = B
  rw [setSide_setSide, ← hside, setSide_self]

/-- It does not cross the other side. -/
theorem Attainable.take_uncrossed (h : B.Attainable maxLevels capacity)
    (hside : B.side side = xs ++ e :: ys) :
    ∀ x ∈ (B.setSide side (xs ++ ys)).side side.opposite,
      (e.order side).crosses x.price = false := by
  intro x hx
  rw [setSide_side_opposite] at hx
  refine @crosses_of_beyond (e.order side) x.price (by exact OrderType.noConfusion) ?_
  exact (uncrossed_iff side).mp h.uncrossed e.price (List.mem_map_of_mem (by rw [hside]; simp))
    x.price (List.mem_map_of_mem hx)

/-- Submit the order that was taken out, if it is untouched. -/
theorem Attainable.place_whole (h : B.Attainable maxLevels capacity)
    (hside : B.side side = xs ++ e :: ys) (hxs : ∀ x ∈ xs, x.price = e.price)
    (hys : ∀ y ∈ ys, side.better e.price y.price)
    (hroom : room (B.setSide side (xs ++ ys)).size = true)
    (hlevels : maxLevels ≤ INT64_MAX) (hwhole : e.remaining = e.quantity) :
    ((B.setSide side (xs ++ ys)).process room (e.order side)).1 = B := by
  have he := h.entries side e (by rw [hside]; simp)
  have htaken := congrArg Supply.Swept.taken (@Supply.sweep_unwanted _ Entry.supply
    (fun x => (e.order side).crosses x.price) (e.order side).quantity _ (h.take_uncrossed hside))
  rw [process_of_taken_nil (he.placeable hlevels side).valid rfl htaken hroom]
  have hrest := h.rest_take hside hxs hys
  rw [hwhole] at hrest
  exact hrest

/-- An order that matching leaves something of rests in the book of its matching. -/
theorem process_rests {m : Matched} (hv : validateOrder order = true) (hlimit : order.type = .limit)
    (hm : B.matched order order.quantity = m) (hleft : m.left ≠ 0)
    (hroom : room m.book.size = true) : (B.process room order).1 = m.book.rest order m.left := by
  simp only [process, hv, hm, Bool.not_true, Bool.false_eq_true, if_false, hleft, hlimit, hroom,
    and_self, if_true]

/-- The order that fills a part of an entry before it rests. -/
def counter (e : Entry) (k : OrderID) : Entry :=
  { id := k, price := e.price, quantity := e.quantity - e.remaining,
    remaining := e.quantity - e.remaining, mapped := true }

theorem counter_attainable (he : e.Attainable maxLevels) (hlt : e.remaining < e.quantity)
    {k : OrderID} (hk : k ≠ 0 ∧ k < 2 ^ 64) : (counter e k).Attainable maxLevels where
  id := hk
  price := he.price
  remaining := ⟨Int.sub_pos_of_lt hlt, Int.le_refl _⟩
  quantity := by
    have hmax := he.quantity
    have hpos := he.remaining.1
    show e.quantity - e.remaining ≤ INT64_MAX
    omega
  mapped := rfl

/-- With the best price of its side taken out, it rests. -/
theorem place_counter {k : OrderID} (hv : validateOrder ((counter e k).order side.opposite) = true)
    (habsent : ∀ side, ∀ x ∈ B.side side, x.id ≠ k)
    (hys : ∀ y ∈ B.side side, side.better e.price y.price)
    (hopposite : ∀ y ∈ B.side side.opposite, side.better y.price e.price)
    (hroom : room B.size = true) :
    (B.process room ((counter e k).order side.opposite)).1 =
      B.setSide side.opposite (counter e k :: B.side side.opposite) := by
  have hcross : ∀ y ∈ B.side side, ((counter e k).order side.opposite).crosses y.price = false :=
    fun y hy => crosses_of_beyond (by exact OrderType.noConfusion)
      ((Side.better_opposite ..).mpr (hys y hy))
  have htaken : (B.sweep ((counter e k).order side.opposite)
      ((counter e k).order side.opposite).quantity).taken = [] := by
    rw [sweep, show ((counter e k).order side.opposite).side.opposite = side from
      side.opposite_opposite, Supply.sweep_unwanted hcross]
  rw [process_of_taken_nil hv rfl htaken hroom]
  exact @rest_behind B [] (B.side side.opposite) ((counter e k).order side.opposite) _ habsent rfl
    (fun x hx => absurd hx List.not_mem_nil)
    fun y hy => (Side.better_opposite ..).mpr (hopposite y hy)

/-- The order fills the counter order and is left with what the entry holds. -/
theorem matched_counter {k : OrderID} (hremaining : 0 < e.remaining)
    (hlt : e.remaining < e.quantity) (habsent : ∀ side, ∀ x ∈ B.side side, x.id ≠ k)
    (hbeyond : ∀ x ∈ B.side side.opposite, (e.order side).crosses x.price = false) :
    ∃ trades reports, (B.setSide side.opposite (counter e k :: B.side side.opposite)).matched
      (e.order side) e.quantity = ⟨B, trades, reports, e.remaining⟩ := by
  have hcross : (e.order side).crosses (counter e k).price = true := by
    cases side <;> simp [IncomingOrder.crosses, Entry.order, counter]
  have hrest : B.matched (e.order side) (e.quantity - (counter e k).remaining) =
      ⟨B, [], [], e.remaining⟩ := by
    rw [show e.quantity - (counter e k).remaining = e.remaining from Int.sub_sub_self ..]
    exact matched_of_taken_nil (Supply.sweep_unwanted hbeyond)
  have hwhole := @matched_whole (B.setSide side.opposite (counter e k :: B.side side.opposite))
    (e.order side) e.quantity (counter e k) (B.side side.opposite) (setSide_side ..)
    (hremaining.trans hlt) hcross (Int.sub_le_self _ (Int.le_of_lt hremaining))
  rw [show (e.order side).side.opposite = side.opposite from rfl, setSide_setSide, setSide_self,
    @forget_absent B (counter e k).id habsent, hrest] at hwhole
  exact ⟨_, _, hwhole⟩

/-- The order that was taken out fills the counter order and rests with the remainder. -/
theorem Attainable.place_part (h : B.Attainable maxLevels capacity)
    (hside : B.side side = e :: ys) (hys : ∀ y ∈ ys, side.better e.price y.price)
    (hroom : room (B.setSide side ys).size = true) (hlevels : maxLevels ≤ INT64_MAX)
    (hlt : e.remaining < e.quantity) {k : OrderID} (hk : k ≠ 0 ∧ k < 2 ^ 64)
    (hfresh : ∀ side, ∀ x ∈ B.side side, x.id ≠ k) :
    (((B.setSide side ys).process room ((counter e k).order side.opposite)).1.process room
      (e.order side)).1 = B := by
  have he := h.entries side e (by rw [hside]; exact List.mem_cons_self ..)
  have hsub : ∀ other, ∀ x ∈ (B.setSide side ys).side other, x ∈ B.side other := by
    intro other x hx
    rcases side.eq_or_eq_opposite other with rfl | rfl
    · rw [setSide_side] at hx
      rw [hside]
      exact List.mem_cons_of_mem _ hx
    · rwa [setSide_side_opposite] at hx
  have habsent : ∀ side', ∀ x ∈ (B.setSide side ys).side side', x.id ≠ k :=
    fun other x hx => hfresh other x (hsub other x hx)
  have hbeyond := @Attainable.take_uncrossed B side maxLevels capacity e [] ys h hside
  rw [List.nil_append] at hbeyond
  have hcounter := (counter_attainable he hlt hk).placeable hlevels side.opposite
  rw [place_counter hcounter.valid habsent (by rw [setSide_side]; exact hys) ?_ hroom]
  · obtain ⟨trades, reports, hm⟩ := matched_counter he.remaining.1 hlt habsent hbeyond
    rw [process_rests (he.placeable hlevels side).valid rfl hm (Int.ne_of_gt he.remaining.1) hroom]
    exact @Attainable.rest_take B side maxLevels capacity e [] ys h hside
      (fun x hx => absurd hx List.not_mem_nil) hys
  · intro y hy
    rw [setSide_side_opposite] at hy
    exact (uncrossed_iff side).mp h.uncrossed e.price
      (List.mem_map_of_mem (by rw [hside]; exact List.mem_cons_self ..)) y.price
      (List.mem_map_of_mem hy)

-- ============================================================================
-- Building a book
-- ============================================================================

/-- From the book without it, at most two orders bring the last order of a best price. -/
theorem Attainable.place (h : B.Attainable maxLevels capacity)
    (hside : B.side side = xs ++ e :: ys) (hxs : ∀ x ∈ xs, x.price = e.price)
    (hys : ∀ y ∈ ys, side.better e.price y.price)
    (hroom : room (B.setSide side (xs ++ ys)).size = true) (hlevels : maxLevels ≤ INT64_MAX)
    {k : OrderID} (hk : k ≠ 0 ∧ k < 2 ^ 64) (hfresh : ∀ side, ∀ x ∈ B.side side, x.id ≠ k) :
    ∃ orders : List IncomingOrder,
      (∀ x ∈ orders, x.Placeable maxLevels ∧ (x.id = k ∨ x.id = e.id)) ∧
      (orders.map IncomingOrder.id).Nodup ∧ orders.length ≤ 2 ∧
      ((B.setSide side (xs ++ ys)).run room (submitAll orders)).1 = B := by
  have hmem : e ∈ B.side side := by rw [hside]; simp
  have he := h.entries side e hmem
  have hplace := he.placeable hlevels side
  by_cases hwhole : e.remaining = e.quantity
  · refine ⟨[e.order side], ?_, List.nodup_singleton _, Nat.le_succ 1, ?_⟩
    · intro x hx
      rw [List.mem_singleton.mp hx]
      exact ⟨hplace, .inr rfl⟩
    · exact h.place_whole hside hxs hys hroom hlevels hwhole
  · -- an order that was filled in part has its price for itself
    have hfirst : xs = [] := by
      refine List.eq_nil_iff_forall_not_mem.mpr fun x hx => hwhole ?_
      have hpair := h.frontPartial side
      rw [hside] at hpair
      exact (List.pairwise_append.mp hpair).2.2 x hx e (List.mem_cons_self ..) (hxs x hx)
    subst hfirst
    have hlt := lt_of_le_of_ne he.remaining.2 hwhole
    have hcounter := (counter_attainable he hlt hk).placeable hlevels side.opposite
    refine ⟨[(counter e k).order side.opposite, e.order side], ?_, ?_, Nat.le_refl 2, ?_⟩
    · intro x hx
      rcases List.mem_pair.mp hx with rfl | rfl
      · exact ⟨hcounter, .inl rfl⟩
      · exact ⟨hplace, .inr rfl⟩
    · refine List.nodup_cons.mpr ⟨?_, List.nodup_singleton _⟩
      exact fun hin => hfresh side e hmem (List.mem_singleton.mp hin).symm
    · exact h.place_part hside hys hroom hlevels hlt hk hfresh

end

section

variable {B : Book} {maxLevels : Int} {capacity : Nat}

/-- The ids on a book. -/
def entryIds (B : Book) : List OrderID := (B.bids ++ B.asks).map Entry.id

theorem mem_entryIds {side : Side} {e : Entry} (he : e ∈ B.side side) : e.id ∈ B.entryIds := by
  refine List.mem_map_of_mem (List.mem_append.mpr ?_)
  cases side
  · exact .inl he
  · exact .inr he

/-- Every attainable book is built by Limit orders, with ids of their own. -/
theorem Attainable.build (h : B.Attainable maxLevels capacity) (hlevels : maxLevels ≤ INT64_MAX)
    (avoid : List OrderID) (havoid : ∀ side, ∀ e ∈ B.side side, e.id ∉ avoid)
    (hfew : avoid.length + 3 * B.size + 2 < 2 ^ 64) :
    ∃ orders : List IncomingOrder, (∀ x ∈ orders, x.Placeable maxLevels ∧ x.id ∉ avoid) ∧
      (orders.map IncomingOrder.id).Nodup ∧ orders.length ≤ 2 * B.size ∧
      (Book.run (roomIn capacity) {} (submitAll orders)).1 = B := by
  induction hn : B.size generalizing B avoid with
  | zero =>
      refine ⟨[], fun x hx => absurd hx List.not_mem_nil, List.nodup_nil, Nat.zero_le _, ?_⟩
      refine ext_side fun side => ?_
      rw [size_eq B side, Nat.add_eq_zero_iff, List.length_eq_zero_iff] at hn
      rw [hn.1]
      cases side <;> rfl
  | succ n ih =>
      obtain ⟨side, hne⟩ : ∃ side, B.side side ≠ [] := by
        by_contra hnone
        push Not at hnone
        rw [size_eq B .buy, hnone, hnone] at hn
        exact absurd hn (Nat.succ_ne_zero n).symm
      obtain ⟨xs, e, ys, hside, hxs, hys⟩ := exists_best hne (h.sorted.pairwise side)
      have hsize := @take_size B side e xs ys hside
      have htake := h.take hside
      have habsent := h.take_absent hside
      have hsub : ∀ other, ∀ x ∈ (B.setSide side (xs ++ ys)).side other, x ∈ B.side other := by
        intro other x hx
        rcases side.eq_or_eq_opposite other with rfl | rfl
        · rw [setSide_side] at hx
          rw [hside]
          exact ((List.sublist_cons_self e ys).append_left xs).subset hx
        · rwa [setSide_side_opposite] at hx
      have hmem : e ∈ B.side side := by rw [hside]; simp
      obtain ⟨orders, horders, hnodup, hlength, hrun⟩ := ih htake (e.id :: avoid)
        (fun other x hx => by
          rw [List.mem_cons, not_or]
          exact ⟨habsent other x hx, havoid other x (hsub other x hx)⟩)
        (by rw [List.length_cons]; omega) (by omega)
      obtain ⟨k, hk, hfresh⟩ := exists_fresh
        (0 :: (avoid ++ (B.entryIds ++ orders.map IncomingOrder.id)))
      simp only [List.mem_cons, List.mem_append, not_or] at hfresh
      obtain ⟨hzero, havoided, hentry, hused⟩ := hfresh
      have hklt : k < 2 ^ 64 := by
        simp only [List.length_cons, List.length_append, List.length_map, entryIds] at hk
        rw [Book.size] at hn hfew
        omega
      have hroom : roomIn capacity (B.setSide side (xs ++ ys)).size = true := by
        have hle := h.size
        exact decide_eq_true (by omega)
      obtain ⟨last, hlast, hnodup', hlength', hrun'⟩ := @Attainable.place B side maxLevels capacity
        (roomIn capacity) e xs ys h hside hxs hys
        hroom hlevels k ⟨hzero, hklt⟩
        fun other x hx hid => hentry (hid ▸ mem_entryIds hx)
      refine ⟨orders ++ last, ?_, ?_, ?_, ?_⟩
      · intro x hx
        rcases List.mem_append.mp hx with hx | hx
        · obtain ⟨hplace, hnot⟩ := horders x hx
          exact ⟨hplace, fun hin => hnot (List.mem_cons_of_mem _ hin)⟩
        · obtain ⟨hplace, hid⟩ := hlast x hx
          refine ⟨hplace, ?_⟩
          rcases hid with hid | hid
          · rw [hid]
            exact havoided
          · rw [hid]
            exact havoid side e hmem
      · rw [List.map_append]
        refine List.nodup_append.mpr ⟨hnodup, hnodup', ?_⟩
        intro id hid id' hid' heq
        obtain ⟨x, hx, rfl⟩ := List.mem_map.mp hid
        obtain ⟨y, hy, rfl⟩ := List.mem_map.mp hid'
        rcases (hlast y hy).2 with hk' | he'
        · exact hused (hk' ▸ heq ▸ hid)
        · exact (horders x hx).2 (by rw [heq, he']; exact List.mem_cons_self ..)
      · rw [List.length_append]
        omega
      · rw [submitAll, List.map_append, run_append]
        rw [submitAll] at hrun hrun'
        rw [hrun]
        exact hrun'

/-- Where every entry is the only one of its id, no id is there twice. -/
theorem entryIds_nodup (h : ∀ side, ∀ e ∈ B.side side, B.Holds e.id side e) :
    B.entryIds.Nodup := by
  refine List.nodup_iff_count_le_one.mpr fun id => ?_
  have hcount : B.entryIds.count id = (B.under id .buy).length + (B.under id .sell).length := by
    rw [entryIds, List.count_eq_countP, List.countP_map, List.countP_append,
      List.countP_eq_length_filter, List.countP_eq_length_filter]
    rfl
  rw [hcount]
  by_cases habsent : B.Absent id
  · rw [habsent, habsent]
    exact Nat.zero_le 1
  · simp only [Absent, not_forall] at habsent
    obtain ⟨side, hne⟩ := habsent
    obtain ⟨e, he⟩ := List.exists_mem_of_ne_nil _ hne
    obtain ⟨hmem, hid⟩ := List.mem_filter.mp he
    obtain ⟨hown, hother⟩ := h side e hmem
    rw [of_decide_eq_true hid] at hown hother
    cases side with
    | buy =>
        rw [hown, show B.under id .sell = [] from hother]
        exact Nat.le_refl 1
    | sell =>
        rw [hown, show B.under id .buy = [] from hother]
        exact Nat.le_refl 1

end

end Book

-- ============================================================================
-- Runs
-- ============================================================================

namespace Config

variable (config : Config) {cs : List Command} {events : List MatchEvent} {engine : MatchingEngine}

theorem maxLevels_le : config.maxLevels ≤ INT64_MAX := by
  have hle := config.levels_le
  rw [maxLevels, INT64_MAX]
  split <;> omega

/-- The book of a run is attainable. -/
theorem calls_attainable (hbelow : ∀ c ∈ cs, c.LimitBelow config.maxLevels)
    (hfits : ∀ c ∈ cs, c.Fits) (honce : ∀ c ∈ cs, c.IdOnce cs)
    (hsound : ∃ L, engine.Sound config.levels config.poolCapacity L)
    (htrace : Trace (Call config.levels config.poolCapacity) config.engine cs events engine) :
    engine.book.Attainable config.maxLevels config.poolCapacity := by
  obtain ⟨L, hsound⟩ := hsound
  obtain ⟨huncrossed, hfront⟩ := trace_frontPartial htrace config.engine_book
  have hheld : ∀ side, ∀ e ∈ engine.book.side side, ∃ x, .processOrder x ∈ cs ∧
      e.StandsFor side x ∧ engine.book.Holds e.id side e ∧ e.mapped = true := by
    intro side e he
    obtain ⟨x, hx, hstands⟩ := trace_backed htrace config.engine_book side e he
    have hhistory := trace_history htrace config.engine_book hx hstands.valid
      (honce _ hx hstands.valid)
    cases hhistory.life with
    | resting e' left hholds hmapped =>
        obtain ⟨rfl, rfl⟩ := hholds.unique he hstands.id.symm
        rw [hstands.id] at hholds
        exact ⟨x, hx, hstands, hholds, hmapped⟩
    | closed _ _ habsent => exact absurd hstands.id.symm (habsent.not_mem he)
  refine ⟨hsound.book_sorted, huncrossed, hfront, fun side e he => ?_,
    Book.entryIds_nodup fun side e he => ?_, ?_⟩
  · obtain ⟨x, hx, hstands, -, hmapped⟩ := hheld side e he
    obtain ⟨-, hprice, hid⟩ := validateOrder_pos hstands.valid
    have hfit : x.Fits := hfits _ hx
    refine ⟨⟨?_, ?_⟩, ⟨?_, ?_⟩, ⟨hsound.book_positive side e he, hstands.le⟩, ?_, hmapped⟩
    · rw [← hstands.id]
      exact hid
    · rw [← hstands.id]
      exact hfit.id
    · rw [← hstands.price]
      exact hprice hstands.type
    · rw [← hstands.price]
      exact hbelow _ hx hstands.type
    · rw [← hstands.quantity]
      exact hfit.quantity.2
  · obtain ⟨x, -, -, hholds, -⟩ := hheld side e he
    exact hholds
  · have hsize := hsound.book_size
    omega

/-- An attainable book is that of a run of Limit orders. -/
theorem build_run {B : Book} (h : B.Attainable config.maxLevels config.poolCapacity) :
    ∃ (orders : List IncomingOrder) (engine : MatchingEngine) (events : List MatchEvent),
      (∀ x ∈ orders, x.Placeable config.maxLevels) ∧
      (orders.map IncomingOrder.id).Nodup ∧
      config.engine.run (submitAll orders) = some (engine, events) ∧ engine.book = B := by
  have hfew : 3 * B.size + 2 < 2 ^ 64 := by
    have hsize := h.size
    have husable := (OrderPool.usable_bounds config.poolCapacity).2.1
    rw [UINT32_MAX] at husable
    omega
  obtain ⟨orders, horders, hnodup, -, hbuild⟩ := h.build config.maxLevels_le []
    (fun _ _ _ => List.not_mem_nil) (by rw [List.length_nil, Nat.zero_add]; exact hfew)
  have hbelow : ∀ c ∈ submitAll orders, c.LimitBelow config.levels := by
    intro c hc
    obtain ⟨x, hx, rfl⟩ := List.mem_map.mp hc
    intro _
    rw [config.levels_eq]
    exact (horders x hx).1.below
  obtain ⟨engine, events, hrun, -, hbook⟩ := config.engine_sound.run_book hbelow
  rw [config.engine_book] at hbook
  rw [hbook] at hbuild
  exact ⟨orders, engine, events, fun x hx => (horders x hx).1, hnodup, hrun, hbuild⟩

end Config

/-- Orders with different ids are submitted once each. -/
theorem submitAll_once {orders : List IncomingOrder} (h : (orders.map IncomingOrder.id).Nodup) :
    ∀ c ∈ submitAll orders, c.IdOnce (submitAll orders) := by
  intro c hc
  obtain ⟨x, hx, rfl⟩ := List.mem_map.mp hc
  intro _
  have hsubmits : (submitAll orders).filterMap Command.submits = orders.map IncomingOrder.id := by
    rw [submitAll, List.filterMap_map, ← List.filterMap_eq_map]
    rfl
  rw [submissions, hsubmits]
  exact List.count_eq_one_of_mem h (List.mem_map_of_mem hx)

/-- The books of the runs in which every accepted id is submitted once are exactly the
    attainable ones, and Limit orders alone lead to all of them. -/
theorem run_attains (config : Config) (B : Book) :
    ((∃ cs engine events, (∀ c ∈ cs, c.LimitBelow config.maxLevels) ∧ (∀ c ∈ cs, c.Fits) ∧
        (∀ c ∈ cs, c.IdOnce cs) ∧ config.engine.run cs = some (engine, events) ∧
        engine.book = B) ↔ B.Attainable config.maxLevels config.poolCapacity) ∧
      ((∃ (orders : List IncomingOrder) (engine : MatchingEngine) (events : List MatchEvent),
        (∀ x ∈ orders, x.Placeable config.maxLevels) ∧ (orders.map IncomingOrder.id).Nodup ∧
        config.engine.run (submitAll orders) = some (engine, events) ∧
        engine.book = B) ↔ B.Attainable config.maxLevels config.poolCapacity) := by
  have hany : ∀ cs engine events, (∀ c ∈ cs, c.LimitBelow config.maxLevels) →
      (∀ c ∈ cs, c.Fits) → (∀ c ∈ cs, c.IdOnce cs) →
      config.engine.run cs = some (engine, events) →
      engine.book.Attainable config.maxLevels config.poolCapacity := by
    intro cs engine events hbelow hfits honce hrun
    obtain ⟨engine', events', hrun', hsound, htrace⟩ := config.run_calls hbelow
    obtain ⟨rfl, rfl⟩ := result_unique hrun hrun'
    exact config.calls_attainable hbelow hfits honce hsound htrace
  have hlimit : ∀ orders : List IncomingOrder, (∀ x ∈ orders, x.Placeable config.maxLevels) →
      (∀ c ∈ submitAll orders, c.LimitBelow config.maxLevels) ∧
        ∀ c ∈ submitAll orders, c.Fits := by
    intro orders horders
    constructor
    · intro c hc
      obtain ⟨x, hx, rfl⟩ := List.mem_map.mp hc
      exact fun _ => (horders x hx).below
    · intro c hc
      obtain ⟨x, hx, rfl⟩ := List.mem_map.mp hc
      exact (horders x hx).fits
  refine ⟨⟨?_, fun hB => ?_⟩, ⟨?_, config.build_run⟩⟩
  · rintro ⟨cs, engine, events, hbelow, hfits, honce, hrun, rfl⟩
    exact hany cs engine events hbelow hfits honce hrun
  · obtain ⟨orders, engine, events, horders, hnodup, hrun, hbook⟩ := config.build_run hB
    obtain ⟨hbelow, hfits⟩ := hlimit orders horders
    exact ⟨submitAll orders, engine, events, hbelow, hfits, submitAll_once hnodup, hrun, hbook⟩
  · rintro ⟨orders, engine, events, horders, hnodup, hrun, rfl⟩
    obtain ⟨hbelow, hfits⟩ := hlimit orders horders
    exact hany _ engine events hbelow hfits (submitAll_once hnodup) hrun

end LimitOrderBook
