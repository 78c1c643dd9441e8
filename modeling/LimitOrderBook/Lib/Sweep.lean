/-
  LimitOrderBook.Lib.Sweep

  Greedy consumption of a list of supplies.

  A demand is served from the front of a list as long as the front item is
  wanted: an item at most as large as the demand is taken whole, a larger one is
  reduced by what is left of the demand.  The first item that is not wanted ends
  the sweep.

  `Supply` is the interface of an item: how much it holds and what remains of it
  after a reduction.
-/
import Mathlib.Algebra.Order.BigOperators.Group.List
import Mathlib.Algebra.Order.Group.Int
import Mathlib.Algebra.Ring.Int.Defs
import Mathlib.Data.List.Infix
import Mathlib.Tactic.Common

namespace LimitOrderBook.Lib

/-- What a sweep needs to know about an item. -/
structure Supply (α : Type*) where
  amount : α → Int
  reduce : α → Int → α

namespace Supply

variable {α : Type*} (S : Supply α) (wanted : α → Bool)

/-- What was taken from which item, what is kept, and the demand left over. -/
structure Swept (α : Type*) where
  taken : List (α × Int)
  kept : List α
  left : Int

/-- Serve `left` from the front of a list. -/
def sweep : Int → List α → Swept α
  | left, [] => ⟨[], [], left⟩
  | left, x :: xs =>
      if 0 < left ∧ wanted x then
        if left < S.amount x then ⟨[(x, left)], S.reduce x left :: xs, 0⟩
        else
          let rest := sweep (left - S.amount x) xs
          ⟨(x, S.amount x) :: rest.taken, rest.kept, rest.left⟩
      else ⟨[], x :: xs, left⟩

/-- All that the items hold. -/
def total (xs : List α) : Int := (xs.map S.amount).sum

@[simp] theorem total_nil : S.total [] = 0 := rfl

@[simp] theorem total_cons (x : α) (xs : List α) :
    S.total (x :: xs) = S.amount x + S.total xs := by simp [total]

-- ============================================================================
-- Equations
-- ============================================================================

section Equations

variable {S wanted} {left : Int} {x : α} {xs : List α}

@[simp] theorem sweep_nil : S.sweep wanted left [] = ⟨[], [], left⟩ := rfl

theorem sweep_stop (h : ¬ (0 < left ∧ wanted x)) :
    S.sweep wanted left (x :: xs) = ⟨[], x :: xs, left⟩ := by
  rw [sweep, if_neg h]

theorem sweep_partial (hpos : 0 < left) (hw : wanted x) (hlt : left < S.amount x) :
    S.sweep wanted left (x :: xs) = ⟨[(x, left)], S.reduce x left :: xs, 0⟩ := by
  rw [sweep, if_pos ⟨hpos, hw⟩, if_pos hlt]

theorem sweep_whole (hpos : 0 < left) (hw : wanted x) (hle : S.amount x ≤ left) :
    S.sweep wanted left (x :: xs) =
      ⟨(x, S.amount x) :: (S.sweep wanted (left - S.amount x) xs).taken,
        (S.sweep wanted (left - S.amount x) xs).kept,
        (S.sweep wanted (left - S.amount x) xs).left⟩ := by
  rw [sweep, if_pos ⟨hpos, hw⟩, if_neg (Int.not_lt.mpr hle)]

/-- No demand, no sweep. -/
theorem sweep_of_nonpos (h : left ≤ 0) : S.sweep wanted left xs = ⟨[], xs, left⟩ := by
  cases xs with
  | nil => rfl
  | cons x xs => exact sweep_stop (fun hc => by omega)

/-- The four ways a sweep goes on from a non-empty list. -/
theorem sweep_cases (S : Supply α) (wanted : α → Bool) (left : Int) (x : α) (xs : List α) :
    (¬ (0 < left ∧ wanted x) ∧ S.sweep wanted left (x :: xs) = ⟨[], x :: xs, left⟩) ∨
    (0 < left ∧ wanted x ∧ left < S.amount x ∧
      S.sweep wanted left (x :: xs) = ⟨[(x, left)], S.reduce x left :: xs, 0⟩) ∨
    (0 < left ∧ wanted x ∧ S.amount x ≤ left ∧
      S.sweep wanted left (x :: xs) =
        ⟨(x, S.amount x) :: (S.sweep wanted (left - S.amount x) xs).taken,
          (S.sweep wanted (left - S.amount x) xs).kept,
          (S.sweep wanted (left - S.amount x) xs).left⟩) := by
  by_cases h : 0 < left ∧ wanted x
  · by_cases hlt : left < S.amount x
    · exact .inr (.inl ⟨h.1, h.2, hlt, sweep_partial h.1 h.2 hlt⟩)
    · exact .inr (.inr ⟨h.1, h.2, Int.not_lt.mp hlt, sweep_whole h.1 h.2 (Int.not_lt.mp hlt)⟩)
  · exact .inl ⟨h, sweep_stop h⟩

end Equations

-- ============================================================================
-- Results
-- ============================================================================

section Results

variable {S wanted} {left : Int} {xs : List α}

/-- What is taken and what is left over make up the demand. -/
theorem sweep_conserves :
    ((S.sweep wanted left xs).taken.map Prod.snd).sum + (S.sweep wanted left xs).left
      = left := by
  induction xs generalizing left with
  | nil => simp
  | cons x xs ih =>
      rcases sweep_cases S wanted left x xs with
        ⟨-, h⟩ | ⟨-, -, -, h⟩ | ⟨-, -, -, h⟩
      · rw [h]; simp
      · rw [h]; simp
      · have := @ih (left - S.amount x)
        rw [h]
        simp only [List.map_cons, List.sum_cons]
        omega

/-- What is taken is what the items hold less. -/
theorem sweep_total (hreduce : ∀ x q, S.amount (S.reduce x q) = S.amount x - q) :
    ((S.sweep wanted left xs).taken.map Prod.snd).sum + S.total (S.sweep wanted left xs).kept =
      S.total xs := by
  induction xs generalizing left with
  | nil => simp
  | cons x xs ih =>
      rcases sweep_cases S wanted left x xs with
        ⟨-, h⟩ | ⟨-, -, -, h⟩ | ⟨-, -, -, h⟩
      · rw [h]; simp
      · rw [h]
        simp only [List.map_cons, List.map_nil, List.sum_cons, List.sum_nil, total_cons, hreduce]
        omega
      · have := @ih (left - S.amount x)
        rw [h]
        simp only [List.map_cons, List.sum_cons, total_cons]
        omega

/-- The items that are not kept are those taken whole, and at most one more is taken
    from, none if demand is left over. -/
theorem sweep_length :
    (S.sweep wanted left xs).kept.length +
        ((S.sweep wanted left xs).taken.filter fun t => t.2 = S.amount t.1).length = xs.length ∧
      (S.sweep wanted left xs).taken.length ≤
        ((S.sweep wanted left xs).taken.filter fun t => t.2 = S.amount t.1).length + 1 ∧
      (0 < (S.sweep wanted left xs).left → (S.sweep wanted left xs).taken.length =
        ((S.sweep wanted left xs).taken.filter fun t => t.2 = S.amount t.1).length) := by
  induction xs generalizing left with
  | nil => simp
  | cons x xs ih =>
      rcases sweep_cases S wanted left x xs with
        ⟨-, h⟩ | ⟨-, -, hlt, h⟩ | ⟨-, -, -, h⟩
      · rw [h]; simp
      · have hne : left ≠ S.amount x := Int.ne_of_lt hlt
        rw [h]
        simp [hne]
      · obtain ⟨hkept, hle, heq⟩ := @ih (left - S.amount x)
        rw [h]
        simp only [decide_true, List.filter_cons_of_pos, List.length_cons]
        refine ⟨by omega, by omega, fun hleft => ?_⟩
        rw [heq hleft]

theorem sweep_left_nonneg (hleft : 0 ≤ left) : 0 ≤ (S.sweep wanted left xs).left := by
  induction xs generalizing left with
  | nil => simpa using hleft
  | cons x xs ih =>
      rcases sweep_cases S wanted left x xs with
        ⟨-, h⟩ | ⟨-, -, -, h⟩ | ⟨-, -, hle, h⟩
      · rw [h]; exact hleft
      · rw [h]
      · rw [h]; exact ih (by omega)

/-- Every taking is positive, at most the item, and from a wanted item of the list. -/
theorem sweep_taken (hpos : ∀ x ∈ xs, 0 < S.amount x) :
    ∀ t ∈ (S.sweep wanted left xs).taken,
      t.1 ∈ xs ∧ wanted t.1 ∧ 0 < t.2 ∧ t.2 ≤ S.amount t.1 := by
  induction xs generalizing left with
  | nil => intro t ht; simp at ht
  | cons x xs ih =>
      have hx := hpos x (List.mem_cons_self ..)
      rcases sweep_cases S wanted left x xs with
        ⟨-, h⟩ | ⟨hl, hw, hlt, h⟩ | ⟨-, hw, -, h⟩
      · rw [h]; simp
      · rw [h]
        intro t ht
        obtain rfl := List.mem_singleton.mp ht
        exact ⟨List.mem_cons_self .., hw, hl, Int.le_of_lt hlt⟩
      · rw [h]
        intro t ht
        rcases List.mem_cons.mp ht with rfl | ht
        · exact ⟨List.mem_cons_self .., hw, hx, Int.le_refl _⟩
        · obtain ⟨hmem, hrest⟩ :=
            ih (fun y hy => hpos y (List.mem_cons_of_mem _ hy)) t ht
          exact ⟨List.mem_cons_of_mem _ hmem, hrest⟩

/-- Every taking is the lesser of what was still asked for and what the item holds. -/
theorem sweep_taken_min (hpos : ∀ x ∈ xs, 0 < S.amount x) {pre post : List (α × Int)}
    {t : α × Int} (h : (S.sweep wanted left xs).taken = pre ++ t :: post) :
    t.2 = min (left - (pre.map Prod.snd).sum) (S.amount t.1) := by
  induction xs generalizing left pre with
  | nil => simp at h
  | cons x xs ih =>
      rcases sweep_cases S wanted left x xs with
        ⟨-, hs⟩ | ⟨-, -, hlt, hs⟩ | ⟨-, -, hle, hs⟩
      · rw [hs] at h
        simp at h
      · rw [hs] at h
        cases pre with
        | nil =>
            obtain ⟨rfl, -⟩ := List.cons.inj h
            simpa using (min_eq_left (Int.le_of_lt hlt)).symm
        | cons u pre => exact absurd (List.cons.inj h).2 (by simp)
      · rw [hs] at h
        cases pre with
        | nil =>
            obtain ⟨rfl, -⟩ := List.cons.inj h
            simpa using (min_eq_right hle).symm
        | cons u pre =>
            obtain ⟨rfl, hrest⟩ := List.cons.inj h
            have := ih (fun y hy => hpos y (List.mem_cons_of_mem _ hy)) hrest
            rw [this, List.map_cons, List.sum_cons]
            congr 1
            omega

/-- Only what is wanted of the listed items matters. -/
theorem sweep_congr {wanted' : α → Bool} (h : ∀ x ∈ xs, wanted x = wanted' x) :
    S.sweep wanted left xs = S.sweep wanted' left xs := by
  induction xs generalizing left with
  | nil => rfl
  | cons x xs ih =>
      have hx := h x (List.mem_cons_self ..)
      have hxs : ∀ y ∈ xs, wanted y = wanted' y := fun y hy => h y (List.mem_cons_of_mem _ hy)
      simp only [sweep, hx, ih hxs]

/-- Who wants more items takes the same first, and then goes on. -/
theorem sweep_taken_prefix {wanted' : α → Bool}
    (h : ∀ x ∈ xs, wanted x = true → wanted' x = true) :
    (S.sweep wanted left xs).taken <+: (S.sweep wanted' left xs).taken := by
  induction xs generalizing left with
  | nil => exact List.prefix_refl _
  | cons x xs ih =>
      have hx := h x (List.mem_cons_self ..)
      rcases sweep_cases S wanted left x xs with
        ⟨-, heq⟩ | ⟨hl, hw, hlt, heq⟩ | ⟨hl, hw, hle, heq⟩
      · rw [heq]
        exact List.nil_prefix
      · rw [heq, sweep_partial hl (hx hw) hlt]
      · rw [heq, sweep_whole hl (hx hw) hle, List.prefix_cons_inj]
        exact ih fun y hy => h y (List.mem_cons_of_mem _ hy)

/-- A longer sweep leaves less of the demand. -/
theorem sweep_left_le {wanted' : α → Bool} (hpos : ∀ x ∈ xs, 0 < S.amount x)
    (h : (S.sweep wanted left xs).taken <+: (S.sweep wanted' left xs).taken) :
    (S.sweep wanted' left xs).left ≤ (S.sweep wanted left xs).left := by
  obtain ⟨rest, hrest⟩ := h
  have hconserves := @sweep_conserves _ S wanted left xs
  have hconserves' := @sweep_conserves _ S wanted' left xs
  have hnonneg : 0 ≤ (rest.map Prod.snd).sum := by
    apply List.sum_nonneg
    intro q hq
    obtain ⟨t, ht, rfl⟩ := List.mem_map.mp hq
    exact Int.le_of_lt (sweep_taken hpos t
      (by rw [← hrest]; exact List.mem_append_right _ ht)).2.2.1
  rw [← hrest, List.map_append, List.sum_append] at hconserves'
  omega

/-- Demand left over means the front of what is kept is not wanted. -/
theorem sweep_left_pos (hleft : 0 < (S.sweep wanted left xs).left) :
    ∀ x, (S.sweep wanted left xs).kept.head? = some x → wanted x = false := by
  induction xs generalizing left with
  | nil => intro x hx; simp at hx
  | cons y ys ih =>
      rcases sweep_cases S wanted left y ys with
        ⟨hn, h⟩ | ⟨-, -, -, h⟩ | ⟨-, -, -, h⟩
      · rw [h] at hleft ⊢
        intro x hx
        obtain rfl : y = x := by simpa using hx
        cases hw : wanted y
        · rfl
        · exact absurd ⟨hleft, hw⟩ hn
      · rw [h] at hleft; simp at hleft
      · rw [h] at hleft ⊢
        exact ih hleft

/-- Items are only taken from the front: what a reduction preserves of the items
    that are kept is a suffix of what it is of all items. -/
theorem sweep_kept_suffix {β : Type*} {g : α → β} (hg : ∀ x q, g (S.reduce x q) = g x) :
    ((S.sweep wanted left xs).kept.map g) <:+ xs.map g := by
  induction xs generalizing left with
  | nil => exact List.suffix_refl _
  | cons x xs ih =>
      rcases sweep_cases S wanted left x xs with
        ⟨-, h⟩ | ⟨-, -, -, h⟩ | ⟨-, -, -, h⟩
      · rw [h]
      · rw [h, List.map_cons, List.map_cons, hg]
      · rw [h, List.map_cons]
        exact ih.trans (List.suffix_cons _ _)

/-- What is kept stays in a relation of earlier to later members that does not mind how
    much the earlier one holds. -/
theorem sweep_kept_pairwise {s : α → α → Prop} (hs : ∀ x y q, s x y → s (S.reduce x q) y)
    (h : xs.Pairwise s) : (S.sweep wanted left xs).kept.Pairwise s := by
  induction xs generalizing left with
  | nil => exact List.Pairwise.nil
  | cons x xs ih =>
      obtain ⟨hx, hrest⟩ := List.pairwise_cons.mp h
      rcases sweep_cases S wanted left x xs with ⟨-, heq⟩ | ⟨-, -, -, heq⟩ | ⟨-, -, -, heq⟩
      · rw [heq]
        exact h
      · rw [heq]
        exact List.pairwise_cons.mpr ⟨fun y hy => hs x y left (hx y hy), hrest⟩
      · rw [heq]
        exact ih hrest

/-- The sweep is confined to the wanted prefix. -/
theorem sweep_takeWhile :
    S.sweep wanted left xs =
      ⟨(S.sweep wanted left (xs.takeWhile wanted)).taken,
        (S.sweep wanted left (xs.takeWhile wanted)).kept ++ xs.dropWhile wanted,
        (S.sweep wanted left (xs.takeWhile wanted)).left⟩ := by
  induction xs generalizing left with
  | nil => simp
  | cons x xs ih =>
      cases hw : wanted x with
      | false =>
          rw [sweep_stop (fun hc => by simp [hw] at hc)]
          simp [hw]
      | true =>
          rw [List.takeWhile_cons_of_pos hw, List.dropWhile_cons_of_pos hw]
          rcases sweep_cases S wanted left x (xs.takeWhile wanted) with
            ⟨hn, h⟩ | ⟨hl, -, hlt, h⟩ | ⟨hl, -, hle, h⟩
          · rw [h, sweep_stop hn]
            simp
          · rw [h, sweep_partial hl hw hlt]
            simp
          · rw [h, sweep_whole hl hw hle, ih]

theorem total_nonneg (hpos : ∀ x ∈ xs, 0 < S.amount x) : 0 ≤ S.total xs := by
  apply List.sum_nonneg
  intro a ha
  obtain ⟨y, hy, rfl⟩ := List.mem_map.mp ha
  exact Int.le_of_lt (hpos y hy)

theorem total_pos (hpos : ∀ x ∈ xs, 0 < S.amount x) (hne : xs ≠ []) : 0 < S.total xs := by
  obtain ⟨x, rest, rfl⟩ := List.exists_cons_of_ne_nil hne
  have hx := hpos x (List.mem_cons_self ..)
  have hrest := total_nonneg fun y hy => hpos y (List.mem_cons_of_mem _ hy)
  rw [total_cons]
  omega

/-- The demand left over is what the wanted prefix does not hold. -/
theorem sweep_left (hpos : ∀ x ∈ xs, 0 < S.amount x) (hleft : 0 ≤ left) :
    (S.sweep wanted left xs).left = max 0 (left - S.total (xs.takeWhile wanted)) := by
  induction xs generalizing left with
  | nil => simpa using (max_eq_right hleft).symm
  | cons x xs ih =>
      have hx := hpos x (List.mem_cons_self ..)
      have hxs : ∀ y ∈ xs, 0 < S.amount y := fun y hy => hpos y (List.mem_cons_of_mem _ hy)
      have htotal : 0 ≤ S.total (xs.takeWhile wanted) :=
        total_nonneg fun y hy => hxs y ((List.takeWhile_sublist _).subset hy)
      rcases sweep_cases S wanted left x xs with
        ⟨hn, h⟩ | ⟨hl, hw, hlt, h⟩ | ⟨hl, hw, hle, h⟩
      · rw [h]
        by_cases hw : wanted x
        · have hl : left = 0 := by
            by_contra hne
            exact hn ⟨by omega, hw⟩
          rw [List.takeWhile_cons_of_pos hw, total_cons]
          simp only [hl]
          omega
        · rw [List.takeWhile_cons_of_neg (by simpa using hw)]
          simp only [total_nil]
          omega
      · rw [h, List.takeWhile_cons_of_pos hw, total_cons]
        simp only
        omega
      · rw [h, List.takeWhile_cons_of_pos hw, total_cons]
        simp only
        rw [ih hxs (by omega)]
        congr 1
        omega

/-- Nothing is kept exactly when all that is there was asked for. -/
theorem sweep_kept_eq_nil (hpos : ∀ x ∈ xs, 0 < S.amount x) (hleft : 0 ≤ left) :
    (S.sweep (fun _ => true) left xs).kept = [] ↔ S.total xs ≤ left := by
  induction xs generalizing left with
  | nil => simpa using hleft
  | cons x xs ih =>
      have hx := hpos x (List.mem_cons_self ..)
      have hxs : ∀ y ∈ xs, 0 < S.amount y := fun y hy => hpos y (List.mem_cons_of_mem _ hy)
      have htotal := total_nonneg hxs
      rw [total_cons]
      rcases sweep_cases S (fun _ => true) left x xs with
        ⟨hn, h⟩ | ⟨-, -, hlt, h⟩ | ⟨-, -, hle, h⟩
      · have hl : ¬ 0 < left := fun hl => hn ⟨hl, rfl⟩
        rw [h]
        exact iff_of_false (List.cons_ne_nil _ _) (by omega)
      · rw [h]
        exact iff_of_false (List.cons_ne_nil _ _) (by omega)
      · rw [h]
        show (S.sweep (fun _ => true) (left - S.amount x) xs).kept = [] ↔ _
        rw [ih hxs (by omega)]
        omega

/-- A relabelling that the sweep cannot see carries over to what it takes and keeps. -/
theorem sweep_map {β : Type*} {T : Supply β} {asked : β → Bool} {f : α → β}
    (hamount : ∀ x, T.amount (f x) = S.amount x) (hwanted : ∀ x, asked (f x) = wanted x)
    (hreduce : ∀ x q, T.reduce (f x) q = f (S.reduce x q)) :
    T.sweep asked left (xs.map f) =
      ⟨(S.sweep wanted left xs).taken.map (fun t => (f t.1, t.2)),
        (S.sweep wanted left xs).kept.map f, (S.sweep wanted left xs).left⟩ := by
  induction xs generalizing left with
  | nil => simp
  | cons x xs ih =>
      rw [List.map_cons]
      rcases sweep_cases S wanted left x xs with
        ⟨hn, h⟩ | ⟨hl, hw, hlt, h⟩ | ⟨hl, hw, hle, h⟩
      · rw [h, sweep_stop (by rwa [hwanted])]
        simp
      · rw [h, sweep_partial hl (by rwa [hwanted]) (by rwa [hamount])]
        simp [hreduce]
      · rw [h, sweep_whole hl (by rwa [hwanted]) (by rwa [hamount]), hamount, ih]
        simp

/-- A sweep in another unit of amounts. -/
theorem sweep_scale {β : Type*} {T : Supply β} {asked : β → Bool} {f : α → β} {k : Int}
    (hk : 0 < k) (hamount : ∀ x, T.amount (f x) = k * S.amount x)
    (hwanted : ∀ x, asked (f x) = wanted x)
    (hreduce : ∀ x q, T.reduce (f x) (k * q) = f (S.reduce x q)) :
    T.sweep asked (k * left) (xs.map f) =
      ⟨(S.sweep wanted left xs).taken.map (fun t => (f t.1, k * t.2)),
        (S.sweep wanted left xs).kept.map f, k * (S.sweep wanted left xs).left⟩ := by
  have hpos : ∀ q : Int, 0 < k * q ↔ 0 < q := fun q =>
    ⟨fun h => Int.pos_of_mul_pos_right h hk, Int.mul_pos hk⟩
  induction xs generalizing left with
  | nil => simp
  | cons x xs ih =>
      rw [List.map_cons]
      rcases sweep_cases S wanted left x xs with
        ⟨hn, h⟩ | ⟨hl, hw, hlt, h⟩ | ⟨hl, hw, hle, h⟩
      · rw [h, sweep_stop (by rwa [hwanted, hpos])]
        simp
      · rw [h, sweep_partial ((hpos left).mpr hl) (by rwa [hwanted])
          (by rw [hamount]; exact Int.mul_lt_mul_of_pos_left hlt hk)]
        simp [hreduce]
      · rw [h, sweep_whole ((hpos left).mpr hl) (by rwa [hwanted])
          (by rw [hamount]; exact Int.mul_le_mul_of_nonneg_left hle hk.le), hamount, ← Int.mul_sub,
          ih]
        simp

/-- Nothing is taken when nothing is wanted. -/
theorem sweep_unwanted (h : ∀ x ∈ xs, wanted x = false) :
    S.sweep wanted left xs = ⟨[], xs, left⟩ := by
  cases xs with
  | nil => rfl
  | cons x xs => exact sweep_stop fun hc => by simp [h x (List.mem_cons_self ..)] at hc

/-- A sweep goes through a wanted stretch and on with what that leaves. -/
theorem sweep_append {ys : List α} (h : ∀ x ∈ xs, wanted x = true) :
    S.sweep wanted left (xs ++ ys) =
      ⟨(S.sweep (fun _ => true) left xs).taken ++
          (S.sweep wanted (S.sweep (fun _ => true) left xs).left ys).taken,
        (S.sweep (fun _ => true) left xs).kept ++
          (S.sweep wanted (S.sweep (fun _ => true) left xs).left ys).kept,
        (S.sweep wanted (S.sweep (fun _ => true) left xs).left ys).left⟩ := by
  induction xs generalizing left with
  | nil => simp
  | cons x xs ih =>
      have hx := h x (List.mem_cons_self ..)
      rw [List.cons_append]
      rcases sweep_cases S (fun _ => true) left x xs with
        ⟨hn, hs⟩ | ⟨hl, -, hlt, hs⟩ | ⟨hl, -, hle, hs⟩
      · have hl : left ≤ 0 := by
          by_contra hc
          exact hn ⟨by omega, rfl⟩
        rw [hs, sweep_of_nonpos hl, sweep_of_nonpos hl]
        simp
      · rw [hs, sweep_partial hl hx hlt, sweep_of_nonpos (Int.le_refl 0)]
        simp
      · rw [hs, sweep_whole hl hx hle, ih fun y hy => h y (List.mem_cons_of_mem _ hy)]
        simp

/-- What is kept is an item of the list, perhaps reduced to a positive rest. -/
theorem sweep_kept (y : α) (hy : y ∈ (S.sweep wanted left xs).kept) :
    y ∈ xs ∨ ∃ x ∈ xs, ∃ q, 0 < q ∧ q < S.amount x ∧ y = S.reduce x q := by
  induction xs generalizing left with
  | nil => exact absurd hy (by simp)
  | cons x xs ih =>
      rcases sweep_cases S wanted left x xs with
        ⟨-, h⟩ | ⟨hl, -, hlt, h⟩ | ⟨-, -, -, h⟩
      · rw [h] at hy
        exact .inl hy
      · rw [h] at hy
        rcases List.mem_cons.mp hy with rfl | hy
        · exact .inr ⟨x, List.mem_cons_self .., left, hl, hlt, rfl⟩
        · exact .inl (List.mem_cons_of_mem _ hy)
      · rw [h] at hy
        rcases ih hy with hy | ⟨z, hz, hq⟩
        · exact .inl (List.mem_cons_of_mem _ hy)
        · exact .inr ⟨z, List.mem_cons_of_mem _ hz, hq⟩

/-- What is kept of the items of a kind is no more than what there was. -/
theorem sweep_kept_total_le {p : α → Bool} (hp : ∀ x q, p (S.reduce x q) = p x)
    (hreduce : ∀ x q, 0 < q → S.amount (S.reduce x q) ≤ S.amount x)
    (hpos : ∀ x ∈ xs, 0 < S.amount x) :
    S.total ((S.sweep wanted left xs).kept.filter p) ≤ S.total (xs.filter p) := by
  induction xs generalizing left with
  | nil => exact Int.le_refl _
  | cons x xs ih =>
      have hx := hpos x (List.mem_cons_self ..)
      have hrest := @ih (left - S.amount x) fun y hy => hpos y (List.mem_cons_of_mem _ hy)
      rcases sweep_cases S wanted left x xs with
        ⟨-, h⟩ | ⟨hl, -, -, h⟩ | ⟨-, -, -, h⟩
      · rw [h]
      · have hless := hreduce x left hl
        rw [h, List.filter_cons, List.filter_cons, hp]
        split
        · rw [total_cons, total_cons]
          omega
        · exact Int.le_refl _
      · rw [h, List.filter_cons]
        apply hrest.trans
        split
        · rw [total_cons]
          omega
        · exact Int.le_refl _

/-- Items from which nothing is taken might as well not be there, when no item is
    wanted behind one that is not. -/
theorem sweep_filter {p : α → Bool} (hp : ∀ x q, p (S.reduce x q) = p x)
    (hxs : xs.Pairwise fun x y => wanted y = true → wanted x = true)
    (htaken : ∀ t ∈ (S.sweep wanted left xs).taken, p t.1 = true) :
    S.sweep wanted left (xs.filter p) =
      ⟨(S.sweep wanted left xs).taken, (S.sweep wanted left xs).kept.filter p,
        (S.sweep wanted left xs).left⟩ := by
  induction xs generalizing left with
  | nil => rfl
  | cons x xs ih =>
      obtain ⟨hx, hrest⟩ := List.pairwise_cons.mp hxs
      rcases sweep_cases S wanted left x xs with
        ⟨hn, hs⟩ | ⟨hl, hw, hlt, hs⟩ | ⟨hl, hw, hle, hs⟩
      · rw [hs]
        by_cases hl : 0 < left
        · apply sweep_unwanted
          intro y hy
          rw [Bool.eq_false_iff]
          intro hwy
          rcases List.mem_cons.mp (List.mem_filter.mp hy).1 with rfl | hin
          · exact hn ⟨hl, hwy⟩
          · exact hn ⟨hl, hx y hin hwy⟩
        · exact sweep_of_nonpos (Int.not_lt.mp hl)
      · rw [hs] at htaken ⊢
        have hpx : p x = true := htaken _ (List.mem_singleton_self _)
        rw [List.filter_cons_of_pos hpx, sweep_partial hl hw hlt,
          List.filter_cons_of_pos (by rw [hp, hpx])]
      · rw [hs] at htaken ⊢
        have hpx : p x = true := htaken _ (List.mem_cons_self ..)
        rw [List.filter_cons_of_pos hpx, sweep_whole hl hw hle,
          ih hrest fun t ht => htaken t (List.mem_cons_of_mem _ ht)]

/-- When nothing is taken, everything is kept. -/
theorem sweep_of_taken_nil (h : (S.sweep wanted left xs).taken = []) :
    S.sweep wanted left xs = ⟨[], xs, left⟩ := by
  cases xs with
  | nil => rfl
  | cons x xs =>
      rcases sweep_cases S wanted left x xs with
        ⟨-, hs⟩ | ⟨-, -, -, hs⟩ | ⟨-, -, -, hs⟩
      · exact hs
      · rw [hs] at h
        exact absurd h (List.cons_ne_nil _ _)
      · rw [hs] at h
        exact absurd h (List.cons_ne_nil _ _)

/-- A sweep of a list without a kind of item takes and keeps none of it. -/
theorem sweep_none {p : α → Bool} (hp : ∀ x q, p (S.reduce x q) = p x) (h : xs.filter p = []) :
    (S.sweep wanted left xs).taken.filter (fun t => p t.1) = [] ∧
      (S.sweep wanted left xs).kept.filter p = [] := by
  induction xs generalizing left with
  | nil => exact ⟨rfl, rfl⟩
  | cons x xs ih =>
      have hx : p x = false := by
        cases hpx : p x with
        | false => rfl
        | true => rw [List.filter_cons_of_pos hpx] at h; exact absurd h (List.cons_ne_nil _ _)
      have hxs : xs.filter p = [] := by
        rwa [List.filter_cons_of_neg (by simp [hx])] at h
      rcases sweep_cases S wanted left x xs with
        ⟨-, hs⟩ | ⟨-, -, -, hs⟩ | ⟨-, -, -, hs⟩
      · rw [hs]
        exact ⟨rfl, h⟩
      · rw [hs]
        simp [hx, hp, hxs]
      · obtain ⟨htaken, hkept⟩ := @ih (left - S.amount x) hxs
        rw [hs]
        refine ⟨?_, hkept⟩
        rw [List.filter_cons_of_neg (by simp [hx])]
        exact htaken

/-- What a sweep does to the only item of a kind: nothing, a part, or all. -/
theorem sweep_one {p : α → Bool} (hp : ∀ x q, p (S.reduce x q) = p x) {e : α}
    (h : xs.filter p = [e]) :
    ((S.sweep wanted left xs).taken.filter (fun t => p t.1) = [] ∧
      (S.sweep wanted left xs).kept.filter p = [e]) ∨
    (∃ q, 0 < q ∧ q < S.amount e ∧
      (S.sweep wanted left xs).taken.filter (fun t => p t.1) = [(e, q)] ∧
      (S.sweep wanted left xs).kept.filter p = [S.reduce e q]) ∨
    ((S.sweep wanted left xs).taken.filter (fun t => p t.1) = [(e, S.amount e)] ∧
      (S.sweep wanted left xs).kept.filter p = []) := by
  induction xs generalizing left with
  | nil => exact absurd h (by simp)
  | cons x xs ih =>
      cases hpx : p x with
      | true =>
          rw [List.filter_cons_of_pos hpx] at h
          obtain ⟨rfl, hxs⟩ := List.cons.inj h
          rcases sweep_cases S wanted left x xs with
            ⟨-, hs⟩ | ⟨hl, -, hlt, hs⟩ | ⟨-, -, -, hs⟩
          · rw [hs]
            refine .inl ⟨rfl, ?_⟩
            rw [List.filter_cons_of_pos hpx, hxs]
          · rw [hs]
            refine .inr (.inl ⟨left, hl, hlt, ?_, ?_⟩)
            · simp [hpx]
            · rw [List.filter_cons_of_pos (by rw [hp, hpx]), hxs]
          · obtain ⟨htaken, hkept⟩ := @sweep_none _ S wanted (left - S.amount x) xs p hp hxs
            rw [hs]
            refine .inr (.inr ⟨?_, hkept⟩)
            rw [List.filter_cons_of_pos (by simpa using hpx), htaken]
      | false =>
          have hxs : xs.filter p = [e] := by
            rwa [List.filter_cons_of_neg (by simp [hpx])] at h
          rcases sweep_cases S wanted left x xs with
            ⟨-, hs⟩ | ⟨-, -, -, hs⟩ | ⟨-, -, -, hs⟩
          · rw [hs]
            exact .inl ⟨rfl, h⟩
          · rw [hs]
            simp [hpx, hp, hxs]
          · have hrest := @ih (left - S.amount x) hxs
            rw [hs]
            simpa only [List.filter_cons, hpx, Bool.false_eq_true, if_false] using hrest

/-- Every item is taken whole, kept, or kept in part. -/
theorem sweep_covers (x : α) (hx : x ∈ xs) :
    (x, S.amount x) ∈ (S.sweep wanted left xs).taken ∨ x ∈ (S.sweep wanted left xs).kept ∨
      ∃ q, q < S.amount x ∧ (x, q) ∈ (S.sweep wanted left xs).taken ∧
        S.reduce x q ∈ (S.sweep wanted left xs).kept := by
  induction xs generalizing left with
  | nil => exact absurd hx (by simp)
  | cons y xs ih =>
      rcases sweep_cases S wanted left y xs with
        ⟨-, h⟩ | ⟨-, -, hlt, h⟩ | ⟨-, -, -, h⟩
      · rw [h]
        exact .inr (.inl hx)
      · rw [h]
        rcases List.mem_cons.mp hx with rfl | hx
        · exact .inr (.inr ⟨left, hlt, List.mem_cons_self .., List.mem_cons_self ..⟩)
        · exact .inr (.inl (List.mem_cons_of_mem _ hx))
      · rw [h]
        rcases List.mem_cons.mp hx with rfl | hx
        · exact .inl (List.mem_cons_self ..)
        · rcases ih hx with hw | hk | ⟨q, hq, ht, hk⟩
          · exact .inl (List.mem_cons_of_mem _ hw)
          · exact .inr (.inl hk)
          · exact .inr (.inr ⟨q, hq, List.mem_cons_of_mem _ ht, hk⟩)

end Results

end Supply

end LimitOrderBook.Lib
