/-
  LimitOrderBook.Lib.Buckets

  A priority queue kept as buckets: bucket `i` holds a FIFO list `q i`, and a
  fixed list `order` of bucket indices says in which order buckets are served.
  The queue as one list is `order.flatMap q`.

  The lemmas say what one bucket's change does to that list, that appending to a
  bucket is a stable sorted insertion, and that such insertions keep sorted lists
  sorted and sublists sublists.
-/
import Mathlib.Data.List.Sort
import Mathlib.Data.List.Nodup
import Mathlib.Data.List.Perm.Subperm
import Mathlib.Logic.Function.Basic

namespace LimitOrderBook.Lib.Buckets

variable {ι α β γ δ : Type*}

/-- Sorted insertion passes what it does not strictly precede. -/
theorem orderedInsert_append_left {r : α → α → Prop} [DecidableRel r] {x : α} {xs ys : List α}
    (hxs : ∀ a ∈ xs, ¬ r x a) :
    (xs ++ ys).orderedInsert r x = xs ++ ys.orderedInsert r x := by
  induction xs with
  | nil => rfl
  | cons a xs ih =>
      have ha := hxs a (List.mem_cons_self ..)
      have hrest := ih (fun b hb => hxs b (List.mem_cons_of_mem _ hb))
      simp [ha, hrest]

/-- Sorted insertion stops in front of what it strictly precedes. -/
theorem orderedInsert_front {r : α → α → Prop} [DecidableRel r] {x : α} {ys : List α}
    (hys : ∀ b ∈ ys, r x b) : ys.orderedInsert r x = x :: ys := by
  cases ys with
  | nil => rfl
  | cons b ys => simp [hys b (List.mem_cons_self ..)]

/-- A list that sorts `x` behind everything it does not strictly precede. -/
theorem orderedInsert_append {r : α → α → Prop} [DecidableRel r] {x : α} {xs ys : List α}
    (hxs : ∀ a ∈ xs, ¬ r x a) (hys : ∀ b ∈ ys, r x b) :
    (xs ++ ys).orderedInsert r x = xs ++ x :: ys := by
  rw [orderedInsert_append_left hxs, orderedInsert_front hys]

/-- Sorted insertion does not show among elements of another kind. -/
theorem filter_orderedInsert_of_neg {r : α → α → Prop} [DecidableRel r] {p : α → Bool} {x : α}
    (hx : p x = false) (xs : List α) : (xs.orderedInsert r x).filter p = xs.filter p := by
  induction xs with
  | nil => simp [hx]
  | cons a xs ih =>
      rw [List.orderedInsert_cons]
      split
      · rw [List.filter_cons_of_neg (by simp [hx])]
      · rw [List.filter_cons, List.filter_cons, ih]

section Queue

variable {r : α → α → Prop} [DecidableRel r]

/-- Among elements of its own kind, sorted insertion is insertion into what is there
    of a sorted list. -/
theorem filter_orderedInsert_of_pos (htrans : ∀ a b c, r a b → ¬ r c b → r a c) {p : α → Bool}
    {x : α} (hx : p x = true) {xs : List α} (hxs : xs.Pairwise fun a b => ¬ r b a) :
    (xs.orderedInsert r x).filter p = (xs.filter p).orderedInsert r x := by
  induction xs with
  | nil => simp [hx]
  | cons a xs ih =>
      obtain ⟨ha, hrest⟩ := List.pairwise_cons.mp hxs
      rw [List.orderedInsert_cons]
      split
      · next hxa =>
          rw [List.filter_cons_of_pos hx, orderedInsert_front]
          intro b hb
          rcases List.mem_cons.mp (List.mem_filter.mp hb).1 with rfl | hin
          · exact hxa
          · exact htrans x a b hxa (ha b hin)
      · next hxa =>
          cases hpa : p a with
          | true =>
              rw [List.filter_cons_of_pos hpa, List.filter_cons_of_pos hpa, ih hrest,
                List.orderedInsert_cons, if_neg hxa]
          | false =>
              rw [List.filter_cons_of_neg (by simp [hpa]),
                List.filter_cons_of_neg (by simp [hpa]), ih hrest]

/-- Insertion behind equals keeps a list sorted. -/
theorem orderedInsert_pairwise (hasymm : ∀ a b, r a b → ¬ r b a)
    (htrans : ∀ a b c, r a b → ¬ r c b → r a c) {xs : List α} (x : α)
    (hxs : xs.Pairwise fun a b => ¬ r b a) :
    (xs.orderedInsert r x).Pairwise fun a b => ¬ r b a := by
  induction xs with
  | nil => exact List.pairwise_singleton ..
  | cons a xs ih =>
      obtain ⟨ha, hrest⟩ := List.pairwise_cons.mp hxs
      rw [List.orderedInsert_cons]
      split
      · next hxa =>
          refine List.pairwise_cons.mpr ⟨fun b hb => hasymm x b ?_, hxs⟩
          rcases List.mem_cons.mp hb with rfl | hb
          · exact hxa
          · exact htrans x a b hxa (ha b hb)
      · next hxa =>
          refine List.pairwise_cons.mpr ⟨fun b hb => ?_, ih hrest⟩
          rcases (List.mem_orderedInsert _).mp hb with rfl | hb
          · exact hxa
          · exact ha b hb

/-- Sorted insertion keeps another relation of earlier to later members, if `x` stands in
    it to the members on either side of its place. -/
theorem orderedInsert_pairwise_of {s : α → α → Prop} (htrans : ∀ a b c, r a b → ¬ r c b → r a c)
    {x : α} {xs : List α} (hsorted : xs.Pairwise fun a b => ¬ r b a) (hxs : xs.Pairwise s)
    (hbefore : ∀ a ∈ xs, ¬ r x a → s a x) (hbehind : ∀ b ∈ xs, r x b → s x b) :
    (xs.orderedInsert r x).Pairwise s := by
  induction xs with
  | nil => exact List.pairwise_singleton ..
  | cons a xs ih =>
      obtain ⟨ha, hrest⟩ := List.pairwise_cons.mp hsorted
      obtain ⟨hs, hpair⟩ := List.pairwise_cons.mp hxs
      rw [List.orderedInsert_cons]
      split
      · next hxa =>
          refine List.pairwise_cons.mpr ⟨fun b hb => hbehind b hb ?_, hxs⟩
          rcases List.mem_cons.mp hb with rfl | hb
          · exact hxa
          · exact htrans x a b hxa (ha b hb)
      · next hxa =>
          refine List.pairwise_cons.mpr ⟨fun b hb => ?_, ih hrest hpair
            (fun c hc => hbefore c (List.mem_cons_of_mem _ hc))
            (fun c hc => hbehind c (List.mem_cons_of_mem _ hc))⟩
          rcases (List.mem_orderedInsert _).mp hb with rfl | hb
          · exact hbefore a (List.mem_cons_self ..) hxa
          · exact hs b hb

/-- Insertion behind equals into a sublist of a sorted list. -/
theorem orderedInsert_sublist (htrans : ∀ a b c, r a b → ¬ r c b → r a c) {xs ys : List α} (x : α)
    (h : xs.Sublist ys) (hys : ys.Pairwise fun a b => ¬ r b a) :
    (xs.orderedInsert r x).Sublist (ys.orderedInsert r x) := by
  induction h with
  | slnil => exact List.Sublist.refl _
  | @cons xs ys a hsub ih =>
      obtain ⟨ha, hrest⟩ := List.pairwise_cons.mp hys
      rw [List.orderedInsert_cons]
      split
      · next hxa =>
          rw [orderedInsert_front fun b hb => htrans x a b hxa (ha b (hsub.subset hb))]
          exact (hsub.cons a).cons_cons x
      · exact (ih hrest).cons a
  | @cons_cons xs ys a hsub ih =>
      rw [List.orderedInsert_cons, List.orderedInsert_cons]
      split
      · exact (hsub.cons_cons a).cons_cons x
      · exact (ih (List.pairwise_cons.mp hys).2).cons_cons a

/-- Two insertions commute when one of the elements strictly precedes the other. -/
theorem orderedInsert_comm (hasymm : ∀ a b, r a b → ¬ r b a)
    (htrans : ∀ a b c, r a b → ¬ r c b → r a c) {x y : α} (hxy : r x y) (xs : List α) :
    (xs.orderedInsert r y).orderedInsert r x = (xs.orderedInsert r x).orderedInsert r y := by
  have hyx := hasymm x y hxy
  induction xs with
  | nil => simp [hxy, hyx]
  | cons a xs ih =>
      by_cases hya : r y a
      · have hxa : r x a := htrans x y a hxy (hasymm y a hya)
        simp [hya, hxa, hxy, hyx]
      · by_cases hxa : r x a
        · simp [hya, hxa, hyx]
        · simp [hya, hxa, ih]

/-- Insertion into a sorted list commutes with taking out an element of another
    kind. -/
theorem eraseP_orderedInsert (htrans : ∀ a b c, r a b → ¬ r c b → r a c) {p : α → Bool}
    {x : α} (hx : p x = false) {xs : List α} (hxs : xs.Pairwise fun a b => ¬ r b a) :
    (xs.orderedInsert r x).eraseP p = (xs.eraseP p).orderedInsert r x := by
  induction xs with
  | nil => simp [hx]
  | cons a xs ih =>
      obtain ⟨ha, hrest⟩ := List.pairwise_cons.mp hxs
      rw [List.orderedInsert_cons]
      split
      · next hxa =>
          rw [List.eraseP_cons_of_neg (by simp [hx]), orderedInsert_front]
          intro b hb
          rcases List.mem_cons.mp (List.mem_of_mem_eraseP hb) with rfl | hin
          · exact hxa
          · exact htrans x a b hxa (ha b hin)
      · next hxa =>
          cases hpa : p a with
          | true => rw [List.eraseP_cons_of_pos hpa, List.eraseP_cons_of_pos hpa]
          | false =>
              rw [List.eraseP_cons_of_neg (by simp [hpa]), List.eraseP_cons_of_neg (by simp [hpa]),
                ih hrest, List.orderedInsert_cons, if_neg hxa]

/-- Taking out an element of one kind does not change the first of another. -/
theorem find?_eraseP {p q : α → Bool} (hpq : ∀ a, p a = true → q a = false) (xs : List α) :
    (xs.eraseP p).find? q = xs.find? q := by
  induction xs with
  | nil => rfl
  | cons a xs ih =>
      cases hpa : p a with
      | true =>
          rw [List.eraseP_cons_of_pos hpa, List.find?_cons_of_neg (by simp [hpq a hpa])]
      | false =>
          rw [List.eraseP_cons_of_neg (by simp [hpa]), List.find?_cons, List.find?_cons, ih]

/-- Sorted insertion does not change the first element of another kind. -/
theorem find?_orderedInsert {q : α → Bool} {x : α} (hx : q x = false) (xs : List α) :
    (xs.orderedInsert r x).find? q = xs.find? q := by
  induction xs with
  | nil => simp [hx]
  | cons a xs ih =>
      rw [List.orderedInsert_cons]
      split
      · rw [List.find?_cons_of_neg (by simp [hx])]
      · rw [List.find?_cons, List.find?_cons, ih]

theorem foldl_orderedInsert_pairwise (hasymm : ∀ a b, r a b → ¬ r b a)
    (htrans : ∀ a b c, r a b → ¬ r c b → r a c) (new : List α) {queue : List α}
    (h : queue.Pairwise fun a b => ¬ r b a) :
    (new.foldl (fun queue x => queue.orderedInsert r x) queue).Pairwise fun a b => ¬ r b a := by
  induction new generalizing queue with
  | nil => exact h
  | cons x new ih => exact ih (orderedInsert_pairwise hasymm htrans x h)

theorem foldl_orderedInsert_perm (new queue : List α) :
    (new.foldl (fun queue x => queue.orderedInsert r x) queue).Perm (new ++ queue) := by
  induction new generalizing queue with
  | nil => exact List.Perm.refl _
  | cons x new ih =>
      have hone : (new ++ queue.orderedInsert r x).Perm (new ++ x :: queue) :=
        (List.perm_orderedInsert r x queue).append_left new
      exact ((ih _).trans hone).trans List.perm_middle

end Queue

/-- Lists with the same keys, whose elements agree wherever their keys do, agree. -/
theorem map_eq_of_keys {f : α → γ} {g : β → γ} {f' : α → δ} {g' : β → δ} {xs : List α}
    {ys : List β} (h : xs.map f = ys.map g)
    (hkey : ∀ x ∈ xs, ∀ y ∈ ys, f x = g y → f' x = g' y) : xs.map f' = ys.map g' := by
  induction xs generalizing ys with
  | nil =>
      obtain rfl := List.map_eq_nil_iff.mp h.symm
      rfl
  | cons x xs ih =>
      obtain ⟨y, ys, rfl, hy, hys⟩ := List.map_eq_cons_iff.mp h.symm
      rw [List.map_cons, List.map_cons, hkey x (List.mem_cons_self ..) y (List.mem_cons_self ..)
        hy.symm, ih hys.symm fun a ha b hb =>
          hkey a (List.mem_cons_of_mem _ ha) b (List.mem_cons_of_mem _ hb)]

/-- A sublist of a duplicate-free list with the same members is that list. -/
theorem eq_of_sublist_of_subset {xs ys : List α} (h : xs.Sublist ys) (hnodup : ys.Nodup)
    (hsub : ys ⊆ xs) : xs = ys :=
  h.eq_of_length_le (hnodup.subperm hsub).length_le

/-- Every index of a duplicate-free order splits it. -/
theorem split_of_mem {order : List ι} {i : ι} (hnodup : order.Nodup) (hi : i ∈ order) :
    ∃ pre post, order = pre ++ i :: post ∧ i ∉ pre ∧ i ∉ post := by
  obtain ⟨pre, post, rfl⟩ := List.append_of_mem hi
  have hmid := List.nodup_middle.mp hnodup
  have hnot := (List.nodup_cons.mp hmid).1
  exact ⟨pre, post, rfl, fun h => hnot (List.mem_append_left _ h),
    fun h => hnot (List.mem_append_right _ h)⟩

/-- When all buckets served before `i` are empty, bucket `i` heads the queue. -/
theorem flatMap_of_prefix_empty {q : ι → List α} {pre post : List ι} {i : ι}
    (hpre : ∀ j ∈ pre, q j = []) :
    (pre ++ i :: post).flatMap q = q i ++ post.flatMap q := by
  have : pre.flatMap q = [] := List.flatMap_eq_nil_iff.mpr hpre
  simp [this]

section Update

variable [DecidableEq ι] {q : ι → List α} {order pre post : List ι} {i : ι} {xs : List α}

theorem flatMap_update_of_notMem (hi : i ∉ order) :
    order.flatMap (Function.update q i xs) = order.flatMap q := by
  apply List.flatMap_congr
  intro j hj
  rw [Function.update_of_ne (ne_of_mem_of_not_mem hj hi)]

/-- Replacing one bucket replaces one stretch of the queue. -/
theorem flatMap_update (hpre : i ∉ pre) (hpost : i ∉ post) :
    (pre ++ i :: post).flatMap (Function.update q i xs) =
      pre.flatMap q ++ xs ++ post.flatMap q := by
  rw [List.flatMap_append, List.flatMap_cons, flatMap_update_of_notMem hpre,
    flatMap_update_of_notMem hpost, Function.update_self, List.append_assoc]

/-- A bucket that gains one member gains it for the queue. -/
theorem flatMap_update_perm_cons {x : α} (hnodup : order.Nodup) (hi : i ∈ order)
    (hxs : xs.Perm (x :: q i)) :
    (order.flatMap (Function.update q i xs)).Perm (x :: order.flatMap q) := by
  obtain ⟨pre, post, rfl, hpre, hpost⟩ := split_of_mem hnodup hi
  rw [flatMap_update hpre hpost, List.flatMap_append, List.flatMap_cons]
  have hmid : (pre.flatMap q ++ xs ++ post.flatMap q).Perm
      (pre.flatMap q ++ (x :: q i) ++ post.flatMap q) :=
    (hxs.append_left _).append_right _
  refine hmid.trans ?_
  rw [List.append_assoc]
  exact List.perm_middle

/-- A bucket that loses one member loses it for the queue. -/
theorem flatMap_update_perm_of_cons {x : α} (hnodup : order.Nodup) (hi : i ∈ order)
    (hxs : (q i).Perm (x :: xs)) :
    (order.flatMap q).Perm (x :: order.flatMap (Function.update q i xs)) := by
  have h : (order.flatMap (Function.update (Function.update q i xs) i (q i))).Perm
      (x :: order.flatMap (Function.update q i xs)) :=
    flatMap_update_perm_cons hnodup hi (by rwa [Function.update_self])
  rwa [Function.update_idem, Function.update_eq_self] at h

end Update

end LimitOrderBook.Lib.Buckets
