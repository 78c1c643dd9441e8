/-
  LimitOrderBook.Lib.DList

  Doubly linked lists threaded through the nodes of a heap.

  The heap is seen only through the two link fields of its nodes (`Links`); a
  list is a pair of end pointers (`Ends`).  `pushBack` and `unlink` are the two
  edits, as a sequence of single-field stores.  `Rep` says that the nodes
  reachable from the ends are exactly `xs`, in order and linked both ways.

  A list segment (`Seg`) has a node before it and a node after it; the seam
  lemma `seg_append` cuts a list at the node being edited, and the stores then
  touch the end of one segment only.
-/
import Mathlib.Data.List.Induction
import Mathlib.Data.List.Nodup
import Mathlib.Logic.Function.Basic

namespace LimitOrderBook.Lib.DList

variable {α : Type*}

/-- The link fields of every node. -/
@[ext] structure Links (α : Type*) where
  prev : α → Option α
  next : α → Option α

/-- The two end pointers of a list. -/
@[ext] structure Ends (α : Type*) where
  head : Option α
  tail : Option α

/-- `xs` is linked both ways, from the node `before` it to the node `after` it. -/
def Seg (L : Links α) : Option α → List α → Option α → Prop
  | _, [], _ => True
  | before, x :: xs, after =>
      L.prev x = before ∧ L.next x = xs.head?.or after ∧ Seg L (some x) xs after

/-- The list with ends `E` is `xs`. -/
structure Rep (L : Links α) (E : Ends α) (xs : List α) : Prop where
  nodup : xs.Nodup
  head : E.head = xs.head?
  tail : E.tail = xs.getLast?
  seg : Seg L none xs none

/-- Follow `next` from a cursor; `none` when `fuel` nodes do not reach the end. -/
def walk (next : α → Option α) : Nat → Option α → Option (List α)
  | _, none => some []
  | 0, some _ => none
  | fuel + 1, some x => (walk next fuel (next x)).map (x :: ·)

-- ============================================================================
-- Segments
-- ============================================================================

theorem seg_congr {L L' : Links α} {before after : Option α} {xs : List α}
    (h : ∀ x ∈ xs, L'.prev x = L.prev x ∧ L'.next x = L.next x)
    (hs : Seg L before xs after) : Seg L' before xs after := by
  induction xs generalizing before with
  | nil => trivial
  | cons x xs ih =>
      obtain ⟨hp, hn, hrest⟩ := hs
      have hx := h x (List.mem_cons_self ..)
      exact ⟨hx.1.trans hp, hx.2.trans hn,
        ih (fun y hy => h y (List.mem_cons_of_mem _ hy)) hrest⟩

/-- Cutting a segment: each half is a segment up to the seam. -/
theorem seg_append {L : Links α} {before after : Option α} {xs ys : List α} :
    Seg L before (xs ++ ys) after ↔
      Seg L before xs (ys.head?.or after) ∧ Seg L (xs.getLast?.or before) ys after := by
  induction xs generalizing before with
  | nil => simp [Seg]
  | cons x xs ih =>
      have hlast : ((x :: xs).getLast?.or before) = xs.getLast?.or (some x) := by
        cases xs <;> simp [List.getLast?_cons]
      have hhead : (xs ++ ys).head?.or after = xs.head?.or (ys.head?.or after) := by
        cases xs <;> simp
      simp only [List.cons_append, Seg, ih, hlast, hhead, and_assoc]

/-- The links of the node in the middle. -/
theorem seg_middle {L : Links α} {xs ys : List α} {x : α}
    (h : Seg L none (xs ++ x :: ys) none) :
    L.prev x = xs.getLast? ∧ L.next x = ys.head? := by
  obtain ⟨-, hprev, hnext, -⟩ := seg_append.mp h
  exact ⟨by simpa using hprev, by simpa using hnext⟩

/-- The nodes of a list are what `walk` visits. -/
theorem walk_of_seg {L : Links α} {before : Option α} {xs : List α} {fuel : Nat}
    (h : Seg L before xs none) (hfuel : xs.length ≤ fuel) :
    walk L.next fuel xs.head? = some xs := by
  induction xs generalizing before fuel with
  | nil => cases fuel <;> rfl
  | cons x xs ih =>
      obtain ⟨k, rfl⟩ : ∃ k, fuel = k + 1 :=
        ⟨fuel - 1, by simp only [List.length_cons] at hfuel; omega⟩
      obtain ⟨-, hnext, hrest⟩ := h
      have hk : xs.length ≤ k := by simpa using hfuel
      simp only [List.head?_cons, walk, hnext, Option.or_none, ih hrest hk, Option.map_some]

theorem Rep.walk {L : Links α} {E : Ends α} {xs : List α} {fuel : Nat}
    (h : Rep L E xs) (hfuel : xs.length ≤ fuel) : walk L.next fuel E.head = some xs := by
  rw [h.head]
  exact walk_of_seg h.seg hfuel

/-- Walking the other way visits the nodes in reverse. -/
theorem walk_prev_of_seg {L : Links α} {after : Option α} {xs : List α} {fuel : Nat}
    (h : Seg L none xs after) (hfuel : xs.length ≤ fuel) :
    DList.walk L.prev fuel xs.getLast? = some xs.reverse := by
  induction xs using List.reverseRecOn generalizing after fuel with
  | nil => cases fuel <;> rfl
  | append_singleton xs x ih =>
      obtain ⟨k, rfl⟩ : ∃ k, fuel = k + 1 :=
        ⟨fuel - 1, by simp only [List.length_append, List.length_singleton] at hfuel; omega⟩
      obtain ⟨hinit, hprev, -⟩ := seg_append.mp h
      have hk : xs.length ≤ k := by simpa using hfuel
      simp only [Option.or_none] at hprev
      simp only [List.getLast?_concat, DList.walk, hprev, ih hinit hk, Option.map_some,
        List.reverse_append, List.reverse_singleton, List.singleton_append]

theorem Rep.congr {L L' : Links α} {E : Ends α} {xs : List α}
    (h : ∀ x ∈ xs, L'.prev x = L.prev x ∧ L'.next x = L.next x)
    (hr : Rep L E xs) : Rep L' E xs :=
  ⟨hr.nodup, hr.head, hr.tail, seg_congr h hr.seg⟩

theorem Rep.nil {L : Links α} : Rep L ⟨none, none⟩ [] := ⟨List.nodup_nil, rfl, rfl, trivial⟩

/-- The head pointer is null exactly for the empty list. -/
theorem Rep.head_isNone {L : Links α} {E : Ends α} {xs : List α} (h : Rep L E xs) :
    E.head = none ↔ xs = [] := by
  rw [h.head]; exact List.head?_eq_none_iff

-- ============================================================================
-- The two edits
-- ============================================================================

variable [DecidableEq α]

def Links.setPrev (L : Links α) (x : α) (v : Option α) : Links α :=
  { L with prev := Function.update L.prev x v }

def Links.setNext (L : Links α) (x : α) (v : Option α) : Links α :=
  { L with next := Function.update L.next x v }

section Stores

variable (L : Links α) (x y : α) (v : Option α)

@[simp] theorem setPrev_next : (L.setPrev x v).next = L.next := rfl
@[simp] theorem setNext_prev : (L.setNext x v).prev = L.prev := rfl
@[simp] theorem setPrev_prev_self : (L.setPrev x v).prev x = v := by simp [Links.setPrev]
@[simp] theorem setNext_next_self : (L.setNext x v).next x = v := by simp [Links.setNext]

variable {L x y v}

theorem setPrev_prev_of_ne (h : y ≠ x) : (L.setPrev x v).prev y = L.prev y := by
  simp [Links.setPrev, h]

theorem setNext_next_of_ne (h : y ≠ x) : (L.setNext x v).next y = L.next y := by
  simp [Links.setNext, h]

end Stores

/-- Append node `x` at the tail. -/
def pushBack (L : Links α) (E : Ends α) (x : α) : Links α × Ends α :=
  let L := (L.setPrev x E.tail).setNext x none
  match E.tail with
  | some t => (L.setNext t (some x), ⟨E.head, some x⟩)
  | none => (L, ⟨some x, some x⟩)

/-- The first half of `unlink`: the predecessor (or the head) skips `x`. -/
def bypassPrev (L : Links α) (E : Ends α) (x : α) : Links α × Ends α :=
  match L.prev x with
  | some y => (L.setNext y (L.next x), E)
  | none => (L, { E with head := L.next x })

/-- The second half of `unlink`: the successor (or the tail) skips `x`. -/
def bypassNext (L : Links α) (E : Ends α) (x : α) : Links α × Ends α :=
  match L.next x with
  | some z => (L.setPrev z (L.prev x), E)
  | none => (L, { E with tail := L.prev x })

/-- Take node `x` out and clear its links. -/
def unlink (L : Links α) (E : Ends α) (x : α) : Links α × Ends α :=
  let r := bypassPrev L E x
  let r := bypassNext r.1 r.2 x
  ((r.1.setPrev x none).setNext x none, r.2)

theorem seg_setNext {L : Links α} {before after v : Option α} {xs : List α} {x : α}
    (hx : x ∉ xs) (h : Seg L before xs after) : Seg (L.setNext x v) before xs after := by
  refine seg_congr ?_ h
  intro y hy
  exact ⟨rfl, setNext_next_of_ne (ne_of_mem_of_not_mem hy hx)⟩

theorem seg_setPrev {L : Links α} {before after v : Option α} {xs : List α} {x : α}
    (hx : x ∉ xs) (h : Seg L before xs after) : Seg (L.setPrev x v) before xs after := by
  refine seg_congr ?_ h
  intro y hy
  exact ⟨setPrev_prev_of_ne (ne_of_mem_of_not_mem hy hx), rfl⟩

/-- Redirecting the last node changes what comes after the segment. -/
theorem seg_setNext_last {L : Links α} {before after v : Option α} {xs : List α} {x : α}
    (hx : x ∉ xs) (h : Seg L before (xs ++ [x]) after) :
    Seg (L.setNext x v) before (xs ++ [x]) v := by
  obtain ⟨hinit, hprev, -⟩ := seg_append.mp h
  exact seg_append.mpr ⟨seg_setNext hx hinit, hprev, by simp, trivial⟩

/-- Redirecting the first node changes what comes before the segment. -/
theorem seg_setPrev_head {L : Links α} {before after v : Option α} {xs : List α} {x : α}
    (hx : x ∉ xs) (h : Seg L before (x :: xs) after) :
    Seg (L.setPrev x v) v (x :: xs) after := by
  obtain ⟨-, hnext, hrest⟩ := h
  exact ⟨by simp, hnext, seg_setPrev hx hrest⟩

-- ============================================================================
-- `pushBack`
-- ============================================================================

/-- `pushBack` appends. -/
theorem Rep.pushBack {L : Links α} {E : Ends α} {xs : List α} {x : α}
    (h : Rep L E xs) (hx : x ∉ xs) :
    Rep (pushBack L E x).1 (pushBack L E x).2 (xs ++ [x]) := by
  have hnodup : (xs ++ [x]).Nodup := by
    simp only [List.nodup_append, List.nodup_singleton, h.nodup, true_and]
    rintro a ha b hb rfl
    exact hx (by simpa using List.mem_singleton.mp hb ▸ ha)
  have hold : Seg ((L.setPrev x E.tail).setNext x none) none xs none :=
    seg_setNext hx (seg_setPrev hx h.seg)
  induction xs using List.reverseRecOn with
  | nil =>
      have htail : E.tail = none := h.tail
      simp only [DList.pushBack, htail]
      exact ⟨hnodup, rfl, rfl, by simp [Seg]⟩
  | append_singleton xs t _ =>
      have htail : E.tail = some t := by rw [h.tail]; simp
      have htx : t ∉ xs := by
        have := h.nodup
        simp only [List.nodup_append, List.mem_singleton] at this
        intro ht
        exact this.2.2 t ht t rfl rfl
      have hxt : x ≠ t := fun e => hx (by simp [e])
      simp only [DList.pushBack, htail] at hold ⊢
      refine ⟨hnodup, ?_, by simp, ?_⟩
      · have := h.head
        rw [this]
        cases xs <;> simp
      · refine seg_append.mpr ⟨seg_setNext_last htx hold, ?_, ?_, trivial⟩
        · simp
        · rw [setNext_next_of_ne hxt]
          simp

/-- `pushBack` writes only `x` and the old tail. -/
theorem pushBack_frame {L : Links α} {E : Ends α} {x y : α}
    (hx : y ≠ x) (ht : E.tail ≠ some y) :
    (pushBack L E x).1.prev y = L.prev y ∧ (pushBack L E x).1.next y = L.next y := by
  unfold pushBack
  cases htail : E.tail with
  | none => exact ⟨setPrev_prev_of_ne hx, setNext_next_of_ne hx⟩
  | some t =>
      have hyt : y ≠ t := fun e => ht (by rw [htail, e])
      refine ⟨setPrev_prev_of_ne hx, ?_⟩
      rw [setNext_next_of_ne hyt, setNext_next_of_ne hx]
      rfl

/-- `pushBack` leaves every node of another list alone. -/
theorem Rep.pushBack_outside {L : Links α} {E : Ends α} {xs : List α} {x y : α}
    (h : Rep L E xs) (hx : y ≠ x) (hy : y ∉ xs) :
    (DList.pushBack L E x).1.prev y = L.prev y ∧
      (DList.pushBack L E x).1.next y = L.next y := by
  refine pushBack_frame hx ?_
  rw [h.tail]
  intro hlast
  exact hy (List.mem_of_getLast? hlast)

-- ============================================================================
-- `unlink`
-- ============================================================================

/-- After the first half, the nodes before `x` lead to the nodes after it. -/
theorem bypassPrev_seg {L : Links α} {E : Ends α} {xs ys : List α} {x : α}
    (h : Rep L E (xs ++ x :: ys)) :
    Seg (bypassPrev L E x).1 none xs ys.head? ∧
    Seg (bypassPrev L E x).1 xs.getLast? (x :: ys) none ∧
    (bypassPrev L E x).2 = ⟨(xs ++ ys).head?, E.tail⟩ := by
  obtain ⟨hprev, hnext⟩ := seg_middle h.seg
  obtain ⟨hxs, hys⟩ := seg_append.mp h.seg
  simp only [Option.or_none] at hys
  have hdisj := List.nodup_append.mp h.nodup
  rcases List.eq_nil_or_concat xs with rfl | ⟨xs, y, rfl⟩
  · simp only [bypassPrev, hprev, List.getLast?_nil]
    exact ⟨trivial, hys, by simp [hnext]⟩
  · simp only [List.concat_eq_append] at *
    have hyxs : y ∉ xs := by
      have := (List.nodup_append.mp hdisj.1).2.2
      intro hy
      exact this y hy y (by simp) rfl
    have hyys : y ∉ x :: ys := fun hy => hdisj.2.2 y (by simp) y hy rfl
    simp only [bypassPrev, hprev, List.getLast?_concat]
    refine ⟨?_, ?_, ?_⟩
    · rw [hnext]
      exact seg_setNext_last hyxs hxs
    · exact seg_setNext hyys (by simpa using hys)
    · have := h.head
      apply Ends.ext
      · rw [this]
        cases xs <;> simp
      · rfl

/-- After the second half, the nodes after `x` lead back to the nodes before it. -/
theorem bypassNext_seg {L : Links α} {E : Ends α} {xs ys : List α} {x : α}
    (hnodup : (xs ++ x :: ys).Nodup)
    (hxs : Seg L none xs ys.head?) (hys : Seg L xs.getLast? (x :: ys) none)
    (htail : E.tail = (xs ++ x :: ys).getLast?) :
    Seg (bypassNext L E x).1 none xs ys.head? ∧
    Seg (bypassNext L E x).1 xs.getLast? ys none ∧
    (bypassNext L E x).2 = ⟨E.head, (xs ++ ys).getLast?⟩ := by
  obtain ⟨hprev, hnext, hrest⟩ := hys
  simp only [Option.or_none] at hnext
  have hdisj := List.nodup_append.mp hnodup
  cases ys with
  | nil =>
      simp only [bypassNext, hnext, List.head?_nil] at hxs ⊢
      refine ⟨hxs, trivial, ?_⟩
      rw [hprev]
      simp
  | cons z ys =>
      have hz : z ∉ ys := (List.nodup_cons.mp (List.nodup_cons.mp hdisj.2.1).2).1
      have hzxs : z ∉ xs := fun hm => hdisj.2.2 z hm z (by simp) rfl
      simp only [bypassNext, hnext, List.head?_cons] at hxs ⊢
      refine ⟨seg_setPrev hzxs hxs, ?_, ?_⟩
      · rw [hprev]
        exact seg_setPrev_head hz hrest
      · apply Ends.ext
        · rfl
        · rw [htail]
          simp [List.getLast?_append, List.getLast?_cons]

/-- `unlink` takes exactly the named node out. -/
theorem Rep.unlink {L : Links α} {E : Ends α} {xs ys : List α} {x : α}
    (h : Rep L E (xs ++ x :: ys)) :
    Rep (unlink L E x).1 (unlink L E x).2 (xs ++ ys) := by
  obtain ⟨hpre, hpost, hends⟩ := bypassPrev_seg h
  have htail : (bypassPrev L E x).2.tail = (xs ++ x :: ys).getLast? := by
    rw [hends]; exact h.tail
  obtain ⟨hpre', hpost', hends'⟩ := bypassNext_seg h.nodup hpre hpost htail
  have hmid := List.nodup_middle.mp h.nodup
  obtain ⟨hx, hnodup⟩ := List.nodup_cons.mp hmid
  have hxxs : x ∉ xs := fun hm => hx (List.mem_append_left _ hm)
  have hxys : x ∉ ys := fun hm => hx (List.mem_append_right _ hm)
  refine ⟨hnodup, ?_, ?_, ?_⟩
  · simp only [DList.unlink]
    rw [hends', hends]
  · simp only [DList.unlink]
    rw [hends']
  · refine seg_append.mpr ⟨?_, ?_⟩
    · simp only [Option.or_none]
      exact seg_setNext hxxs (seg_setPrev hxxs hpre')
    · simp only [Option.or_none]
      exact seg_setNext hxys (seg_setPrev hxys hpost')

/-- `unlink` writes only `x` and its two neighbours. -/
theorem unlink_frame {L : Links α} {E : Ends α} {x y : α}
    (hx : y ≠ x) (hprev : L.prev x ≠ some y) (hnext : L.next x ≠ some y) :
    (unlink L E x).1.prev y = L.prev y ∧ (unlink L E x).1.next y = L.next y := by
  have h1 : (bypassPrev L E x).1.prev y = L.prev y ∧ (bypassPrev L E x).1.next y = L.next y := by
    unfold bypassPrev
    cases hp : L.prev x with
    | none => exact ⟨rfl, rfl⟩
    | some w => exact ⟨rfl, setNext_next_of_ne (fun e => hprev (by rw [hp, e]))⟩
  have hnext' : (bypassPrev L E x).1.next x = L.next x := by
    unfold bypassPrev
    cases hp : L.prev x with
    | none => rfl
    | some w =>
        by_cases hw : x = w
        · subst hw; simp
        · exact setNext_next_of_ne hw
  have h2 : ∀ M : Links α, ∀ F : Ends α, M.next x ≠ some y →
      (bypassNext M F x).1.prev y = M.prev y ∧ (bypassNext M F x).1.next y = M.next y := by
    intro M F hM
    unfold bypassNext
    cases hn : M.next x with
    | none => exact ⟨rfl, rfl⟩
    | some w => exact ⟨setPrev_prev_of_ne (fun e => hM (by rw [hn, e])), rfl⟩
  obtain ⟨h2p, h2n⟩ := h2 (bypassPrev L E x).1 (bypassPrev L E x).2 (by rw [hnext']; exact hnext)
  unfold unlink
  refine ⟨?_, ?_⟩
  · rw [setNext_prev, setPrev_prev_of_ne hx, h2p, h1.1]
  · rw [setNext_next_of_ne hx, setPrev_next, h2n, h1.2]

/-- `unlink` leaves every node of another list alone. -/
theorem Rep.unlink_outside {L : Links α} {E : Ends α} {xs ys : List α} {x y : α}
    (h : Rep L E (xs ++ x :: ys)) (hy : y ∉ xs ++ x :: ys) :
    (DList.unlink L E x).1.prev y = L.prev y ∧ (DList.unlink L E x).1.next y = L.next y := by
  obtain ⟨hprev, hnext⟩ := seg_middle h.seg
  refine unlink_frame ?_ ?_ ?_
  · rintro rfl
    exact hy (by simp)
  · rw [hprev]
    intro hlast
    exact hy (List.mem_append_left _ (List.mem_of_getLast? hlast))
  · rw [hnext]
    intro hhead
    exact hy (List.mem_append_right _ (List.mem_cons_of_mem _ (List.mem_of_mem_head? hhead)))

/-- The node taken out has null links. -/
theorem unlink_self {L : Links α} {E : Ends α} {x : α} :
    (unlink L E x).1.prev x = none ∧ (unlink L E x).1.next x = none := by
  unfold unlink
  exact ⟨by simp, by simp⟩

end LimitOrderBook.Lib.DList
