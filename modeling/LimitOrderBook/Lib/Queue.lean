/-
  LimitOrderBook.Lib.Queue

  Queues whose members may shrink and leave, and in which nobody overtakes.

  `Follows` relates two states of such a queue: in front what is left of some of the
  old members, in their order, and behind it members that came later.
-/
import LimitOrderBook.Lib.Sweep
import Mathlib.Data.List.Forall2

namespace LimitOrderBook.Lib

variable {α : Type*} {R : α → α → Prop}

section

variable {l xs ys : List α}

/-- What is left of two stretches of a queue splits in two. -/
theorem sublistForall₂_append (h : l.SublistForall₂ R (xs ++ ys)) :
    ∃ l₁ l₂, l = l₁ ++ l₂ ∧ l₁.SublistForall₂ R xs ∧ l₂.SublistForall₂ R ys := by
  induction xs generalizing l with
  | nil => exact ⟨[], l, rfl, .nil, h⟩
  | cons x xs ih =>
      cases h with
      | nil => exact ⟨[], [], rfl, .nil, .nil⟩
      | cons hax h =>
          obtain ⟨l₁, l₂, rfl, h₁, h₂⟩ := ih h
          exact ⟨_ :: l₁, l₂, rfl, .cons hax h₁, h₂⟩
      | cons_right h =>
          obtain ⟨l₁, l₂, rfl, h₁, h₂⟩ := ih h
          exact ⟨l₁, l₂, rfl, .cons_right h₁, h₂⟩

/-- Each is left of a member. -/
theorem mem_of_sublistForall₂ (h : l.SublistForall₂ R xs) {a : α} (ha : a ∈ l) :
    ∃ b ∈ xs, R a b := by
  induction h with
  | nil => exact absurd ha List.not_mem_nil
  | @cons a₁ a₂ l₁ l₂ hR _ ih =>
      rcases List.mem_cons.mp ha with rfl | ha
      · exact ⟨a₂, List.mem_cons_self .., hR⟩
      · obtain ⟨b, hb, hab⟩ := ih ha
        exact ⟨b, List.mem_cons_of_mem _ hb, hab⟩
  | cons_right _ ih =>
      obtain ⟨b, hb, hab⟩ := ih ha
      exact ⟨b, List.mem_cons_of_mem _ hb, hab⟩

/-- A part of the queue that does not depend on how much is left. -/
theorem sublistForall₂_filter {p : α → Bool} (hp : ∀ a b, R a b → p a = p b)
    (h : l.SublistForall₂ R xs) : (l.filter p).SublistForall₂ R (xs.filter p) := by
  induction h with
  | nil => exact .nil
  | @cons a b l₁ l₂ hR _ ih =>
      rw [List.filter_cons, List.filter_cons, hp a b hR]
      split
      · exact .cons hR ih
      · exact ih
  | @cons_right b l₁ l₂ _ ih =>
      rw [List.filter_cons]
      split
      · exact .cons_right ih
      · exact ih

end

/-- `ys` follows `xs`: what is left of members of `xs`, in their order, and behind it
    members that are new. -/
def Follows (R : α → α → Prop) (new : α → Prop) (xs ys : List α) : Prop :=
  ∃ survivors newcomers, ys = survivors ++ newcomers ∧ survivors.SublistForall₂ R xs ∧
    ∀ y ∈ newcomers, new y

section

variable {new new' : α → Prop} {xs ys zs : List α}

/-- Members shrink and leave. -/
theorem Follows.shrink (h : ys.SublistForall₂ R xs) : Follows R new xs ys :=
  ⟨ys, [], (List.append_nil ys).symm, h, fun _ hy => absurd hy List.not_mem_nil⟩

theorem Follows.refl [Std.Refl R] (xs : List α) : Follows R new xs xs :=
  .shrink (Std.Refl.refl xs)

/-- A new member goes to the back. -/
theorem Follows.snoc {y : α} (h : Follows R new xs ys) (hy : new y) :
    Follows R new xs (ys ++ [y]) := by
  obtain ⟨survivors, newcomers, rfl, hsurvivors, hnew⟩ := h
  refine ⟨survivors, newcomers ++ [y], List.append_assoc .., hsurvivors, fun z hz => ?_⟩
  rcases List.mem_append.mp hz with hz | hz
  · exact hnew z hz
  · exact List.mem_singleton.mp hz ▸ hy

theorem Follows.mono (h : Follows R new xs ys) (hsub : ∀ y, new y → new' y) :
    Follows R new' xs ys := by
  obtain ⟨survivors, newcomers, rfl, hsurvivors, hnew⟩ := h
  exact ⟨survivors, newcomers, rfl, hsurvivors, fun y hy => hsub y (hnew y hy)⟩

/-- What is left of new members is new. -/
theorem Follows.trans [IsTrans α R] (hnew : ∀ a b, R a b → new b → new a)
    (h : Follows R new xs ys) (h' : Follows R new ys zs) : Follows R new xs zs := by
  obtain ⟨survivors, newcomers, rfl, hsurvivors, hold⟩ := h
  obtain ⟨survivors', newcomers', rfl, hsurvivors', hlate⟩ := h'
  obtain ⟨l₁, l₂, rfl, h₁, h₂⟩ := sublistForall₂_append hsurvivors'
  refine ⟨l₁, l₂ ++ newcomers', List.append_assoc .., IsTrans.trans _ _ _ h₁ hsurvivors,
    fun y hy => ?_⟩
  rcases List.mem_append.mp hy with hy | hy
  · obtain ⟨b, hb, hyb⟩ := mem_of_sublistForall₂ h₂ hy
    exact hnew y b hyb (hold b hb)
  · exact hlate y hy

end

/-- A sweep serves a queue from the front. -/
theorem Supply.sweep_serves {S : Supply α} {wanted : α → Bool} {left : Int} {xs : List α}
    [Std.Refl R] (hR : ∀ x q, 0 < q → R (S.reduce x q) x) :
    (S.sweep wanted left xs).kept.SublistForall₂ R xs := by
  induction xs generalizing left with
  | nil => exact .nil
  | cons x xs ih =>
      rcases S.sweep_cases wanted left x xs with ⟨-, heq⟩ | ⟨hpos, -, -, heq⟩ | ⟨-, -, -, heq⟩
      · rw [heq]
        exact Std.Refl.refl _
      · rw [heq]
        exact .cons (hR x left hpos) (Std.Refl.refl xs)
      · rw [heq]
        exact .cons_right ih

end LimitOrderBook.Lib
