/-
  LimitOrderBook.Lib.WeakMemory

  A memory of atomic and plain locations under release and acquire accesses.

  An atomic location is the list of the messages stored to it, in modification
  order.  A thread may load any message that it has not seen a later one of.  A
  message carries the view of the thread that stored it, and an acquire load takes
  that view over: all that happens before the store then happens before what the
  thread does next.  A relaxed load takes the value alone.

  Every access of a plain location has a number, and a view holds the numbers of
  the accesses that happen before.  Two accesses of one place race when one of
  them writes and neither happens before the other; `raced` records that there
  were two such accesses.

  Read-modify-writes and fences are left out.  A store needs a place behind all
  messages that its thread has seen; the memory has the one behind all messages,
  so a location is for one writing thread at a time.
-/
import Mathlib.Data.Finset.Insert
import Mathlib.Data.Finset.Lattice.Basic
import Mathlib.Data.List.Basic
import Mathlib.Logic.Function.Basic
import Mathlib.Order.Lattice

namespace LimitOrderBook.Lib.WeakMemory

variable {T A P W V : Type*}

/-- How far a thread has come: the last message that it has seen of each atomic
    location, and the plain accesses that happen before what it does next. -/
@[ext] structure View (A : Type*) where
  seen : A → Nat
  past : Finset Nat

namespace View

instance : LE (View A) := ⟨fun v w => (∀ a, v.seen a ≤ w.seen a) ∧ v.past ⊆ w.past⟩

instance : PartialOrder (View A) where
  le_refl v := ⟨fun _ => Nat.le_refl _, Finset.Subset.refl _⟩
  le_trans _ _ _ h h' := ⟨fun a => Nat.le_trans (h.1 a) (h'.1 a), h.2.trans h'.2⟩
  le_antisymm _ _ h h' :=
    View.ext (funext fun a => Nat.le_antisymm (h.1 a) (h'.1 a)) (h.2.antisymm h'.2)

instance : SemilatticeSup (View A) where
  sup v w := ⟨fun a => max (v.seen a) (w.seen a), v.past ∪ w.past⟩
  le_sup_left _ _ := ⟨fun _ => Nat.le_max_left .., Finset.subset_union_left⟩
  le_sup_right _ _ := ⟨fun _ => Nat.le_max_right .., Finset.subset_union_right⟩
  sup_le _ _ _ h h' := ⟨fun a => Nat.max_le.mpr ⟨h.1 a, h'.1 a⟩, Finset.union_subset h.2 h'.2⟩

@[simp] theorem sup_seen (v w : View A) (a : A) : (v ⊔ w).seen a = max (v.seen a) (w.seen a) := rfl

@[simp] theorem sup_past (v w : View A) : (v ⊔ w).past = v.past ∪ w.past := rfl

/-- Nothing seen but the initial messages. -/
def start : View A := ⟨fun _ => 0, ∅⟩

/-- Message `i` of location `a` is seen. -/
def see [DecidableEq A] (v : View A) (a : A) (i : Nat) : View A :=
  { v with seen := Function.update v.seen a i }

/-- Access `e` is made. -/
def know (v : View A) (e : Nat) : View A := { v with past := insert e v.past }

theorem le_know (v : View A) (e : Nat) : v ≤ v.know e :=
  ⟨fun _ => Nat.le_refl _, Finset.subset_insert ..⟩

@[simp] theorem know_seen (v : View A) (e : Nat) : (v.know e).seen = v.seen := rfl

/-- Message `i` of location `a` is loaded, which carries the view `w`. -/
def take [DecidableEq A] (v : View A) (a : A) (i : Nat) (acquire : Bool) (w : View A) : View A :=
  if acquire then v.see a i ⊔ w else v.see a i

section

variable [DecidableEq A] {v w : View A} {a b : A} {i : Nat} {acquire : Bool}

@[simp] theorem see_past : (v.see a i).past = v.past := rfl

@[simp] theorem see_self : (v.see a i).seen a = i := Function.update_self ..

@[simp] theorem see_of_ne (h : b ≠ a) : (v.see a i).seen b = v.seen b :=
  Function.update_of_ne h ..

theorem le_see (h : v.seen a ≤ i) : v ≤ v.see a i := by
  refine ⟨fun b => ?_, Finset.Subset.refl _⟩
  by_cases hb : b = a
  · subst hb
    rwa [see_self]
  · rw [see_of_ne hb]

theorem see_seen : v.see a (v.seen a) = v := by
  rw [see, Function.update_eq_self]

theorem le_take (h : v.seen a ≤ i) : v ≤ v.take a i acquire w := by
  cases acquire with
  | false => exact le_see h
  | true => exact (le_see h).trans le_sup_left

end

end View

structure Message (A W : Type*) where
  value : W
  view : View A

/-- An access of a plain location. -/
structure Access (P : Type*) where
  place : P
  writes : Bool
  deriving DecidableEq

/-- The memory, with the view of each thread. -/
structure Memory (T A P W V : Type*) where
  messages : A → List (Message A W)
  value : P → V
  log : List (Access P)
  views : T → View A
  raced : Bool

namespace Memory

/-- The memory before the threads start. -/
def make (values : A → W) (value : P → V) : Memory T A P W V :=
  ⟨fun a => [⟨values a, .start⟩], value, [], fun _ => .start, false⟩

section Views

variable [DecidableEq T]

def setView (m : Memory T A P W V) (t : T) (v : View A) : Memory T A P W V :=
  { m with views := Function.update m.views t v }

@[simp] theorem setView_self (m : Memory T A P W V) (t : T) (v : View A) :
    (m.setView t v).views t = v := Function.update_self ..

@[simp] theorem setView_of_ne (m : Memory T A P W V) {t u : T} (v : View A) (h : u ≠ t) :
    (m.setView t v).views u = m.views u := Function.update_of_ne h ..

end Views

section Atomic

variable [DecidableEq T] [DecidableEq A]

/-- Thread `t` loads message `i` of location `a`. -/
def load (m : Memory T A P W V) (t : T) (a : A) (acquire : Bool) (i : Nat) :
    Option (Memory T A P W V × W) :=
  match (m.messages a)[i]? with
  | none => none
  | some message =>
      if i < (m.views t).seen a then none
      else
        some (m.setView t ((m.views t).take a i acquire message.view), message.value)

/-- Thread `t` stores to location `a` with release. -/
def store (m : Memory T A P W V) (t : T) (a : A) (value : W) : Option (Memory T A P W V) :=
  if (m.views t).seen a + 1 = (m.messages a).length then
    let view := (m.views t).see a (m.messages a).length
    let messages := Function.update m.messages a (m.messages a ++ [⟨value, view⟩])
    some { m.setView t view with messages }
  else none

end Atomic

section Plain

variable [DecidableEq T] [DecidableEq P]

/-- Two accesses of one place of which one writes. -/
def conflict (x y : Access P) : Bool :=
  decide (x.place = y.place) && (x.writes || y.writes)

/-- An access that conflicts with one that does not happen before it. -/
def races (m : Memory T A P W V) (t : T) (x : Access P) : Bool :=
  (List.range m.log.length).any fun e =>
    (m.log[e]?.any fun y => conflict x y) && decide (e ∉ (m.views t).past)

/-- Thread `t` makes a plain access. -/
def access (m : Memory T A P W V) (t : T) (x : Access P) : Memory T A P W V :=
  { m.setView t ((m.views t).know m.log.length) with
    log := m.log ++ [x], raced := m.raced || m.races t x }

def read (m : Memory T A P W V) (t : T) (p : P) : Memory T A P W V × V :=
  (m.access t ⟨p, false⟩, m.value p)

def write (m : Memory T A P W V) (t : T) (p : P) (v : V) : Memory T A P W V :=
  { m.access t ⟨p, true⟩ with value := Function.update m.value p v }

end Plain

-- ============================================================================
-- Well-formed memories
-- ============================================================================

/-- A view of messages that are there, which has taken over what they carry. -/
structure Valid (messages : A → List (Message A W)) (v : View A) : Prop where
  seen : ∀ a, v.seen a < (messages a).length
  joined : ∀ a (x : Message A W), (messages a)[v.seen a]? = some x → x.view ≤ v

/-- The memory of threads that load with acquire, or load what they have seen. -/
structure Wf (m : Memory T A P W V) : Prop where
  views : ∀ t, Valid m.messages (m.views t)
  carried : ∀ a (i : Nat) (x : Message A W), (m.messages a)[i]? = some x → Valid m.messages x.view
  own : ∀ a (i : Nat) (x : Message A W), (m.messages a)[i]? = some x → x.view.seen a = i
  grows : ∀ a (i j : Nat) (x y : Message A W), i ≤ j → (m.messages a)[i]? = some x →
    (m.messages a)[j]? = some y → x.view ≤ y.view

section

variable {messages : A → List (Message A W)} {v w : View A}

theorem Valid.sup (hv : Valid messages v) (hw : Valid messages w) : Valid messages (v ⊔ w) where
  seen a := max_lt (hv.seen a) (hw.seen a)
  joined a x hx := by
    rw [View.sup_seen] at hx
    rcases le_total (v.seen a) (w.seen a) with hle | hle
    · rw [max_eq_right hle] at hx
      exact (hw.joined a x hx).trans le_sup_right
    · rw [max_eq_left hle] at hx
      exact (hv.joined a x hx).trans le_sup_left

theorem Valid.know (h : Valid messages v) (e : Nat) : Valid messages (v.know e) where
  seen := h.seen
  joined a x hx := (h.joined a x hx).trans (View.le_know v e)

end

/-- Each location has its initial message. -/
theorem make_messages {values : A → W} {value : P → V} {a : A} {i : Nat} {x : Message A W}
    (h : ((make values value : Memory T A P W V).messages a)[i]? = some x) :
    i = 0 ∧ x = ⟨values a, .start⟩ := by
  obtain ⟨hi, rfl⟩ := List.getElem?_eq_some_iff.mp h
  obtain rfl : i = 0 := Nat.lt_one_iff.mp hi
  exact ⟨rfl, rfl⟩

theorem make_wf (values : A → W) (value : P → V) : Wf (make values value : Memory T A P W V) := by
  have hvalid : Valid (make values value : Memory T A P W V).messages .start := by
    refine ⟨fun _ => Nat.zero_lt_one, fun a x hx => ?_⟩
    obtain ⟨-, rfl⟩ := make_messages hx
    exact le_refl _
  refine ⟨fun _ => hvalid, ?_, ?_, ?_⟩
  · intro a i x hx
    obtain ⟨-, rfl⟩ := make_messages hx
    exact hvalid
  · intro a i x hx
    obtain ⟨rfl, rfl⟩ := make_messages hx
    rfl
  · intro a i j x y _ hx hy
    obtain ⟨-, rfl⟩ := make_messages hx
    obtain ⟨-, rfl⟩ := make_messages hy
    exact le_refl _

section

variable {m m' : Memory T A P W V} {t : T} {a : A} {i : Nat} {value : W}

/-- What a load does to the memory. -/
structure Loads (m m' : Memory T A P W V) (t : T) (a : A) (i : Nat) (value : W) : Prop where
  messages : m'.messages = m.messages
  cells : m'.value = m.value
  log : m'.log = m.log
  raced : m'.raced = m.raced
  others : ∀ u, u ≠ t → m'.views u = m.views u
  grows : m.views t ≤ m'.views t
  last : (m'.views t).seen a = i
  loaded : ∃ x : Message A W, (m.messages a)[i]? = some x ∧ x.value = value

theorem Loads.views_le (h : Loads m m' t a i value) (u : T) : m.views u ≤ m'.views u := by
  by_cases hu : u = t
  · subst hu
    exact h.grows
  · rw [h.others u hu]

/-- What a store does to the memory. -/
structure Stores (m m' : Memory T A P W V) (t : T) (a : A) (value : W) : Prop where
  appended : m'.messages a = m.messages a ++ [⟨value, m'.views t⟩]
  elsewhere : ∀ b, b ≠ a → m'.messages b = m.messages b
  cells : m'.value = m.value
  log : m'.log = m.log
  raced : m'.raced = m.raced
  others : ∀ u, u ≠ t → m'.views u = m.views u
  grows : m.views t ≤ m'.views t
  last : (m'.views t).seen a = (m.messages a).length
  seen : ∀ b, b ≠ a → (m'.views t).seen b = (m.views t).seen b

theorem Stores.views_le (h : Stores m m' t a value) (u : T) : m.views u ≤ m'.views u := by
  by_cases hu : u = t
  · subst hu
    exact h.grows
  · rw [h.others u hu]

/-- The messages of a location after a store. -/
theorem Stores.message (h : Stores m m' t a value) {b : A} {x : Message A W}
    (hx : (m'.messages b)[i]? = some x) :
    (m.messages b)[i]? = some x ∨
      b = a ∧ i = (m.messages a).length ∧ x = ⟨value, m'.views t⟩ := by
  by_cases hb : b = a
  · subst hb
    rw [h.appended] at hx
    by_cases hi : i < (m.messages b).length
    · rw [List.getElem?_append_left hi] at hx
      exact .inl hx
    · have hlt := (List.getElem?_eq_some_iff.mp hx).1
      rw [List.length_append, List.length_singleton] at hlt
      obtain rfl : i = (m.messages b).length := by omega
      rw [List.getElem?_concat_length] at hx
      exact .inr ⟨rfl, rfl, (Option.some.inj hx).symm⟩
  · rw [h.elsewhere b hb] at hx
    exact .inl hx

theorem Stores.length_le (h : Stores m m' t a value) (b : A) :
    (m.messages b).length ≤ (m'.messages b).length := by
  by_cases hb : b = a
  · subst hb
    rw [h.appended, List.length_append]
    omega
  · rw [h.elsewhere b hb]

/-- A view stays valid when messages are added. -/
theorem Stores.valid (h : Stores m m' t a value) {v : View A} (hv : Valid m.messages v) :
    Valid m'.messages v where
  seen b := Nat.lt_of_lt_of_le (hv.seen b) (h.length_le b)
  joined b x hx := by
    rcases h.message hx with hold | ⟨rfl, hlength, -⟩
    · exact hv.joined b x hold
    · have hseen := hv.seen b
      omega

end

section

variable [DecidableEq T] [DecidableEq A] {m m' : Memory T A P W V} {t : T} {a : A} {i : Nat}
  {acquire : Bool} {value : W}

theorem load_inv (h : m.load t a acquire i = some (m', value)) :
    ∃ x, (m.messages a)[i]? = some x ∧ (m.views t).seen a ≤ i ∧ x.value = value ∧
      m' = m.setView t ((m.views t).take a i acquire x.view) := by
  unfold load at h
  split at h
  · exact absurd h (by simp)
  · next x hx =>
      split at h
      · exact absurd h (by simp)
      · next hle =>
          obtain ⟨rfl, rfl⟩ := Prod.mk.inj (Option.some.inj h)
          exact ⟨x, hx, by omega, rfl, rfl⟩

theorem load_bounds (h : m.load t a acquire i = some (m', value)) :
    (m.views t).seen a ≤ i ∧ i < (m.messages a).length := by
  obtain ⟨x, hx, hle, -⟩ := load_inv h
  exact ⟨hle, (List.getElem?_eq_some_iff.mp hx).1⟩

/-- An acquire load of any message, and a load of what was seen. -/
theorem Wf.load (hm : Wf m) (hacquire : acquire = true ∨ i = (m.views t).seen a)
    (h : m.load t a acquire i = some (m', value)) : Wf m' ∧ Loads m m' t a i value := by
  obtain ⟨x, hx, hle, rfl, rfl⟩ := load_inv h
  have hown := hm.own a i x hx
  have htake : (m.views t).take a i acquire x.view = m.views t ⊔ x.view := by
    have hcarried : i = (m.views t).seen a → x.view ≤ m.views t := by
      rintro rfl
      exact (hm.views t).joined a x hx
    cases acquire with
    | false =>
        have hi := hacquire.resolve_left (by simp)
        rw [sup_eq_left.mpr (hcarried hi), hi]
        exact View.see_seen
    | true =>
        show (m.views t).see a i ⊔ x.view = _
        ext b
        · by_cases hb : b = a
          · subst hb
            simp only [View.sup_seen, View.see_self]
            omega
          · simp only [View.sup_seen, View.see_of_ne hb]
        · rfl
  have hvalid : Valid m.messages ((m.views t).take a i acquire x.view) := by
    rw [htake]
    exact (hm.views t).sup (hm.carried a i x hx)
  refine ⟨⟨fun u => ?_, hm.carried, hm.own, hm.grows⟩, rfl, rfl, rfl, rfl, ?_, ?_, ?_,
    x, hx, rfl⟩
  · by_cases hu : u = t
    · subst hu
      rw [setView_self]
      exact hvalid
    · rw [setView_of_ne _ _ hu]
      exact hm.views u
  · intro u hu
    exact setView_of_ne _ _ hu
  · rw [setView_self]
    exact View.le_take hle
  · rw [setView_self, htake, View.sup_seen, hown]
    omega

/-- A thread can load the last message. -/
theorem Wf.load_last (hm : Wf m) (t : T) (a : A) (acquire : Bool) {x : Message A W}
    (hx : (m.messages a)[(m.messages a).length - 1]? = some x) :
    ∃ m', m.load t a acquire ((m.messages a).length - 1) = some (m', x.value) := by
  have hseen := (hm.views t).seen a
  unfold Memory.load
  rw [hx]
  simp only
  rw [if_neg (by omega)]
  exact ⟨_, rfl⟩

theorem store_inv (h : m.store t a value = some m') :
    (m.views t).seen a + 1 = (m.messages a).length ∧ Stores m m' t a value := by
  unfold store at h
  split at h
  · next hlast =>
      obtain rfl := Option.some.inj h
      refine ⟨hlast, ?_, ?_, rfl, rfl, rfl, ?_, ?_, ?_, ?_⟩
      · show Function.update m.messages a _ a = _
        rw [Function.update_self, show
          ({ m.setView t _ with messages := _ } : Memory T A P W V).views t = _ from
            setView_self ..]
      · intro b hb
        exact Function.update_of_ne hb ..
      · intro u hu
        exact setView_of_ne _ _ hu
      · show m.views t ≤ (m.setView t _).views t
        rw [setView_self]
        exact View.le_see (by omega)
      · show ((m.setView t _).views t).seen a = _
        rw [setView_self, View.see_self]
      · intro b hb
        show ((m.setView t _).views t).seen b = _
        rw [setView_self, View.see_of_ne hb]
  · exact absurd h (by simp)

/-- A thread that has seen the last message stores behind it. -/
theorem store_last (h : (m.views t).seen a + 1 = (m.messages a).length) (value : W) :
    ∃ m', m.store t a value = some m' := by
  unfold store
  rw [if_pos h]
  exact ⟨_, rfl⟩

theorem Wf.store (hm : Wf m) (h : m.store t a value = some m') :
    Wf m' ∧ Stores m m' t a value := by
  obtain ⟨hlast, hstores⟩ := store_inv h
  -- The thread has seen the last message, so its view is above all messages of the location.
  have habove : ∀ (i : Nat) (x : Message A W),
      (m.messages a)[i]? = some x → x.view ≤ m'.views t := by
    intro i x hx
    have hi := (List.getElem?_eq_some_iff.mp hx).1
    have hseen := (hm.views t).seen a
    have hy := List.getElem?_eq_getElem hseen
    exact ((hm.grows a i _ x _ (by omega) hx hy).trans ((hm.views t).joined a _ hy)).trans
      hstores.grows
  have hvalid : Valid m'.messages (m'.views t) := by
    refine ⟨fun b => ?_, fun b x hx => ?_⟩
    · by_cases hb : b = a
      · subst hb
        rw [hstores.last, hstores.appended, List.length_append]
        exact Nat.lt_succ_self _
      · rw [hstores.seen b hb, hstores.elsewhere b hb]
        exact (hm.views t).seen b
    · rcases hstores.message hx with hold | ⟨-, -, rfl⟩
      · by_cases hb : b = a
        · subst hb
          exact habove _ x hold
        · rw [hstores.seen b hb] at hold
          exact ((hm.views t).joined b x hold).trans hstores.grows
      · exact le_refl _
  refine ⟨⟨fun u => ?_, ?_, ?_, ?_⟩, hstores⟩
  · by_cases hu : u = t
    · rw [hu]
      exact hvalid
    · rw [hstores.others u hu]
      exact hstores.valid (hm.views u)
  · intro b i x hx
    rcases hstores.message hx with hold | ⟨-, -, rfl⟩
    · exact hstores.valid (hm.carried b i x hold)
    · exact hvalid
  · intro b i x hx
    rcases hstores.message hx with hold | ⟨rfl, rfl, rfl⟩
    · exact hm.own b i x hold
    · exact hstores.last
  · intro b i j x y hij hx hy
    rcases hstores.message hy with hy | ⟨rfl, rfl, rfl⟩
    · rcases hstores.message hx with hx | ⟨rfl, rfl, rfl⟩
      · exact hm.grows b i j x y hij hx hy
      · have hj := (List.getElem?_eq_some_iff.mp hy).1
        omega
    · rcases hstores.message hx with hx | ⟨-, -, rfl⟩
      · exact habove i x hx
      · exact le_refl _

end

section

variable [DecidableEq T] [DecidableEq P] {m : Memory T A P W V} {t : T} {x : Access P}

theorem Wf.access (hm : Wf m) (t : T) (x : Access P) : Wf (m.access t x) := by
  refine ⟨fun u => ?_, hm.carried, hm.own, hm.grows⟩
  by_cases hu : u = t
  · subst hu
    show Valid m.messages ((m.setView u _).views u)
    rw [setView_self]
    exact (hm.views u).know _
  · show Valid m.messages ((m.setView t _).views u)
    rw [setView_of_ne _ _ hu]
    exact hm.views u

/-- Accessing grows the views, and leaves what they have seen as it is. -/
theorem access_grows (m : Memory T A P W V) (t u : T) (x : Access P) :
    m.views u ≤ (m.access t x).views u := by
  by_cases hu : u = t
  · subst hu
    show _ ≤ (m.setView u _).views u
    rw [setView_self]
    exact View.le_know _ _
  · show _ ≤ (m.setView t _).views u
    rw [setView_of_ne _ _ hu]

theorem access_seen (m : Memory T A P W V) (t u : T) (x : Access P) :
    ((m.access t x).views u).seen = (m.views u).seen := by
  by_cases hu : u = t
  · subst hu
    show ((m.setView u _).views u).seen = _
    rw [setView_self, View.know_seen]
  · show ((m.setView t _).views u).seen = _
    rw [setView_of_ne _ _ hu]

/-- An access after which all conflicting ones happened does not race. -/
theorem access_raced (hraced : m.raced = false)
    (h : ∀ e y, m.log[e]? = some y → conflict x y = true → e ∈ (m.views t).past) :
    (m.access t x).raced = false := by
  have hraces : m.races t x = false := by
    rw [races, List.any_eq_false]
    intro e _
    cases he : m.log[e]? with
    | none => simp
    | some y =>
        simp only [Option.any_some, Bool.and_eq_true, decide_eq_true_eq, not_and, not_not]
        exact h e y he
  show (m.raced || m.races t x) = false
  rw [hraced, hraces]
  rfl

end

-- ============================================================================
-- What happens before
-- ============================================================================

/-- A thread that has seen a message has taken over all that the messages up to it
    carry. -/
theorem Wf.seen_view {m : Memory T A P W V} (hm : Wf m) {u : T} {a : A} {i : Nat}
    {x : Message A W} (hi : i ≤ (m.views u).seen a) (hx : (m.messages a)[i]? = some x) :
    x.view ≤ m.views u := by
  have hy := List.getElem?_eq_getElem ((hm.views u).seen a)
  exact (hm.grows a i _ x _ hi hx hy).trans ((hm.views u).joined a _ hy)

/-- Access `e` of thread `t` happens before the messages of `a` behind number `i`. -/
structure Released (m : Memory T A P W V) (t : T) (a : A) (i e : Nat) : Prop where
  known : e ∈ (m.views t).past
  behind : ∀ (k : Nat) (x : Message A W), (m.messages a)[k]? = some x → i < k → e ∈ x.view.past

section

variable {m m' : Memory T A P W V} {t u : T} {a b : A} {i j e : Nat} {value : W}

/-- It happens before what a thread does that has seen one of these messages. -/
theorem Released.acquired (h : Released m t a i e) (hm : Wf m)
    (hseen : i < (m.views u).seen a) : e ∈ (m.views u).past := by
  have hy := List.getElem?_eq_getElem ((hm.views u).seen a)
  exact ((hm.views u).joined a _ hy).2 (h.behind _ _ hy hseen)

theorem Released.loads (h : Released m t a i e) (hloads : Loads m m' u b j value) :
    Released m' t a i e := by
  refine ⟨(hloads.views_le t).2 h.known, ?_⟩
  rw [hloads.messages]
  exact h.behind

/-- Only the thread itself stores to the location. -/
theorem Released.stores (h : Released m t a i e) (hstores : Stores m m' u b value)
    (hown : b = a → u = t) : Released m' t a i e := by
  have hknown : e ∈ (m'.views t).past := (hstores.views_le t).2 h.known
  refine ⟨hknown, fun k x hx hk => ?_⟩
  rcases hstores.message hx with hold | ⟨rfl, -, rfl⟩
  · exact h.behind k x hold hk
  · rw [hown rfl]
    exact hknown

variable [DecidableEq T] [DecidableEq P] {x : Access P}

theorem Released.access (h : Released m t a i e) : Released (m.access u x) t a i e :=
  ⟨(access_grows m u t x).2 h.known, h.behind⟩

/-- A new access, when the location has no later message yet. -/
theorem released_access (hlength : (m.messages a).length ≤ i + 1) :
    Released (m.access t x) t a i m.log.length := by
  refine ⟨?_, fun k y hy hk => ?_⟩
  · show m.log.length ∈ ((m.setView t _).views t).past
    rw [setView_self]
    exact Finset.mem_insert_self _ _
  · have hlt := (List.getElem?_eq_some_iff.mp hy).1
    exact absurd hlt (by
      show ¬ k < (m.messages a).length
      omega)

end

-- ============================================================================
-- Memories grow
-- ============================================================================

/-- Messages are added and views grow. -/
structure Grows (m m' : Memory T A P W V) : Prop where
  messages : ∀ a, m.messages a <+: m'.messages a
  views : ∀ t, m.views t ≤ m'.views t

section

variable {m m' m'' : Memory T A P W V} {t : T} {a : A} {i : Nat} {acquire : Bool} {value : W}

theorem Grows.refl (m : Memory T A P W V) : Grows m m :=
  ⟨fun _ => List.prefix_refl _, fun _ => le_refl _⟩

theorem Grows.trans (h : Grows m m') (h' : Grows m' m'') : Grows m m'' :=
  ⟨fun a => (h.messages a).trans (h'.messages a), fun t => (h.views t).trans (h'.views t)⟩

/-- A message stays where it is. -/
theorem Grows.message (h : Grows m m') {x : Message A W} (hx : (m.messages a)[i]? = some x) :
    (m'.messages a)[i]? = some x := by
  obtain ⟨rest, hrest⟩ := h.messages a
  rw [← hrest, List.getElem?_append_left (List.getElem?_eq_some_iff.mp hx).1, hx]

theorem Stores.grows_memory (h : Stores m m' t a value) : Grows m m' := by
  refine ⟨fun b => ?_, h.views_le⟩
  by_cases hb : b = a
  · subst hb
    rw [h.appended]
    exact List.prefix_append _ _
  · rw [h.elsewhere b hb]

theorem load_grows [DecidableEq T] [DecidableEq A]
    (h : m.load t a acquire i = some (m', value)) : Grows m m' := by
  obtain ⟨x, -, hle, -, rfl⟩ := load_inv h
  refine ⟨fun _ => List.prefix_refl _, fun u => ?_⟩
  by_cases hu : u = t
  · subst hu
    rw [setView_self]
    exact View.le_take hle
  · rw [setView_of_ne _ _ hu]

end

end Memory

end LimitOrderBook.Lib.WeakMemory
