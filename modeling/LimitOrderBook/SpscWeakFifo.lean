/-
  LimitOrderBook.SpscWeakFifo

  The queue stays a bounded FIFO on the weak memory, and no slot access races.

  The invariant is that of `SpscFifo` with each side judged by what it has seen:
  the producer by the `head_` in its view, the consumer by the items up to the
  `tail_` in its view.  Both only lag behind, and a later message of the other
  counter keeps all that was known.

  For the races, each slot access has a position.  A write at position `i` happens
  before every message of `tail_` behind `i`, a read at position `i` before every
  message of `head_` behind `i`.  Two accesses of one slot are a whole ring apart,
  so the later one comes after a load of such a message.
-/
import LimitOrderBook.SpscWeakMemory

namespace LimitOrderBook

open Lib Ring WeakMemory Memory

namespace SPSCQueue

variable {α : Type*}

/-- What an answer says of the items pushed and the number consumed, to a thread
    that has view `v` after it. -/
def Answer.Seen (C : Capacity) (th : Thread) (v : View Counter) (items : List α) (head : Nat) :
    Answer α → Prop
  | .tryPush _ false => th = .producer ∧ items.length = v.seen .head + C.size
  | .tryPop none => th = .consumer ∧ v.seen .tail = head
  | .tryPop (some item) => items[head]? = some item
  | .peek found =>
      th = .consumer ∧ if found then head < v.seen .tail else v.seen .tail = head
  | .read item => items[head]? = some item
  | .popCommit item => items[head]? = some item
  | .empty value => th = .consumer → value = false → head < v.seen .tail
  | .sizeApprox n => n ≤ C.size ∧ (th = .consumer → head + n ≤ v.seen .tail) ∧
      (th = .producer → items.length ≤ v.seen .head + n)
  | _ => True

/-- The messages of a counter are 0, 1, ..., `n`. -/
structure Counts (m : SharedMemory α) (a : Counter) (n : Nat) : Prop where
  length : (m.messages a).length = n + 1
  value : ∀ (i : Nat) (x : Message Counter Nat), (m.messages a)[i]? = some x → x.value = i

/-- What a thread with view `v` remembers of a query. -/
def Querying.Sees (C : Capacity) (th : Thread) (v : View Counter) : Querying → Prop
  | .emptyHead h => th = .consumer → h = v.seen .head
  | .emptyTail t => t ≤ v.seen .tail
  | .sizeTail t => t ≤ v.seen .tail ∧ t ≤ v.seen .head + C.size ∧
      (th = .producer → t = v.seen .tail)

/-- A slot access at a position, and the messages that it happens before. -/
inductive Logged (C : Capacity) (m : SharedMemory α) (size head e : Nat)
    (x : WeakMemory.Access Nat) : Prop where
  | write (i : Nat) (hwrites : x.writes = true) (hplace : x.place = C.index i)
      (hroom : i < (m.views .producer).seen .head + C.size)
      (hreleased : m.Released .producer .tail i e)
  | read (i : Nat) (hreads : x.writes = false) (hplace : x.place = C.index i)
      (hitem : i < size) (hhead : i ≤ head) (hreleased : m.Released .consumer .head i e)

/-- The items that the consumer has seen. -/
def visible (m : SharedMemory α) (items : List α) : List α :=
  items.take ((m.views .consumer).seen .tail)

/-- The invariant of the queue in the weak memory, for the items pushed and the
    number consumed. -/
structure WeakInv (C : Capacity) (s : WeakSystem α) (items : List α) (head : Nat) : Prop where
  wf : s.memory.Wf
  raced : s.memory.raced = false
  tails : Counts s.memory .tail items.length
  heads : Counts s.memory .head head
  few : items.length < 2 ^ 64
  ownTail : (s.memory.views .producer).seen .tail = items.length
  ownHead : (s.memory.views .consumer).seen .head = head
  room : items.length ≤ (s.memory.views .producer).seen .head + C.size
  found : head ≤ (s.memory.views .consumer).seen .tail
  /-- A message of `tail_` was stored with room for it in sight. -/
  tailSees : ∀ (i : Nat) (x : Message Counter Nat), (s.memory.messages .tail)[i]? = some x →
    i ≤ x.view.seen .head + C.size
  window : Window C.size s.memory.value head items
  logged : ∀ (e : Nat) (x : WeakMemory.Access Nat), s.memory.log[e]? = some x →
    Logged C s.memory items.length head e x
  producer : s.producer.Knows C s.memory.value items.length
    ((s.memory.views .producer).seen .head)
  consumer : s.consumer.Knows C (visible s.memory items) head s.peeked
  query : ∀ th q, s.query th = some q → q.Sees C th (s.memory.views th)
  peeked : ∀ slot, s.peeked = some slot →
    slot = C.index head ∧ head < (visible s.memory items).length

section

variable {C : Capacity} {s s' : WeakSystem α} {items : List α} {head : Nat} {th : Thread}
  {a : Counter} {acquire : Bool} {i n : Nat} {m : SharedMemory α}

theorem weakMake_counts [Inhabited α] :
    Counts (WeakSystem.make : WeakSystem α).memory a 0 := by
  refine ⟨rfl, fun i x hx => ?_⟩
  obtain ⟨rfl, rfl⟩ := make_messages hx
  rfl

theorem weakMake_inv [Inhabited α] : WeakInv C (WeakSystem.make : WeakSystem α) [] 0 where
  wf := make_wf _ _
  raced := rfl
  tails := weakMake_counts
  heads := weakMake_counts
  few := Nat.two_pow_pos 64
  ownTail := rfl
  ownHead := rfl
  room := Nat.zero_le _
  found := Nat.le_refl 0
  tailSees := fun _ _ hx => by
    obtain ⟨rfl, -⟩ := make_messages hx
    exact Nat.zero_le _
  window := window_nil
  logged := fun e x hx => absurd hx (by simp [WeakSystem.make, Memory.make])
  producer := trivial
  consumer := trivial
  query := fun th _ hq => by
    cases th <;> exact absurd hq (by
      simp [WeakSystem.make, WeakSystem.query, Producer.query, Consumer.query])
  peeked := fun _ h => absurd h (by simp [WeakSystem.make])

/-- No view is ahead of a counter. -/
theorem Counts.seen_le (h : Counts m a n) (hm : m.Wf) (th : Thread) :
    (m.views th).seen a ≤ n := by
  have hseen := (hm.views th).seen a
  rw [h.length] at hseen
  omega

theorem WeakInv.behind (h : WeakInv C s items head) : head ≤ items.length :=
  Nat.le_trans h.found (h.tails.seen_le h.wf .consumer)

theorem WeakInv.visible_length (h : WeakInv C s items head) :
    (visible s.memory items).length = (s.memory.views .consumer).seen .tail :=
  List.length_take_of_le (h.tails.seen_le h.wf .consumer)

-- ============================================================================
-- What is known stays known
-- ============================================================================

/-- More room in sight leaves what the producer knows. -/
theorem Producer.Knows.mono {buffer : Nat → α} {size k k' : Nat} {producer : Producer α}
    (h : producer.Knows C buffer size k) (hk : k ≤ k') : producer.Knows C buffer size k' := by
  cases producer with
  | hasRoom x t => exact ⟨h.1, by have := h.2; omega⟩
  | written x t => exact ⟨h.1, by have := h.2.1; omega, h.2.2⟩
  | _ => exact h

/-- More items in sight leave what the consumer knows. -/
theorem Consumer.Knows.mono {items' : List α} {peeked : Option Nat} {consumer : Consumer α}
    (h : consumer.Knows C items head peeked) (hstart : items <+: items') :
    consumer.Knows C items' head peeked := by
  have hlength := hstart.length_le
  cases consumer with
  | popFound k => exact ⟨h.1, by have := h.2.1; omega, h.2.2⟩
  | popRead k x =>
      obtain ⟨hk, hx, hnone⟩ := h
      obtain ⟨rest, rfl⟩ := hstart
      have hlt := (List.getElem?_eq_some_iff.mp hx).1
      exact ⟨hk, by rwa [List.getElem?_append_left hlt], hnone⟩
  | committing k slot => exact ⟨h.1, by have := h.2.1; omega, h.2.2⟩
  | _ => exact h

/-- A query remembers the other counter from below. -/
theorem Querying.Sees.mono {v w : View Counter} {q : Querying} (h : q.Sees C th v) (hle : v ≤ w)
    (htail : th = .producer → w.seen .tail = v.seen .tail)
    (hhead : th = .consumer → w.seen .head = v.seen .head) : q.Sees C th w := by
  have hheads := hle.1 .head
  have htails := hle.1 .tail
  cases q with
  | emptyHead k =>
      intro hth
      rw [hhead hth]
      exact h hth
  | emptyTail t => exact Nat.le_trans h htails
  | sizeTail t =>
      obtain ⟨hseen, hroom, hown⟩ := h
      refine ⟨Nat.le_trans hseen htails, by omega, fun hth => ?_⟩
      rw [htail hth]
      exact hown hth

theorem visible_mono {m' : SharedMemory α}
    (hle : (m.views .consumer).seen .tail ≤ (m'.views .consumer).seen .tail) :
    visible m items <+: visible m' items := List.take_prefix_take_left hle

theorem visible_access (x : WeakMemory.Access Nat) :
    visible (m.access th x) items = visible m items := by
  rw [visible, access_seen, visible]

-- ============================================================================
-- One access of the memory
-- ============================================================================

/-- A load of a counter leaves the invariant, and loads its pick. -/
theorem WeakInv.load (h : WeakInv C s items head)
    (hacquire : acquire = true ∨ i = (s.memory.views th).seen a)
    (hload : s.memory.load th a acquire i = some (m, n)) :
    WeakInv C { s with memory := m } items head ∧ Loads s.memory m th a i n ∧ n = i := by
  obtain ⟨hwf, hloads⟩ := h.wf.load hacquire hload
  have hle := hloads.views_le
  have htails : Counts m .tail items.length := by
    refine ⟨?_, ?_⟩ <;> rw [hloads.messages]
    · exact h.tails.length
    · exact h.tails.value
  have hheads : Counts m .head head := by
    refine ⟨?_, ?_⟩ <;> rw [hloads.messages]
    · exact h.heads.length
    · exact h.heads.value
  -- A role's own counter has no message that it has not seen.
  have hownTail : (m.views .producer).seen .tail = items.length :=
    Nat.le_antisymm (htails.seen_le hwf .producer) (h.ownTail ▸ (hle .producer).1 .tail)
  have hownHead : (m.views .consumer).seen .head = head :=
    Nat.le_antisymm (hheads.seen_le hwf .consumer) (h.ownHead ▸ (hle .consumer).1 .head)
  have hroom := (hle .producer).1 .head
  have hfound := (hle .consumer).1 .tail
  have hcount := h.room
  refine ⟨⟨hwf, hloads.raced.trans h.raced, htails, hheads, h.few, hownTail, hownHead, ?_,
    Nat.le_trans h.found hfound, ?_, ?_, ?_, ?_, ?_, ?_, ?_⟩, hloads, ?_⟩
  · show items.length ≤ (m.views .producer).seen .head + C.size
    omega
  · intro j x hx
    rw [show ({ s with memory := m } : WeakSystem α).memory.messages = _ from hloads.messages] at hx
    exact h.tailSees j x hx
  · show Window C.size m.value head items
    rw [hloads.cells]
    exact h.window
  · intro e x hx
    rw [show ({ s with memory := m } : WeakSystem α).memory.log = _ from hloads.log] at hx
    cases h.logged e x hx with
    | write j hwrites hplace hlt hreleased =>
        exact .write j hwrites hplace (by show j < (m.views .producer).seen .head + C.size; omega)
          (hreleased.loads hloads)
    | read j hreads hplace hitem hhead hreleased =>
        exact .read j hreads hplace hitem hhead (hreleased.loads hloads)
  · show s.producer.Knows C m.value _ _
    rw [hloads.cells]
    exact h.producer.mono hroom
  · exact h.consumer.mono (visible_mono hfound)
  · intro u q hq
    refine (h.query u q hq).mono (hle u) ?_ ?_
    · rintro rfl
      exact hownTail.trans h.ownTail.symm
    · rintro rfl
      exact hownHead.trans h.ownHead.symm
  · intro slot hslot
    obtain ⟨heq, hlt⟩ := h.peeked slot hslot
    exact ⟨heq, Nat.lt_of_lt_of_le hlt (visible_mono hfound).length_le⟩
  · obtain ⟨x, hx, rfl⟩ := hloads.loaded
    cases a with
    | head => exact h.heads.value i x hx
    | tail => exact h.tails.value i x hx

/-- The consumer's next item. -/
theorem WeakInv.front (h : WeakInv C s items head)
    (hlt : head < (visible s.memory items).length) :
    items[head]? = some (s.memory.value (C.index head)) ∧
      (visible s.memory items)[head]? = some (s.memory.value (C.index head)) := by
  have hseen := hlt
  rw [h.visible_length] at hseen
  have hle := h.tails.seen_le h.wf .consumer
  have hitem := List.getElem?_eq_getElem (Nat.lt_of_lt_of_le hseen hle)
  have hslot := h.window head _ (Nat.le_refl head) hitem
  rw [← C.index_eq] at hslot
  rw [visible, List.getElem?_take_of_lt hseen, hslot]
  exact ⟨hitem, hitem⟩

/-- A slot access of which all that it conflicts with happened before.  A write
    brings new values and a producer that knows them. -/
theorem WeakInv.access (h : WeakInv C s items head) {x : WeakMemory.Access Nat}
    {value : Nat → α} {producer : Producer α}
    (hbefore : ∀ e y, s.memory.log[e]? = some y → conflict x y = true →
      e ∈ (s.memory.views th).past)
    (hnew : Logged C (s.memory.access th x) items.length head s.memory.log.length x)
    (hwindow : Window C.size value head items)
    (hknows : producer.Knows C value items.length ((s.memory.views .producer).seen .head))
    (hquery : ∀ q, producer.query = some q → s.producer.query = some q) :
    WeakInv C { s with memory := { s.memory.access th x with value }, producer } items head := by
  have hseen := fun u => access_seen s.memory th u x
  have hwf := h.wf.access th x
  have hlog : ∀ (e : Nat) (y : WeakMemory.Access Nat), (s.memory.access th x).log[e]? = some y →
      Logged C (s.memory.access th x) items.length head e y := by
    intro e y hy
    rw [show (s.memory.access th x).log = s.memory.log ++ [x] from rfl] at hy
    by_cases he : e < s.memory.log.length
    · rw [List.getElem?_append_left he] at hy
      cases h.logged e y hy with
      | write j hwrites hplace hroom hreleased =>
          exact .write j hwrites hplace (by rwa [hseen]) hreleased.access
      | read j hreads hplace hitem hhead hreleased =>
          exact .read j hreads hplace hitem hhead hreleased.access
    · have hlt := (List.getElem?_eq_some_iff.mp hy).1
      rw [List.length_append, List.length_singleton] at hlt
      obtain rfl : e = s.memory.log.length := by omega
      rw [List.getElem?_concat_length] at hy
      obtain rfl := Option.some.inj hy
      exact hnew
  refine ⟨⟨hwf.views, hwf.carried, hwf.own, hwf.grows⟩, access_raced h.raced hbefore,
    ⟨h.tails.length, h.tails.value⟩, ⟨h.heads.length, h.heads.value⟩, h.few, ?_, ?_, ?_, ?_,
    h.tailSees, hwindow, ?_, ?_, ?_, ?_, ?_⟩
  · exact (congrFun (hseen .producer) .tail).trans h.ownTail
  · exact (congrFun (hseen .consumer) .head).trans h.ownHead
  · show items.length ≤ ((s.memory.access th x).views .producer).seen .head + C.size
    rw [hseen]
    exact h.room
  · show head ≤ ((s.memory.access th x).views .consumer).seen .tail
    rw [hseen]
    exact h.found
  · intro e y hy
    cases hlog e y hy with
    | write j hwrites hplace hroom hreleased =>
        exact .write j hwrites hplace hroom ⟨hreleased.known, hreleased.behind⟩
    | read j hreads hplace hitem hhead hreleased =>
        exact .read j hreads hplace hitem hhead ⟨hreleased.known, hreleased.behind⟩
  · show producer.Knows C value items.length (((s.memory.access th x).views .producer).seen .head)
    rw [hseen]
    exact hknows
  · show s.consumer.Knows C (visible (s.memory.access th x) items) head s.peeked
    rw [visible_access]
    exact h.consumer
  · intro u q hq
    have hold : s.query u = some q := by
      cases u with
      | producer => exact hquery q hq
      | _ => exact hq
    refine (h.query u q hold).mono (access_grows s.memory th u x) ?_ ?_ <;>
      exact fun _ => congrFun (hseen u) _
  · intro slot hslot
    show slot = C.index head ∧ head < (visible (s.memory.access th x) items).length
    rw [visible_access]
    exact h.peeked slot hslot

/-- The consumer reads the slot of an item that it has seen. -/
theorem WeakInv.read (h : WeakInv C s items head)
    (hlt : head < (visible s.memory items).length) :
    WeakInv C { s with memory := (s.memory.read .consumer (C.index head)).1 } items head := by
  have hseen := hlt
  rw [h.visible_length] at hseen
  have hle := h.tails.seen_le h.wf .consumer
  have hroom := h.heads.seen_le h.wf .producer
  refine h.access ?_ ?_ h.window h.producer (fun _ hq => hq)
  · intro e y hy hconflict
    simp only [conflict, Bool.false_or, Bool.and_eq_true, decide_eq_true_eq] at hconflict
    obtain ⟨hplace, hwrites⟩ := hconflict
    cases h.logged e y hy with
    | read j hreads => exact absurd (hreads.symm.trans hwrites) Bool.false_ne_true
    | write j _ hj hbound hreleased =>
        -- A write that the consumer has not seen is less than a ring ahead.
        by_cases hcover : j < (s.memory.views .consumer).seen .tail
        · exact hreleased.acquired h.wf hcover
        · rw [← hplace, C.index_eq, C.index_eq] at hj
          exact absurd hj.symm (slot_ne (by omega) (by omega))
  · refine .read head rfl rfl (by omega) (Nat.le_refl head) (released_access ?_)
    rw [h.heads.length]

/-- The producer writes the slot behind the items when it has seen room. -/
theorem WeakInv.write (h : WeakInv C s items head) (item : α)
    (hroom : items.length < (s.memory.views .producer).seen .head + C.size) :
    WeakInv C { s with
      memory := s.memory.write .producer (C.index items.length) item
      producer := .written item items.length } items head := by
  have hseen := h.heads.seen_le h.wf .producer
  refine h.access ?_ ?_ ?_ ⟨rfl, hroom, Function.update_self ..⟩ (fun q hq => ?_)
  · intro e y hy hconflict
    simp only [conflict, Bool.true_or, Bool.and_true, decide_eq_true_eq] at hconflict
    cases h.logged e y hy with
    | write j _ _ _ hreleased => exact hreleased.known
    | read j _ hj hitem hhead hreleased =>
        -- A read that the producer has not seen is of an item in the ring.
        by_cases hcover : j < (s.memory.views .producer).seen .head
        · exact hreleased.acquired h.wf hcover
        · rw [← hconflict, C.index_eq, C.index_eq] at hj
          exact absurd hj (slot_ne hitem (by omega))
  · refine .write items.length rfl rfl ?_ (released_access ?_)
    · rwa [access_seen]
    · rw [h.tails.length]
  · rw [C.index_eq]
    exact h.window.write (by omega) item
  · exact absurd hq (by simp [Producer.query])

theorem Counts.store {m' : SharedMemory α} (h : Counts m a n) (hstores : Stores m m' th a (n + 1)) :
    Counts m' a (n + 1) := by
  refine ⟨?_, fun i x hx => ?_⟩
  · rw [hstores.appended, List.length_append, h.length, List.length_singleton]
  · rcases hstores.message hx with hold | ⟨-, rfl, rfl⟩
    · exact h.value i x hold
    · exact h.length.symm

theorem Counts.elsewhere {m' : SharedMemory α} {b : Counter} {w : Nat} (h : Counts m a n)
    (hstores : Stores m m' th b w) (hne : a ≠ b) : Counts m' a n := by
  refine ⟨?_, ?_⟩ <;> rw [hstores.elsewhere a hne]
  · exact h.length
  · exact h.value

/-- The tail moves on over the item that was written. -/
theorem WeakInv.publish (h : WeakInv C s items head) {item : α}
    (hroom : items.length < (s.memory.views .producer).seen .head + C.size)
    (hslot : s.memory.value (C.index items.length) = item) (hfew : items.length + 1 < 2 ^ 64)
    (hstore : s.memory.store .producer .tail (addUInt64 items.length 1) = some m) :
    WeakInv C { s with memory := m, producer := .idle } (items ++ [item]) head := by
  obtain ⟨hwf, hstores⟩ := h.wf.store hstore
  rw [addUInt64_eq hfew] at hstores
  have hlength : (items ++ [item]).length = items.length + 1 := List.length_append
  have hproducer : (m.views .producer).seen .head = (s.memory.views .producer).seen .head :=
    hstores.seen .head (by simp)
  have hconsumer : m.views .consumer = s.memory.views .consumer := hstores.others _ (by simp)
  have hvisible : visible m (items ++ [item]) = visible s.memory items := by
    rw [visible, hconsumer, List.take_append_of_le_length (h.tails.seen_le h.wf .consumer), visible]
  have hwindow : Window C.size m.value head (items ++ [item]) := by
    rw [hstores.cells]
    rw [C.index_eq] at hslot
    exact h.window.append hslot
  refine ⟨hwf, hstores.raced.trans h.raced, ?_, h.heads.elsewhere hstores (by simp), by omega, ?_,
    ?_, ?_, ?_, ?_, hwindow, ?_, trivial, ?_, ?_, ?_⟩
  · rw [hlength]
    exact h.tails.store hstores
  · rw [hlength]
    exact hstores.last.trans h.tails.length
  · show (m.views .consumer).seen .head = head
    rw [hconsumer]
    exact h.ownHead
  · show (items ++ [item]).length ≤ (m.views .producer).seen .head + C.size
    rw [hproducer]
    omega
  · show head ≤ (m.views .consumer).seen .tail
    rw [hconsumer]
    exact h.found
  · intro i x hx
    rcases hstores.message hx with hold | ⟨-, rfl, rfl⟩
    · exact h.tailSees i x hold
    · rw [h.tails.length]
      show items.length + 1 ≤ (m.views .producer).seen .head + C.size
      omega
  · intro e x hx
    rw [show ({ s with memory := m, producer := .idle } : WeakSystem α).memory.log = _ from
      hstores.log] at hx
    cases h.logged e x hx with
    | write j hwrites hplace hlt hreleased =>
        refine .write j hwrites hplace ?_ (hreleased.stores hstores fun _ => rfl)
        show j < (m.views .producer).seen .head + C.size
        omega
    | read j hreads hplace hitem hhead hreleased =>
        exact .read j hreads hplace (by omega) hhead
          (hreleased.stores hstores fun heq => absurd heq (by simp))
  · show s.consumer.Knows C (visible m (items ++ [item])) head s.peeked
    rw [hvisible]
    exact h.consumer
  · intro u q hq
    cases u with
    | producer => exact absurd hq (by simp [WeakSystem.query, Producer.query])
    | consumer =>
        show q.Sees C .consumer (m.views .consumer)
        rw [hconsumer]
        exact h.query .consumer q hq
    | observer k =>
        show q.Sees C (.observer k) (m.views (.observer k))
        rw [hstores.others _ (by simp)]
        exact h.query (.observer k) q hq
  · intro slot hslot'
    show slot = C.index head ∧ head < (visible m (items ++ [item])).length
    rw [hvisible]
    exact h.peeked slot hslot'

/-- The head moves on over the front item. -/
theorem WeakInv.consume (h : WeakInv C s items head)
    (hlt : head < (visible s.memory items).length) (hnone : s.peeked = none)
    (hstore : s.memory.store .consumer .head (addUInt64 head 1) = some m) :
    WeakInv C { s with memory := m, consumer := .idle } items (head + 1) := by
  obtain ⟨hwf, hstores⟩ := h.wf.store hstore
  rw [h.visible_length] at hlt
  have hfew := h.few
  have hle := h.tails.seen_le h.wf .consumer
  rw [addUInt64_eq (by omega)] at hstores
  have hproducer : m.views .producer = s.memory.views .producer := hstores.others _ (by simp)
  have hconsumer : (m.views .consumer).seen .tail = (s.memory.views .consumer).seen .tail :=
    hstores.seen .tail (by simp)
  refine ⟨hwf, hstores.raced.trans h.raced, h.tails.elsewhere hstores (by simp),
    h.heads.store hstores, h.few, ?_, hstores.last.trans h.heads.length, ?_, ?_, ?_, ?_, ?_, ?_,
    trivial, ?_, ?_⟩
  · show (m.views .producer).seen .tail = _
    rw [hproducer]
    exact h.ownTail
  · show _ ≤ (m.views .producer).seen .head + C.size
    rw [hproducer]
    exact h.room
  · show head + 1 ≤ (m.views .consumer).seen .tail
    omega
  · intro i x hx
    rcases hstores.message hx with hold | ⟨heq, -⟩
    · exact h.tailSees i x hold
    · exact absurd heq (by simp)
  · show Window C.size m.value (head + 1) items
    rw [hstores.cells]
    exact h.window.drop (Nat.le_succ head)
  · intro e x hx
    rw [show ({ s with memory := m, consumer := .idle } : WeakSystem α).memory.log = _ from
      hstores.log] at hx
    cases h.logged e x hx with
    | write j hwrites hplace hroom hreleased =>
        refine .write j hwrites hplace ?_ (hreleased.stores hstores fun heq => absurd heq (by simp))
        show j < (m.views .producer).seen .head + C.size
        rwa [hproducer]
    | read j hreads hplace hitem hhead hreleased =>
        exact .read j hreads hplace hitem (by omega) (hreleased.stores hstores fun _ => rfl)
  · show s.producer.Knows C m.value items.length ((m.views .producer).seen .head)
    rw [hproducer, hstores.cells]
    exact h.producer
  · intro u q hq
    cases u with
    | consumer => exact absurd hq (by simp [WeakSystem.query, Consumer.query])
    | producer =>
        show q.Sees C .producer (m.views .producer)
        rw [hproducer]
        exact h.query .producer q hq
    | observer k =>
        show q.Sees C (.observer k) (m.views (.observer k))
        rw [hstores.others _ (by simp)]
        exact h.query (.observer k) q hq
  · intro slot hslot
    rw [show s.peeked = some slot from hslot] at hnone
    exact absurd hnone (by simp)

/-- The producer moves on in its call. -/
theorem WeakInv.withProducer (h : WeakInv C s items head) {producer : Producer α}
    (hknows : producer.Knows C s.memory.value items.length
      ((s.memory.views .producer).seen .head))
    (hquery : ∀ q, producer.query = some q → q.Sees C .producer (s.memory.views .producer)) :
    WeakInv C { s with producer } items head := by
  refine { h with producer := hknows, query := fun u q hq => ?_ }
  cases u with
  | producer => exact hquery q hq
  | consumer => exact h.query .consumer q hq
  | observer k => exact h.query (.observer k) q hq

/-- The consumer moves on in its call. -/
theorem WeakInv.withConsumer (h : WeakInv C s items head) {consumer : Consumer α}
    {peeked : Option Nat} (hknows : consumer.Knows C (visible s.memory items) head peeked)
    (hquery : ∀ q, consumer.query = some q → q.Sees C .consumer (s.memory.views .consumer))
    (hpeeked : ∀ slot, peeked = some slot →
      slot = C.index head ∧ head < (visible s.memory items).length) :
    WeakInv C { s with consumer, peeked } items head := by
  refine { h with consumer := hknows, peeked := hpeeked, query := fun u q hq => ?_ }
  cases u with
  | producer => exact h.query .producer q hq
  | consumer => exact hquery q hq
  | observer k => exact h.query (.observer k) q hq

/-- An observer moves on in its query. -/
theorem WeakInv.withObserver (h : WeakInv C s items head) {k : Nat} {query : Option Querying}
    (hquery : ∀ q, query = some q → q.Sees C (.observer k) (s.memory.views (.observer k))) :
    WeakInv C { s with observer := Function.update s.observer k query } items head := by
  refine { h with query := fun u q hq => ?_ }
  cases u with
  | producer => exact h.query .producer q hq
  | consumer => exact h.query .consumer q hq
  | observer j =>
      by_cases hj : j = k
      · subst hj
        rw [show WeakSystem.query { s with observer := Function.update s.observer j query }
          (.observer j) = query from Function.update_self ..] at hq
        exact hquery q hq
      · rw [show WeakSystem.query { s with observer := Function.update s.observer k query }
          (.observer j) = s.observer j from Function.update_of_ne hj ..] at hq
        exact h.query (.observer j) q hq

-- ============================================================================
-- Queries
-- ============================================================================

theorem WeakInv.ask (h : WeakInv C s items head) {query : Query} {q : Querying}
    (hask : weakAsk s.memory th i query = some (m, q)) :
    WeakInv C { s with memory := m } items head ∧ q.Sees C th (m.views th) := by
  cases query with
  | empty headFirst =>
      cases headFirst with
      | true =>
          obtain ⟨⟨m', n⟩, hload, heq⟩ := Option.map_eq_some_iff.mp hask
          obtain ⟨rfl, rfl⟩ := Prod.mk.inj heq
          obtain ⟨hinv, hloads, rfl⟩ := h.load (.inl rfl) hload
          exact ⟨hinv, fun _ => hloads.last.symm⟩
      | false =>
          obtain ⟨⟨m', n⟩, hload, heq⟩ := Option.map_eq_some_iff.mp hask
          obtain ⟨rfl, rfl⟩ := Prod.mk.inj heq
          obtain ⟨hinv, hloads, rfl⟩ := h.load (.inl rfl) hload
          exact ⟨hinv, hloads.last.ge⟩
  | sizeApprox =>
      obtain ⟨⟨m', n⟩, hload, heq⟩ := Option.map_eq_some_iff.mp hask
      obtain ⟨rfl, rfl⟩ := Prod.mk.inj heq
      obtain ⟨hinv, hloads, rfl⟩ := h.load (.inl rfl) hload
      -- With the message of `tail_` comes the `head_` that it was stored on.
      obtain ⟨x, hx, -⟩ := hloads.loaded
      rw [← hloads.messages] at hx
      have hcarried := (hinv.wf.seen_view hloads.last.ge hx).1 .head
      have hroom := hinv.tailSees _ x hx
      exact ⟨hinv, hloads.last.ge, Nat.le_trans hroom (Nat.add_le_add_right hcarried _),
        fun _ => hloads.last.symm⟩

theorem WeakInv.answer (h : WeakInv C s items head) {q : Querying} {o : Answer α}
    (hsees : q.Sees C th (s.memory.views th))
    (hanswer : weakAnswer s.memory th i q = some (m, o)) :
    WeakInv C { s with memory := m } items head ∧ o.Seen C th (m.views th) items head ∧
      o.pushed = [] ∧ o.consumed = [] := by
  cases q with
  | emptyHead k =>
      obtain ⟨⟨m', n⟩, hload, heq⟩ := Option.map_eq_some_iff.mp hanswer
      obtain ⟨rfl, rfl⟩ := Prod.mk.inj heq
      obtain ⟨hinv, hloads, rfl⟩ := h.load (.inl rfl) hload
      refine ⟨hinv, ?_, rfl, rfl⟩
      rintro rfl hfalse
      have hk : k = head := (hsees rfl).trans h.ownHead
      have hlt := of_decide_eq_false hfalse
      rw [hloads.last]
      omega
  | emptyTail t =>
      obtain ⟨⟨m', n⟩, hload, heq⟩ := Option.map_eq_some_iff.mp hanswer
      obtain ⟨rfl, rfl⟩ := Prod.mk.inj heq
      obtain ⟨hinv, hloads, rfl⟩ := h.load (.inl rfl) hload
      refine ⟨hinv, ?_, rfl, rfl⟩
      rintro rfl hfalse
      have hn : n = head := hloads.last.symm.trans hinv.ownHead
      have hlt := of_decide_eq_false hfalse
      have hgrows := hloads.grows.1 .tail
      have ht : t ≤ (s.memory.views .consumer).seen .tail := hsees
      show head < (m'.views .consumer).seen .tail
      omega
  | sizeTail t =>
      obtain ⟨⟨m', n⟩, hload, heq⟩ := Option.map_eq_some_iff.mp hanswer
      obtain ⟨rfl, rfl⟩ := Prod.mk.inj heq
      obtain ⟨hseen, hroom, hown⟩ := hsees
      have hpick := (load_bounds hload).1
      obtain ⟨hinv, hloads, rfl⟩ := h.load (.inl rfl) hload
      have hfew := h.few
      have hle := h.tails.seen_le h.wf th
      have hsize : (if t ≥ n then subUInt64 t n else 0) = t - n := by
        split
        · next hge => exact subUInt64_eq (by omega) hge
        · omega
      refine ⟨hinv, ?_, rfl, rfl⟩
      show (if t ≥ n then subUInt64 t n else 0) ≤ C.size ∧
        (th = .consumer → head + (if t ≥ n then subUInt64 t n else 0) ≤ (m'.views th).seen .tail) ∧
        (th = .producer →
          items.length ≤ (m'.views th).seen .head + (if t ≥ n then subUInt64 t n else 0))
      rw [hsize]
      refine ⟨by omega, ?_, ?_⟩
      · rintro rfl
        have hn : n = head := hloads.last.symm.trans hinv.ownHead
        have hgrows := hloads.grows.1 .tail
        have hfound : head ≤ (m'.views .consumer).seen .tail := hinv.found
        omega
      · rintro rfl
        have ht := hown rfl
        rw [h.ownTail] at ht
        rw [hloads.last]
        omega

-- ============================================================================
-- One access of the queue
-- ============================================================================

/-- The invariant after an answer, for the items with what it pushed and the head
    with what it consumed; and what the answer says is true. -/
structure WeakAfter (C : Capacity) (s : WeakSystem α) (th : Thread) (o : Answer α)
    (items : List α) (head : Nat) : Prop where
  inv : WeakInv C s (items ++ o.pushed) (head + o.consumed.length)
  seen : o.Seen C th (s.memory.views th) items head

variable {action : Action α} {o : Answer α}

/-- An answer that neither pushes nor consumes. -/
theorem WeakAfter.of_silent (ho : o.pushed = [] ∧ o.consumed = []) (h : WeakInv C s items head)
    (hseen : o.Seen C th (s.memory.views th) items head) : WeakAfter C s th o items head := by
  refine ⟨?_, hseen⟩
  rw [ho.1, ho.2, List.append_nil]
  exact h

theorem weakProducer_inv (h : WeakInv C s items head)
    (hstep : weakProducer C s i = some (s', o))
    (hfew : items.length + o.pushed.length < 2 ^ 64) : WeakAfter C s' .producer o items head := by
  have hknows := h.producer
  unfold weakProducer at hstep
  cases hp : s.producer with
  | idle => simp [hp] at hstep
  | pushing item t =>
      rw [hp] at hknows hstep
      obtain rfl : t = items.length := hknows
      obtain ⟨⟨m, n⟩, hload, heq⟩ := Option.map_eq_some_iff.mp hstep
      have hpick := (load_bounds hload).1
      obtain ⟨hinv, hloads, rfl⟩ := h.load (.inl rfl) hload
      have hroom := h.room
      have hbehind := h.behind
      have hhead := hinv.heads.seen_le hinv.wf .producer
      rw [hloads.last] at hhead
      rw [subUInt64_eq h.few (by omega)] at heq
      simp only at heq
      split at heq
      · next hfull =>
          obtain ⟨rfl, rfl⟩ := Prod.mk.inj heq
          refine .of_silent ⟨rfl, rfl⟩ (hinv.withProducer trivial (by simp [Producer.query])) ?_
          refine ⟨rfl, ?_⟩
          rw [hloads.last]
          omega
      · next hspace =>
          obtain ⟨rfl, rfl⟩ := Prod.mk.inj heq
          refine .of_silent ⟨rfl, rfl⟩
            (hinv.withProducer ⟨rfl, ?_⟩ (by simp [Producer.query])) trivial
          show items.length < (m.views .producer).seen .head + C.size
          rw [hloads.last]
          omega
  | hasRoom item t =>
      rw [hp] at hknows hstep
      obtain ⟨rfl, hroom⟩ := hknows
      obtain ⟨rfl, rfl⟩ := Prod.mk.inj (Option.some.inj hstep)
      exact .of_silent ⟨rfl, rfl⟩ (h.write item hroom) trivial
  | written item t =>
      rw [hp] at hknows hstep
      obtain ⟨rfl, hroom, hslot⟩ := hknows
      obtain ⟨m, hstore, heq⟩ := Option.map_eq_some_iff.mp hstep
      obtain ⟨rfl, rfl⟩ := Prod.mk.inj heq
      exact ⟨h.publish hroom hslot hfew hstore, trivial⟩
  | querying q =>
      have hsees := h.query .producer q (by rw [WeakSystem.query, hp]; rfl)
      rw [hp] at hstep
      obtain ⟨⟨m, answer⟩, hanswer, heq⟩ := Option.map_eq_some_iff.mp hstep
      obtain ⟨rfl, rfl⟩ := Prod.mk.inj heq
      obtain ⟨hinv, hseen, hsilent⟩ := h.answer hsees hanswer
      exact .of_silent hsilent (hinv.withProducer trivial (by simp [Producer.query])) hseen

theorem weakConsumer_inv (h : WeakInv C s items head)
    (hstep : weakConsumer C s i = some (s', o)) : WeakAfter C s' .consumer o items head := by
  have hknows := h.consumer
  unfold weakConsumer at hstep
  cases hc : s.consumer with
  | idle => simp [hc] at hstep
  | popping k =>
      rw [hc] at hknows hstep
      obtain ⟨rfl, hnone⟩ := hknows
      obtain ⟨⟨m, n⟩, hload, heq⟩ := Option.map_eq_some_iff.mp hstep
      obtain ⟨hinv, hloads, rfl⟩ := h.load (.inl rfl) hload
      have hfound : k ≤ (m.views .consumer).seen .tail := hinv.found
      have hlast := hloads.last
      have hlength := hinv.visible_length
      simp only at heq
      split at heq
      · next hempty =>
          obtain ⟨rfl, rfl⟩ := Prod.mk.inj heq
          refine .of_silent ⟨rfl, rfl⟩
            (hinv.withConsumer trivial (by simp [Consumer.query]) hinv.peeked) ?_
          refine ⟨rfl, ?_⟩
          show (m.views .consumer).seen .tail = k
          omega
      · next hmore =>
          obtain ⟨rfl, rfl⟩ := Prod.mk.inj heq
          refine .of_silent ⟨rfl, rfl⟩ (hinv.withConsumer ⟨rfl, ?_, hnone⟩
            (by simp [Consumer.query]) hinv.peeked) trivial
          rw [hlength]
          show k < (m.views .consumer).seen .tail
          omega
  | popFound k =>
      rw [hc] at hknows hstep
      obtain ⟨rfl, hlt, hnone⟩ := hknows
      obtain ⟨rfl, rfl⟩ := Prod.mk.inj (Option.some.inj hstep)
      have hinv := h.read hlt
      have hfront := (h.front hlt).2
      rw [← @visible_access _ _ .consumer s.memory ⟨C.index k, false⟩] at hfront
      exact .of_silent ⟨rfl, rfl⟩
        (hinv.withConsumer ⟨rfl, hfront, hnone⟩ (by simp [Consumer.query]) hinv.peeked) trivial
  | popRead k item =>
      rw [hc] at hknows hstep
      obtain ⟨rfl, hitem, hnone⟩ := hknows
      obtain ⟨m, hstore, heq⟩ := Option.map_eq_some_iff.mp hstep
      obtain ⟨rfl, rfl⟩ := Prod.mk.inj heq
      have hlt := (List.getElem?_eq_some_iff.mp hitem).1
      refine ⟨?_, ?_⟩
      · rw [show (items ++ (Answer.tryPop (some item)).pushed) = items from List.append_nil _]
        exact h.consume hlt hnone hstore
      · have hfront := h.front hlt
        show items[k]? = some item
        rw [hfront.1, ← hfront.2, hitem]
  | peeking k =>
      rw [hc] at hknows hstep
      obtain rfl : k = head := hknows
      obtain ⟨⟨m, n⟩, hload, heq⟩ := Option.map_eq_some_iff.mp hstep
      obtain ⟨hinv, hloads, rfl⟩ := h.load (.inl rfl) hload
      have hfound : k ≤ (m.views .consumer).seen .tail := hinv.found
      have hlast := hloads.last
      have hlength := hinv.visible_length
      simp only at heq
      split at heq
      · next hempty =>
          obtain ⟨rfl, rfl⟩ := Prod.mk.inj heq
          refine .of_silent ⟨rfl, rfl⟩ (hinv.withConsumer trivial (by simp [Consumer.query])
            (fun slot hslot => absurd hslot (by simp))) ?_
          refine ⟨rfl, ?_⟩
          show (m.views .consumer).seen .tail = k
          omega
      · next hmore =>
          obtain ⟨rfl, rfl⟩ := Prod.mk.inj heq
          have hlt : k < (m.views .consumer).seen .tail := by omega
          refine .of_silent ⟨rfl, rfl⟩ (hinv.withConsumer trivial (by simp [Consumer.query])
            (fun slot hslot => ⟨(Option.some.inj hslot).symm, ?_⟩)) ⟨rfl, hlt⟩
          rw [hlength]
          exact hlt
  | committing k slot =>
      rw [hc] at hknows hstep
      obtain ⟨rfl, hlt, rfl, hnone⟩ := hknows
      obtain ⟨m, hstore, heq⟩ := Option.map_eq_some_iff.mp hstep
      obtain ⟨rfl, rfl⟩ := Prod.mk.inj heq
      refine ⟨?_, (h.front hlt).1⟩
      rw [show (items ++ (Answer.popCommit _).pushed) = items from List.append_nil _]
      exact h.consume hlt hnone hstore
  | querying q =>
      have hsees := h.query .consumer q (by rw [WeakSystem.query, hc]; rfl)
      rw [hc] at hstep
      obtain ⟨⟨m, answer⟩, hanswer, heq⟩ := Option.map_eq_some_iff.mp hstep
      obtain ⟨rfl, rfl⟩ := Prod.mk.inj heq
      obtain ⟨hinv, hseen, hsilent⟩ := h.answer hsees hanswer
      exact .of_silent hsilent
        (hinv.withConsumer trivial (by simp [Consumer.query]) hinv.peeked) hseen

/-- A role's own counter has one message that it may load. -/
theorem WeakInv.own_tail (h : WeakInv C s items head)
    (hload : s.memory.load .producer .tail acquire i = some (m, n)) :
    i = (s.memory.views .producer).seen .tail := by
  obtain ⟨hle, hlt⟩ := load_bounds hload
  rw [h.tails.length] at hlt
  rw [h.ownTail] at hle ⊢
  omega

theorem WeakInv.own_head (h : WeakInv C s items head)
    (hload : s.memory.load .consumer .head acquire i = some (m, n)) :
    i = (s.memory.views .consumer).seen .head := by
  obtain ⟨hle, hlt⟩ := load_bounds hload
  rw [h.heads.length] at hlt
  rw [h.ownHead] at hle ⊢
  omega

theorem weakStep_inv (h : WeakInv C s items head)
    (hstep : weakStep C s (action, i) = some (s', o))
    (hfew : items.length + o.pushed.length < 2 ^ 64) :
    WeakAfter C s' action.thread o items head := by
  cases action with
  | producer => exact weakProducer_inv h hstep hfew
  | consumer => exact weakConsumer_inv h hstep
  | tryPush item =>
      simp only [weakStep] at hstep
      split at hstep
      · obtain ⟨⟨m, n⟩, hload, heq⟩ := Option.map_eq_some_iff.mp hstep
        obtain ⟨rfl, rfl⟩ := Prod.mk.inj heq
        have hown := h.own_tail hload
        obtain ⟨hinv, -, rfl⟩ := h.load (.inr hown) hload
        rw [h.ownTail] at hown
        exact .of_silent ⟨rfl, rfl⟩ (hinv.withProducer hown (by simp [Producer.query])) trivial
      · exact absurd hstep (by simp)
  | producerQuery query =>
      simp only [weakStep] at hstep
      split at hstep
      · obtain ⟨⟨m, q⟩, hask, heq⟩ := Option.map_eq_some_iff.mp hstep
        obtain ⟨rfl, rfl⟩ := Prod.mk.inj heq
        obtain ⟨hinv, hsees⟩ := h.ask hask
        refine .of_silent ⟨rfl, rfl⟩ (hinv.withProducer trivial fun q' hq' => ?_) trivial
        obtain rfl := Option.some.inj hq'
        exact hsees
      · exact absurd hstep (by simp)
  | tryPop =>
      simp only [weakStep] at hstep
      split at hstep
      · obtain ⟨⟨m, n⟩, hload, heq⟩ := Option.map_eq_some_iff.mp hstep
        obtain ⟨rfl, rfl⟩ := Prod.mk.inj heq
        have hown := h.own_head hload
        obtain ⟨hinv, -, rfl⟩ := h.load (.inr hown) hload
        rw [h.ownHead] at hown
        exact .of_silent ⟨rfl, rfl⟩ (hinv.withConsumer ⟨hown, rfl⟩ (by simp [Consumer.query])
          (fun slot hslot => absurd hslot (by simp))) trivial
      · exact absurd hstep (by simp)
  | peek =>
      simp only [weakStep] at hstep
      split at hstep
      · obtain ⟨⟨m, n⟩, hload, heq⟩ := Option.map_eq_some_iff.mp hstep
        obtain ⟨rfl, rfl⟩ := Prod.mk.inj heq
        have hown := h.own_head hload
        obtain ⟨hinv, -, rfl⟩ := h.load (.inr hown) hload
        rw [h.ownHead] at hown
        exact .of_silent ⟨rfl, rfl⟩
          (hinv.withConsumer hown (by simp [Consumer.query]) hinv.peeked) trivial
      · exact absurd hstep (by simp)
  | read =>
      simp only [weakStep] at hstep
      split at hstep
      · next slot _ hpeeked =>
          obtain ⟨rfl, rfl⟩ := Prod.mk.inj (Option.some.inj hstep)
          obtain ⟨rfl, hlt⟩ := h.peeked slot hpeeked
          exact .of_silent ⟨rfl, rfl⟩ (h.read hlt) (h.front hlt).1
      · exact absurd hstep (by simp)
  | popCommit =>
      simp only [weakStep] at hstep
      split at hstep
      · next slot _ hpeeked =>
          obtain ⟨⟨m, n⟩, hload, heq⟩ := Option.map_eq_some_iff.mp hstep
          obtain ⟨rfl, rfl⟩ := Prod.mk.inj heq
          have hown := h.own_head hload
          obtain ⟨hinv, -, rfl⟩ := h.load (.inr hown) hload
          rw [h.ownHead] at hown
          obtain ⟨hslot, hlt⟩ := hinv.peeked slot hpeeked
          exact .of_silent ⟨rfl, rfl⟩ (hinv.withConsumer ⟨hown, hlt, hslot, rfl⟩
            (by simp [Consumer.query]) (fun slot hslot => absurd hslot (by simp))) trivial
      · exact absurd hstep (by simp)
  | consumerQuery query =>
      simp only [weakStep] at hstep
      split at hstep
      · next hidle =>
          obtain ⟨⟨m, q⟩, hask, heq⟩ := Option.map_eq_some_iff.mp hstep
          obtain ⟨rfl, rfl⟩ := Prod.mk.inj heq
          obtain ⟨hinv, hsees⟩ := h.ask hask
          refine .of_silent ⟨rfl, rfl⟩
            (hinv.withConsumer trivial (fun q' hq' => ?_) hinv.peeked) trivial
          obtain rfl := Option.some.inj hq'
          exact hsees
      · exact absurd hstep (by simp)
  | observerQuery k query =>
      simp only [weakStep] at hstep
      split at hstep
      · obtain ⟨⟨m, q⟩, hask, heq⟩ := Option.map_eq_some_iff.mp hstep
        obtain ⟨rfl, rfl⟩ := Prod.mk.inj heq
        obtain ⟨hinv, hsees⟩ := h.ask hask
        refine .of_silent ⟨rfl, rfl⟩ (hinv.withObserver fun q' hq' => ?_) trivial
        obtain rfl := Option.some.inj hq'
        exact hsees
      · exact absurd hstep (by simp)
  | observer k =>
      simp only [weakStep] at hstep
      split at hstep
      · exact absurd hstep (by simp)
      · next q hq =>
          obtain ⟨⟨m, answer⟩, hanswer, heq⟩ := Option.map_eq_some_iff.mp hstep
          obtain ⟨rfl, rfl⟩ := Prod.mk.inj heq
          obtain ⟨hinv, hseen, hsilent⟩ := h.answer (h.query (.observer k) q hq) hanswer
          exact .of_silent hsilent (hinv.withObserver fun q' hq' => absurd hq' (by simp)) hseen

-- ============================================================================
-- Every run
-- ============================================================================

/-- The invariant for a history. -/
structure WeakHistory (C : Capacity) (s : WeakSystem α) (answers : List (Answer α)) : Prop where
  inv : WeakInv C s (pushed answers) (consumed answers).length
  first : consumed answers <+: pushed answers

variable {answers : List (Answer α)}

theorem WeakHistory.step (h : WeakHistory C s answers)
    (hstep : weakStep C s (action, i) = some (s', o))
    (hfew : (pushed (answers ++ [o])).length < 2 ^ 64) : WeakHistory C s' (answers ++ [o]) := by
  rw [pushed_snoc, List.length_append] at hfew
  obtain ⟨hinv, hseen⟩ := weakStep_inv h.inv hstep hfew
  refine ⟨?_, ?_⟩
  · rw [pushed_snoc, consumed_snoc, List.length_append]
    exact hinv
  · rw [pushed_snoc, consumed_snoc]
    refine List.IsPrefix.trans ?_ (List.prefix_append _ _)
    cases o with
    | tryPop item =>
        cases item with
        | none => simpa [Answer.consumed] using h.first
        | some item => exact prefix_snoc h.first hseen
    | popCommit item => exact prefix_snoc h.first hseen
    | _ => simpa [Answer.consumed] using h.first

end

/-- The invariant after any run with few enough pushes. -/
theorem weakRun_history [Inhabited α] {C : Capacity} {schedule : List (Action α × Nat)}
    {s : WeakSystem α} {answers : List (Answer α)}
    (hrun : exec (weakStep C) (WeakSystem.make : WeakSystem α) schedule = some (s, answers))
    (hfew : (pushed answers).length < 2 ^ 64) : WeakHistory C s answers := by
  have hhistory : (pushed answers).length < 2 ^ 64 → WeakHistory C s answers := by
    apply @exec_history _ _ _ (weakStep C)
      (fun s answers => (pushed answers).length < 2 ^ 64 → WeakHistory C s answers)
    · intro s answers a s' o h hstep hfew'
      refine (h ?_).step hstep hfew'
      rw [pushed_snoc, List.length_append] at hfew'
      omega
    · exact fun _ => ⟨weakMake_inv, List.prefix_refl _⟩
    · exact hrun
  exact hhistory hfew

/-- What the queue promises of a state of the weak memory and the history before it. -/
structure WeakFifo (C : Capacity) (s : WeakSystem α) (answers : List (Answer α)) : Prop where
  /-- Of any two accesses of one slot of which one writes, one happened before the
      other. -/
  raceFree : s.memory.raced = false
  /-- In order, nothing lost, nothing twice. -/
  first : consumed answers <+: pushed answers
  bounded : (pushed answers).length ≤ (consumed answers).length + C.size
  /-- Every item that is not consumed is in its slot. -/
  kept : ∀ i item, (consumed answers).length ≤ i → (pushed answers)[i]? = some item →
    s.memory.value (C.index i) = item
  /-- No thread sees more pushed or consumed than there is. -/
  views : ∀ th, (s.memory.views th).seen .tail ≤ (pushed answers).length ∧
    (s.memory.views th).seen .head ≤ (consumed answers).length
  /-- The next answer is true of what its thread sees. -/
  truthful : ∀ action pick s' o, weakStep C s (action, pick) = some (s', o) →
    o.Seen C action.thread (s'.memory.views action.thread) (pushed answers)
      (consumed answers).length

/-- The next answer is true, an answer that pushes more than the counter can count
    included. -/
theorem weakStep_seen {C : Capacity} {s s' : WeakSystem α} {items : List α} {head pick : Nat}
    {action : Action α} {o : Answer α} (h : WeakInv C s items head)
    (hstep : weakStep C s (action, pick) = some (s', o)) :
    o.Seen C action.thread (s'.memory.views action.thread) items head := by
  by_cases hfew : items.length + o.pushed.length < 2 ^ 64
  · exact (weakStep_inv h hstep hfew).seen
  · have hpushed : o.pushed ≠ [] := by
      intro hnil
      have := h.few
      rw [hnil] at hfew
      exact hfew this
    cases o with
    | tryPush item pushed =>
        cases pushed with
        | true => trivial
        | false => exact absurd rfl hpushed
    | _ => exact absurd rfl hpushed

/-- Whatever messages the loads pick, in every interleaving with fewer than
    `2 ^ 64` pushes, no slot access races and the queue is a bounded FIFO. -/
theorem weakRun_fifo [Inhabited α] (C : Capacity) (schedule : List (Action α × Nat))
    {s : WeakSystem α} {answers : List (Answer α)}
    (hrun : exec (weakStep C) (WeakSystem.make : WeakSystem α) schedule = some (s, answers))
    (hfew : (pushed answers).length < 2 ^ 64) : WeakFifo C s answers := by
  obtain ⟨hinv, hfirst⟩ := weakRun_history hrun hfew
  refine ⟨hinv.raced, hfirst, ?_, ?_, fun th => ⟨hinv.tails.seen_le hinv.wf th,
    hinv.heads.seen_le hinv.wf th⟩, fun action pick s' o hstep => weakStep_seen hinv hstep⟩
  · have hroom := hinv.room
    have hseen := hinv.heads.seen_le hinv.wf .producer
    omega
  · intro i item hi hitem
    rw [C.index_eq]
    exact hinv.window i item hi hitem

/-- Both slots are filled and one item is popped.  Then the producer still loads the
    old `head_` and turns back, and the consumer the old `tail_`: with a single order
    of all accesses one of them would see the other's store. -/
def sampleWeakSchedule : List (Action Nat × Nat) :=
  [(.tryPush 7, 0), (.producer, 0), (.producer, 0), (.producer, 0),
    (.tryPush 8, 1), (.producer, 0), (.tryPop, 0), (.producer, 0), (.consumer, 1), (.producer, 0),
    (.consumer, 0), (.consumer, 0), (.tryPush 9, 2), (.producer, 0), (.tryPop, 1), (.consumer, 1),
    (.tryPush 9, 2), (.producer, 1), (.producer, 0), (.producer, 0)]

theorem sample_weakFifo : ∃ s answers,
    exec (weakStep Capacity.two) (WeakSystem.make : WeakSystem Nat) sampleWeakSchedule =
        some (s, answers) ∧
      pushed answers = [7, 8, 9] ∧ consumed answers = [7] ∧ .tryPush 9 false ∈ answers ∧
      .tryPop none ∈ answers ∧ WeakFifo Capacity.two s answers := by
  obtain ⟨answers, hmap, hpushed, hconsumed, hfull, hempty⟩ : ∃ answers,
      (exec (weakStep Capacity.two) (WeakSystem.make : WeakSystem Nat) sampleWeakSchedule).map
          Prod.snd = some answers ∧ pushed answers = [7, 8, 9] ∧ consumed answers = [7] ∧
        .tryPush 9 false ∈ answers ∧ .tryPop none ∈ answers :=
    ⟨_, rfl, by decide, by decide, by decide, by decide⟩
  obtain ⟨⟨s, outs⟩, hrun, hout⟩ := Option.map_eq_some_iff.mp hmap
  obtain rfl : outs = answers := hout
  exact ⟨s, outs, hrun, hpushed, hconsumed, hfull, hempty,
    weakRun_fifo Capacity.two sampleWeakSchedule hrun (by rw [hpushed]; decide)⟩

end SPSCQueue

end LimitOrderBook
