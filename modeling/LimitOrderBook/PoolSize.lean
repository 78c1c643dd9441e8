/-
  LimitOrderBook.PoolSize

  How the size of the pool shows.

  An order that finds no slot is refused before it has touched anything, so the run
  without the refused orders is a run on every pool that is at least as large
  (`run_refused`, by `exec_kept`).  A larger pool answers the same run alike up to
  the first refusal and no further, for there the residual rests
  (`run_poolSize_iff`).
-/
import LimitOrderBook.Differential
import LimitOrderBook.DuplicateIds
import LimitOrderBook.PoolExhaustion

namespace LimitOrderBook

open Lib MatchingEngine

namespace Book

section

variable {B : Book} {room room' : Nat → Bool} {c : Command}

theorem lacksRoom_mono (hroom : ∀ k, room k = true → room' k = true)
    (h : B.lacksRoom room c = false) : B.lacksRoom room' c = false := by
  cases c with
  | cancelOrder id => rfl
  | processOrder order =>
      cases hk : room (B.matched order order.quantity).book.size with
      | true => simp [lacksRoom, hroom _ hk]
      | false =>
          simp only [lacksRoom, hk, Bool.not_false, Bool.and_true] at h
          simp only [lacksRoom, h, Bool.false_and]

/-- A call that has room does the same with more of it. -/
theorem step_mono (hroom : ∀ k, room k = true → room' k = true)
    (h : B.lacksRoom room c = false) : B.step room c = B.step room' c := by
  rw [step_of_room h, step_of_room (lacksRoom_mono hroom h)]

/-- What a call that lacks room is. -/
theorem lacksRoom_cases (h : B.lacksRoom room c = true) :
    ∃ order, c = .processOrder order ∧ validateOrder order = true ∧ order.type = .limit ∧
      (B.matched order order.quantity).left ≠ 0 ∧
      room (B.matched order order.quantity).book.size = false := by
  cases c with
  | cancelOrder id => exact absurd h Bool.false_ne_true
  | processOrder order =>
      simp only [lacksRoom, Bool.and_eq_true, decide_eq_true_eq, Bool.not_eq_true'] at h
      obtain ⟨⟨⟨hv, hlimit⟩, hleft⟩, hk⟩ := h
      exact ⟨order, rfl, hv, hlimit, hleft, hk⟩

/-- The last report tells whether there was room. -/
theorem step_room_ne (h : B.lacksRoom room c = true) (h' : B.lacksRoom room' c = false) :
    (B.step room c).2 ≠ (B.step room' c).2 := by
  obtain ⟨order, rfl, hv, hlimit, hleft, hk⟩ := lacksRoom_cases h
  have hk' : room' (B.matched order order.quantity).book.size = true := by
    simpa [lacksRoom, hv, hlimit, hleft] using h'
  simp only [step, process, hv, Bool.not_true, Bool.false_eq_true, if_false, if_neg hleft,
    hlimit, hk, hk', and_true, and_false, if_true]
  intro heq
  have hreports := congrArg MatchEvent.reports heq
  have hlast := List.append_inj_right hreports rfl
  have hstatus := congrArg ExecutionReport.status (List.cons.inj hlast).1
  exact OrderStatus.noConfusion hstatus

end

end Book

namespace MatchingEngine

section

variable {self other : MatchingEngine} {n n' capacity capacity' : Nat} {L L' : Layout}
  {c : Command}

/-- A pool with room has room when it is larger. -/
theorem roomIn_capacity_mono (hle : capacity ≤ capacity') (k : Nat) (h : roomIn capacity k = true) :
    roomIn capacity' k = true := by
  have hk := of_decide_eq_true h
  rw [OrderPool.usable] at hk
  apply decide_eq_true
  rw [OrderPool.usable]
  omega

/-- A call that finds the pool empty is answered by a refusal and changes nothing. -/
theorem Sound.step_refused (h : self.Sound n capacity L) (hc : self.runsOut c = true) :
    ∃ order, c = .processOrder order ∧ self.step c =
      some (self, { reports := [takerReport order .cancelled 0 order.quantity] }) := by
  rw [h.runsOut_eq] at hc
  obtain ⟨order, rfl, hv, hlimit, hleft, hroom⟩ := Book.lacksRoom_cases hc
  obtain ⟨hpos, -, -⟩ := validateOrder_pos hv
  refine ⟨order, rfl, processOrder_refused h.settled hv hlimit fun hslot => ?_⟩
  have hres : self.LeavesResidual order := by
    have hmatched := @Book.matched_left self.book order _ h.book_positive (Int.le_of_lt hpos)
    rw [LeavesResidual]
    omega
  obtain ⟨-, hfound⟩ := (h.rests_iff hpos).mpr ⟨hres, hslot⟩
  rw [hroom] at hfound
  exact absurd hfound Bool.false_ne_true

/-- A call that finds a slot is answered alike on a larger pool with the same book. -/
theorem Sound.step_larger (h : self.Sound n capacity L) (h' : other.Sound n' capacity' L')
    (hle : capacity ≤ capacity') (hbook : self.book = other.book) (hc : self.runsOut c = false)
    (hn : c.LimitBelow n) (hn' : c.LimitBelow n') :
    ∃ s t event, self.step c = some (s, event) ∧ other.step c = some (t, event) ∧
      (∃ L, s.Sound n capacity L) ∧ (∃ L, t.Sound n' capacity' L) ∧ s.book = t.book := by
  obtain ⟨s, event, M, hstep, hs, hB, -⟩ := step_spec h hn
  obtain ⟨t, event', M', hstep', ht, hB', -⟩ := step_spec h' hn'
  rw [h.runsOut_eq] at hc
  have hsame := Book.step_mono (roomIn_capacity_mono hle) hc
  rw [show self.book.step (roomIn capacity) c = (s.book, event) from hB, hbook,
    show other.book.step (roomIn capacity') c = (t.book, event') from hB'] at hsame
  obtain ⟨hend, rfl⟩ := Prod.mk.inj hsame
  exact ⟨s, t, event, hstep, hstep', ⟨M, hs⟩, ⟨M', ht⟩, hend⟩

/-- A call that is refused is answered differently by a pool that has one slot more. -/
theorem Sound.step_refused_ne (h : self.Sound n capacity L) (h' : other.Sound n' capacity' L')
    (hlt : OrderPool.usable capacity < OrderPool.usable capacity')
    (hbook : self.book = other.book) (hc : self.runsOut c = true)
    (hn : c.LimitBelow n) (hn' : c.LimitBelow n') {s t : MatchingEngine}
    {event event' : MatchEvent} (hstep : self.step c = some (s, event))
    (hstep' : other.step c = some (t, event')) : event ≠ event' := by
  obtain ⟨s₁, e₁, -, h₁, -, hB, -⟩ := step_spec h hn
  obtain ⟨t₁, e₁', -, h₁', ht, hB', -⟩ := step_spec h' hn'
  obtain ⟨rfl, rfl⟩ := result_unique hstep h₁
  obtain ⟨rfl, rfl⟩ := result_unique hstep' h₁'
  rw [h.runsOut_eq] at hc
  have hroom : self.book.lacksRoom (roomIn capacity') c = false := by
    obtain ⟨order, rfl, hv, hlimit, hleft, hk⟩ := Book.lacksRoom_cases hc
    obtain ⟨hpos, -, -⟩ := validateOrder_pos hv
    have hnonneg : 0 ≤ (self.book.matched order order.quantity).left :=
      Supply.sweep_left_nonneg (Int.le_of_lt hpos)
    have hsize := @Book.matched_size self.book order order.quantity (by omega)
    have hbefore := h.book_size
    have hlarger : roomIn capacity' (self.book.matched order order.quantity).book.size = true :=
      decide_eq_true (by omega)
    simp only [Book.lacksRoom, hlarger, Bool.not_true, Bool.and_false]
  have hne := Book.step_room_ne hc hroom
  rw [show self.book.step (roomIn capacity) c = (s.book, event) from hB, hbook,
    show other.book.step (roomIn capacity') c = (t.book, event') from hB'] at hne
  exact hne

end

end MatchingEngine

-- ============================================================================
-- Runs
-- ============================================================================

/-- The calls of a run that are not refused, with their events. -/
def MatchingEngine.served (self : MatchingEngine) (cs : List Command) :
    List (Command × MatchEvent) := kept step runsOut self cs

/-- Both pools take the prices and the books agree. -/
def Alike (config config' : Config) (s t : MatchingEngine) : Prop :=
  (∃ L, s.Sound config.levels config.poolCapacity L) ∧
    (∃ L, t.Sound config'.levels config'.poolCapacity L) ∧ s.book = t.book

section

variable {config config' : Config} {s t : MatchingEngine} {c : Command}

theorem alike_start (config config' : Config) : Alike config config' config.engine config'.engine :=
  ⟨⟨_, config.engine_sound⟩, ⟨_, config'.engine_sound⟩,
    config.engine_book.trans config'.engine_book.symm⟩

theorem Alike.refused (h : Alike config config' s t) (hc : s.runsOut c = true) :
    ∃ s' event, s.step c = some (s', event) ∧ Alike config config' s' t := by
  obtain ⟨⟨L, hs⟩, ht, hbook⟩ := h
  obtain ⟨order, rfl, hstep⟩ := hs.step_refused hc
  exact ⟨s, _, hstep, ⟨L, hs⟩, ht, hbook⟩

theorem Alike.step (h : Alike config config' s t)
    (hle : config.poolCapacity ≤ config'.poolCapacity) (hn : c.LimitBelow config.levels)
    (hn' : c.LimitBelow config'.levels) (hc : s.runsOut c = false) :
    ∃ s' t' event, s.step c = some (s', event) ∧ t.step c = some (t', event) ∧
      Alike config config' s' t' := by
  obtain ⟨⟨L, hs⟩, ⟨L', ht⟩, hbook⟩ := h
  obtain ⟨s', t', event, hstep, hstep', hs', ht', hbook'⟩ :=
    hs.step_larger ht hle hbook hc hn hn'
  exact ⟨s', t', event, hstep, hstep', hs', ht', hbook'⟩

end

/-- A refusal changes nothing and says so, and the run without the refused orders is a
    run on every pool of at least the size whose ladder takes it too, with the same events
    and the same last book. -/
theorem run_refused (config config' : Config)
    (hle : config.poolCapacity ≤ config'.poolCapacity) (cs : List Command)
    (h : ∀ c ∈ cs, c.LimitBelow config.maxLevels ∧ c.LimitBelow config'.maxLevels) :
    Along step (fun s c => s.runsOut c = true → ∃ order, c = .processOrder order ∧
      s.step c = some (s, { reports := [takerReport order .cancelled 0 order.quantity] }))
      config.engine cs ∧
    ∃ s events t, config.engine.run cs = some (s, events) ∧
      config'.engine.run ((config.engine.served cs).map Prod.fst) =
        some (t, (config.engine.served cs).map Prod.snd) ∧
      (config.engine.served cs).Sublist (cs.zip events) ∧ s.book = t.book := by
  constructor
  · rintro pre c post rfl s events hrun hc
    obtain ⟨s', events', hrun', ⟨L, hs⟩, -⟩ := config.run_calls
      fun d hd => (h d (List.mem_append_left _ hd)).1
    obtain ⟨rfl, rfl⟩ := result_unique hrun hrun'
    exact hs.step_refused hc
  · rw [← config.levels_eq, ← config'.levels_eq] at h
    obtain ⟨s, t, events, hrun, hrun', -, -, hbook⟩ := @exec_kept _ _ _ _ step step runsOut
      (Alike config config') (fun c => c.LimitBelow config.levels ∧ c.LimitBelow config'.levels)
      (fun _ _ _ hst _ hc => hst.refused hc)
      (fun _ _ _ hst hadm hc => hst.step hle hadm.1 hadm.2 hc) _ _
      (alike_start config config') cs h
    exact ⟨s, events, t, hrun, hrun', kept_sublist hrun, hbook⟩

/-- A larger pool answers alike at every point of a run on both ladders exactly when no
    call of the run is refused. -/
theorem run_poolSize_iff (config config' : Config)
    (hlt : config.poolCapacity < config'.poolCapacity) (hcap : config.poolCapacity < UINT32_MAX)
    (cs : List Command)
    (h : ∀ c ∈ cs, c.LimitBelow config.maxLevels ∧ c.LimitBelow config'.maxLevels) :
    (∀ pre post, cs = pre ++ post → ∃ s events t, config.engine.run pre = some (s, events) ∧
      config'.engine.run pre = some (t, events)) ↔
    Along step (fun s c => s.runsOut c = false) config.engine cs := by
  rw [← config.levels_eq, ← config'.levels_eq] at h
  have hadm : ∀ pre c post, cs = pre ++ c :: post →
      c.LimitBelow config.levels ∧ c.LimitBelow config'.levels :=
    fun pre c post hsplit => h c (by rw [hsplit]; simp)
  have husable : OrderPool.usable config.poolCapacity < OrderPool.usable config'.poolCapacity := by
    rw [OrderPool.usable, OrderPool.usable]
    omega
  have hiff := @exec_prefix_iff _ _ _ step
    (fun pre events s => ∃ t, config'.engine.run pre = some (t, events) ∧ Alike config config' s t)
    (fun pre events _ => ∃ t, config'.engine.run pre = some (t, events))
    (fun s c => s.runsOut c = false) config.engine cs
    ⟨config'.engine, rfl, alike_start config config'⟩
    (by
      rintro pre events s ⟨t, hrun', -⟩
      exact ⟨t, hrun'⟩)
    (by
      rintro pre c post hsplit events s ⟨t, hrun', halike⟩ hc
      obtain ⟨s', t', event, hstep, hstep', hnext⟩ :=
        halike.step (Nat.le_of_lt hlt) (hadm pre c post hsplit).1 (hadm pre c post hsplit).2 hc
      exact ⟨s', event, hstep, t', exec_append hrun' (exec_cons hstep' rfl), hnext⟩)
    (by
      rintro pre c post hsplit events s ⟨t, hrun', ⟨L, hs⟩, ⟨L', ht⟩, hbook⟩ hc s' event hstep
        ⟨t', hall⟩
      obtain ⟨t₁, ps, event', hfirst, hstep', heq⟩ := exec_snoc_inv hall
      obtain ⟨rfl, rfl⟩ := result_unique hrun' hfirst
      obtain ⟨-, hevent⟩ := List.append_inj' heq rfl
      exact hs.step_refused_ne ht husable hbook (Bool.not_eq_false _ ▸ hc)
        (hadm pre c post hsplit).1 (hadm pre c post hsplit).2 hstep hstep'
        (List.cons.inj hevent).1)
  rw [← hiff]
  constructor
  · intro hrun pre post hsplit
    obtain ⟨s, events, t, hs, ht⟩ := hrun pre post hsplit
    exact ⟨s, events, hs, t, ht⟩
  · intro hrun pre post hsplit
    obtain ⟨s, events, hs, t, ht⟩ := hrun pre post hsplit
    exact ⟨s, events, t, hs, ht⟩

/-- Ten levels and five slots. -/
def Config.roomy : Config :=
  { Config.small with poolCapacity := 5, capacity_pos := Nat.succ_pos 4, capacity_lt := by decide }

/-- A fourth bid finds no slot among three; the sell that follows frees two. -/
def crowdedCommands : List Command :=
  fullCommands ++ [.processOrder (makeOrder 4 .buy 5 10), .processOrder (makeOrder 5 .sell 5 20)]

theorem crowded_refused :
    Along step (fun s c => s.runsOut c = true → ∃ order, c = .processOrder order ∧
      s.step c = some (s, { reports := [takerReport order .cancelled 0 order.quantity] }))
      Config.small.engine crowdedCommands ∧
    ∃ s events t, Config.small.engine.run crowdedCommands = some (s, events) ∧
      Config.roomy.engine.run ((Config.small.engine.served crowdedCommands).map Prod.fst) =
        some (t, (Config.small.engine.served crowdedCommands).map Prod.snd) ∧
      (Config.small.engine.served crowdedCommands).Sublist (crowdedCommands.zip events) ∧
      s.book = t.book :=
  run_refused Config.small Config.roomy (by decide) crowdedCommands (by decide)

theorem crowded_poolSize :
    (∀ pre post, crowdedCommands = pre ++ post → ∃ s events t,
      Config.small.engine.run pre = some (s, events) ∧
      Config.roomy.engine.run pre = some (t, events)) ↔
    Along step (fun s c => s.runsOut c = false) Config.small.engine crowdedCommands :=
  run_poolSize_iff Config.small Config.roomy (by decide) (by decide) crowdedCommands (by decide)

end LimitOrderBook
