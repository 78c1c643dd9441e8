/-
  LimitOrderBook.RoundBound

  How often the bodies of the two matching loops run.

  A round of the inner loop unlinks a maker or fills the order; a round of the
  outer loop that enters a level empties it or fills the order.  So the makers
  bound the rounds of the inner loop, in all levels together, and the occupied
  levels bound those of the outer loop, but for one that finds nothing to enter.
-/
import LimitOrderBook.Priority

namespace LimitOrderBook

open Lib MatchingEngine

namespace MatchingEngine

/-- The number of levels of a side whose bit is set. -/
def occupiedLevels (self : MatchingEngine) (side : Side) : Nat :=
  ((List.range (self.ladder side).maxLevels.toNat).filter fun (i : Nat) =>
    (self.ladder side).occupiedBits.test i).length

/-- The loops started in `s` have entered `m` levels and run the inner body `k`
    times, and the outer loop is about to start its next round. -/
inductive Rounds (M : Matcher) (s : MatchState) : Nat → Nat → MatchState → Prop where
  | start : Rounds M s 0 0 s
  | enter {m k j idx : Nat} {t u : MatchState} :
      Rounds M s m k t → Enters M t idx → VisitsIn (levelRound M idx) t j u →
      levelRound M idx u = some (.stop u) → Rounds M s (m + 1) (k + j) u

/-- The outer loop makes its rounds. -/
theorem rounds_of_visits {M : Matcher} {s t : MatchState} (h : Visits (matchRound M) s t) :
    ∃ m k, Rounds M s m k t := by
  induction h with
  | start => exact ⟨0, 0, .start⟩
  | @round t u _ hb ih =>
      obtain ⟨m, k, hrounds⟩ := ih
      rcases matchRound_inv hb with hstop | ⟨idx, v, henters, hloop, hagain⟩
      · exact absurd hstop (by simp)
      · obtain rfl := Round.again.inj hagain
        obtain ⟨w, hvisits, hw⟩ := runLoop_visits hloop
        rcases levelRound_inv hw with heq | ⟨p, -, -, hagain'⟩
        · obtain rfl := Round.stop.inj heq
          obtain ⟨j, hj⟩ := hvisits.counted
          exact ⟨m + 1, k + j, .enter hrounds henters hj hw⟩
        · exact absurd hagain' (by simp)

section

variable {n capacity idx : Nat} {side : Side} {start L : Layout} {goal : Book.Matched}
  {st st' : MatchState} {j k m : Nat}

/-- The rounds of the inner loop that can still follow. -/
def makersLeft (st : MatchState) : Nat :=
  if 0 < st.order.quantity then (st.engine.sideSlots st.order.side.opposite).length else 0

/-- The rounds of the outer loop that can still enter a level. -/
def levelsLeft (st : MatchState) : Nat :=
  if 0 < st.order.quantity then st.engine.occupiedLevels st.order.side.opposite else 0

/-- A run of the inner body unlinks the front maker or fills the order. -/
theorem LevelInv.fills (h : LevelInv n capacity side start goal idx st)
    (hround : levelRound (matcher side) idx st = some (.again st')) :
    ((∃ p, st.engine.levelSlots side.opposite idx =
        p :: st'.engine.levelSlots side.opposite idx) ∨ st'.order.quantity = 0) ∧
      makersLeft st' < makersLeft st := by
  obtain ⟨L, hm, hbest, -⟩ := h
  rw [levelRound_eq hm] at hround
  cases hq : L.queue side.opposite idx with
  | nil =>
      rw [hq] at hround
      exact absurd hround (by simp)
  | cons p ps =>
      rw [hq] at hround
      simp only at hround
      split at hround
      · next hpos =>
          obtain rfl := Round.again.inj (Option.some.inj hround)
          obtain ⟨rest, hslots, -, -, -, hset, -⟩ := hm.front hbest hq
          have hleft : makersLeft st = (ps ++ rest).length + 1 := by
            rw [makersLeft, if_pos hpos, hm.side_eq, hm.rep.sideSlots_eq, hslots, List.length_cons]
          by_cases hle : (st.engine.heap p).remaining ≤ st.order.quantity
          · obtain ⟨hrep, horder, -, -⟩ := fillFront_whole hm.rep hq hle hm.side_eq
            have hslots' : (fillFront (matcher side) idx p st).engine.sideSlots side.opposite =
                ps ++ rest := (hrep.sideSlots_eq side.opposite).trans hset
            have hside : (fillFront (matcher side) idx p st).order.side = side := by
              rw [horder]
              exact hm.side_eq
            refine ⟨.inl ⟨p, ?_⟩, ?_⟩
            · rw [hm.rep.levelSlots_eq, hrep.levelSlots_eq, hq]
              exact congrArg (p :: ·) (Layout.setQueue_queue_self ..).symm
            · rw [hleft, makersLeft, hside, hslots']
              split <;> omega
          · obtain ⟨-, horder, -, -, -⟩ := fillFront_partial hm.rep hq hpos (by omega) hm.side_eq
            refine ⟨.inr (by rw [horder]), ?_⟩
            rw [hleft, makersLeft, horder, if_neg (Int.lt_irrefl 0)]
            omega
      · exact absurd hround (by simp)

/-- The inner loop leaves its level empty, its bit cleared, or the order filled. -/
theorem LevelInv.leaves (h : LevelInv n capacity side start goal idx st)
    (hstop : levelRound (matcher side) idx st = some (.stop st)) :
    (st.engine.levelSlots side.opposite idx = [] ∧
        (st.engine.ladder side.opposite).occupiedBits.test idx = false) ∨
      st.order.quantity = 0 := by
  obtain ⟨L, hm, -, -⟩ := h
  rw [levelRound_eq hm] at hstop
  cases hq : L.queue side.opposite idx with
  | nil =>
      refine .inl ⟨(hm.rep.levelSlots_eq side.opposite idx).trans hq, ?_⟩
      have hocc := (hm.rep.ladder side.opposite).occupied idx
      rw [DynamicBitset.test_eq_mem (hm.rep.ladder side.opposite).bits, Bool.eq_false_iff]
      exact fun hmem => hocc.mp hmem hq
  | cons p ps =>
      rw [hq] at hstop
      simp only at hstop
      split at hstop
      · exact absurd hstop (by simp)
      · have hnonneg := hm.nonneg
        exact .inr (by omega)

theorem occupiedLevels_eq (h : st.engine.Rep n capacity L) (other : Side) :
    st.engine.occupiedLevels other =
      ((List.range n).filter fun (i : Nat) => decide (L.queue other i ≠ [])).length := by
  have htest : (fun (i : Nat) => (st.engine.ladder other).occupiedBits.test i) =
      fun (i : Nat) => decide (L.queue other i ≠ []) := by
    funext i
    rw [DynamicBitset.test_eq_mem (h.ladder other).bits, Bool.eq_iff_iff, decide_eq_true_eq]
    exact (h.ladder other).occupied i
  rw [occupiedLevels, htest, (h.ladder other).ticks.maxLevels, Int.toNat_natCast]

/-- A filter that loses a member gets shorter. -/
theorem filter_length_lt {α : Type*} {p q : α → Bool} {l : List α} {x : α}
    (hsub : ∀ y ∈ l, q y = true → p y = true) (hx : x ∈ l) (hp : p x = true) (hq : q x = false) :
    (l.filter q).length < (l.filter p).length := by
  have hfilter : l.filter q = (l.filter p).filter q := by
    rw [List.filter_filter]
    refine List.filter_congr fun y hy => ?_
    cases hqy : q y with
    | false => rfl
    | true => rw [hsub y hy hqy]; rfl
  rw [hfilter, List.length_filter_lt_length_iff_exists]
  exact ⟨x, List.mem_filter.mpr ⟨hx, hp⟩, by simp [hq]⟩

/-- What the rounds of the inner loop in one level leave for both loops. -/
theorem Matching.level_rounds (h : Matching n capacity side start goal st L)
    (henters : Enters (matcher side) st idx)
    (hvisits : VisitsIn (levelRound (matcher side) idx) st j st')
    (hstop : levelRound (matcher side) idx st' = some (.stop st')) :
    (∃ L', Matching n capacity side start goal st' L') ∧
      j + makersLeft st' ≤ makersLeft st ∧ levelsLeft st' < levelsLeft st := by
  -- the queues of this round are compared with those at its start
  have hself : Matching n capacity side L goal st L :=
    ⟨h.toSettled, h.side_eq, h.nonneg, h.outcome, fun _ => List.suffix_refl _, rfl, rfl⟩
  obtain ⟨hne, hinv⟩ := hself.enters henters
  have hbound : ∀ u v, LevelInv n capacity side L goal idx u →
      levelRound (matcher side) idx u = some (.again v) →
      LevelInv n capacity side L goal idx v ∧ makersLeft v < makersLeft u := fun u v hu hround =>
    ⟨LevelInv.visits hu (.round .start hround), (hu.fills hround).2⟩
  obtain ⟨hinv', hle⟩ := hvisits.bound hbound hinv
  have hempties := hinv'.leaves hstop
  obtain ⟨L', hm', -, -⟩ := hinv'
  have hlt : idx < n := by
    obtain ⟨p, hp⟩ := List.exists_mem_of_ne_nil _ hne
    exact (h.rep.ladder side.opposite).lt_of_mem hp
  have hsuffix : ∀ i, L'.queue side.opposite i ≠ [] → L.queue side.opposite i ≠ [] := by
    intro i hi hnil
    exact hi (List.suffix_nil.mp (hnil ▸ hm'.opposite i))
  refine ⟨⟨L', hm'.toSettled, hm'.side_eq, hm'.nonneg, hm'.outcome,
    fun i => (hm'.opposite i).trans (h.opposite i), hm'.own.trans h.own,
    hm'.held.trans h.held⟩, hle, ?_⟩
  have hpositive : 0 < st.engine.occupiedLevels side.opposite := by
    rw [occupiedLevels_eq h.rep]
    exact List.length_pos_of_mem
      (List.mem_filter.mpr ⟨List.mem_range.mpr hlt, decide_eq_true hne⟩)
  rw [levelsLeft, levelsLeft, if_pos henters.left, hm'.side_eq, h.side_eq]
  split
  · next hpos =>
      obtain ⟨hnil, -⟩ := hempties.resolve_right (by omega)
      rw [hm'.rep.levelSlots_eq] at hnil
      rw [occupiedLevels_eq h.rep, occupiedLevels_eq hm'.rep]
      apply filter_length_lt (x := idx)
      · intro i _ hi
        exact decide_eq_true (hsuffix i (of_decide_eq_true hi))
      · exact List.mem_range.mpr hlt
      · exact decide_eq_true hne
      · simpa using hnil
  · exact hpositive

/-- Both loops stay within what was there when they started. -/
theorem Matching.rounds (h : Matching n capacity side start goal st L)
    (hrounds : Rounds (matcher side) st m k st') :
    (∃ L', Matching n capacity side start goal st' L') ∧
      k + makersLeft st' ≤ makersLeft st ∧ m + levelsLeft st' ≤ levelsLeft st := by
  induction hrounds with
  | start => exact ⟨⟨L, h⟩, by omega, by omega⟩
  | enter _ henters hvisits hstop ih =>
      obtain ⟨⟨L', hm'⟩, hmakers, hlevels⟩ := ih
      obtain ⟨hm'', hmakers', hlevels'⟩ := hm'.level_rounds henters hvisits hstop
      exact ⟨hm'', by omega, by omega⟩

/-- The loops of a call end within what rests on the opposite side. -/
structure RoundsBounded (engine : MatchingEngine) (order : IncomingOrder) : Prop where
  /-- The loops end: the outer one stops after rounds that it makes. -/
  returns : ∃ st m k, engine.matchOrder order = some st ∧
    Rounds (matcher order.side) ⟨engine, order, {}⟩ m k st ∧
    matchRound (matcher order.side) st = some (.stop st)
  /-- At most as many runs of the inner body, in all levels, as orders rest opposite. -/
  inner : ∀ m k st, Rounds (matcher order.side) ⟨engine, order, {}⟩ m k st →
    k ≤ (engine.sideSlots order.side.opposite).length
  /-- The outer loop makes `m` rounds that enter a level, and then one that enters none. -/
  outer : ∀ m k st, Rounds (matcher order.side) ⟨engine, order, {}⟩ m k st →
    m + 1 ≤ engine.occupiedLevels order.side.opposite + 1
  /-- A run of the inner body unlinks the front maker or fills the order. -/
  fills : ∀ m k j idx st u v, Rounds (matcher order.side) ⟨engine, order, {}⟩ m k st →
    Enters (matcher order.side) st idx → VisitsIn (levelRound (matcher order.side) idx) st j u →
    levelRound (matcher order.side) idx u = some (.again v) →
    (∃ p, u.engine.levelSlots order.side.opposite idx =
      p :: v.engine.levelSlots order.side.opposite idx) ∨ v.order.quantity = 0
  /-- A round that enters a level empties it and clears its bit, or fills the order. -/
  leaves : ∀ m k j idx st u, Rounds (matcher order.side) ⟨engine, order, {}⟩ m k st →
    Enters (matcher order.side) st idx → VisitsIn (levelRound (matcher order.side) idx) st j u →
    levelRound (matcher order.side) idx u = some (.stop u) →
    (u.engine.levelSlots order.side.opposite idx = [] ∧
        (u.engine.ladder order.side.opposite).occupiedBits.test idx = false) ∨
      u.order.quantity = 0

theorem Settled.roundsBounded {self : MatchingEngine} {order : IncomingOrder}
    (h : self.Settled n capacity L) (hpos : 0 < order.quantity) : self.RoundsBounded order := by
  have hinit := Matching.init h (Int.le_of_lt hpos)
  have hlevel : ∀ m k j idx st u, Rounds (matcher order.side) ⟨self, order, {}⟩ m k st →
      Enters (matcher order.side) st idx →
      VisitsIn (levelRound (matcher order.side) idx) st j u →
      LevelInv n capacity order.side L (self.book.matched order order.quantity) idx u := by
    intro m k j idx st u hrounds henters hvisits
    obtain ⟨⟨L', hm⟩, -⟩ := hinit.rounds hrounds
    exact LevelInv.visits (hm.enters henters).2 hvisits.visits
  refine ⟨?_, ?_, ?_, ?_, ?_⟩
  · obtain ⟨st, L', hmatch, -⟩ := matchOrder_spec h (Int.le_of_lt hpos)
    have hloop := hmatch
    rw [matchOrder_eq] at hloop
    obtain ⟨u, hvisits, hstop⟩ := runLoop_visits hloop
    rcases matchRound_inv hstop with heq | ⟨idx, v, -, -, hagain⟩
    · obtain rfl := Round.stop.inj heq
      obtain ⟨m, k, hrounds⟩ := rounds_of_visits hvisits
      exact ⟨st, m, k, hmatch, hrounds, hstop⟩
    · exact absurd hagain (by simp)
  · intro m k st hrounds
    obtain ⟨-, hmakers, -⟩ := hinit.rounds hrounds
    rw [show makersLeft ⟨self, order, {}⟩ = (self.sideSlots order.side.opposite).length
      from if_pos hpos] at hmakers
    omega
  · intro m k st hrounds
    obtain ⟨-, -, hlevels⟩ := hinit.rounds hrounds
    rw [show levelsLeft ⟨self, order, {}⟩ = self.occupiedLevels order.side.opposite
      from if_pos hpos] at hlevels
    omega
  · intro m k j idx st u v hrounds henters hvisits hround
    exact ((hlevel m k j idx st u hrounds henters hvisits).fills hround).1
  · intro m k j idx st u hrounds henters hvisits hstop
    exact (hlevel m k j idx st u hrounds henters hvisits).leaves hstop

end

end MatchingEngine

/-- In every state of a run on the ladder, the matching loops of a valid order end,
    within the orders and the occupied levels of the opposite side. -/
theorem run_roundsBounded (config : Config) (cs : List Command)
    (h : ∀ c ∈ cs, c.LimitBelow config.maxLevels) (order : IncomingOrder)
    (hv : validateOrder order = true) :
    ∃ engine events, config.engine.run cs = some (engine, events) ∧ engine.RoundsBounded order := by
  obtain ⟨engine, events, hrun, ⟨L, hs⟩, -⟩ := config.run_calls h
  exact ⟨engine, events, hrun, hs.settled.roundsBounded (validateOrder_pos hv).1⟩

/-- A market sell against what the sample run leaves. -/
theorem sample_roundsBounded : ∃ engine events,
    Config.small.engine.run sampleCommands = some (engine, events) ∧
    engine.RoundsBounded (makeOrder 9 .sell 0 50 .market) :=
  run_roundsBounded Config.small sampleCommands (by decide) (makeOrder 9 .sell 0 50 .market) rfl

end LimitOrderBook
