import Promscale.Aggregates.Doubles

/-!
# Dividing by the sampled interval

`add_delta_for_current_window` divides by the time between the first and the last sample of the
window, and a rate by the whole seconds of the range. Two samples are enough for it to compute a
delta, and they may have one time; a range below a second has no whole second; and doubles may
overflow.
-/
namespace Promscale.Aggregates

open Promscale.Lib SlidingQuery Binary64 F64

/-! ## Where deltas are computed -/

section Flushes
variable {F : Type} [F64 F]

namespace GapfillDeltaTransition

/-- What `add_delta_for_current_window` pushes. -/
def pushed (self : GapfillDeltaTransition F) : Option F :=
  windowDelta self.isCounter self.isRate self.range self.currentWindowMin self.currentWindowMax
    self.window

/-- While some samples are added to `self` and the deltas are read in the end,
`add_delta_for_current_window` is called in `state`. -/
inductive Flushes : GapfillDeltaTransition F → List (Int × F) → GapfillDeltaTransition F → Prop
  | adding {self state : GapfillDeltaTransition F} {s : Int × F} {rest : List (Int × F)}
      (hlive : live s = true)
      (runs : RunsBody (outsideWindow s.1) flushCurrentWindow self state) :
      Flushes self (s :: rest) state
  | added {self next state : GapfillDeltaTransition F} {s : Int × F} {rest : List (Int × F)}
      (added : Yields (fun fuel => self.addDataPoint fuel s.1 s.2) (.ok next))
      (later : Flushes next rest state) : Flushes self (s :: rest) state
  | reading {self state : GapfillDeltaTransition F}
      (runs : RunsBody windowDue flushCurrentWindow self state) : Flushes self [] state

/-- What is added without an error is added sample by sample. -/
theorem yields_addAll_cons {self final : GapfillDeltaTransition F} {s : Int × F}
    {rest : List (Int × F)} (h : Yields (fun fuel => self.addAll fuel (s :: rest)) (.ok final)) :
    ∃ next, Yields (fun fuel => self.addDataPoint fuel s.1 s.2) (.ok next) ∧
      Yields (fun fuel => next.addAll fuel rest) (.ok final) := by
  obtain ⟨n, hn⟩ := h
  have hrun : ∀ fuel, n < fuel → self.addAll fuel (s :: rest) = some (.ok final) := hn
  have hfirst := hrun (n + 1) (Nat.lt_succ_self n)
  rw [addAll] at hfirst
  cases hadd : self.addDataPoint (n + 1) s.1 s.2 with
  | none => simp [hadd] at hfirst
  | some result =>
    cases result with
    | error e => simp [hadd] at hfirst
    | ok next =>
      have hpoint : ∀ fuel, n < fuel → self.addDataPoint fuel s.1 s.2 = some (.ok next) :=
        fun fuel hfuel => addDataPoint_mono hadd hfuel
      refine ⟨next, ⟨n, hpoint⟩, n, fun fuel hfuel => ?_⟩
      have hrest := hrun fuel hfuel
      rwa [addAll, hpoint fuel hfuel] at hrest

/-- Once all samples are added the deltas are read. -/
theorem flushes_of_runsBody {self final state : GapfillDeltaTransition F}
    {samples : List (Int × F)} (h : Yields (fun fuel => self.addAll fuel samples) (.ok final))
    (runs : RunsBody windowDue flushCurrentWindow final state) : Flushes self samples state := by
  induction samples generalizing self with
  | nil =>
    have hnil : Yields (fun fuel => self.addAll fuel []) (.ok self) := Yields.const _
    cases h.unique hnil
    exact .reading runs
  | cons s rest ih =>
    obtain ⟨next, hadd, hrest⟩ := yields_addAll_cons h
    exact .added hadd (ih hrest)

/-- The delta is computed from these samples. -/
structure Serves (window : List (Int × F)) (windowMin windowMax range : Int)
    (isCounter isRate : Bool) (state : GapfillDeltaTransition F) : Prop where
  window_eq : state.window = window
  min_eq : state.currentWindowMin = windowMin
  max_eq : state.currentWindowMax = windowMax
  range_eq : state.range = range
  isCounter_eq : state.isCounter = isCounter
  isRate_eq : state.isRate = isRate

end GapfillDeltaTransition

open GapfillDeltaTransition

namespace SlidingQuery

omit [F64 F] in
theorem leading_append [ToBits F] (seen rest : List (Int × F)) :
    ∃ tail, leading (seen ++ rest) = leading seen ++ tail := by
  induction rest using List.reverseRecOn with
  | nil => exact ⟨[], by simp⟩
  | append_singleton rest s ih =>
    obtain ⟨tail, htail⟩ := ih
    rw [← List.append_assoc, leading_concat, htail, lead]
    split
    · exact ⟨tail ++ [s], List.append_assoc _ _ _⟩
    · exact ⟨tail, rfl⟩

omit [F64 F] in
theorem mem_leading_concat [ToBits F] {seen : List (Int × F)} {r s : Int × F}
    (h : r ∈ leading (seen ++ [s])) : r ∈ leading seen ∨ r = s := by
  rw [leading_concat, lead] at h
  split at h
  · exact (List.mem_append.mp h).imp_right List.mem_singleton.mp
  · exact .inl h

/-- What comes after a sample past a window does not change what leads in it. -/
theorem windowSamples_leading (q : SlidingQuery) {seen rest : List (Int × F)} {s : Int × F} {j : Nat}
    (hlive : live s = true) (hbefore : ∀ r ∈ leading seen, r.1 ≤ q.windowMax j)
    (hpast : q.windowMax j < s.1) :
    q.windowSamples (leading (seen ++ s :: rest)) j = q.windowSamples (leading seen) j := by
  have hlead : leading (seen ++ [s]) = leading seen ++ [s] := by
    rw [leading_concat, lead_of_le hlive fun r hr => (hbefore r hr).trans hpast.le]
  obtain ⟨tail, htail⟩ := leading_append (seen ++ [s]) rest
  rw [List.append_assoc, List.singleton_append, hlead, List.append_assoc] at htail
  have hsorted := (leads_leading (seen ++ s :: rest)).sorted
  rw [htail] at hsorted
  have htailed : ∀ r ∈ [s] ++ tail, s.1 ≤ r.1 := by
    intro r hr
    rcases List.mem_cons.mp hr with rfl | hr
    · exact le_refl _
    · exact (List.pairwise_cons.mp (List.pairwise_append.mp hsorted).2.1).1 r hr
  have hnone : ([s] ++ tail).filter (fun r => live r &&
      decide (q.windowMin j ≤ r.1 ∧ r.1 ≤ q.windowMax j)) = [] := by
    rw [List.filter_eq_nil_iff]
    intro r hr
    have hlt := hpast.trans_le (htailed r hr)
    simp only [Bool.and_eq_true, decide_eq_true_eq]
    omega
  rw [htail, windowSamples, List.filter_append, hnone, List.append_nil, windowSamples]

/-- The state of a window, with the samples it holds in the end. -/
theorem serves_stateAt (q : SlidingQuery) {l samples : List (Int × F)} {j : Nat}
    (hbefore : ∀ s ∈ l, live s = true → s.1 ≤ q.windowMax j)
    (hsame : q.windowSamples (leading samples) j = q.windowSamples l j) :
    Serves (q.windowSamples (leading samples) j) (q.windowMin j) (q.windowMax j)
      (q.range * USECS_PER_MS) q.isCounter q.isRate (q.stateAt l j) :=
  ⟨(q.window_stateAt hbefore).trans hsame.symm, rfl, rfl, rfl, rfl, rfl⟩

/-- A state that a loop flushes from where the machine stands. -/
theorem iterate_flush_leading (q : SlidingQuery) {seen : List (Int × F)} {k : Nat}
    (hreached : q.Reached (leading seen) k) (n : Nat) :
    flushCurrentWindow^[n] (q.stateAt (leading seen) k) = q.stateAt (leading seen) (k + n) :=
  q.flush_iterate _ _ _ (leads_leading seen).sorted hreached.before

theorem Reached.le {q : SlidingQuery} {seen : List (Int × F)} {k : Nat}
    (h : q.Reached (leading seen) k) {j : Nat} (hkj : k ≤ j) :
    ∀ s ∈ leading seen, s.1 ≤ q.windowMax j := fun s hs =>
  (h.before s hs ((leads_leading seen).subset s hs).2).trans (q.windowMax_mono hkj)

theorem not_detected_of_added (q : SlidingQuery) {samples : List (Int × F)}
    {final : GapfillDeltaTransition F}
    (h : Yields (fun fuel => (q.stateAt [] 0).addAll fuel samples) (.ok final)) :
    ¬ Detected q.Covered samples := by
  cases q.addAll_ended samples with
  | detected late raised => exact absurd (h.unique raised) (by simp)
  | added k notLate reached added => exact notLate

/-- A delta is computed only for a window that ends in the time range, from the samples that lead
in it. -/
theorem serves_of_flushes (q : SlidingQuery) {seen rest : List (Int × F)} {k : Nat}
    {state : GapfillDeltaTransition F} (hreached : q.Reached (leading seen) k)
    (hrange : ∀ s ∈ rest, s.1 ≤ q.greatestTime) (hnot : ¬ Detected q.Covered (seen ++ rest))
    (h : Flushes (q.stateAt (leading seen) k) rest state) :
    ∃ j, q.windowMax j ≤ q.greatestTime ∧
      Serves (q.windowSamples (leading (seen ++ rest)) j) (q.windowMin j) (q.windowMax j)
        (q.range * USECS_PER_MS) q.isCounter q.isRate state := by
  induction rest generalizing seen k with
  | nil =>
    cases h with
    | reading runs =>
      obtain ⟨n, hruns, rfl⟩ := runs
      have hdue := hruns n (le_refl n)
      rw [q.iterate_flush_leading hreached, windowDue_stateAt, decide_eq_true_eq] at hdue
      refine ⟨k + n, hdue, ?_⟩
      rw [q.iterate_flush_leading hreached]
      refine q.serves_stateAt (fun s hs _ => hreached.le (Nat.le_add_right k n) s hs) ?_
      rw [List.append_nil]
  | cons s rest ih =>
    have happend : seen ++ s :: rest = seen ++ [s] ++ rest := by simp
    cases h with
    | adding hlive runs =>
      obtain ⟨n, hruns, rfl⟩ := runs
      have hpast := hruns n (le_refl n)
      rw [q.iterate_flush_leading hreached, outsideWindow_stateAt, decide_eq_true_eq] at hpast
      have hbefore := hreached.le (Nat.le_add_right k n)
      refine ⟨k + n, hpast.le.trans (hrange s List.mem_cons_self), ?_⟩
      rw [q.iterate_flush_leading hreached]
      exact q.serves_stateAt (fun r hr _ => hbefore r hr)
        (q.windowSamples_leading hlive hbefore hpast)
    | added added later =>
      rw [happend] at hnot ⊢
      cases q.addDataPoint_ended hreached s with
      | detected late raised => exact absurd (added.unique raised) (by simp)
      | added k' notLate reached' added' =>
        cases added.unique added'
        exact ih reached' (fun r hr => hrange r (List.mem_cons_of_mem s hr)) hnot later

/-- A delta is computed for each window that ends in the time range. -/
theorem exists_flushes (q : SlidingQuery) {seen rest : List (Int × F)} {k j : Nat}
    (hreached : q.Reached (leading seen) k) (hnot : ¬ Detected q.Covered (seen ++ rest))
    (hkj : k ≤ j) (hdue : q.windowMax j ≤ q.greatestTime) :
    ∃ state, Flushes (q.stateAt (leading seen) k) rest state ∧
      Serves (q.windowSamples (leading (seen ++ rest)) j) (q.windowMin j) (q.windowMax j)
        (q.range * USECS_PER_MS) q.isCounter q.isRate state := by
  have hj : k + (j - k) = j := by omega
  have hbefore := hreached.le hkj
  induction rest generalizing seen k with
  | nil =>
    refine ⟨q.stateAt (leading seen) j, .reading ⟨j - k, fun i hi => ?_, ?_⟩, ?_⟩
    · rw [q.iterate_flush_leading hreached, windowDue_stateAt, decide_eq_true_eq]
      exact (q.windowMax_mono (by omega)).trans hdue
    · rw [q.iterate_flush_leading hreached, hj]
    · refine q.serves_stateAt (fun s hs _ => hbefore s hs) ?_
      rw [List.append_nil]
  | cons s rest ih =>
    have happend : seen ++ s :: rest = seen ++ [s] ++ rest := by simp
    cases q.addDataPoint_ended hreached s with
    | detected late raised =>
      rw [happend] at hnot
      exact absurd (arrives_append (arrives_concat.mpr (.inr late)) rest) hnot
    | added k' notLate reached' added' =>
      by_cases hlater : k' ≤ j
      · rw [happend] at hnot ⊢
        obtain ⟨state, hflushes, hserves⟩ :=
          ih reached' hnot hlater (by omega) (reached'.le hlater)
        exact ⟨state, .added added' hflushes, hserves⟩
      · -- the window is closed for this sample
        obtain ⟨r, hr, hlt⟩ := reached'.flushed j (not_le.mp hlater)
        have hlive := ((leads_leading (seen ++ [s])).subset r hr).2
        have hrs : r = s := by
          rcases mem_leading_concat hr with hr | hrs
          · exact absurd (hbefore r hr) (not_le.mpr hlt)
          · exact hrs
        subst hrs
        refine ⟨q.stateAt (leading seen) j, .adding hlive ⟨j - k, fun i hi => ?_, ?_⟩, ?_⟩
        · rw [q.iterate_flush_leading hreached, outsideWindow_stateAt, decide_eq_true_eq]
          exact (q.windowMax_mono (by omega)).trans_lt hlt
        · rw [q.iterate_flush_leading hreached, hj]
        · exact q.serves_stateAt (fun r hr _ => hbefore r hr)
            (q.windowSamples_leading hlive hbefore hlt)

omit [F64 F] in
/-- Live samples that are in order all lead. -/
theorem leading_of_sorted [ToBits F] {samples : List (Int × F)}
    (h : (samples.filter live).Pairwise fun r s => r.1 ≤ s.1) :
    leading samples = samples.filter live := by
  induction samples using List.reverseRecOn with
  | nil => rfl
  | append_singleton seen s ih =>
    rw [List.filter_append] at h ⊢
    obtain ⟨hseen, -, hs⟩ := List.pairwise_append.mp h
    rw [leading_concat, ih hseen]
    cases hlive : live s with
    | false => rw [lead_of_not_live hlive, List.filter_cons_of_neg (by simp [hlive]), List.filter_nil,
        List.append_nil]
    | true =>
      have hsingle : [s].filter live = [s] := List.filter_cons_of_pos hlive
      rw [hsingle] at hs ⊢
      exact lead_of_le hlive fun r hr => hs r hr s (List.mem_singleton_self s)

end SlidingQuery

/-! ## Windows that do not move up -/

namespace GapfillDeltaTransition

/-- The samples that come in while the window stays are all there when the deltas are read. -/
theorem runsBody_of_flushes {self state : GapfillDeltaTransition F} {rest : List (Int × F)}
    (hmin : ∀ s ∈ rest, self.currentWindowMin ≤ s.1)
    (inside : ∀ s ∈ rest, live s = true → s.1 ≤ self.currentWindowMax)
    (h : Flushes self rest state) :
    RunsBody windowDue flushCurrentWindow { self with window := self.window ++ rest.filter live }
      state := by
  induction rest generalizing self with
  | nil =>
    cases h with
    | reading runs => simpa using runs
  | cons s rest ih =>
    obtain ⟨hs, hmin⟩ := List.forall_mem_cons.mp hmin
    obtain ⟨hsinside, inside⟩ := List.forall_mem_cons.mp inside
    cases h with
    | adding hlive runs =>
      obtain ⟨n, hruns, -⟩ := runs
      have hpast : self.outsideWindow s.1 = true := hruns 0 (Nat.zero_le n)
      simp [outsideWindow, inCurrentWindow, hsinside hlive] at hpast
    | @added _ next _ _ _ added later =>
      cases hlive : live s with
      | false =>
        have hstale : Yields (fun fuel => self.addDataPoint fuel s.1 s.2) (.ok self) :=
          ⟨0, fun fuel _ => addDataPoint_stale hlive fuel self⟩
        cases added.unique hstale
        rw [List.filter_cons_of_neg (by simp [hlive])]
        exact ih hmin inside later
      | true =>
        obtain ⟨n, hn⟩ := added
        have hadd : self.addDataPoint (n + 1) s.1 s.2 = some (.ok next) := hn _ (Nat.lt_succ_self n)
        rw [addDataPoint_inside hlive hs (hsinside hlive) (Nat.succ_pos n)] at hadd
        split at hadd
        · cases hadd
          have hrest := @ih { self with window := self.window ++ [s] } hmin inside later
          simpa [hlive] using hrest
        · cases hadd

theorem greatestTime_iterate (self : GapfillDeltaTransition F) (n : Nat) :
    (flushCurrentWindow^[n] self).greatestTime = self.greatestTime := by
  induction n generalizing self with
  | zero => rfl
  | succ n ih =>
    rw [Function.iterate_succ_apply, ih]
    rfl

/-- A window that does not move up keeps its samples. -/
theorem window_iterate_flush {self : GapfillDeltaTransition F} (hstep : self.stepSize ≤ 0)
    (hmin : ∀ s ∈ self.window, self.currentWindowMin ≤ s.1) (n : Nat) :
    Serves self.window (self.currentWindowMin + n * self.stepSize)
      (self.currentWindowMax + n * self.stepSize) self.range self.isCounter self.isRate
      (flushCurrentWindow^[n] self) := by
  induction n generalizing self with
  | zero => exact ⟨rfl, by simp, by simp, rfl, rfl, rfl⟩
  | succ n ih =>
    have hwindow : self.flushCurrentWindow.window = self.window := by
      have hkeep : ∀ s ∈ self.window, self.currentWindowMin + self.stepSize ≤ s.1 := by
        intro s hs
        have := hmin s hs
        omega
      change (self.window.dropWhile fun s =>
        decide (s.1 < self.currentWindowMin + self.stepSize)) = self.window
      cases hself : self.window with
      | nil => rfl
      | cons s rest =>
        have hs := hkeep s (by simp [hself])
        exact List.dropWhile_cons_of_neg (by simpa using hs)
    have hmin' : self.flushCurrentWindow.currentWindowMin = self.currentWindowMin + self.stepSize :=
      rfl
    have hmax' : self.flushCurrentWindow.currentWindowMax = self.currentWindowMax + self.stepSize :=
      rfl
    have hlater := @ih self.flushCurrentWindow hstep (by
      rw [hwindow]
      intro s hs
      have := hmin s hs
      omega)
    have hmoved : ∀ bound : Int, bound + self.stepSize + n * self.stepSize =
        bound + ((n + 1 : Nat) : Int) * self.stepSize := by
      intro bound
      push_cast
      ring
    rw [hwindow, hmin', hmax', show self.flushCurrentWindow.stepSize = self.stepSize from rfl,
      hmoved, hmoved] at hlater
    rw [Function.iterate_succ_apply]
    exact hlater

end GapfillDeltaTransition

end Flushes

/-! ## The divisors of one delta -/

namespace GapfillDeltaTransition

/-- None of the divisors is zero, and what is stored is finite. -/
structure Divides (state : GapfillDeltaTransition Binary64) : Prop where
  sampledInterval : ∀ earliest latest, state.window.head? = some earliest →
    state.window.getLast? = some latest →
      (seconds (latest.1 - earliest.1) : Binary64).toRat ≠ 0
  range : state.isRate = true → (ofInt (state.range.tdiv USECS_PER_SEC) : Binary64).toRat ≠ 0
  stored : ∃ delta, state.pushed = some delta ∧ delta.IsFinite

theorem two_le_of_pushed {F : Type} [F64 F] {self : GapfillDeltaTransition F} {delta : F}
    (h : self.pushed = some delta) : 2 ≤ self.window.length := by
  by_contra hlength
  rw [pushed, windowDelta_eq_none_iff.mpr (by omega)] at h
  cases h

theorem pushed_of_two_le {F : Type} [F64 F] {self : GapfillDeltaTransition F}
    (h : 2 ≤ self.window.length) : ∃ delta, self.pushed = some delta :=
  Option.ne_none_iff_exists'.mp (mt windowDelta_eq_none_iff.mp (by omega))

theorem toRat_ofInt_ne_zero_iff {n : Int} (hn : 0 ≤ n) :
    (ofInt n : Binary64).toRat ≠ 0 ↔ 1 ≤ n := by
  constructor
  · intro h
    by_contra hlt
    have hzero : n = 0 := by omega
    rw [hzero] at h
    exact h (by decide +kernel)
  · intro h
    change (ofRat n).toRat ≠ 0
    rcases ofRat_int h with ⟨-, hone⟩ | hinfinite
    · positivity
    · rw [hinfinite]
      exact mt magnitude_eq_zero_iff.mpr (by decide)

theorem one_le_tdiv_iff {range : Int} (h : 0 ≤ range) :
    1 ≤ range.tdiv USECS_PER_SEC ↔ USECS_PER_SEC ≤ range := by
  rw [Int.tdiv_eq_ediv_of_nonneg h]
  unfold USECS_PER_SEC
  omega

/-- The division of a rate by a second or more overflows nothing. -/
theorem stored_iff {state : GapfillDeltaTransition Binary64} (hrange : 0 ≤ state.range)
    (hlength : 2 ≤ state.window.length) {earliest latest : Int × Binary64}
    (hhead : state.window.head? = some earliest) (hlast : state.window.getLast? = some latest)
    (hrate : state.isRate = true → USECS_PER_SEC ≤ state.range) :
    (∃ delta, state.pushed = some delta ∧ delta.IsFinite) ↔
      let e := extrapolation state.isCounter state.currentWindowMin state.currentWindowMax
        state.window earliest latest
      (e.rise * (e.interval / e.sampledInterval)).IsFinite := by
  unfold pushed
  rw [windowDelta_eq _ _ _ _ _ hlength hhead hlast]
  simp only [Option.some.injEq, exists_eq_left']
  split
  · rename_i hisRate
    exact isFinite_div_int ((one_le_tdiv_iff hrange).mpr (hrate hisRate))
  · rfl

/-- The divisors of a delta are not zero and it is finite exactly when the samples have two times,
for a rate the range has a whole second, and no operation on the values overflows. -/
theorem divides_iff {state : GapfillDeltaTransition Binary64} {lo hi : Int} (hlo : IsI64 lo)
    (hhi : IsI64 hi) (hmin : IsI64 state.currentWindowMin) (hmax : IsI64 state.currentWindowMax)
    (hrange : 0 ≤ state.range) (hlength : 2 ≤ state.window.length)
    (horder : state.window.Pairwise fun r s => r.1 ≤ s.1)
    (hinside : ∀ s ∈ state.window, lo ≤ s.1 ∧ s.1 ≤ hi)
    (hvalues : ∀ s ∈ state.window, s.2.IsFinite) :
    Divides state ↔ Spread state.window ∧ (state.isRate = true → USECS_PER_SEC ≤ state.range) ∧
      ∀ earliest latest, state.window.head? = some earliest →
        state.window.getLast? = some latest → NoOverflow state.isCounter state.currentWindowMin
          state.currentWindowMax state.window earliest latest := by
  have hne : state.window ≠ [] := List.ne_nil_of_length_pos (by omega)
  have hhead := List.head?_eq_some_head hne
  have hlast := List.getLast?_eq_some_getLast hne
  have hdivisor : (ofInt (state.range.tdiv USECS_PER_SEC) : Binary64).toRat ≠ 0 ↔
      USECS_PER_SEC ≤ state.range := by
    rw [toRat_ofInt_ne_zero_iff (Int.tdiv_nonneg hrange (by decide)), one_le_tdiv_iff hrange]
  constructor
  · intro h
    have hrate := fun hisRate => hdivisor.mp (h.range hisRate)
    have hspread : Spread state.window := by
      refine ⟨_, List.head_mem hne, _, List.getLast_mem hne, ?_⟩
      have hle := le_last horder hlast _ (List.head_mem hne)
      by_contra hge
      have hsame : (state.window.getLast hne).1 - (state.window.head hne).1 = 0 := by omega
      refine h.sampledInterval _ _ hhead hlast ?_
      rw [hsame]
      exact seconds_zero
    refine ⟨hspread, hrate, fun earliest latest hearliest hlatest => ?_⟩
    obtain ⟨earliest', latest', hspans⟩ := hspread.spans horder hinside
    cases hspans.head.symm.trans hearliest
    cases hspans.last.symm.trans hlatest
    exact (hspans.isFinite_delta_iff hlo hhi hmin hmax hvalues).mp
      ((stored_iff hrange hlength hearliest hlatest hrate).mp h.stored)
  · rintro ⟨hspread, hrate, hno⟩
    obtain ⟨earliest, latest, hspans⟩ := hspread.spans horder hinside
    have hdelta := (hspans.isFinite_delta_iff hlo hhi hmin hmax hvalues).mpr
      (hno earliest latest hspans.head hspans.last)
    refine ⟨?_, fun hisRate => hdivisor.mpr (hrate hisRate),
      (stored_iff hrange hlength hspans.head hspans.last hrate).mpr hdelta⟩
    intro earliest' latest' hearliest hlatest
    cases hspans.head.symm.trans hearliest
    cases hspans.last.symm.trans hlatest
    have hleast := hspans.le_sampledInterval hlo hhi
    exact (lt_of_lt_of_le (by positivity) hleast).ne'

end GapfillDeltaTransition

/-! ## The aggregates -/

namespace PromFunction

open GapfillDeltaTransition

/-- The rows of an aggregate are added without an error. -/
def Accepts {F : Type} [F64 F] (f : PromFunction) (a : PromArgs) (samples : List (Int × F)) :
    Prop :=
  ∃ state, Yields (fun fuel => f.transitions a fuel none samples) (.ok state)

/-- `add_delta_for_current_window` is called in `state` while the aggregate runs. -/
def Computes {F : Type} [F64 F] (f : PromFunction) (a : PromArgs) (samples : List (Int × F))
    (state : GapfillDeltaTransition F) : Prop :=
  samples ≠ [] ∧ ∃ start, f.start a = .ok start ∧ Flushes start samples state

theorem accepts_of_transitions {F : Type} [F64 F] {f : PromFunction} {a : PromArgs}
    {samples : List (Int × F)} (fuel : Nat) {state : Option (GapfillDeltaTransition F)}
    (h : f.transitions a fuel none samples = some (.ok state)) : f.Accepts a samples :=
  ⟨state, fuel, fun _ hlt => transitions_mono h hlt.le⟩

theorem of_accepts {F : Type} [F64 F] {f : PromFunction} {a : PromArgs} {samples : List (Int × F)}
    (h : f.Accepts a samples) (hne : samples ≠ []) :
    InRange a samples ∧ ∃ start final : GapfillDeltaTransition F, f.start a = .ok start ∧
      Yields (fun fuel => start.addAll fuel samples) (.ok final) := by
  obtain ⟨state, n, hn⟩ := h
  have hrun : ∀ fuel, n < fuel → f.transitions a fuel none samples = some (.ok state) := hn
  have hfirst := hrun (n + 1) (Nat.lt_succ_self n)
  have hrange := inRange_of_transitions hfirst
  obtain ⟨start, hstart⟩ := start_of_transitions hne hfirst
  have hadd : ∀ fuel, n < fuel → ∃ final, start.addAll fuel samples = some (.ok final) ∧
      some final = state := by
    intro fuel hfuel
    have h := hrun fuel hfuel
    rw [transitions_none hrange hne hstart] at h
    cases hall : start.addAll fuel samples with
    | none => simp [hall] at h
    | some result =>
      cases result with
      | error e => simp [hall] at h
      | ok final =>
        refine ⟨final, rfl, ?_⟩
        simpa [hall] using h
  obtain ⟨final, -, rfl⟩ := hadd (n + 1) (Nat.lt_succ_self n)
  refine ⟨hrange, start, final, hstart, n, fun fuel hfuel => ?_⟩
  obtain ⟨final', hall, hsame⟩ := hadd fuel hfuel
  rw [Option.some.inj hsame] at hall
  exact hall

/-- Where the windows do not move up, the first one is all that deltas are computed for. -/
theorem runsBody_down {F : Type} [F64 F] {f : PromFunction} {a : PromArgs}
    {samples : List (Int × F)} {start final : GapfillDeltaTransition F}
    (hstep : ¬ 0 < a.stepSize) (hrange : InRange a samples) (hstart : f.start a = .ok start)
    (hadded : Yields (fun fuel => start.addAll fuel samples) (.ok final)) :
    (samples.filter live).Pairwise (fun r s => r.1 ≤ s.1) ∧
      (∀ s ∈ samples, live s = true → s.1 ≤ a.lowestTime + a.range * USECS_PER_MS) ∧
      final = { f.fresh a with window := samples.filter live } := by
  obtain ⟨-, rfl⟩ := of_start hstart
  have hdown : a.stepSize * USECS_PER_MS ≤ 0 := by
    unfold USECS_PER_MS
    omega
  cases @GapfillDeltaTransition.addAll_stays F _ (f.fresh a) samples hdown
      (fun s hs => (hrange s hs).1) List.Pairwise.nil with
  | refused disorder raised => exact absurd (hadded.unique ⟨0, raised⟩) (by simp)
  | added order inside added =>
    have hfinal := hadded.unique ⟨0, added⟩
    cases hfinal
    exact ⟨order, inside, rfl⟩
  | stuck order beyond stuck => exact absurd ⟨_, hadded⟩ (not_halts_of_none stuck)

end PromFunction

/-- A window that the aggregate can come to, while its bounds are in `i64`. -/
structure PromArgs.Due (a : PromArgs) (k : Nat) : Prop where
  reached : ∀ j ≤ k, a.windowMax j ≤ a.greatestTime
  min : IsI64 (a.windowMin k)
  max : IsI64 (a.windowMax k)

/-- The samples that are in a window when its delta is computed: those that the aggregate finds
there, or, where the windows move down, those of the first one, since none leaves it. -/
def PromArgs.held {F : Type} [ToBits F] (a : PromArgs) (samples : List (Int × F)) (k : Nat) :
    List (Int × F) :=
  a.window samples (if 0 < a.stepSize then k else 0)

namespace PromFunction

open GapfillDeltaTransition

section Served
variable {F : Type} [F64 F] {f : PromFunction} {a : PromArgs} {samples : List (Int × F)}

/-- The delta is computed for a window of the aggregate. -/
def ServesWindow (f : PromFunction) (a : PromArgs) (samples : List (Int × F)) (k : Nat)
    (state : GapfillDeltaTransition F) : Prop :=
  Serves (a.held samples k) (a.windowMin k) (a.windowMax k) (a.range * USECS_PER_MS) f.isCounter
    f.isRate state

theorem window_down (hrange : InRange a samples)
    (horder : (samples.filter live).Pairwise fun r s => r.1 ≤ s.1)
    (hinside : ∀ s ∈ samples, live s = true → s.1 ≤ a.lowestTime + a.range * USECS_PER_MS) :
    a.window samples 0 = samples.filter live := by
  rw [PromArgs.window, leading_of_sorted horder, List.filter_filter]
  apply List.filter_congr
  intro s hs
  have hmin := (hrange s hs).1
  cases hlive : live s with
  | false => rfl
  | true =>
    have hmax := hinside s hs hlive
    simp [PromArgs.windowMin, PromArgs.windowMax, hmin, hmax]

theorem held_up (hstep : 0 < a.stepSize) (k : Nat) : a.held samples k = a.window samples k := by
  rw [PromArgs.held, if_pos hstep]

theorem held_down (hstep : ¬ 0 < a.stepSize) (k : Nat) : a.held samples k = a.window samples 0 := by
  rw [PromArgs.held, if_neg hstep]

/-- The states in which the windows that do not move up are flushed. -/
theorem servesWindow_down (hstep : ¬ 0 < a.stepSize) (hrange : InRange a samples)
    (hwindow : a.window samples 0 = samples.filter live) (n : Nat) :
    f.ServesWindow a samples n
      (flushCurrentWindow^[n] { f.fresh a with window := samples.filter live }) := by
  have hdown : a.stepSize * USECS_PER_MS ≤ 0 := by
    unfold USECS_PER_MS
    omega
  have hmin : ∀ s ∈ samples.filter live, a.lowestTime ≤ s.1 :=
    fun s hs => (hrange s (List.mem_filter.mp hs).1).1
  have h := @window_iterate_flush F _ { f.fresh a with window := samples.filter live } hdown hmin n
  unfold ServesWindow
  rw [held_down hstep, hwindow]
  exact h

theorem windowDue_down (hstep : ¬ 0 < a.stepSize) (hrange : InRange a samples)
    (hwindow : a.window samples 0 = samples.filter live) (n : Nat) :
    windowDue (flushCurrentWindow^[n] { f.fresh a with window := samples.filter live }) = true ↔
      a.windowMax n ≤ a.greatestTime := by
  have hmax := (@servesWindow_down F _ f a samples hstep hrange hwindow n).max_eq
  rw [windowDue, decide_eq_true_eq, hmax, greatestTime_iterate]
  rfl

/-- Deltas are computed for the windows that are due. -/
theorem computes_serves (haccepts : f.Accepts a samples) {state : GapfillDeltaTransition F}
    (h : f.Computes a samples state) :
    ∃ k, (∀ j ≤ k, a.windowMax j ≤ a.greatestTime) ∧ f.ServesWindow a samples k state := by
  obtain ⟨hne, start, hstart, hflushes⟩ := h
  obtain ⟨hrange, start', final, hstart', hadded⟩ := of_accepts haccepts hne
  cases hstart.symm.trans hstart'
  by_cases hstep : 0 < a.stepSize
  · have hle := lowest_le_greatest hrange hne
    cases hstart.symm.trans (f.start_eq a hle hstep)
    have hnot := (a.query f hle hstep).not_detected_of_added hadded
    obtain ⟨k, hdue, hserves⟩ := (a.query f hle hstep).serves_of_flushes
      (SlidingQuery.reached_nil _) (fun s hs => (hrange s hs).2) hnot hflushes
    refine ⟨k, fun j hj => ((a.query f hle hstep).windowMax_mono hj).trans hdue, ?_⟩
    unfold ServesWindow
    rw [held_up hstep]
    exact hserves
  · obtain ⟨horder, hinside, rfl⟩ := runsBody_down hstep hrange hstart hadded
    obtain ⟨-, rfl⟩ := of_start hstart
    have hwindow := window_down hrange horder hinside
    obtain ⟨n, hruns, rfl⟩ := runsBody_of_flushes (fun s hs => (hrange s hs).1) hinside hflushes
    exact ⟨n, fun j hj => (windowDue_down hstep hrange hwindow j).mp (hruns j hj),
      servesWindow_down hstep hrange hwindow n⟩

theorem exists_computes (haccepts : f.Accepts a samples) (hne : samples ≠ []) {k : Nat}
    (hk : ∀ j ≤ k, a.windowMax j ≤ a.greatestTime) :
    ∃ state, f.Computes a samples state ∧ f.ServesWindow a samples k state := by
  obtain ⟨hrange, start, final, hstart, hadded⟩ := of_accepts haccepts hne
  by_cases hstep : 0 < a.stepSize
  · have hle := lowest_le_greatest hrange hne
    cases hstart.symm.trans (f.start_eq a hle hstep)
    have hnot := (a.query f hle hstep).not_detected_of_added hadded
    obtain ⟨state, hflushes, hserves⟩ := (a.query f hle hstep).exists_flushes
      (SlidingQuery.reached_nil _) hnot (Nat.zero_le k) (hk k (le_refl k))
    refine ⟨state, ⟨hne, _, hstart, hflushes⟩, ?_⟩
    unfold ServesWindow
    rw [held_up hstep]
    exact hserves
  · obtain ⟨horder, hinside, rfl⟩ := runsBody_down hstep hrange hstart hadded
    obtain ⟨-, rfl⟩ := of_start hstart
    have hwindow := window_down hrange horder hinside
    have hruns : ∀ i ≤ k, windowDue (flushCurrentWindow^[i]
        { f.fresh a with window := samples.filter live }) = true :=
      fun i hi => (windowDue_down hstep hrange hwindow i).mpr (hk i hi)
    exact ⟨_, ⟨hne, _, hstart, flushes_of_runsBody hadded ⟨k, hruns, rfl⟩⟩,
      servesWindow_down hstep hrange hwindow k⟩

end Served

theorem divides_of_serves {f : PromFunction} {a : PromArgs} {samples : List (Int × Binary64)}
    (hvalues : ∀ s ∈ samples, s.2.IsFinite) (hrange : InRange a samples) {k : Nat}
    (hmin : IsI64 (a.windowMin k)) (hmax : IsI64 (a.windowMax k))
    (hlength : 2 ≤ (a.held samples k).length) {state : GapfillDeltaTransition Binary64}
    (hserves : f.ServesWindow a samples k state) :
    Divides state ↔ Spread (a.held samples k) ∧ (f.isRate = true → 1000 ≤ a.range) ∧
      ∀ earliest latest, (a.held samples k).head? = some earliest →
        (a.held samples k).getLast? = some latest → NoOverflow f.isCounter (a.windowMin k)
          (a.windowMax k) (a.held samples k) earliest latest := by
  have hsample : ∀ s ∈ a.held samples k, s ∈ samples := fun s hs =>
    ((leads_leading samples).subset s (List.mem_filter.mp hs).1).1
  have hwidth : 0 ≤ a.range * USECS_PER_MS := by
    obtain ⟨s, hs⟩ := List.exists_mem_of_length_pos (Nat.lt_of_lt_of_le Nat.zero_lt_two hlength)
    have hinside := a.window_inside s hs
    unfold PromArgs.windowMin PromArgs.windowMax at hinside
    omega
  have hsecond : USECS_PER_SEC ≤ a.range * USECS_PER_MS ↔ 1000 ≤ a.range := by
    unfold USECS_PER_SEC USECS_PER_MS
    omega
  have h := @divides_iff state a.lowestTime a.greatestTime a.lowestTime_i64 a.greatestTime_i64
  rw [hserves.window_eq, hserves.min_eq, hserves.max_eq, hserves.range_eq, hserves.isCounter_eq,
    hserves.isRate_eq, hsecond] at h
  exact h hmin hmax hwidth hlength (a.window_sorted samples _) (fun s hs => hrange s (hsample s hs))
    fun s hs => hvalues s (hsample s hs)

/-- An aggregate that accepts finite samples computes every delta without dividing by zero, and
stores a finite double, if and only if each window that is due and holds two samples holds samples
of two times, for a rate the range is at least a second, and no operation on the values of such a
window overflows. -/
theorem deltas_divide_iff (f : PromFunction) (a : PromArgs) {samples : List (Int × Binary64)}
    (hvalues : ∀ s ∈ samples, s.2.IsFinite) (haccepts : f.Accepts a samples) :
    (∀ state, f.Computes a samples state → IsI64 state.currentWindowMin →
        IsI64 state.currentWindowMax → ∀ delta, state.pushed = some delta → Divides state) ↔
      ∀ k, a.Due k → 2 ≤ (a.held samples k).length →
        Spread (a.held samples k) ∧ (f.isRate = true → 1000 ≤ a.range) ∧
          ∀ earliest latest, (a.held samples k).head? = some earliest →
            (a.held samples k).getLast? = some latest → NoOverflow f.isCounter (a.windowMin k)
              (a.windowMax k) (a.held samples k) earliest latest := by
  constructor
  · intro h k hk hlength
    have hne : samples ≠ [] := by
      rintro rfl
      simp [PromArgs.held, PromArgs.window, leading] at hlength
    obtain ⟨state, hcomputes, hserves⟩ := exists_computes haccepts hne hk.reached
    have hstate : 2 ≤ state.window.length := by rwa [hserves.window_eq]
    obtain ⟨delta, hdelta⟩ := pushed_of_two_le hstate
    refine (divides_of_serves hvalues (of_accepts haccepts hne).1 hk.min hk.max hlength
      hserves).mp (h state hcomputes ?_ ?_ delta hdelta)
    · rw [hserves.min_eq]
      exact hk.min
    · rw [hserves.max_eq]
      exact hk.max
  · intro hwindows state hcomputes hmin hmax delta hdelta
    obtain ⟨k, hk, hserves⟩ := computes_serves haccepts hcomputes
    have hlength := two_le_of_pushed hdelta
    rw [hserves.window_eq] at hlength
    rw [hserves.min_eq] at hmin
    rw [hserves.max_eq] at hmax
    exact (divides_of_serves hvalues (of_accepts haccepts hcomputes.1).1 hmin hmax hlength
      hserves).mpr (hwindows k ⟨hk, hmin, hmax⟩ hlength)

end PromFunction

/-- `1` and `3`, a second apart. -/
def risingDoubles : List (Int × Binary64) :=
  [(0, ⟨false, 0x3ff0000000000000, by decide⟩), (1000000, ⟨false, 0x4008000000000000, by decide⟩)]

/-- `1` and `3`, at one time. -/
def sameTime : List (Int × Binary64) :=
  [(0, ⟨false, 0x3ff0000000000000, by decide⟩), (0, ⟨false, 0x4008000000000000, by decide⟩)]

/-- `-1.7e308` and `1.7e308`, a second apart. -/
def hugeDoubles : List (Int × Binary64) :=
  [(0, ⟨true, 0x7fee42d130773b76, by decide⟩), (1000000, ⟨false, 0x7fee42d130773b76, by decide⟩)]

theorem due_twoSeconds {k : Nat} : twoSeconds.Due k ↔ k = 0 := by
  constructor
  · intro h
    have hmax := h.reached k (le_refl k)
    simp only [PromArgs.windowMax, twoSeconds, USECS_PER_MS] at hmax
    omega
  · rintro rfl
    exact ⟨by decide, by decide, by decide⟩

/-- The delta of the only window of two seconds. -/
theorem exists_pushed_twoSeconds {f : PromFunction} {samples : List (Int × Binary64)}
    (haccepts : f.Accepts twoSeconds samples) (hne : samples ≠ [])
    (hheld : twoSeconds.held samples 0 = samples) {delta : Binary64}
    (hdelta : GapfillDeltaTransition.windowDelta f.isCounter f.isRate 2000000 0 2000000 samples =
      some delta) :
    ∃ state, f.Computes twoSeconds samples state ∧ IsI64 state.currentWindowMin ∧
      IsI64 state.currentWindowMax ∧ state.pushed = some delta ∧ state.window = samples := by
  have hdue := due_twoSeconds.mpr rfl
  obtain ⟨state, hcomputes, hserves⟩ := PromFunction.exists_computes haccepts hne hdue.reached
  refine ⟨state, hcomputes, hserves.min_eq ▸ hdue.min, hserves.max_eq ▸ hdue.max, ?_,
    hserves.window_eq.trans hheld⟩
  rw [GapfillDeltaTransition.pushed, hserves.isCounter_eq, hserves.isRate_eq, hserves.range_eq,
    hserves.min_eq, hserves.max_eq, hserves.window_eq, hheld]
  exact hdelta

theorem deltas_divide_twoSeconds :
    ∃ state, PromFunction.rate.Computes twoSeconds risingDoubles state ∧ state.Divides := by
  have haccepts : PromFunction.rate.Accepts twoSeconds risingDoubles :=
    PromFunction.accepts_of_transitions 1 (by rfl)
  have hheld : twoSeconds.held risingDoubles 0 = risingDoubles := by decide +kernel
  obtain ⟨state, hcomputes, hmin, hmax, hdelta, -⟩ := exists_pushed_twoSeconds haccepts
    (List.cons_ne_nil _ _) hheld
    (show _ = some ⟨false, 0x4000000000000000, by decide⟩ by decide +kernel)
  refine ⟨state, hcomputes, (PromFunction.deltas_divide_iff .rate twoSeconds (by decide)
    haccepts).mpr (fun k hk _ => ?_) state hcomputes hmin hmax _ hdelta⟩
  cases due_twoSeconds.mp hk
  rw [hheld]
  refine ⟨⟨_, List.mem_cons_self, _, List.mem_cons_of_mem _ List.mem_cons_self, by decide⟩,
    fun _ => by decide, ?_⟩
  rintro _ _ ⟨⟩ ⟨⟩
  have hspans : Spans 0 2000000 risingDoubles (0, ⟨false, 0x3ff0000000000000, by decide⟩)
      (1000000, ⟨false, 0x4008000000000000, by decide⟩) :=
    ⟨rfl, rfl, by decide, by decide, by decide⟩
  exact (hspans.isFinite_delta_iff (by decide) (by decide) hk.min hk.max (by decide)).mp
    (by decide +kernel)

/-- The delta of two samples of one time is stored, and is no number; that of two huge samples is
infinite. -/
theorem deltas_divide_fails :
    ((∀ s ∈ sameTime, s.2.IsFinite) ∧ PromFunction.delta.Accepts twoSeconds sameTime ∧
      ∃ state, PromFunction.delta.Computes twoSeconds sameTime state ∧
        IsI64 state.currentWindowMin ∧ IsI64 state.currentWindowMax ∧
          state.pushed = some nan ∧ ¬ state.Divides) ∧
    (∀ s ∈ hugeDoubles, s.2.IsFinite) ∧ PromFunction.delta.Accepts twoSeconds hugeDoubles ∧
      ∃ state, PromFunction.delta.Computes twoSeconds hugeDoubles state ∧
        IsI64 state.currentWindowMin ∧ IsI64 state.currentWindowMax ∧
          state.pushed = some (infinity false) ∧ ¬ state.Divides := by
  have hsame : PromFunction.delta.Accepts twoSeconds sameTime :=
    PromFunction.accepts_of_transitions 1 (by rfl)
  have hhuge : PromFunction.delta.Accepts twoSeconds hugeDoubles :=
    PromFunction.accepts_of_transitions 1 (by rfl)
  obtain ⟨state, hcomputes, hmin, hmax, hdelta, -⟩ := exists_pushed_twoSeconds hsame
    (List.cons_ne_nil _ _) (by decide +kernel) (show _ = some nan by decide +kernel)
  obtain ⟨state', hcomputes', hmin', hmax', hdelta', -⟩ := exists_pushed_twoSeconds hhuge
    (List.cons_ne_nil _ _) (by decide +kernel) (show _ = some (infinity false) by decide +kernel)
  refine ⟨⟨by decide, hsame, state, hcomputes, hmin, hmax, hdelta, fun hdivides => ?_⟩, by decide,
    hhuge, state', hcomputes', hmin', hmax', hdelta', fun hdivides => ?_⟩
  · obtain ⟨delta, heq, hfinite⟩ := hdivides.stored
    cases hdelta.symm.trans heq
    exact not_isFinite_nan hfinite
  · obtain ⟨delta, heq, hfinite⟩ := hdivides.stored
    cases hdelta'.symm.trans heq
    exact not_isFinite_infinity false hfinite

end Promscale.Aggregates
