import Mathlib.Order.Basic
import Mathlib.Tactic.Ring
import Promscale.Aggregates.GapfillDelta

/-!
# The sliding window agrees with recomputing every window

Abstractly the state after some ordered samples and `k` flushes is determined by both:
the deque holds the samples from the start of window `k` on, and delta `j` is the
per-window function of all samples of window `j`. A sample flushes every window that
ends before it, so the samples a flushed window holds never change again.
-/
namespace Promscale.Aggregates

open Promscale.Lib

variable {F : Type}

/-- The parameters of a delta, increase or rate query. -/
structure SlidingQuery where
  lowestTime : Int
  greatestTime : Int
  /-- Milliseconds. -/
  range : Int
  /-- Milliseconds. -/
  stepSize : Int
  isCounter : Bool
  isRate : Bool
  lowest_le_greatest : lowestTime ≤ greatestTime
  stepSize_pos : 0 < stepSize
  lowestTime_i64 : IsI64 lowestTime
  greatestTime_i64 : IsI64 greatestTime

/-- Popping the too early values off the front of an ordered list filters it. -/
private theorem dropWhile_eq_filter {α : Type} (key : α → Int) (l : List α)
    (hsorted : l.Pairwise fun a b => key a ≤ key b) (lo : Int) :
    (l.dropWhile fun a => decide (key a < lo)) = l.filter fun a => decide (lo ≤ key a) := by
  induction l with
  | nil => rfl
  | cons a rest ih =>
    obtain ⟨hhead, htail⟩ := List.pairwise_cons.mp hsorted
    by_cases h : key a < lo
    · have hout : ¬ lo ≤ key a := not_le.mpr h
      simp only [List.dropWhile_cons, List.filter_cons, h, hout, decide_true, decide_false,
        if_true, Bool.false_eq_true, if_false]
      exact ih htail
    · have hrest : ∀ b ∈ a :: rest, decide (lo ≤ key b) = true := by
        intro b hb
        rcases List.mem_cons.mp hb with rfl | hb
        · simpa using h
        · have := hhead b hb
          simp only [decide_eq_true_eq]
          omega
      rw [List.filter_eq_self.mpr hrest]
      simp [h]

namespace SlidingQuery

/-- The step in microseconds. -/
def step (q : SlidingQuery) : Int := q.stepSize * USECS_PER_MS

def windowMin (q : SlidingQuery) (k : Nat) : Int := q.lowestTime + k * q.step

def windowMax (q : SlidingQuery) (k : Nat) : Int :=
  q.lowestTime + q.range * USECS_PER_MS + k * q.step

theorem step_pos (q : SlidingQuery) : 0 < q.step := by
  have := q.stepSize_pos
  unfold step USECS_PER_MS
  omega

theorem windowMax_succ (q : SlidingQuery) (k : Nat) :
    q.windowMax (k + 1) = q.windowMax k + q.step := by
  unfold windowMax
  push_cast
  ring

theorem windowMin_succ (q : SlidingQuery) (k : Nat) :
    q.windowMin (k + 1) = q.windowMin k + q.step := by
  unfold windowMin
  push_cast
  ring

theorem windowMax_mono (q : SlidingQuery) {j k : Nat} (h : j ≤ k) :
    q.windowMax j ≤ q.windowMax k := by
  have := Int.mul_le_mul_of_nonneg_right (Int.ofNat_le.mpr h) q.step_pos.le
  unfold windowMax
  omega

/-- Every time is passed by the end of some window. -/
theorem exists_windowMax_gt (q : SlidingQuery) (k : Nat) (t : Int) :
    ∃ n, t < q.windowMax (k + n) := by
  refine ⟨(t - q.windowMax 0 + 1).toNat, ?_⟩
  have hge : (k + (t - q.windowMax 0 + 1).toNat : Nat) ≥ (t - q.windowMax 0 + 1).toNat := by omega
  have hmono := q.windowMax_mono hge
  have hmul := Int.mul_le_mul_of_nonneg_left (show 1 ≤ q.step from q.step_pos)
    (Int.natCast_nonneg (t - q.windowMax 0 + 1).toNat)
  have hzero : q.windowMax (t - q.windowMax 0 + 1).toNat =
      q.windowMax 0 + (t - q.windowMax 0 + 1).toNat * q.step := by
    simp [windowMax]
  omega

section Samples
variable [ToBits F]

/-- A sample that counts: not the stale marker. -/
def live (s : Int × F) : Bool := ToBits.toBits s.2 != STALE_NAN

/-- The live samples of the closed window `k`. -/
def windowSamples (q : SlidingQuery) (samples : List (Int × F)) (k : Nat) : List (Int × F) :=
  samples.filter fun s => live s && decide (q.windowMin k ≤ s.1 ∧ s.1 ≤ q.windowMax k)

/-- A sample after the end of a window is not in it. -/
theorem windowSamples_concat (q : SlidingQuery) (samples : List (Int × F)) (s : Int × F) (k : Nat)
    (h : q.windowMax k < s.1) : q.windowSamples (samples ++ [s]) k = q.windowSamples samples k := by
  have hout : ¬ (q.windowMin k ≤ s.1 ∧ s.1 ≤ q.windowMax k) := by omega
  simp [windowSamples, hout]

end Samples

variable [F64 F]

/-- The delta of window `k` of `samples`, computed from scratch. -/
def delta (q : SlidingQuery) (samples : List (Int × F)) (k : Nat) : Option F :=
  GapfillDeltaTransition.windowDelta q.isCounter q.isRate (q.range * USECS_PER_MS)
    (q.windowMin k) (q.windowMax k) (q.windowSamples samples k)

/-- The state after the samples `seen` and `k` flushes. -/
def stateAt (q : SlidingQuery) (seen : List (Int × F)) (k : Nat) : GapfillDeltaTransition F where
  window := seen.filter fun s => live s && decide (q.windowMin k ≤ s.1)
  deltas := (List.range k).map (q.delta seen)
  currentWindowMax := q.windowMax k
  currentWindowMin := q.windowMin k
  stepSize := q.step
  range := q.range * USECS_PER_MS
  greatestTime := q.greatestTime
  isCounter := q.isCounter
  isRate := q.isRate

/-- The reservation of `new` stays far below `isize::MAX` on `i64` times. -/
private theorem expectedDeltas_fit (q : SlidingQuery) :
    asUsize (if (q.greatestTime - q.lowestTime).tmod q.step ≠ 0
      then (q.greatestTime - q.lowestTime).tdiv q.step + 1
      else (q.greatestTime - q.lowestTime).tdiv q.step) * GapfillDeltaTransition.deltaSize ≤
      2 ^ 63 - 1 := by
  have hspan : 0 ≤ q.greatestTime - q.lowestTime := Int.sub_nonneg_of_le q.lowest_le_greatest
  rw [Int.tdiv_eq_ediv_of_nonneg hspan]
  have hq0 := Int.ediv_nonneg hspan q.step_pos.le
  have hmul : (q.greatestTime - q.lowestTime) / q.step * q.step ≤ q.greatestTime - q.lowestTime :=
    Int.ediv_mul_le _ q.step_pos.ne'
  have hstep : 1000 ≤ q.step := by
    have := q.stepSize_pos
    unfold step USECS_PER_MS
    omega
  have hle := Int.mul_le_mul_of_nonneg_left hstep hq0
  obtain ⟨hlo, _⟩ := q.lowestTime_i64
  obtain ⟨_, hhi⟩ := q.greatestTime_i64
  unfold GapfillDeltaTransition.deltaSize
  split <;> rw [asUsize_of_bounds (by omega) (by omega)] <;> omega

theorem new_eq_stateAt (q : SlidingQuery) :
    GapfillDeltaTransition.new q.lowestTime q.greatestTime q.range q.stepSize q.isCounter q.isRate =
      .ok (q.stateAt ([] : List (Int × F)) 0) := by
  have hstep : ¬ q.stepSize * USECS_PER_MS = 0 := q.step_pos.ne'
  have hfit := q.expectedDeltas_fit
  unfold step at hfit
  unfold GapfillDeltaTransition.new
  dsimp only
  rw [if_neg hstep]
  change (if _ > 2 ^ 63 - 1 then _ else _) = _
  rw [if_neg (not_lt.mpr hfit)]
  simp [stateAt, windowMax, windowMin, step]

/-- While no sample lies past the current window the deque holds its samples. -/
theorem window_stateAt (q : SlidingQuery) {seen : List (Int × F)} {k : Nat}
    (hbefore : ∀ s ∈ seen, live s = true → s.1 ≤ q.windowMax k) :
    (q.stateAt seen k).window = q.windowSamples seen k := by
  apply List.filter_congr
  intro s hs
  by_cases hl : live s = true
  · have := hbefore s hs hl
    simp [hl, this]
  · simp [hl]

/-- Step lemma of a flush, on ordered samples none of which lies past the window. -/
theorem flush_stateAt (q : SlidingQuery) (seen : List (Int × F)) (k : Nat)
    (hsorted : seen.Pairwise fun a b => a.1 ≤ b.1)
    (hbefore : ∀ s ∈ seen, live s = true → s.1 ≤ q.windowMax k) :
    (q.stateAt seen k).flushCurrentWindow = q.stateAt seen (k + 1) := by
  have hwindow := q.window_stateAt hbefore
  have hdelta : (q.stateAt seen k).addDeltaForCurrentWindow.deltas =
      (q.stateAt seen (k + 1)).deltas := by
    simp only [GapfillDeltaTransition.addDeltaForCurrentWindow, hwindow]
    simp [stateAt, List.range_succ, delta]
  have hpop : ((q.stateAt seen k).window.dropWhile fun s => decide (s.1 < q.windowMin (k + 1))) =
      (q.stateAt seen (k + 1)).window := by
    have hwsorted : (q.stateAt seen k).window.Pairwise fun a b => a.1 ≤ b.1 :=
      hsorted.sublist List.filter_sublist
    rw [dropWhile_eq_filter Prod.fst _ hwsorted]
    simp only [stateAt, List.filter_filter]
    apply List.filter_congr
    intro s _
    have := q.windowMin_succ k
    have := q.step_pos
    by_cases h : q.windowMin (k + 1) ≤ s.1
    · have : q.windowMin k ≤ s.1 := by omega
      simp [h, this]
    · simp [h]
  rw [q.windowMin_succ] at hpop
  unfold GapfillDeltaTransition.flushCurrentWindow
  dsimp only
  rw [hdelta]
  unfold GapfillDeltaTransition.addDeltaForCurrentWindow
  dsimp only
  have hmin : (q.stateAt seen k).currentWindowMin + (q.stateAt seen k).stepSize =
      q.windowMin k + q.step := rfl
  rw [hmin, hpop]
  simp [stateAt, q.windowMin_succ, q.windowMax_succ]

/-- Flushing on while no sample lies past the first window of the run. -/
theorem flush_iterate (q : SlidingQuery) (seen : List (Int × F)) (k n : Nat)
    (hsorted : seen.Pairwise fun a b => a.1 ≤ b.1)
    (hbefore : ∀ s ∈ seen, live s = true → s.1 ≤ q.windowMax k) :
    GapfillDeltaTransition.flushCurrentWindow^[n] (q.stateAt seen k) = q.stateAt seen (k + n) := by
  induction n with
  | zero => rfl
  | succ n ih =>
    rw [Function.iterate_succ_apply', ih]
    apply q.flush_stateAt _ _ hsorted
    intro s hs hl
    exact (hbefore s hs hl).trans (q.windowMax_mono (Nat.le_add_right k n))

/-- `k` flushes is where the machine stands after `seen`: no live sample lies past
window `k`, and some sample lies past every window before it. -/
structure Reached (q : SlidingQuery) (seen : List (Int × F)) (k : Nat) : Prop where
  before : ∀ s ∈ seen, live s = true → s.1 ≤ q.windowMax k
  flushed : ∀ j < k, ∃ s ∈ seen, q.windowMax j < s.1

theorem outsideWindow_stateAt (q : SlidingQuery) (seen : List (Int × F)) (k : Nat) (t : Int) :
    (q.stateAt seen k).outsideWindow t = decide (q.windowMax k < t) := by
  rw [Bool.eq_iff_iff]
  simp only [GapfillDeltaTransition.outsideWindow, GapfillDeltaTransition.inCurrentWindow,
    Bool.not_eq_true', decide_eq_false_iff_not, decide_eq_true_eq]
  exact not_le

theorem windowDue_stateAt (q : SlidingQuery) (seen : List (Int × F)) (k : Nat) :
    (q.stateAt seen k).windowDue = decide (q.windowMax k ≤ q.greatestTime) := rfl

/-- Step lemma of `add_data_point`: with enough fuel an ordered sample is added. -/
theorem addDataPoint_stateAt (q : SlidingQuery) (seen : List (Int × F)) (k : Nat) (t : Int) (v : F)
    (hsorted : seen.Pairwise fun a b => a.1 ≤ b.1) (hlast : ∀ s ∈ seen, s.1 ≤ t)
    (hreached : q.Reached seen k) :
    ∃ n k', q.Reached (seen ++ [(t, v)]) k' ∧ ∀ fuel, n < fuel →
      (q.stateAt seen k).addDataPoint fuel t v = some (.ok (q.stateAt (seen ++ [(t, v)]) k')) := by
  by_cases hstale : ToBits.toBits v = STALE_NAN
  · have hdead : live (t, v) = false := by simp [live, hstale]
    refine ⟨0, k, ⟨?_, ?_⟩, ?_⟩
    · intro s hs hl
      rcases List.mem_append.mp hs with hs | hs
      · exact hreached.before s hs hl
      · rw [List.mem_singleton.mp hs, hdead] at hl
        cases hl
    · intro j hj
      obtain ⟨s, hs, hlt⟩ := hreached.flushed j hj
      exact ⟨s, by simp [hs], hlt⟩
    · intro fuel _
      rw [GapfillDeltaTransition.addDataPoint, if_pos hstale]
      simp [stateAt, delta, windowSamples, hdead]
  · have hlive : live (t, v) = true := by simp [live, hstale]
    have hiter := fun n => q.flush_iterate seen k n hsorted hreached.before
    have hstop : ∃ n, GapfillDeltaTransition.outsideWindow t
        (GapfillDeltaTransition.flushCurrentWindow^[n] (q.stateAt seen k)) = false := by
      obtain ⟨n, hn⟩ := q.exists_windowMax_gt k t
      exact ⟨n, by rw [hiter, outsideWindow_stateAt, decide_eq_false (not_lt.mpr hn.le)]⟩
    obtain ⟨n, hrun, hend, hloop⟩ := whileFuel_terminates hstop
    rw [hiter, outsideWindow_stateAt, decide_eq_false_iff_not, not_lt] at hend
    have hpassed : ∀ j < k + n, q.windowMax j < t := by
      intro j hj
      by_cases hjk : j < k
      · obtain ⟨s, hs, hlt⟩ := hreached.flushed j hjk
        exact hlt.trans_le (hlast s hs)
      · have h := hrun (j - k) (by omega)
        rwa [hiter, outsideWindow_stateAt, decide_eq_true_eq, Nat.add_sub_cancel' (by omega)] at h
    refine ⟨n, k + n, ⟨?_, ?_⟩, ?_⟩
    · intro s hs _
      rcases List.mem_append.mp hs with hs | hs
      · exact (hlast s hs).trans hend
      · rw [List.mem_singleton.mp hs]
        exact hend
    · exact fun j hj => ⟨(t, v), by simp, hpassed j hj⟩
    · intro fuel hfuel
      have horder : ((q.stateAt seen (k + n)).window.getLast?.map
          fun prev => decide (prev.1 > t)).getD false = false := by
        cases h : (q.stateAt seen (k + n)).window.getLast? with
        | none => rfl
        | some prev =>
          have hmem : prev ∈ seen := (List.mem_filter.mp (List.mem_of_getLast? h)).1
          simpa using hlast prev hmem
      have hdeltas : (List.range (k + n)).map (q.delta (seen ++ [(t, v)])) =
          (List.range (k + n)).map (q.delta seen) := by
        apply List.map_congr_left
        intro j hj
        rw [delta, delta, windowSamples_concat _ _ _ _ (hpassed j (List.mem_range.mp hj))]
      rw [GapfillDeltaTransition.addDataPoint, if_neg hstale, hloop fuel hfuel, hiter]
      simp only [horder, Bool.false_eq_true, if_false]
      by_cases hmin : q.windowMin (k + n) ≤ t
      · rw [if_pos (show t ≥ (q.stateAt seen (k + n)).currentWindowMin from hmin)]
        simp [stateAt, hdeltas, hlive, hmin]
      · rw [if_neg (show ¬ t ≥ (q.stateAt seen (k + n)).currentWindowMin from hmin)]
        simp [stateAt, hdeltas, hmin]

/-- Run lemma: with enough fuel every ordered run of samples is added. -/
theorem addAll_stateAt (q : SlidingQuery) (seen more : List (Int × F)) (k : Nat)
    (hsorted : (seen ++ more).Pairwise fun a b => a.1 ≤ b.1) (hreached : q.Reached seen k) :
    ∃ n k', q.Reached (seen ++ more) k' ∧ ∀ fuel, n < fuel →
      (q.stateAt seen k).addAll fuel more = some (.ok (q.stateAt (seen ++ more) k')) := by
  induction more generalizing seen k with
  | nil => exact ⟨0, k, by simpa using hreached, fun fuel _ => by simp [GapfillDeltaTransition.addAll]⟩
  | cons s rest ih =>
    obtain ⟨hseen, _, hcross⟩ := List.pairwise_append.mp hsorted
    have hlast : ∀ r ∈ seen, r.1 ≤ s.1 := fun r hr => hcross r hr s (by simp)
    obtain ⟨n₁, k₁, hreached₁, hadd⟩ := q.addDataPoint_stateAt seen k s.1 s.2 hseen hlast hreached
    have hassoc : seen ++ [s] ++ rest = seen ++ s :: rest := by simp
    obtain ⟨n₂, k₂, hreached₂, hall⟩ := ih (seen ++ [s]) k₁ (by rwa [hassoc]) hreached₁
    rw [hassoc] at hreached₂ hall
    refine ⟨max n₁ n₂, k₂, hreached₂, ?_⟩
    intro fuel hfuel
    have h₁ := hadd fuel (by omega)
    have h₂ := hall fuel (by omega)
    simp only [GapfillDeltaTransition.addAll, h₁, h₂]

/-- The tail: with enough fuel `as_vec` flushes every window that ends in the time
range, and no other. -/
theorem asVec_stateAt (q : SlidingQuery) (seen : List (Int × F)) (k : Nat)
    (hsorted : seen.Pairwise fun a b => a.1 ≤ b.1) (hreached : q.Reached seen k)
    (hrange : ∀ s ∈ seen, s.1 ≤ q.greatestTime) :
    ∃ n k', (∀ j, j < k' ↔ q.windowMax j ≤ q.greatestTime) ∧ ∀ fuel, n < fuel →
      (q.stateAt seen k).asVec fuel = some ((List.range k').map (q.delta seen)) := by
  have hiter := fun n => q.flush_iterate seen k n hsorted hreached.before
  have hstop : ∃ n, GapfillDeltaTransition.windowDue
      (GapfillDeltaTransition.flushCurrentWindow^[n] (q.stateAt seen k)) = false := by
    obtain ⟨n, hn⟩ := q.exists_windowMax_gt k q.greatestTime
    exact ⟨n, by rw [hiter, windowDue_stateAt, decide_eq_false (not_le.mpr hn)]⟩
  obtain ⟨n, hrun, hend, hloop⟩ := whileFuel_terminates hstop
  rw [hiter, windowDue_stateAt, decide_eq_false_iff_not, not_le] at hend
  refine ⟨n, k + n, ?_, ?_⟩
  · intro j
    constructor
    · intro hj
      by_cases hjk : j < k
      · obtain ⟨s, hs, hlt⟩ := hreached.flushed j hjk
        exact hlt.le.trans (hrange s hs)
      · have h := hrun (j - k) (by omega)
        rwa [hiter, windowDue_stateAt, decide_eq_true_eq, Nat.add_sub_cancel' (by omega)] at h
    · intro hj
      by_contra hle
      have := q.windowMax_mono (not_lt.mp hle)
      omega
  · intro fuel hfuel
    rw [GapfillDeltaTransition.asVec, hloop fuel hfuel, hiter]
    rfl

end SlidingQuery

open SlidingQuery in
/-- Feeding ordered samples of the time range through `add_data_point` and then calling
`as_vec` yields one delta for each window that ends in the range, each the per-window
function of the live samples of its closed window: with enough fuel, hence always. -/
theorem gapfillDelta_recomputes_windows [F64 F] (q : SlidingQuery) (samples : List (Int × F))
    (hsorted : samples.Pairwise fun a b => a.1 ≤ b.1)
    (hrange : ∀ s ∈ samples, q.lowestTime ≤ s.1 ∧ s.1 ≤ q.greatestTime) :
    ∃ start n, GapfillDeltaTransition.new q.lowestTime q.greatestTime q.range q.stepSize
        q.isCounter q.isRate = .ok start ∧ ∀ fuel, n < fuel →
      ∃ final deltas, start.addAll fuel samples = some (.ok final) ∧
        final.asVec fuel = some deltas ∧
        (∀ k : Nat, k < deltas.length ↔ q.lowestTime + q.range * USECS_PER_MS +
          k * (q.stepSize * USECS_PER_MS) ≤ q.greatestTime) ∧
        ∀ (k : Nat) (hk : k < deltas.length),
          let lo := q.lowestTime + k * (q.stepSize * USECS_PER_MS)
          let hi := q.lowestTime + q.range * USECS_PER_MS + k * (q.stepSize * USECS_PER_MS)
          deltas[k] = GapfillDeltaTransition.windowDelta q.isCounter q.isRate
            (q.range * USECS_PER_MS) lo hi
            (samples.filter fun s => live s && decide (lo ≤ s.1 ∧ s.1 ≤ hi)) := by
  have hreached : q.Reached ([] : List (Int × F)) 0 := ⟨by simp, by simp⟩
  obtain ⟨n₁, k₁, hreached₁, hadd⟩ := q.addAll_stateAt [] samples 0 hsorted hreached
  obtain ⟨n₂, k₂, hcount, hvec⟩ :=
    q.asVec_stateAt samples k₁ hsorted hreached₁ (fun s hs => (hrange s hs).2)
  refine ⟨q.stateAt [] 0, max n₁ n₂, q.new_eq_stateAt, ?_⟩
  intro fuel hfuel
  refine ⟨_, _, hadd fuel (by omega), hvec fuel (by omega), ?_, ?_⟩
  · intro k
    rw [List.length_map, List.length_range]
    exact hcount k
  · intro k hk lo hi
    simp only [List.getElem_map, List.getElem_range]
    rfl

/-- Ten milliseconds in overlapping windows of six, three apart. -/
def tenMillis : SlidingQuery where
  lowestTime := 0
  greatestTime := 10000
  range := 6
  stepSize := 3
  isCounter := true
  isRate := false
  lowest_le_greatest := by decide
  stepSize_pos := by decide
  lowestTime_i64 := isI64_zero
  greatestTime_i64 := by decide

/-- A counter that resets, with one stale sample and one on a shared window bound. -/
def tenMillisSamples : List (Int × Exact) :=
  [(0, .value 1), (3000, .value 5), (6000, .value 2), (7000, .stale), (10000, .value 4)]

theorem gapfillDelta_recomputes_tenMillis :
    ∃ start n, GapfillDeltaTransition.new 0 10000 6 3 true false = .ok start ∧ ∀ fuel, n < fuel →
      ∃ final deltas, start.addAll fuel tenMillisSamples = some (.ok final) ∧
        final.asVec fuel = some deltas ∧ deltas.length = 2 ∧
        ∀ h : 1 < deltas.length,
          deltas[1] = GapfillDeltaTransition.windowDelta true false 6000 3000 9000
            [(3000, .value 5), (6000, .value 2)] := by
  obtain ⟨start, n, hnew, hrun⟩ :=
    gapfillDelta_recomputes_windows tenMillis tenMillisSamples (by decide) (by decide)
  refine ⟨start, n, hnew, ?_⟩
  intro fuel hfuel
  obtain ⟨final, deltas, hadd, hvec, hcount, hdelta⟩ := hrun fuel hfuel
  refine ⟨final, deltas, hadd, hvec, ?_, ?_⟩
  · have hin := (hcount 1).mpr (by decide)
    have hout := mt (hcount 2).mp (by decide)
    omega
  · intro h
    exact hdelta 1 h

end Promscale.Aggregates
