import Promscale.Aggregates.Extrapolation
import Promscale.Aggregates.LoopTermination

/-!
# A rate is an increase per second

`prom_rate` computes what `prom_increase` does and divides it by the range in seconds, which
`add_delta_for_current_window` takes from an integer division of microseconds.
-/
namespace Promscale.Aggregates

open Promscale.Lib SlidingQuery Exact F64

namespace Exact

theorem divide_zero (x : Exact) : x / value 0 = nan := by
  cases x with
  | value q =>
    show (if (0 : Rat) = 0 then nan else value (q / 0)) = nan
    rw [if_pos rfl]
  | nan => rfl
  | stale => rfl

theorem mul_nan (x : Exact) : x * nan = nan := by
  cases x with
  | value q => rfl
  | nan => rfl
  | stale => rfl

theorem nan_divide (x : Exact) : nan / x = nan := by
  cases x with
  | value q => rfl
  | nan => rfl
  | stale => rfl

/-- Dividing by the seconds of a positive number of milliseconds, rounded down. -/
theorem divide_seconds {x : Rat} {millis : Int} (h : 0 < millis) :
    value x / value ((millis / 1000 : Int) : Rat) = value x / value ((millis : Rat) / 1000) ↔
      (1000 : Int) ∣ millis ∨ 1000 ≤ millis ∧ x = 0 := by
  have hexact : (millis : Rat) / 1000 ≠ 0 := by
    have : (0 : Rat) < millis := by exact_mod_cast h
    positivity
  rw [value_div hexact]
  by_cases hseconds : millis / 1000 = 0
  · rw [hseconds, Int.cast_zero, divide_zero]
    refine iff_of_false (fun h => nomatch h) ?_
    rintro (⟨n, rfl⟩ | ⟨hle, -⟩)
    · omega
    · omega
  · have hfloor : ((millis / 1000 : Int) : Rat) ≠ 0 := by exact_mod_cast hseconds
    rw [value_div hfloor, Exact.value.injEq]
    constructor
    · intro heq
      by_cases hx : x = 0
      · exact .inr ⟨by omega, hx⟩
      · refine .inl ⟨millis / 1000, ?_⟩
        have hsame : ((millis / 1000 : Int) : Rat) = (millis : Rat) / 1000 :=
          (mul_left_cancel₀ hx ((div_eq_div_iff hfloor hexact).mp heq)).symm
        rw [eq_div_iff (by norm_num)] at hsame
        rw [mul_comm]
        exact_mod_cast hsame.symm
    · rintro (⟨n, rfl⟩ | ⟨-, rfl⟩)
      · rw [Int.mul_ediv_cancel_left n (by decide)]
        push_cast
        field_simp
      · rw [zero_div, zero_div]

end Exact

/-! ## Windows -/

/-- The rational samples of a window. -/
def rationals (window : List (Int × Exact)) : List (Int × Rat) :=
  window.filterMap fun s =>
    match s.2 with
    | value q => some (s.1, q)
    | _ => none

theorem rationals_exact {window : List (Int × Exact)}
    (h : ∀ s ∈ window, live s = true ∧ s.2 ≠ nan) : (rationals window).map exactSample = window := by
  induction window with
  | nil => rfl
  | cons s rest ih =>
    obtain ⟨⟨hlive, hnan⟩, hrest⟩ := List.forall_mem_cons.mp h
    match s, hlive, hnan with
    | (t, value q), _, _ => exact congrArg ((t, value q) :: ·) (ih hrest)
    | (t, nan), _, hnan => exact absurd rfl hnan
    | (t, stale), hlive, _ => exact absurd hlive (by simp [live, ToBits.toBits])

/-- The window has samples of two times. -/
def Spread {F : Type} (window : List (Int × F)) : Prop :=
  ∃ r ∈ window, ∃ s ∈ window, r.1 < s.1

theorem Spread.spans {F : Type} {windowMin windowMax : Int} {window : List (Int × F)}
    (h : Spread window) (horder : window.Pairwise fun r s => r.1 ≤ s.1)
    (hinside : ∀ s ∈ window, windowMin ≤ s.1 ∧ s.1 ≤ windowMax) :
    ∃ earliest latest, Spans windowMin windowMax window earliest latest := by
  obtain ⟨r, hr, s, hs, hlt⟩ := h
  have hne := List.ne_nil_of_mem hr
  have hlast := List.getLast?_eq_some_getLast hne
  refine ⟨window.head hne, window.getLast hne, List.head?_eq_some_head hne, hlast, ?_,
    (hinside _ (List.head_mem hne)).1, (hinside _ (List.getLast_mem hne)).2⟩
  have hfirst : (window.head hne).1 ≤ r.1 := by
    obtain ⟨first, rest, rfl⟩ := List.exists_cons_of_ne_nil hne
    rcases List.mem_cons.mp hr with rfl | hr
    · exact le_refl _
    · exact (List.pairwise_cons.mp horder).1 r hr
  exact (hfirst.trans_lt hlt).trans_le (le_last horder hlast s hs)

/-- The delta of a rate is that of the increase, divided. -/
theorem windowDelta_rate {F : Type} [F64 F] (isCounter : Bool) (range windowMin windowMax : Int)
    (window : List (Int × F)) :
    GapfillDeltaTransition.windowDelta isCounter true range windowMin windowMax window =
      (GapfillDeltaTransition.windowDelta isCounter false range windowMin windowMax window).map
        (· / ofInt (range.tdiv USECS_PER_SEC)) := by
  by_cases hlength : window.length < 2
  · simp [GapfillDeltaTransition.windowDelta, hlength]
  · have hne : window ≠ [] := List.ne_nil_of_length_pos (by omega)
    have hhead := List.head?_eq_some_head hne
    have hlast := List.getLast?_eq_some_getLast hne
    rw [windowDelta_eq isCounter true range windowMin windowMax (not_lt.mp hlength) hhead hlast,
      windowDelta_eq isCounter false range windowMin windowMax (not_lt.mp hlength) hhead hlast]
    rfl

/-- Samples of one time have no delta that is a number. -/
theorem windowDelta_of_not_spread {isCounter : Bool} {range windowMin windowMax : Int}
    {window : List (Int × Exact)} (hspread : ¬ Spread window)
    (horder : window.Pairwise fun r s => r.1 ≤ s.1) :
    ∀ delta ∈ GapfillDeltaTransition.windowDelta isCounter false range windowMin windowMax window,
      delta = nan := by
  by_cases hlength : window.length < 2
  · simp [GapfillDeltaTransition.windowDelta, hlength]
  · have hne : window ≠ [] := List.ne_nil_of_length_pos (by omega)
    have hhead := List.head?_eq_some_head hne
    have hlast := List.getLast?_eq_some_getLast hne
    have hsame : (window.getLast hne).1 - (window.head hne).1 = 0 := by
      have hle := le_last horder hlast _ (List.head_mem hne)
      have hge : ¬ (window.head hne).1 < (window.getLast hne).1 := fun hlt =>
        hspread ⟨_, List.head_mem hne, _, List.getLast_mem hne, hlt⟩
      omega
    rw [windowDelta_eq isCounter false range windowMin windowMax (not_lt.mp hlength) hhead hlast]
    rintro delta hdelta
    cases hdelta
    have hzero : (seconds 0 : Exact) = value 0 := by
      rw [seconds_exact]
      norm_num
    simp only [extrapolation, hsame, hzero, divide_zero, mul_nan, Bool.false_eq_true, if_false]

/-- The rate of a window is its increase per second when the range is a whole number of seconds,
when the samples have one time, and when the counter does not rise. -/
theorem windowDelta_perSecond {range windowMin windowMax : Int} (hrange : 0 < range)
    {window : List (Int × Rat)} (horder : window.Pairwise fun r s => r.1 ≤ s.1)
    (hinside : ∀ s ∈ window, windowMin ≤ s.1 ∧ s.1 ≤ windowMax) :
    GapfillDeltaTransition.windowDelta true true (range * USECS_PER_MS) windowMin windowMax
        (window.map exactSample) =
      (GapfillDeltaTransition.windowDelta true false (range * USECS_PER_MS) windowMin windowMax
        (window.map exactSample)).map (· / value ((range : Rat) / 1000)) ↔
      (1000 : Int) ∣ range ∨ (Spread window → 1000 ≤ range ∧ increments window = 0) := by
  have hseconds : (ofInt ((range * USECS_PER_MS).tdiv USECS_PER_SEC) : Exact) =
      value ((range / 1000 : Int) : Rat) := by
    have hmicros : 0 ≤ range * USECS_PER_MS := Int.mul_nonneg hrange.le (by decide)
    rw [ofInt_eq, Int.tdiv_eq_ediv_of_nonneg hmicros]
    exact congrArg (fun n : Int => value n)
      (Int.mul_ediv_mul_of_pos_left range 1000 (by decide : (0 : Int) < USECS_PER_MS))
  rw [windowDelta_rate, hseconds]
  by_cases hspread : Spread window
  · obtain ⟨earliest, latest, hspans⟩ := hspread.spans horder hinside
    obtain ⟨e, he, hincrements, hsampled, hatStart, hatEnd, -⟩ := hspans.extrapolation_exact true
    have hpositive : e.interval / e.sampledInterval ≠ 0 := by
      have hinterval : 0 < e.interval := by
        unfold Extrapolation.interval
        linarith
      exact (div_pos hinterval hsampled).ne'
    rw [hspans.windowDelta_exact he hsampled, Option.map_some, Option.map_some, Option.some.injEq,
      divide_seconds hrange, mul_eq_zero, or_iff_left hpositive, hincrements rfl]
    simp only [hspread, true_implies]
  · refine iff_of_true ?_ (.inr fun h => absurd h hspread)
    have hspread' : ¬ Spread (window.map exactSample) := by
      simpa [Spread, exactSample] using hspread
    have horder' : (window.map exactSample).Pairwise fun r s => r.1 ≤ s.1 :=
      List.pairwise_map.mpr horder
    have hnan := @windowDelta_of_not_spread true (range * USECS_PER_MS) windowMin windowMax _
      hspread' horder'
    revert hnan
    cases GapfillDeltaTransition.windowDelta true false (range * USECS_PER_MS) windowMin windowMax
        (window.map exactSample) with
    | none => exact fun _ => rfl
    | some delta =>
      intro hnan
      rw [hnan delta rfl, Option.map_some, Option.map_some, nan_divide, nan_divide]

/-! ## Aggregates -/

namespace PromArgs

def windowMin (a : PromArgs) (k : Nat) : Int := a.lowestTime + k * (a.stepSize * USECS_PER_MS)

def windowMax (a : PromArgs) (k : Nat) : Int :=
  a.lowestTime + a.range * USECS_PER_MS + k * (a.stepSize * USECS_PER_MS)

/-- The samples that an aggregate finds in the window: those that lead. -/
def window {F : Type} [ToBits F] (a : PromArgs) (samples : List (Int × F)) (k : Nat) :
    List (Int × F) :=
  (leading samples).filter fun s =>
    live s && decide (a.windowMin k ≤ s.1 ∧ s.1 ≤ a.windowMax k)

theorem window_exact (a : PromArgs) {samples : List (Int × Exact)}
    (hvalues : ∀ s ∈ samples, s.2 ≠ nan) (k : Nat) :
    (rationals (a.window samples k)).map exactSample = a.window samples k := by
  refine rationals_exact fun s hs => ?_
  have hleads := (leads_leading samples).subset s (List.mem_filter.mp hs).1
  exact ⟨hleads.2, hvalues s hleads.1⟩

theorem window_sorted {F : Type} [ToBits F] (a : PromArgs) (samples : List (Int × F)) (k : Nat) :
    (a.window samples k).Pairwise fun r s => r.1 ≤ s.1 :=
  (leads_leading samples).sorted.sublist List.filter_sublist

theorem window_inside {F : Type} [ToBits F] {a : PromArgs} {samples : List (Int × F)} {k : Nat} :
    ∀ s ∈ a.window samples k, a.windowMin k ≤ s.1 ∧ s.1 ≤ a.windowMax k := by
  intro s hs
  have h := (List.mem_filter.mp hs).2
  simp only [Bool.and_eq_true, decide_eq_true_eq] at h
  exact h.2

theorem rationals_sorted (a : PromArgs) {samples : List (Int × Exact)}
    (hvalues : ∀ s ∈ samples, s.2 ≠ nan) (k : Nat) :
    (rationals (a.window samples k)).Pairwise fun r s => r.1 ≤ s.1 := by
  have h := a.window_sorted samples k
  rwa [← a.window_exact hvalues k, List.pairwise_map] at h

theorem rationals_inside (a : PromArgs) {samples : List (Int × Exact)}
    (hvalues : ∀ s ∈ samples, s.2 ≠ nan) (k : Nat) :
    ∀ s ∈ rationals (a.window samples k), a.windowMin k ≤ s.1 ∧ s.1 ≤ a.windowMax k := by
  intro s hs
  have hmem : exactSample s ∈ a.window samples k := by
    rw [← a.window_exact hvalues k]
    exact List.mem_map_of_mem hs
  exact a.window_inside (exactSample s) hmem

/-- When the rate of a window is its increase per second. -/
theorem windowDelta_perSecond (a : PromArgs) (hrange : 0 < a.range) {samples : List (Int × Exact)}
    (hvalues : ∀ s ∈ samples, s.2 ≠ nan) (k : Nat) :
    GapfillDeltaTransition.windowDelta true true (a.range * USECS_PER_MS) (a.windowMin k)
        (a.windowMax k) (a.window samples k) =
      (GapfillDeltaTransition.windowDelta true false (a.range * USECS_PER_MS) (a.windowMin k)
        (a.windowMax k) (a.window samples k)).map (· / value ((a.range : Rat) / 1000)) ↔
      (1000 : Int) ∣ a.range ∨ (Spread (rationals (a.window samples k)) →
        1000 ≤ a.range ∧ increments (rationals (a.window samples k)) = 0) := by
  have h := Aggregates.windowDelta_perSecond hrange (a.rationals_sorted hvalues k)
    (a.rationals_inside hvalues k)
  rwa [a.window_exact hvalues k] at h

end PromArgs

namespace PromFunction

/-- Both aggregates end alike: with the deltas of the same windows, or of none. -/
theorem increase_of_rate {a : PromArgs} {samples : List (Int × Exact)}
    {rates : List (Option Exact)} (h : Yields (rate.aggregate a samples) (.ok (some rates))) :
    (a.stepSize < 0 ∧ rates = [] ∧ Yields (increase.aggregate a samples) (.ok (some []))) ∨
      0 < a.stepSize ∧ ∃ count : Nat, (∀ k, k < count ↔ a.windowMax k ≤ a.greatestTime) ∧
        rates = (List.range count).map (fun k => GapfillDeltaTransition.windowDelta true true
          (a.range * USECS_PER_MS) (a.windowMin k) (a.windowMax k) (a.window samples k)) ∧
        Yields (increase.aggregate a samples) (.ok (some ((List.range count).map fun k =>
          GapfillDeltaTransition.windowDelta true false (a.range * USECS_PER_MS) (a.windowMin k)
            (a.windowMax k) (a.window samples k)))) := by
  obtain ⟨n, hn⟩ := h
  obtain ⟨hrange, hne, state, hstart⟩ := of_aggregate (hn (n + 1) (Nat.lt_succ_self n))
  have hrates : Yields (rate.aggregate a samples) (.ok (some rates)) := ⟨n, hn⟩
  have hle := lowest_le_greatest hrange hne
  by_cases hstep : 0 < a.stepSize
  · right
    cases rate.aggregate_ended a hstep hrange hne hle with
    | detected late raised => cases hrates.unique raised
    | returned count notLate due returned =>
      cases hrates.unique returned
      cases increase.aggregate_ended a hstep hrange hne hle with
      | detected late raised => exact absurd late notLate
      | returned count' notLate' due' returned' =>
        have hcount : count' = count := count_unique due' due
        subst hcount
        exact ⟨hstep, count', due', rfl, returned'⟩
  · left
    have hstart' : increase.start a = .ok (increase.fresh a : GapfillDeltaTransition Exact) :=
      start_ok hstart increase
    have hnegative : a.stepSize < 0 := by
      have := (of_start hstart).1
      omega
    cases aggregate_stays hstep hstart hrange hne with
    | refused disorder raised => cases hrates.unique raised
    | stuck order long stuck => exact absurd ⟨_, hrates⟩ stuck
    | returned order short returned =>
      cases hrates.unique returned
      cases aggregate_stays hstep hstart' hrange hne with
      | refused disorder raised => exact absurd order disorder
      | stuck order' long stuck => omega
      | returned order' short' returned' => exact ⟨hnegative, rfl, returned'⟩

/-- The rates of an accepted aggregate are NULL where its increases are, and they are the
increases per second if and only if the range is a whole number of seconds, no window is returned
because they move down, or, in a range of at least a second, no counter rises whose window holds
samples of two times. -/
theorem rate_perSecond_iff (a : PromArgs) (hrange : 0 < a.range) {samples : List (Int × Exact)}
    (hvalues : ∀ s ∈ samples, s.2 ≠ nan) {rates : List (Option Exact)}
    (haccepted : Yields (rate.aggregate a samples) (.ok (some rates))) :
    ∃ increases, Yields (increase.aggregate a samples) (.ok (some increases)) ∧
      List.Forall₂ (fun r i => r = none ↔ i = none) rates increases ∧
      (rates = increases.map (Option.map (· / value ((a.range : Rat) / 1000))) ↔
        (1000 : Int) ∣ a.range ∨ a.stepSize < 0 ∨
          ∀ k : Nat, a.windowMax k ≤ a.greatestTime →
            Spread (rationals (a.window samples k)) →
              1000 ≤ a.range ∧ increments (rationals (a.window samples k)) = 0) := by
  rcases increase_of_rate haccepted with ⟨hstep, rfl, hincreases⟩ |
    ⟨hstep, count, hdue, rfl, hincreases⟩
  · exact ⟨[], hincreases, .nil, iff_of_true rfl (.inr (.inl hstep))⟩
  · refine ⟨_, hincreases, ?_, ?_⟩
    · rw [List.forall₂_map_left_iff, List.forall₂_map_right_iff, List.forall₂_same]
      intro k _
      rw [windowDelta_rate, Option.map_eq_none_iff]
    · rw [List.map_map, List.map_inj_left]
      have hwindow := fun k => a.windowDelta_perSecond hrange hvalues k
      constructor
      · intro h
        by_cases hwhole : (1000 : Int) ∣ a.range
        · exact .inl hwhole
        · refine .inr (.inr fun k hk => ?_)
          exact ((hwindow k).mp (h k (List.mem_range.mpr ((hdue k).mpr hk)))).resolve_left hwhole
      · rintro h k hk
        refine (hwindow k).mpr ?_
        rcases h with hwhole | hdown | hrises
        · exact .inl hwhole
        · omega
        · exact .inr (hrises k ((hdue k).mp (List.mem_range.mp hk)))

end PromFunction

/-- One window of two seconds. -/
def twoSeconds : PromArgs where
  lowestTime := 0
  greatestTime := 2000000
  stepSize := 1000
  range := 2000
  lowestTime_i64 := isI64_zero
  greatestTime_i64 := by decide

/-- One window of a second and a half. -/
def secondAndHalf : PromArgs where
  lowestTime := 0
  greatestTime := 1500000
  stepSize := 1000
  range := 1500
  lowestTime_i64 := isI64_zero
  greatestTime_i64 := by decide

def risingSamples : List (Int × Exact) := [(0, .value 1), (1000000, .value 3)]

theorem rate_perSecond_twoSeconds : ∃ increases,
    Yields (PromFunction.increase.aggregate twoSeconds risingSamples) (.ok (some increases)) ∧
      [some (.value 2)] = increases.map (Option.map (· / value (((2000 : Int) : Rat) / 1000))) := by
  have haccepted : Yields (PromFunction.rate.aggregate twoSeconds risingSamples)
      (.ok (some [some (.value 2)])) := PromFunction.yields_aggregate 2 (by decide +kernel)
  obtain ⟨increases, hincreases, -, hiff⟩ :=
    PromFunction.rate_perSecond_iff twoSeconds (by decide) (by decide) haccepted
  exact ⟨increases, hincreases, hiff.mpr (.inl (by decide))⟩

/-- The second and a half are divided by as one second. -/
theorem rate_perSecond_fails :
    0 < secondAndHalf.range ∧ (∀ s ∈ risingSamples, s.2 ≠ nan) ∧
      Yields (PromFunction.rate.aggregate secondAndHalf risingSamples)
        (.ok (some [some (.value 3)])) ∧
      Yields (PromFunction.increase.aggregate secondAndHalf risingSamples)
        (.ok (some [some (.value 3)])) ∧
      some (value 3) ≠
        (some (value 3)).map (· / value ((secondAndHalf.range : Rat) / 1000)) :=
  ⟨by decide, by decide, PromFunction.yields_aggregate 2 (by decide +kernel),
    PromFunction.yields_aggregate 2 (by decide +kernel), by decide +kernel⟩

end Promscale.Aggregates
