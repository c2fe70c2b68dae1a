import Mathlib.Algebra.Order.Field.Rat
import Mathlib.Data.List.Pairwise
import Mathlib.Tactic.FieldSimp
import Mathlib.Tactic.Linarith
import Mathlib.Tactic.Positivity
import Mathlib.Tactic.Ring
import Promscale.Aggregates.GapfillDelta

/-!
# Extrapolation

What `add_delta_for_current_window` computes, in parts: the rise of the samples, made up for
the resets of a counter, and the interval that it extrapolates the rise to. In exact
arithmetic the interval stays inside the window, and a counter is never extrapolated to a
negative value.
-/
namespace Promscale.Aggregates

open F64

variable {F : Type}

/-! ## The parts of a delta -/

/-- What the delta of a window is made of; the durations are in seconds. -/
structure Extrapolation (F : Type) where
  /-- `result_val` before it is extrapolated. -/
  rise : F
  sampledInterval : F
  /-- What is added to the interval before the first sample. -/
  atStart : F
  /-- What is added after the last sample. -/
  atEnd : F
  deriving DecidableEq

/-- `extrapolate_to_interval` -/
def Extrapolation.interval [Add F] (e : Extrapolation F) : F :=
  e.sampledInterval + e.atStart + e.atEnd

section Parts
variable [F64 F]

def seconds (micros : Int) : F := ofInt micros / ofInt USECS_PER_SEC

/-- The duration to the start of the window, or to the zero point of a counter. -/
def durationToStart (isCounter : Bool) (rise earliestVal sampledInterval toStart : F) : F :=
  if isCounter && lt (ofInt 0) rise && le (ofInt 0) earliestVal
      && lt (sampledInterval * (earliestVal / rise)) toStart then
    sampledInterval * (earliestVal / rise)
  else toStart

/-- A duration that is short for the spacing of the samples is covered, else half a spacing. -/
def extension (avgDurationBetweenSamples duration : F) : F :=
  if lt duration (avgDurationBetweenSamples * onePointOne) then duration
  else avgDurationBetweenSamples / ofInt 2

def extrapolation (isCounter : Bool) (windowMin windowMax : Int) (window : List (Int × F))
    (earliest latest : Int × F) : Extrapolation F :=
  let rise := latest.2 - earliest.2 +
    (if isCounter then GapfillDeltaTransition.counterCorrection window else ofInt 0)
  let sampledInterval := seconds (latest.1 - earliest.1)
  let avg := sampledInterval / ofInt ((window.length : Int) - 1)
  { rise
    sampledInterval
    atStart := extension avg
      (durationToStart isCounter rise earliest.2 sampledInterval (seconds (earliest.1 - windowMin)))
    atEnd := extension avg (seconds (windowMax - latest.1)) }

theorem add_extension (interval avg duration : F) :
    (if lt duration (avg * onePointOne) then interval + duration else interval + avg / ofInt 2) =
      interval + extension avg duration := by
  unfold extension
  split
  · rfl
  · rfl

/-- The delta is the rise, extrapolated to the interval. -/
theorem windowDelta_eq (isCounter isRate : Bool) (range windowMin windowMax : Int)
    {window : List (Int × F)} {earliest latest : Int × F} (hlength : 2 ≤ window.length)
    (hearliest : window.head? = some earliest) (hlatest : window.getLast? = some latest) :
    GapfillDeltaTransition.windowDelta isCounter isRate range windowMin windowMax window =
      let e := extrapolation isCounter windowMin windowMax window earliest latest
      let delta := e.rise * (e.interval / e.sampledInterval)
      some (if isRate then delta / ofInt (range.tdiv USECS_PER_SEC) else delta) := by
  unfold GapfillDeltaTransition.windowDelta
  rw [if_neg (by omega), hearliest, hlatest]
  simp only [add_extension]
  rfl

end Parts

/-! ## Exact arithmetic -/

namespace Exact

@[simp] theorem value_add (a b : Rat) : value a + value b = value (a + b) := rfl

@[simp] theorem value_sub (a b : Rat) : value a - value b = value (a - b) := rfl

@[simp] theorem value_mul (a b : Rat) : value a * value b = value (a * b) := rfl

theorem value_div {a b : Rat} (h : b ≠ 0) : value a / value b = value (a / b) :=
  if_neg h

@[simp] theorem ofInt_eq (n : Int) : (ofInt n : Exact) = value n := rfl

@[simp] theorem onePointOne_eq : (onePointOne : Exact) = value (11 / 10) := rfl

@[simp] theorem lt_value (a b : Rat) : lt (value a) (value b) = decide (a < b) := rfl

@[simp] theorem le_value (a b : Rat) : le (value a) (value b) = decide (a ≤ b) := rfl

end Exact

open Exact

/-- A sample with a rational value. -/
def exactSample (s : Int × Rat) : Int × Exact := (s.1, value s.2)

def Extrapolation.exact (e : Extrapolation Rat) : Extrapolation Exact where
  rise := value e.rise
  sampledInterval := value e.sampledInterval
  atStart := value e.atStart
  atEnd := value e.atEnd

theorem seconds_exact (micros : Int) : (seconds micros : Exact) = value (micros / 1000000) := by
  unfold seconds
  rw [ofInt_eq, ofInt_eq, value_div (by decide)]
  rfl

/-! ## The rise of a counter -/

/-- The sum of what a counter rose by from sample to sample; after a reset it rose from zero. -/
def increments : List (Int × Rat) → Rat
  | a :: b :: rest => (if b.2 < a.2 then b.2 else b.2 - a.2) + increments (b :: rest)
  | _ => 0

/-- What `counter_correction` sums up after a sample. -/
def resets (last : Rat) : List (Int × Rat) → Rat
  | [] => 0
  | s :: rest => (if s.2 < last then last else 0) + resets s.2 rest

theorem foldl_resets (window : List (Int × Rat)) (correction last : Rat) :
    ((window.map exactSample).foldl (fun (acc : Exact × Exact) sample =>
      (if lt sample.2 acc.2 then acc.1 + acc.2 else acc.1, sample.2))
        (value correction, value last)).1 = value (correction + resets last window) := by
  induction window generalizing correction last with
  | nil => simp [resets]
  | cons s rest ih =>
    rw [List.map_cons, List.foldl_cons]
    simp only [exactSample, lt_value, decide_eq_true_eq, value_add]
    by_cases hreset : s.2 < last
    · rw [if_pos hreset]
      refine (ih (correction + last) s.2).trans ?_
      rw [resets, if_pos hreset, add_assoc]
    · rw [if_neg hreset]
      refine (ih correction s.2).trans ?_
      rw [resets, if_neg hreset, zero_add]

/-- The last value less the first, with all resets, is the sum of the increments. -/
theorem rise_telescopes (window : List (Int × Rat)) (first : Int × Rat) :
    ((first :: window).getLast (by simp)).2 - first.2 + resets first.2 window =
      increments (first :: window) := by
  induction window generalizing first with
  | nil => simp [resets, increments]
  | cons s rest ih =>
    have hrest := ih s
    rw [List.getLast_cons (by simp), increments, ← hrest, resets]
    split
    · ring
    · ring

theorem counterCorrection_exact (first : Int × Rat) (window : List (Int × Rat)) :
    GapfillDeltaTransition.counterCorrection ((first :: window).map exactSample) =
      value (resets first.2 window) := by
  unfold GapfillDeltaTransition.counterCorrection
  rw [ofInt_eq, Int.cast_zero, foldl_resets]
  -- nothing comes before the first sample, and its correction adds zero
  simp [resets]

theorem increments_nonneg {window : List (Int × Rat)} (h : ∀ s ∈ window, 0 ≤ s.2) :
    0 ≤ increments window := by
  induction window with
  | nil => exact le_refl _
  | cons a window ih =>
    cases window with
    | nil => exact le_refl _
    | cons b rest =>
      have hb : 0 ≤ b.2 := h b (by simp)
      have hrest : 0 ≤ increments (b :: rest) := ih fun s hs => h s (List.mem_cons_of_mem _ hs)
      rw [increments]
      split
      · exact add_nonneg hb hrest
      · rename_i hrises
        exact add_nonneg (sub_nonneg.mpr (not_lt.mp hrises)) hrest

/-! ## The interval -/

/-- What is added at one end is part of the duration there. -/
theorem extension_exact {avg duration : Rat} (havg : 0 < avg) (hduration : 0 ≤ duration) :
    ∃ added : Rat, extension (value avg) (value duration) = value added ∧ 0 ≤ added ∧
      added ≤ duration := by
  unfold extension
  rw [onePointOne_eq, value_mul, lt_value, ofInt_eq, value_div (by norm_num)]
  by_cases hshort : duration < avg * (11 / 10)
  · exact ⟨duration, if_pos (decide_eq_true hshort), hduration, le_refl _⟩
  · refine ⟨avg / (2 : Int), if_neg (by simpa using hshort), by positivity, ?_⟩
    push_cast
    linarith

/-- The duration to the start does not grow, and leads no further than the zero point. -/
theorem durationToStart_exact (isCounter : Bool) {rise earliestVal sampledInterval toStart : Rat}
    (hsampled : 0 < sampledInterval) (hstart : 0 ≤ toStart) :
    ∃ duration : Rat, durationToStart isCounter (value rise) (value earliestVal)
        (value sampledInterval) (value toStart) = value duration ∧
      0 ≤ duration ∧ duration ≤ toStart ∧ (isCounter = true → 0 < rise → 0 ≤ earliestVal →
        duration ≤ sampledInterval * (earliestVal / rise)) := by
  unfold durationToStart
  by_cases hclamps : isCounter = true ∧ 0 < rise ∧ 0 ≤ earliestVal
  · obtain ⟨hcounter, hrise, hvalue⟩ := hclamps
    rw [value_div hrise.ne', value_mul]
    simp only [hcounter, ofInt_eq, Int.cast_zero, lt_value, le_value, decide_eq_true hrise,
      decide_eq_true hvalue, Bool.and_self, Bool.true_and, decide_eq_true_eq]
    by_cases hzero : sampledInterval * (earliestVal / rise) < toStart
    · exact ⟨_, if_pos hzero, by positivity, hzero.le, fun _ _ _ => le_refl _⟩
    · exact ⟨_, if_neg hzero, hstart, le_refl _, fun _ _ _ => not_lt.mp hzero⟩
  · refine ⟨toStart, if_neg ?_, hstart, le_refl _, fun hcounter hrise hvalue =>
      absurd ⟨hcounter, hrise, hvalue⟩ hclamps⟩
    simp only [ofInt_eq, Int.cast_zero, lt_value, le_value, Bool.and_eq_true, decide_eq_true_eq]
    rintro ⟨⟨⟨hcounter, hrise⟩, hvalue⟩, -⟩
    exact hclamps ⟨hcounter, hrise, hvalue⟩

/-! ## Windows of rational samples -/

theorem micros_pos {micros : Int} (h : 0 < micros) : (0 : Rat) < (micros : Rat) / 1000000 := by
  have hpos : (0 : Rat) < micros := by exact_mod_cast h
  positivity

theorem micros_nonneg {micros : Int} (h : 0 ≤ micros) : (0 : Rat) ≤ (micros : Rat) / 1000000 := by
  have hpos : (0 : Rat) ≤ micros := by exact_mod_cast h
  positivity

/-- A window that spans some time. -/
structure Spans {F : Type} (windowMin windowMax : Int) (window : List (Int × F))
    (earliest latest : Int × F) : Prop where
  head : window.head? = some earliest
  last : window.getLast? = some latest
  earlier : earliest.1 < latest.1
  start : windowMin ≤ earliest.1
  fin : latest.1 ≤ windowMax

namespace Spans

variable {windowMin windowMax : Int} {window : List (Int × Rat)} {earliest latest : Int × Rat}

theorem length {F : Type} {window : List (Int × F)} {earliest latest : Int × F}
    (h : Spans windowMin windowMax window earliest latest) : 2 ≤ window.length := by
  match window, h with
  | [], h => cases h.head
  | [s], h =>
    cases h.head
    cases h.last
    exact absurd h.earlier (lt_irrefl _)
  | _ :: _ :: _, _ => exact Nat.le_add_left 2 _

theorem rise_exact (h : Spans windowMin windowMax window earliest latest) (isCounter : Bool) :
    ∃ rise : Rat, (exactSample latest).2 - (exactSample earliest).2 +
        (if isCounter then GapfillDeltaTransition.counterCorrection (window.map exactSample)
          else ofInt 0) = value rise ∧ (isCounter = true → rise = increments window) := by
  obtain ⟨rest, rfl⟩ : ∃ rest, window = earliest :: rest := by
    cases window with
    | nil => cases h.head
    | cons s rest =>
      cases h.head
      exact ⟨rest, rfl⟩
  have hlast : (earliest :: rest).getLast (by simp) = latest :=
    Option.some.inj ((List.getLast?_eq_some_getLast (by simp)).symm.trans h.last)
  cases isCounter with
  | false => exact ⟨latest.2 - earliest.2 + (0 : Int), rfl, fun hcounter => nomatch hcounter⟩
  | true =>
    refine ⟨latest.2 - earliest.2 + resets earliest.2 rest, ?_, fun _ => ?_⟩
    · rw [if_pos rfl, counterCorrection_exact]
      rfl
    · rw [← rise_telescopes, hlast]

theorem extrapolation_of_rise {isCounter : Bool} {rise : Rat}
    (hrise : (exactSample latest).2 - (exactSample earliest).2 +
      (if isCounter then GapfillDeltaTransition.counterCorrection (window.map exactSample)
        else ofInt 0) = value rise) :
    extrapolation isCounter windowMin windowMax (window.map exactSample) (exactSample earliest)
        (exactSample latest) =
      ⟨value rise, seconds (latest.1 - earliest.1),
        extension (seconds (latest.1 - earliest.1) /
            ofInt (((window.map exactSample).length : Int) - 1))
          (durationToStart isCounter (value rise) (value earliest.2)
            (seconds (latest.1 - earliest.1)) (seconds (earliest.1 - windowMin))),
        extension (seconds (latest.1 - earliest.1) /
            ofInt (((window.map exactSample).length : Int) - 1))
          (seconds (windowMax - latest.1))⟩ := by
  rw [← hrise]
  rfl

/-- What the code computes for the window, with rational parts. -/
theorem extrapolation_exact (h : Spans windowMin windowMax window earliest latest)
    (isCounter : Bool) : ∃ e : Extrapolation Rat,
      extrapolation isCounter windowMin windowMax (window.map exactSample) (exactSample earliest)
        (exactSample latest) = e.exact ∧
      (isCounter = true → e.rise = increments window) ∧
      0 < e.sampledInterval ∧ 0 ≤ e.atStart ∧ 0 ≤ e.atEnd ∧
      e.interval ≤ ((windowMax - windowMin : Int) : Rat) / 1000000 ∧
      (isCounter = true → 0 < e.rise → 0 ≤ earliest.2 →
        e.atStart ≤ e.sampledInterval * (earliest.2 / e.rise)) := by
  have hlength := h.length
  have hsampled := micros_pos (sub_pos.mpr h.earlier)
  have hgaps : (0 : Rat) < (((window.map exactSample).length : Int) - 1 : Int) := by
    rw [List.length_map]
    exact_mod_cast (by omega : (0 : Int) < (window.length : Int) - 1)
  have hstart := micros_nonneg (sub_nonneg.mpr h.start)
  have hend := micros_nonneg (sub_nonneg.mpr h.fin)
  have havg := div_pos hsampled hgaps
  obtain ⟨rise, hrise, hincrements⟩ := h.rise_exact isCounter
  obtain ⟨toStart, hclamped, htoStart, hle, hzero⟩ :=
    @durationToStart_exact isCounter rise earliest.2 _ _ hsampled hstart
  obtain ⟨atStart, hatStart, hatStart_nonneg, hatStart_le⟩ := extension_exact havg htoStart
  obtain ⟨atEnd, hatEnd, hatEnd_nonneg, hatEnd_le⟩ := extension_exact havg hend
  refine ⟨⟨rise, _, atStart, atEnd⟩, ?_, hincrements, hsampled, hatStart_nonneg, hatEnd_nonneg, ?_,
    fun hcounter hpos hvalue => hatStart_le.trans (hzero hcounter hpos hvalue)⟩
  · rw [extrapolation_of_rise hrise, seconds_exact, seconds_exact, seconds_exact, ofInt_eq,
      value_div hgaps.ne', hclamped, hatStart, hatEnd]
    rfl
  · have hwhole : ((windowMax - windowMin : Int) : Rat) / 1000000 =
        ((latest.1 - earliest.1 : Int) : Rat) / 1000000 +
          ((earliest.1 - windowMin : Int) : Rat) / 1000000 +
          ((windowMax - latest.1 : Int) : Rat) / 1000000 := by
      push_cast
      ring
    rw [hwhole]
    exact add_le_add (add_le_add le_rfl (hatStart_le.trans hle)) hatEnd_le

/-- The delta of the window, from its parts; the samples may also lie outside the bounds. -/
theorem windowDelta_exact {lo hi : Int} (h : Spans lo hi window earliest latest)
    {isCounter : Bool} {e : Extrapolation Rat} (he : extrapolation isCounter windowMin windowMax
      (window.map exactSample) (exactSample earliest) (exactSample latest) = e.exact)
    (hsampled : 0 < e.sampledInterval) (range : Int) :
    GapfillDeltaTransition.windowDelta isCounter false range windowMin windowMax
      (window.map exactSample) = some (value (e.rise * (e.interval / e.sampledInterval))) := by
  have hlength : 2 ≤ (window.map exactSample).length := by simpa using h.length
  have hfirst : (window.map exactSample).head? = some (exactSample earliest) := by
    rw [List.head?_map, h.head]
    rfl
  have hlast : (window.map exactSample).getLast? = some (exactSample latest) := by
    rw [List.getLast?_map, h.last]
    rfl
  have hdelta : e.exact.rise * (e.exact.interval / e.exact.sampledInterval) =
      value (e.rise * (e.interval / e.sampledInterval)) :=
    congrArg (value e.rise * ·) (value_div hsampled.ne')
  rw [windowDelta_eq isCounter false range windowMin windowMax hlength hfirst hlast, he]
  simpa using hdelta

end Spans

theorem spans_of_increasing {windowMin windowMax : Int} {window : List (Int × Rat)}
    (hlength : 2 ≤ window.length) (hincreasing : window.Pairwise fun a b => a.1 < b.1)
    (hinside : ∀ s ∈ window, windowMin ≤ s.1 ∧ s.1 ≤ windowMax) :
    ∃ earliest latest, Spans windowMin windowMax window earliest latest := by
  match window, hlength, hincreasing, hinside with
  | earliest :: s :: rest, _, hincreasing, hinside =>
    have hlast : (earliest :: s :: rest).getLast? =
        some ((earliest :: s :: rest).getLast (by simp)) := List.getLast?_eq_some_getLast (by simp)
    refine ⟨earliest, _, rfl, hlast, ?_, (hinside earliest (by simp)).1,
      (hinside _ (List.getLast_mem _)).2⟩
    rw [List.getLast_cons (by simp)]
    exact (List.pairwise_cons.mp hincreasing).1 _ (List.getLast_mem _)

/-- In exact arithmetic the rise of a counter is the sum of its increments, the interval that it
is extrapolated to lies between the samples and the bounds of the window, and a counter that
rises from a value that is not negative is not extrapolated below zero. -/
theorem extrapolation_sound (isCounter : Bool) {windowMin windowMax : Int}
    {window : List (Int × Rat)} (hlength : 2 ≤ window.length)
    (hincreasing : window.Pairwise fun a b => a.1 < b.1)
    (hinside : ∀ s ∈ window, windowMin ≤ s.1 ∧ s.1 ≤ windowMax) :
    ∃ earliest latest, window.head? = some earliest ∧ window.getLast? = some latest ∧
    ∃ e : Extrapolation Rat,
      extrapolation isCounter windowMin windowMax (window.map exactSample) (exactSample earliest)
        (exactSample latest) = e.exact ∧
      (∀ range, GapfillDeltaTransition.windowDelta isCounter false range windowMin windowMax
        (window.map exactSample) = some (value (e.rise * (e.interval / e.sampledInterval)))) ∧
      (isCounter = true → e.rise = increments window ∧
        ((∀ s ∈ window, 0 ≤ s.2) → 0 ≤ e.rise)) ∧
      e.sampledInterval ≤ e.interval ∧
      e.interval ≤ ((windowMax - windowMin : Int) : Rat) / 1000000 ∧
      (isCounter = true → 0 ≤ earliest.2 → 0 < e.rise →
        0 ≤ earliest.2 - e.rise / e.sampledInterval * e.atStart) := by
  obtain ⟨earliest, latest, hspans⟩ := spans_of_increasing hlength hincreasing hinside
  obtain ⟨e, he, hincrements, hsampled, hatStart, hatEnd, hwindow, hzero⟩ :=
    hspans.extrapolation_exact isCounter
  refine ⟨earliest, latest, hspans.head, hspans.last, e, he, ?_, ?_, ?_, hwindow, ?_⟩
  · exact hspans.windowDelta_exact he hsampled
  · intro hcounter
    rw [hincrements hcounter]
    exact ⟨rfl, increments_nonneg⟩
  · have hadded : 0 ≤ e.atStart + e.atEnd := add_nonneg hatStart hatEnd
    unfold Extrapolation.interval
    rw [add_assoc]
    exact le_add_of_nonneg_right hadded
  · intro hcounter hvalue hrise
    have hslope : 0 ≤ e.rise / e.sampledInterval := (div_pos hrise hsampled).le
    have hdrop := mul_le_mul_of_nonneg_left (hzero hcounter hrise hvalue) hslope
    have hfirst : e.rise / e.sampledInterval * (e.sampledInterval * (earliest.2 / e.rise)) =
        earliest.2 := by
      field_simp
    rw [hfirst] at hdrop
    exact sub_nonneg.mpr hdrop

theorem extrapolation_sound_reset : ∃ e : Extrapolation Rat,
    extrapolation true 0 10000000 ([(1000000, 3), (4000000, 5), (7000000, 2)].map exactSample)
      (exactSample (1000000, 3)) (exactSample (7000000, 2)) = e.exact ∧ e.rise = 4 := by
  obtain ⟨earliest, latest, hearliest, hlatest, e, he, -, hcounter, -⟩ :=
    @extrapolation_sound true 0 10000000 [(1000000, 3), (4000000, 5), (7000000, 2)] (by decide)
      (by decide) (by decide)
  cases hearliest
  cases hlatest
  refine ⟨e, he, ?_⟩
  rw [(hcounter rfl).1]
  decide +kernel

end Promscale.Aggregates
