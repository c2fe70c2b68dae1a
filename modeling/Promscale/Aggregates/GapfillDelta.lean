import Promscale.Lib.While
import Promscale.Aggregates.Basic

/-!
# The delta, increase and rate aggregates

`src/aggregates/gapfill_delta.rs`. One window of `range` microseconds slides over the
time range in steps of `step_size`; the samples of the current window wait in a deque
and each window the time range holds pushes one delta. The arithmetic of `f64` is a
parameter, since nothing about the sliding depends on how it rounds.
-/
namespace Promscale.Aggregates

open Promscale.Lib

/-- The `f64` operations of the source. -/
class F64 (F : Type) extends ToBits F, Add F, Sub F, Mul F, Div F where
  /-- `n as f64`, also for the integral literals. -/
  ofInt : Int → F
  /-- The literal `1.1`. -/
  onePointOne : F
  lt : F → F → Bool
  le : F → F → Bool

/-- Exact arithmetic of rationals, with the stale marker beside them. A division by zero has no
value, nor has anything computed from it or from the stale marker. -/
inductive Exact where
  | value (q : Rat)
  | nan
  | stale
  deriving DecidableEq

namespace Exact

def lift (op : Rat → Rat → Rat) : Exact → Exact → Exact
  | value a, value b => value (op a b)
  | _, _ => nan

def divide : Exact → Exact → Exact
  | value a, value b => if b = 0 then nan else value (a / b)
  | _, _ => nan

/-- A comparison of rationals, false on any NaN. -/
def compare (rel : Rat → Rat → Bool) : Exact → Exact → Bool
  | value a, value b => rel a b
  | _, _ => false

instance : F64 Exact where
  toBits
    | value _ => 0
    | nan => 0x7ff8000000000000
    | stale => STALE_NAN
  add := lift (· + ·)
  sub := lift (· - ·)
  mul := lift (· * ·)
  div := divide
  ofInt n := value n
  onePointOne := value (11 / 10)
  lt := compare fun a b => decide (a < b)
  le := compare fun a b => decide (a ≤ b)

end Exact

structure GapfillDeltaTransition (F : Type) where
  window : List (Int × F)
  deltas : List (Option F)
  currentWindowMax : Int
  currentWindowMin : Int
  /-- Microseconds. -/
  stepSize : Int
  /-- Microseconds. -/
  range : Int
  greatestTime : Int
  isCounter : Bool
  isRate : Bool
  deriving DecidableEq, Repr

namespace GapfillDeltaTransition

variable {F : Type}

/-- `size_of::<Option<f64>>()` -/
def deltaSize : Nat := 16

def new (lowestTime greatestTime range stepSize : Int) (isCounter isRate : Bool) :
    Except Raise (GapfillDeltaTransition F) :=
  let step := stepSize * USECS_PER_MS
  if step = 0 then .error (.panic "attempt to divide by zero")
  else
    let quotient := (greatestTime - lowestTime).tdiv step
    let expectedDeltas :=
      if (greatestTime - lowestTime).tmod step ≠ 0 then quotient + 1 else quotient
    -- `Vec::with_capacity` refuses to reserve more than `isize::MAX` bytes
    if asUsize expectedDeltas * deltaSize > 2 ^ 63 - 1 then .error (.panic "capacity overflow")
    else
      .ok {
        window := []
        deltas := []
        currentWindowMax := lowestTime + range * USECS_PER_MS
        currentWindowMin := lowestTime
        stepSize := step
        range := range * USECS_PER_MS
        greatestTime
        isCounter
        isRate }

def inCurrentWindow (self : GapfillDeltaTransition F) (time : Int) : Bool :=
  time ≤ self.currentWindowMax

/-- The condition of the loop of `add_data_point`. -/
def outsideWindow (time : Int) (self : GapfillDeltaTransition F) : Bool :=
  !self.inCurrentWindow time

/-- The condition of the loop of `as_vec`. -/
def windowDue (self : GapfillDeltaTransition F) : Bool :=
  self.currentWindowMax ≤ self.greatestTime

section Arithmetic
variable [F64 F]

open F64 in
/-- The first loop of `add_delta_for_current_window`, carrying `counter_correction`
and `last_value`. -/
def counterCorrection (window : List (Int × F)) : F :=
  (window.foldl (fun (acc : F × F) sample =>
    (if lt sample.2 acc.2 then acc.1 + acc.2 else acc.1, sample.2)) (ofInt 0, ofInt 0)).1

open F64 in
/-- What `add_delta_for_current_window` pushes, as a function of the window's bounds
and samples. -/
def windowDelta (isCounter isRate : Bool) (range windowMin windowMax : Int)
    (window : List (Int × F)) : Option F :=
  if window.length < 2 then none
  else
    match window.getLast?, window.head? with
    | some (latestTime, latestVal), some (earliestTime, earliestVal) =>
      let correction := if isCounter then counterCorrection window else ofInt 0
      let resultVal := latestVal - earliestVal + correction
      let durationToStart := ofInt (earliestTime - windowMin) / ofInt USECS_PER_SEC
      let durationToEnd := ofInt (windowMax - latestTime) / ofInt USECS_PER_SEC
      let sampledInterval := ofInt (latestTime - earliestTime) / ofInt USECS_PER_SEC
      let avgDurationBetweenSamples := sampledInterval / ofInt ((window.length : Int) - 1)
      let durationToZero := sampledInterval * (earliestVal / resultVal)
      let durationToStart :=
        if isCounter && lt (ofInt 0) resultVal && le (ofInt 0) earliestVal
            && lt durationToZero durationToStart then durationToZero
        else durationToStart
      let extrapolationThreshold := avgDurationBetweenSamples * onePointOne
      let extrapolateToInterval :=
        if lt durationToStart extrapolationThreshold then sampledInterval + durationToStart
        else sampledInterval + avgDurationBetweenSamples / ofInt 2
      let extrapolateToInterval :=
        if lt durationToEnd extrapolationThreshold then extrapolateToInterval + durationToEnd
        else extrapolateToInterval + avgDurationBetweenSamples / ofInt 2
      let resultVal := resultVal * (extrapolateToInterval / sampledInterval)
      some (if isRate then resultVal / ofInt (range.tdiv USECS_PER_SEC) else resultVal)
    | _, _ => none

/-- A delta is `NULL` exactly for fewer than two samples. -/
theorem windowDelta_eq_none_iff {isCounter isRate : Bool} {range windowMin windowMax : Int}
    {window : List (Int × F)} :
    windowDelta isCounter isRate range windowMin windowMax window = none ↔ window.length < 2 := by
  unfold windowDelta
  split
  · rename_i hfew
    exact iff_of_true rfl hfew
  · rename_i hmany
    have hne : window ≠ [] := List.ne_nil_of_length_pos (by omega)
    rw [List.getLast?_eq_some_getLast hne, List.head?_eq_some_head hne]
    refine iff_of_false ?_ hmany
    rintro ⟨⟩

def addDeltaForCurrentWindow (self : GapfillDeltaTransition F) : GapfillDeltaTransition F :=
  { self with deltas := self.deltas ++
      [windowDelta self.isCounter self.isRate self.range self.currentWindowMin
        self.currentWindowMax self.window] }

/-- The inner loop pops from the front what lies before the new window. -/
def flushCurrentWindow (self : GapfillDeltaTransition F) : GapfillDeltaTransition F :=
  let self := self.addDeltaForCurrentWindow
  let currentWindowMin := self.currentWindowMin + self.stepSize
  { self with
    currentWindowMin
    currentWindowMax := self.currentWindowMax + self.stepSize
    window := self.window.dropWhile fun sample => sample.1 < currentWindowMin }

/-- `none` when `fuel` rounds of the loop did not reach the window of `time`. -/
def addDataPoint (fuel : Nat) (self : GapfillDeltaTransition F) (time : Int) (val : F) :
    Option (Except Raise (GapfillDeltaTransition F)) :=
  if ToBits.toBits val = STALE_NAN then some (.ok self)
  else
    match whileFuel (outsideWindow time) flushCurrentWindow fuel self with
    | none => none
    | some self =>
      if (self.window.getLast?.map fun prev => decide (prev.1 > time)).getD false then
        some (.error (.error "inputs must be in ascending time order"))
      else if time ≥ self.currentWindowMin then
        some (.ok { self with window := self.window ++ [(time, val)] })
      else some (.ok self)

def asVec (fuel : Nat) (self : GapfillDeltaTransition F) : Option (List (Option F)) :=
  (whileFuel windowDue flushCurrentWindow fuel self).map deltas

/-- The samples of one aggregate, added in order. -/
def addAll (fuel : Nat) (self : GapfillDeltaTransition F) :
    List (Int × F) → Option (Except Raise (GapfillDeltaTransition F))
  | [] => some (.ok self)
  | (time, val) :: rest =>
    match self.addDataPoint fuel time val with
    | none => none
    | some (.error e) => some (.error e)
    | some (.ok next) => next.addAll fuel rest

/-! More rounds than suffice change nothing. -/

theorem addDataPoint_mono {fuel fuel' : Nat} {self : GapfillDeltaTransition F} {time : Int}
    {val : F} {r : Except Raise (GapfillDeltaTransition F)}
    (h : self.addDataPoint fuel time val = some r) (hle : fuel ≤ fuel') :
    self.addDataPoint fuel' time val = some r := by
  unfold addDataPoint at h ⊢
  split
  · rename_i hstale
    rwa [if_pos hstale] at h
  · rename_i hstale
    rw [if_neg hstale] at h
    cases hloop : whileFuel (outsideWindow time) flushCurrentWindow fuel self with
    | none =>
      rw [hloop] at h
      cases h
    | some state =>
      rw [hloop] at h
      rwa [whileFuel_mono hloop hle]

theorem asVec_mono {fuel fuel' : Nat} {self : GapfillDeltaTransition F} {deltas : List (Option F)}
    (h : self.asVec fuel = some deltas) (hle : fuel ≤ fuel') : self.asVec fuel' = some deltas := by
  unfold asVec at h ⊢
  obtain ⟨state, hloop, rfl⟩ := Option.map_eq_some_iff.mp h
  rw [whileFuel_mono hloop hle, Option.map_some]

end Arithmetic

end GapfillDeltaTransition

end Promscale.Aggregates
