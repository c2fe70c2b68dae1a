import Promscale.Aggregates.GapfillDelta

/-!
# The aggregates of `_prom_ext`

`src/aggregates/prom_delta.rs`, `prom_increase.rs` and `prom_rate.rs` wrap the sliding window:
the transition function builds it at the first sample, and `prom_extrapolate_final` reads the
deltas. An aggregate over no rows never has a state, and its result is NULL.
-/
namespace Promscale.Aggregates

open Promscale.Lib

/-- The arguments that every row of an aggregate repeats, in the order of the SQL function. -/
structure PromArgs where
  lowestTime : Int
  greatestTime : Int
  /-- Milliseconds. -/
  stepSize : Int
  /-- Milliseconds. -/
  range : Int
  lowestTime_i64 : IsI64 lowestTime
  greatestTime_i64 : IsI64 greatestTime

inductive PromFunction where
  | delta
  | increase
  | rate
  deriving DecidableEq

namespace PromFunction

variable {F : Type}

def isCounter : PromFunction → Bool
  | delta => false
  | increase | rate => true

def isRate : PromFunction → Bool
  | delta | increase => false
  | rate => true

/-- The error for a sample outside the time range. -/
def outOfBounds (f : PromFunction) (a : PromArgs) (sampleTime : Int) : String :=
  match f with
  | delta | increase => "input time less than lowest time"
  | rate => "input time " ++ toString sampleTime ++ " not in bounds [" ++ toString a.lowestTime ++
      ", " ++ toString a.greatestTime ++ "]"

/-- The state that the transition function starts from. -/
def start (f : PromFunction) (a : PromArgs) : Except Raise (GapfillDeltaTransition F) :=
  GapfillDeltaTransition.new a.lowestTime a.greatestTime a.range a.stepSize f.isCounter f.isRate

variable [F64 F]

/-- What the three transition functions have in common. -/
def transition (f : PromFunction) (a : PromArgs) (fuel : Nat)
    (state : Option (GapfillDeltaTransition F)) (sampleTime : Int) (sampleValue : F) :
    Option (Except Raise (GapfillDeltaTransition F)) :=
  if sampleTime < a.lowestTime ∨ sampleTime > a.greatestTime then
    some (.error (.error (f.outOfBounds a sampleTime)))
  else
    match state with
    | some state => state.addDataPoint fuel sampleTime sampleValue
    | none =>
      match f.start a with
      | .error e => some (.error e)
      | .ok state => state.addDataPoint fuel sampleTime sampleValue

/-- The rows of an aggregate, one after the other. -/
def transitions (f : PromFunction) (a : PromArgs) (fuel : Nat) :
    Option (GapfillDeltaTransition F) → List (Int × F) →
      Option (Except Raise (Option (GapfillDeltaTransition F)))
  | state, [] => some (.ok state)
  | state, (sampleTime, sampleValue) :: rest =>
    match f.transition a fuel state sampleTime sampleValue with
    | none => none
    | some (.error e) => some (.error e)
    | some (.ok next) => f.transitions a fuel (some next) rest

end PromFunction

section Source
variable {F : Type} [F64 F]

def promDeltaTransition : PromArgs → Nat → Option (GapfillDeltaTransition F) → Int → F →
    Option (Except Raise (GapfillDeltaTransition F)) := PromFunction.delta.transition

def promIncreaseTransition : PromArgs → Nat → Option (GapfillDeltaTransition F) → Int → F →
    Option (Except Raise (GapfillDeltaTransition F)) := PromFunction.increase.transition

def promRateTransition : PromArgs → Nat → Option (GapfillDeltaTransition F) → Int → F →
    Option (Except Raise (GapfillDeltaTransition F)) := PromFunction.rate.transition

/-- The inner `none` is NULL. -/
def promExtrapolateFinal (fuel : Nat) (state : Option (GapfillDeltaTransition F)) :
    Option (Option (List (Option F))) :=
  match state with
  | none => some none
  | some state => (state.asVec fuel).map some

end Source

namespace PromFunction

variable {F : Type} [F64 F]

/-- `none` when `fuel` rounds do not suffice for one of the loops. -/
def aggregate (f : PromFunction) (a : PromArgs) (samples : List (Int × F)) (fuel : Nat) :
    Option (Except Raise (Option (List (Option F)))) :=
  match f.transitions a fuel none samples with
  | none => none
  | some (.error e) => some (.error e)
  | some (.ok state) => (promExtrapolateFinal fuel state).map .ok

/-- A sample in the time range, as the transition functions check it. -/
def InRange (a : PromArgs) (samples : List (Int × F)) : Prop :=
  ∀ s ∈ samples, a.lowestTime ≤ s.1 ∧ s.1 ≤ a.greatestTime

theorem transition_outside {f : PromFunction} {a : PromArgs} {t : Int}
    (h : t < a.lowestTime ∨ t > a.greatestTime) (fuel : Nat)
    (state : Option (GapfillDeltaTransition F)) (v : F) :
    f.transition a fuel state t v = some (.error (.error (f.outOfBounds a t))) :=
  if_pos h

theorem transition_some {f : PromFunction} {a : PromArgs} {t : Int}
    (h : a.lowestTime ≤ t ∧ t ≤ a.greatestTime) (fuel : Nat) (state : GapfillDeltaTransition F)
    (v : F) : f.transition a fuel (some state) t v = state.addDataPoint fuel t v := by
  rw [transition, if_neg (by omega)]

theorem transition_none {f : PromFunction} {a : PromArgs} {t : Int}
    (h : a.lowestTime ≤ t ∧ t ≤ a.greatestTime) {state : GapfillDeltaTransition F}
    (hstart : f.start a = .ok state) (fuel : Nat) (v : F) :
    f.transition a fuel none t v = state.addDataPoint fuel t v := by
  rw [transition, if_neg (by omega), hstart]

theorem transition_raises {f : PromFunction} {a : PromArgs} {t : Int}
    (h : a.lowestTime ≤ t ∧ t ≤ a.greatestTime) {e : Raise}
    (hstart : f.start (F := F) a = .error e) (fuel : Nat) (v : F) :
    f.transition a fuel none t v = some (.error e) := by
  rw [transition, if_neg (by omega), hstart]

theorem transitions_some {f : PromFunction} {a : PromArgs} {samples : List (Int × F)}
    (h : InRange a samples) (fuel : Nat) (state : GapfillDeltaTransition F) :
    f.transitions a fuel (some state) samples =
      match state.addAll fuel samples with
      | none => none
      | some (.error e) => some (.error e)
      | some (.ok final) => some (.ok (some final)) := by
  induction samples generalizing state with
  | nil => rfl
  | cons s rest ih =>
    obtain ⟨hs, hrest⟩ := List.forall_mem_cons.mp h
    rw [transitions, transition_some hs, GapfillDeltaTransition.addAll]
    match state.addDataPoint fuel s.1 s.2 with
    | none => rfl
    | some (.error e) => rfl
    | some (.ok next) => exact ih hrest next

theorem transition_mono {f : PromFunction} {a : PromArgs} {fuel fuel' : Nat}
    {state : Option (GapfillDeltaTransition F)} {t : Int} {v : F}
    {r : Except Raise (GapfillDeltaTransition F)} (h : f.transition a fuel state t v = some r)
    (hle : fuel ≤ fuel') : f.transition a fuel' state t v = some r := by
  unfold transition at h ⊢
  split
  · rename_i hbounds
    rwa [if_pos hbounds] at h
  · rename_i hbounds
    rw [if_neg hbounds] at h
    match state with
    | some state => exact GapfillDeltaTransition.addDataPoint_mono h hle
    | none =>
      revert h
      cases f.start a with
      | error e => exact id
      | ok state => exact fun h => GapfillDeltaTransition.addDataPoint_mono h hle

theorem transitions_mono {f : PromFunction} {a : PromArgs} {fuel fuel' : Nat}
    {state : Option (GapfillDeltaTransition F)} {samples : List (Int × F)}
    {r : Except Raise (Option (GapfillDeltaTransition F))}
    (h : f.transitions a fuel state samples = some r) (hle : fuel ≤ fuel') :
    f.transitions a fuel' state samples = some r := by
  induction samples generalizing state with
  | nil => exact h
  | cons s rest ih =>
    rw [transitions] at h ⊢
    cases hstep : f.transition a fuel state s.1 s.2 with
    | none =>
      rw [hstep] at h
      cases h
    | some next =>
      rw [hstep] at h
      rw [transition_mono hstep hle]
      cases next with
      | error e => exact h
      | ok next => exact ih h

/-- More rounds than suffice do not change the result. -/
theorem yields_aggregate {f : PromFunction} {a : PromArgs} {samples : List (Int × F)}
    (fuel : Nat) {r : Except Raise (Option (List (Option F)))}
    (h : f.aggregate a samples fuel = some r) : Yields (f.aggregate a samples) r := by
  refine ⟨fuel, fun fuel' hlt => ?_⟩
  unfold aggregate at h ⊢
  cases hstate : f.transitions a fuel none samples with
  | none =>
    rw [hstate] at h
    cases h
  | some state =>
    rw [hstate] at h
    rw [transitions_mono hstate hlt.le]
    match state, h with
    | .error e, h => exact h
    | .ok none, h => exact h
    | .ok (some state), h =>
      obtain ⟨result, hresult, hr⟩ := Option.map_eq_some_iff.mp h
      obtain ⟨deltas, hdeltas, rfl⟩ := Option.map_eq_some_iff.mp hresult
      rw [← hr]
      simp [promExtrapolateFinal, GapfillDeltaTransition.asVec_mono hdeltas hlt.le]

/-- What is added without an error lies in the time range. -/
theorem inRange_of_transitions {f : PromFunction} {a : PromArgs} {fuel : Nat}
    {state final : Option (GapfillDeltaTransition F)} {samples : List (Int × F)}
    (h : f.transitions a fuel state samples = some (.ok final)) : InRange a samples := by
  induction samples generalizing state with
  | nil => exact fun s hs => nomatch hs
  | cons s rest ih =>
    rw [transitions] at h
    by_cases hbounds : s.1 < a.lowestTime ∨ s.1 > a.greatestTime
    · rw [transition_outside hbounds] at h
      cases h
    · refine List.forall_mem_cons.mpr ⟨by omega, ?_⟩
      revert h
      match f.transition a fuel state s.1 s.2 with
      | none => exact fun h => nomatch h
      | some (.error e) => exact fun h => nomatch h
      | some (.ok next) => exact ih

/-- The first row is added to a state. -/
theorem start_of_transitions {f : PromFunction} {a : PromArgs} {fuel : Nat}
    {final : Option (GapfillDeltaTransition F)} {samples : List (Int × F)} (hne : samples ≠ [])
    (h : f.transitions a fuel none samples = some (.ok final)) :
    ∃ state : GapfillDeltaTransition F, f.start a = .ok state := by
  cases samples with
  | nil => exact absurd rfl hne
  | cons s rest =>
    cases hstart : f.start (F := F) a with
    | ok state => exact ⟨state, rfl⟩
    | error e =>
      have hs := (List.forall_mem_cons.mp (inRange_of_transitions h)).1
      rw [transitions, transition_raises hs hstart] at h
      cases h

/-- A value that is not NULL comes from some samples of the time range and a state for them. -/
theorem of_aggregate {f : PromFunction} {a : PromArgs} {samples : List (Int × F)} {fuel : Nat}
    {deltas : List (Option F)} (h : f.aggregate a samples fuel = some (.ok (some deltas))) :
    InRange a samples ∧ samples ≠ [] ∧ ∃ state : GapfillDeltaTransition F,
      f.start a = .ok state := by
  cases samples with
  | nil => cases h
  | cons s rest =>
    unfold aggregate at h
    cases hrun : f.transitions a fuel none (s :: rest) with
    | none =>
      rw [hrun] at h
      cases h
    | some final =>
      cases final with
      | error e =>
        rw [hrun] at h
        cases h
      | ok final =>
        have hne := List.cons_ne_nil s rest
        exact ⟨inRange_of_transitions hrun, hne, start_of_transitions hne hrun⟩

/-- The first row finds no state. -/
theorem transitions_none {f : PromFunction} {a : PromArgs} {samples : List (Int × F)}
    (h : InRange a samples) (hne : samples ≠ []) {state : GapfillDeltaTransition F}
    (hstart : f.start a = .ok state) (fuel : Nat) :
    f.transitions a fuel none samples =
      match state.addAll fuel samples with
      | none => none
      | some (.error e) => some (.error e)
      | some (.ok final) => some (.ok (some final)) := by
  cases samples with
  | nil => exact absurd rfl hne
  | cons s rest =>
    obtain ⟨hs, hrest⟩ := List.forall_mem_cons.mp h
    rw [transitions, transition_none hs hstart, GapfillDeltaTransition.addAll]
    match state.addDataPoint fuel s.1 s.2 with
    | none => rfl
    | some (.error e) => rfl
    | some (.ok next) => exact transitions_some hrest fuel next

/-- Over some rows of the time range the aggregate adds them all and reads the deltas. -/
theorem aggregate_of_ne_nil {f : PromFunction} {a : PromArgs} {samples : List (Int × F)}
    (h : InRange a samples) (hne : samples ≠ []) {state : GapfillDeltaTransition F}
    (hstart : f.start a = .ok state) (fuel : Nat) :
    f.aggregate a samples fuel =
      match state.addAll fuel samples with
      | none => none
      | some (.error e) => some (.error e)
      | some (.ok final) => (final.asVec fuel).map fun deltas => .ok (some deltas) := by
  rw [aggregate, transitions_none h hne hstart]
  match state.addAll fuel samples with
  | none => rfl
  | some (.error e) => rfl
  | some (.ok final) => exact Option.map_map _ _ _

end PromFunction

end Promscale.Aggregates
