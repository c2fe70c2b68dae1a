import Promscale.Aggregates.RangeQuery

/-!
# Instant vectors

A bucket width of zero asks for a single instant vector. `new` makes one bucket for it, which it
lets end at the end time; `get_bucket` divides by the width as soon as a sample comes after the
start time.
-/
namespace Promscale.Aggregates

variable {F : Type}

/-- A selector for the instant vector at `startTime`. -/
structure IsInstant (startTime endTime lookback : Int) (state : VectorSelector F) : Prop where
  first : state.firstBucketMaxTime = startTime
  last : state.lastBucketMaxTime = endTime
  end_eq : state.endTime = endTime
  width : state.bucketWidth = 0
  lookback_eq : state.lookback = lookback
  single : state.elements.length = 1

theorem isInstant_new (startTime endTime lookback : Int) :
    IsInstant startTime endTime lookback (VectorSelector.new startTime endTime 0 lookback :
      VectorSelector F) :=
  ⟨rfl, rfl, rfl, rfl, rfl, rfl⟩

namespace IsInstant

variable {startTime endTime lookback : Int} {state : VectorSelector F}

/-- A sample up to the start time is put into the bucket. -/
theorem insert_first (h : IsInstant startTime endTime lookback state)
    (hle : startTime ≤ endTime) {time : Int} (val : F)
    (hlookback : startTime - lookback * USECS_PER_MS ≤ time) (hfirst : time ≤ startTime) :
    ∃ next, state.insert time val = .ok next ∧ IsInstant startTime endTime lookback next := by
  have hbucket : state.getBucket time = .ok 0 := by
    unfold VectorSelector.getBucket
    rw [h.first, h.last, h.lookback_eq, if_neg (not_lt.mpr hlookback), if_neg (by omega),
      if_pos hfirst]
  obtain ⟨content, hcontent⟩ := List.length_eq_one_iff.mp h.single
  have hset : ∀ c, IsInstant startTime endTime lookback
      { state with elements := state.elements.set 0 c } := fun c =>
    { h with single := by rw [List.length_set, h.single] }
  have hend : ¬ time > state.endTime := by
    rw [h.end_eq]
    omega
  have hlast : ¬ time > state.lastBucketMaxTime := by
    rw [h.last]
    omega
  unfold VectorSelector.insert
  rw [if_neg hend, if_neg hlast, hbucket, hcontent]
  rw [hcontent] at hset
  match content with
  | none => exact ⟨_, rfl, hset _⟩
  | some (existing, _) =>
    by_cases hlater : existing < time
    · exact ⟨_, if_pos hlater, hset _⟩
    · exact ⟨state, if_neg hlater, h⟩

/-- A later one is divided by the width. -/
theorem insert_later (h : IsInstant startTime endTime lookback state) (hlookback : 0 ≤ lookback)
    {time : Int} (val : F) (hstart : startTime < time) (hend : time ≤ endTime) :
    state.insert time val = .error (.panic "attempt to divide by zero") := by
  have hbucket : state.getBucket time = .error (.panic "attempt to divide by zero") := by
    have hmicros : 0 ≤ lookback * USECS_PER_MS := Int.mul_nonneg hlookback (by decide)
    unfold VectorSelector.getBucket
    rw [h.first, h.last, h.lookback_eq, h.width, if_neg (by omega), if_neg (by omega),
      if_neg (by omega)]
    exact if_pos (Int.zero_mul _)
  unfold VectorSelector.insert
  rw [h.end_eq, h.last, if_neg (by omega), if_neg (by omega), hbucket]

/-- Run lemma: the samples are inserted until one comes after the start time. -/
theorem insertAll (h : IsInstant startTime endTime lookback state) (hle : startTime ≤ endTime)
    (hlookback : 0 ≤ lookback) {samples : List (Int × F)}
    (hrange : ∀ s ∈ samples, startTime - lookback * USECS_PER_MS ≤ s.1 ∧ s.1 ≤ endTime) :
    ((∀ s ∈ samples, s.1 ≤ startTime) ∧ ∃ next, state.insertAll samples = .ok next) ∨
      ((∃ s ∈ samples, startTime < s.1) ∧
        state.insertAll samples = .error (.panic "attempt to divide by zero")) := by
  induction samples generalizing state with
  | nil => exact .inl ⟨by simp, state, rfl⟩
  | cons s rest ih =>
    obtain ⟨hs, hrest⟩ := List.forall_mem_cons.mp hrange
    rw [VectorSelector.insertAll]
    by_cases hfirst : s.1 ≤ startTime
    · obtain ⟨next, hnext, hinstant⟩ := h.insert_first hle s.2 hs.1 hfirst
      rw [hnext]
      rcases ih hinstant hrest with ⟨hall, hrun⟩ | ⟨⟨r, hr, hlater⟩, hrun⟩
      · exact .inl ⟨List.forall_mem_cons.mpr ⟨hfirst, hall⟩, hrun⟩
      · exact .inr ⟨⟨r, List.mem_cons_of_mem s hr, hlater⟩, hrun⟩
    · rw [h.insert_later hlookback s.2 (not_le.mp hfirst) hs.2]
      exact .inr ⟨⟨s, List.mem_cons_self, not_le.mp hfirst⟩, rfl⟩

end IsInstant

/-- The parameters of a vector selector, in the ranges that the aggregate documents. -/
structure SelectorQuery where
  startTime : Int
  endTime : Int
  /-- Milliseconds; zero stands for a single instant vector. -/
  bucketWidth : Int
  /-- Milliseconds. -/
  lookback : Int
  start_le_end : startTime ≤ endTime
  bucketWidth_nonneg : 0 ≤ bucketWidth
  lookback_nonneg : 0 ≤ lookback
  startTime_i64 : IsI64 startTime
  endTime_i64 : IsI64 endTime
  bucketWidth_i64 : IsI64 bucketWidth
  lookback_i64 : IsI64 lookback

namespace SelectorQuery

def selector (q : SelectorQuery) : VectorSelector F :=
  VectorSelector.new q.startTime q.endTime q.bucketWidth q.lookback

def Accepts (q : SelectorQuery) (time : Int) : Prop :=
  q.startTime - q.lookback * USECS_PER_MS ≤ time ∧ time ≤ q.endTime

instance (q : SelectorQuery) (time : Int) : Decidable (q.Accepts time) :=
  inferInstanceAs (Decidable (_ ∧ _))

/-- A query with buckets is a range query. -/
def ranged (q : SelectorQuery) (hwidth : 0 < q.bucketWidth) : RangeQuery :=
  { q with bucketWidth_pos := hwidth }

/-- Inserting accepted samples and reading the results raises nothing if and only if the buckets
have a width, or no sample comes after the start time. -/
theorem selector_returns_iff [ToBits F] (q : SelectorQuery) (samples : List (Int × F))
    (hrange : ∀ s ∈ samples, q.Accepts s.1) :
    (∃ values, ((q.selector.insertAll samples).map VectorSelector.results) = .ok values) ↔
      0 < q.bucketWidth ∨ ∀ s ∈ samples, s.1 ≤ q.startTime := by
  rcases q.bucketWidth_nonneg.lt_or_eq with hwidth | hzero
  · have hrun := (q.ranged hwidth).insertAll_ofSamples [] samples hrange
    rw [← (q.ranged hwidth).selector_eq_ofSamples] at hrun
    exact iff_of_true ⟨_, congrArg (Except.map VectorSelector.results) hrun⟩ (.inl hwidth)
  · have hinstant : IsInstant q.startTime q.endTime q.lookback (q.selector : VectorSelector F) := by
      unfold selector
      rw [← hzero]
      exact isInstant_new _ _ _
    have hnot : ¬ 0 < q.bucketWidth := by omega
    rcases hinstant.insertAll q.start_le_end q.lookback_nonneg hrange with
      ⟨hall, next, hrun⟩ | ⟨⟨s, hs, hlater⟩, hrun⟩
    · exact iff_of_true ⟨_, congrArg (Except.map VectorSelector.results) hrun⟩ (.inr hall)
    · refine iff_of_false ?_ ?_
      · rintro ⟨values, h⟩
        rw [hrun] at h
        cases h
      · rintro (h | h)
        · exact hnot h
        · exact absurd (h s hs) (not_le.mpr hlater)

end SelectorQuery

/-- The instant vector at one second, of a query that ends at three. -/
def instantVector : SelectorQuery where
  startTime := 1000000
  endTime := 3000000
  bucketWidth := 0
  lookback := 500
  start_le_end := by decide
  bucketWidth_nonneg := Int.natCast_nonneg 0
  lookback_nonneg := by decide
  startTime_i64 := by decide
  endTime_i64 := by decide
  bucketWidth_i64 := isI64_zero
  lookback_i64 := by decide

theorem selector_returns_instantVector : ∃ values : List (Option UInt64),
    ((instantVector.selector.insertAll [((900000 : Int), (7 : UInt64))]).map
      VectorSelector.results) = .ok values :=
  (instantVector.selector_returns_iff _ (by decide)).mpr (.inr (by decide))

/-- A sample between the start and the end time. -/
theorem selector_divides_by_zero :
    (∀ s ∈ [((1500000 : Int), (7 : UInt64))], instantVector.Accepts s.1) ∧
      (instantVector.selector.insertAll [((1500000 : Int), (7 : UInt64))]).map
        VectorSelector.results = .error (.panic "attempt to divide by zero") :=
  ⟨by decide, by decide⟩

end Promscale.Aggregates
