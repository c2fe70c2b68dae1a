import Mathlib.Tactic.Ring
import Mathlib.Tactic.Linarith
import Promscale.Lib.Latest
import Promscale.Aggregates.VectorSelector

/-!
# The vector selector answers range queries

Abstractly bucket `j` of a selector that has seen a list of samples is the latest
sample in `(t (j-1), t j]` (everything up to `t 0` for the first bucket). `insert`
keeps that reading, and `results` turns it into one instant vector for each bucket
time, carrying the last sample over empty buckets.
-/
namespace Promscale.Aggregates

open Promscale.Lib

variable {F : Type}

/-- The parameters of a range query, in the ranges the aggregate documents. -/
structure RangeQuery where
  startTime : Int
  endTime : Int
  /-- Milliseconds. -/
  bucketWidth : Int
  /-- Milliseconds. -/
  lookback : Int
  start_le_end : startTime ≤ endTime
  bucketWidth_pos : 0 < bucketWidth
  lookback_nonneg : 0 ≤ lookback
  startTime_i64 : IsI64 startTime
  endTime_i64 : IsI64 endTime
  bucketWidth_i64 : IsI64 bucketWidth
  lookback_i64 : IsI64 lookback

namespace RangeQuery

/-- The bucket width in microseconds. -/
def width (q : RangeQuery) : Int := q.bucketWidth * USECS_PER_MS

/-- The number of bucket times between start and end. -/
def numBuckets (q : RangeQuery) : Nat := ((q.endTime - q.startTime) / q.width).toNat + 1

/-- `t_i` of the module documentation of the source. -/
def bucketTime (q : RangeQuery) (i : Nat) : Int := q.startTime + i * q.width

/-- The selector before its first sample. -/
def selector (q : RangeQuery) : VectorSelector F :=
  VectorSelector.new q.startTime q.endTime q.bucketWidth q.lookback

/-- `time` is one the aggregate accepts for this query. -/
def Accepts (q : RangeQuery) (time : Int) : Prop :=
  q.startTime - q.lookback * USECS_PER_MS ≤ time ∧ time ≤ q.endTime

instance (q : RangeQuery) (time : Int) : Decidable (q.Accepts time) :=
  inferInstanceAs (Decidable (_ ∧ _))

theorem width_pos (q : RangeQuery) : 0 < q.width := by
  have := q.bucketWidth_pos
  unfold width USECS_PER_MS
  omega

theorem quotient_nonneg (q : RangeQuery) : 0 ≤ (q.endTime - q.startTime) / q.width :=
  Int.ediv_nonneg (Int.sub_nonneg_of_le q.start_le_end) q.width_pos.le

theorem numBuckets_cast (q : RangeQuery) :
    (q.numBuckets : Int) = (q.endTime - q.startTime) / q.width + 1 := by
  have := q.quotient_nonneg
  unfold numBuckets
  omega

theorem numBuckets_lt (q : RangeQuery) : (q.numBuckets : Int) < 2 ^ 64 := by
  have hmul : (q.endTime - q.startTime) / q.width * q.width ≤ q.endTime - q.startTime :=
    Int.ediv_mul_le _ q.width_pos.ne'
  have hwidth : 1000 ≤ q.width := by
    have := q.bucketWidth_pos
    unfold width USECS_PER_MS
    omega
  have hle := Int.mul_le_mul_of_nonneg_left hwidth q.quotient_nonneg
  obtain ⟨hstart, _⟩ := q.startTime_i64
  obtain ⟨_, hend⟩ := q.endTime_i64
  rw [q.numBuckets_cast]
  omega

/-- The last bucket ends at the last bucket time, which is at most the end time. -/
theorem bucketTime_last (q : RangeQuery) :
    q.bucketTime (q.numBuckets - 1) =
      q.endTime - (q.endTime - q.startTime) % q.width := by
  have hcast : ((q.numBuckets - 1 : Nat) : Int) = (q.endTime - q.startTime) / q.width := by
    have := q.numBuckets_cast
    have := q.quotient_nonneg
    omega
  have hdiv := Int.emod_add_ediv_mul (q.endTime - q.startTime) q.width
  unfold bucketTime
  rw [hcast]
  omega

theorem bucketTime_succ (q : RangeQuery) (i : Nat) :
    q.bucketTime (i + 1) = q.bucketTime i + q.width := by
  unfold bucketTime
  push_cast
  ring

theorem bucketTime_mono (q : RangeQuery) {i j : Nat} (h : i ≤ j) :
    q.bucketTime i ≤ q.bucketTime j := by
  have := Int.mul_le_mul_of_nonneg_right (Int.ofNat_le.mpr h) q.width_pos.le
  unfold bucketTime
  omega

/-- `time` falls into bucket `j`. -/
def inBucket (q : RangeQuery) (j : Nat) (time : Int) : Bool :=
  decide (time ≤ q.bucketTime j ∧ (j = 0 ∨ q.bucketTime (j - 1) < time))

/-- What bucket `j` holds after `samples`. -/
def cell (q : RangeQuery) (samples : List (Int × F)) (j : Nat) : Option (Int × F) :=
  latest (samples.filter fun s => q.inBucket j s.1)

/-- The selector that has seen `samples`, read off the abstract buckets. -/
def ofSamples (q : RangeQuery) (samples : List (Int × F)) : VectorSelector F where
  firstBucketMaxTime := q.startTime
  lastBucketMaxTime := q.bucketTime (q.numBuckets - 1)
  endTime := q.endTime
  bucketWidth := q.bucketWidth
  lookback := q.lookback
  elements := (List.range q.numBuckets).map (q.cell samples)

theorem selector_eq_ofSamples (q : RangeQuery) : (q.selector : VectorSelector F) = q.ofSamples [] := by
  have hne : q.bucketWidth ≠ 0 := q.bucketWidth_pos.ne'
  have hspan : 0 ≤ q.endTime - q.startTime := Int.sub_nonneg_of_le q.start_le_end
  have hlen : asUsize ((q.endTime - q.startTime) / q.width + 1) = q.numBuckets := by
    rw [← q.numBuckets_cast, asUsize_of_bounds (Int.natCast_nonneg _) q.numBuckets_lt]
    rfl
  have hcells : List.replicate q.numBuckets (none : Option (Int × F)) =
      (List.range q.numBuckets).map (q.cell []) := by
    have hnone : q.cell ([] : List (Int × F)) = fun _ => none := by
      funext j
      simp [cell]
    rw [hnone, List.map_const', List.length_range]
  simp only [selector, VectorSelector.new, ofSamples, if_neg hne,
    Int.tdiv_eq_ediv_of_nonneg hspan, Int.tmod_eq_emod_of_nonneg hspan]
  rw [q.bucketTime_last, ← hcells, ← hlen]
  rfl

/-- Buckets are disjoint: a time falls into at most one. -/
theorem inBucket_unique (q : RangeQuery) {i j : Nat} {time : Int}
    (hi : q.inBucket i time = true) (hj : q.inBucket j time = true) : i = j := by
  simp only [inBucket, decide_eq_true_eq] at hi hj
  rcases Nat.lt_trichotomy i j with h | h | h
  · have := q.bucketTime_mono (show i ≤ j - 1 by omega)
    omega
  · exact h
  · have := q.bucketTime_mono (show j ≤ i - 1 by omega)
    omega

/-- The index `get_bucket` computes after the first bucket: the quotient of the
offset by the width, rounded up. -/
private theorem bucketIndex_bounds {offset w : Int} (hoff : 0 < offset) (hw : 0 < w) :
    ∃ k : Nat, 1 ≤ k ∧
      (if offset.tmod w = 0 then offset.tdiv w + 1 - 1 else offset.tdiv w + 1) = k ∧
      (k - 1) * w < offset ∧ offset ≤ k * w := by
  rw [Int.tdiv_eq_ediv_of_nonneg hoff.le, Int.tmod_eq_emod_of_nonneg hoff.le]
  have hdiv := Int.emod_add_ediv_mul offset w
  have hr0 := Int.emod_nonneg offset hw.ne'
  have hr1 := Int.emod_lt_of_pos offset hw
  have hq0 : 0 ≤ offset / w := Int.ediv_nonneg hoff.le hw.le
  obtain ⟨n, hn⟩ := Int.eq_ofNat_of_zero_le hq0
  rw [hn] at hdiv ⊢
  by_cases hr : offset % w = 0
  · have hpos : 1 ≤ n := by
      rcases Nat.eq_zero_or_pos n with rfl | h
      · simp at hdiv
        omega
      · exact h
    refine ⟨n, hpos, by rw [if_pos hr]; omega, ?_, by omega⟩
    rw [sub_mul, one_mul]
    omega
  · refine ⟨n + 1, by omega, by rw [if_neg hr]; push_cast; rfl, ?_, ?_⟩
    · push_cast
      rw [add_sub_cancel_right]
      omega
    · push_cast
      rw [add_mul, one_mul]
      omega

theorem bucketIndex_spec (q : RangeQuery) {time : Int} (hfirst : q.startTime < time)
    (hhi : time ≤ q.bucketTime (q.numBuckets - 1)) :
    let bucket := (time - q.startTime).tdiv q.width + 1
    let j := asUsize (if (time - q.startTime).tmod q.width = 0 then bucket - 1 else bucket)
    j < q.numBuckets ∧ q.inBucket j time = true := by
  intro bucket j
  obtain ⟨k, hk1, hk, hlow, hhigh⟩ :=
    bucketIndex_bounds (show 0 < time - q.startTime by omega) q.width_pos
  have hkn : k < q.numBuckets := by
    have hlt : ((k : Int) - 1) * q.width < ((q.numBuckets - 1 : Nat) : Int) * q.width := by
      unfold bucketTime at hhi
      omega
    have := lt_of_mul_lt_mul_right hlt q.width_pos.le
    omega
  have hj : j = k := by
    have hfit := q.numBuckets_lt
    change asUsize (if (time - q.startTime).tmod q.width = 0 then
      (time - q.startTime).tdiv q.width + 1 - 1 else (time - q.startTime).tdiv q.width + 1) = k
    rw [hk, asUsize_of_bounds (Int.natCast_nonneg k) (by omega), Int.toNat_natCast]
  rw [hj]
  refine ⟨hkn, ?_⟩
  have hpred : ((k - 1 : Nat) : Int) = (k : Int) - 1 := by omega
  simp only [inBucket, bucketTime, decide_eq_true_eq, hpred]
  exact ⟨by omega, Or.inr (by omega)⟩

/-- `get_bucket` finds the bucket a time falls into, and it exists. -/
theorem getBucket_spec (q : RangeQuery) (samples : List (Int × F)) {time : Int}
    (hlo : q.startTime - q.lookback * USECS_PER_MS ≤ time)
    (hhi : time ≤ q.bucketTime (q.numBuckets - 1)) :
    ∃ j, (q.ofSamples samples).getBucket time = .ok j ∧ j < q.numBuckets ∧
      q.inBucket j time = true := by
  have h1 : ¬ time < (q.ofSamples samples).firstBucketMaxTime -
      (q.ofSamples samples).lookback * USECS_PER_MS := not_lt.mpr hlo
  have h2 : ¬ time > (q.ofSamples samples).lastBucketMaxTime := not_lt.mpr hhi
  have hn : 0 < q.numBuckets := Nat.succ_pos _
  unfold VectorSelector.getBucket
  rw [if_neg h1, if_neg h2]
  by_cases hfirst : time ≤ q.startTime
  · refine ⟨0, if_pos hfirst, hn, ?_⟩
    simp [inBucket, bucketTime, hfirst]
  · have h3 : ¬ time ≤ (q.ofSamples samples).firstBucketMaxTime := hfirst
    have h4 : ¬ (q.ofSamples samples).bucketWidth * USECS_PER_MS = 0 := q.width_pos.ne'
    rw [if_neg h3]
    dsimp only
    rw [if_neg h4]
    exact ⟨_, rfl, q.bucketIndex_spec (not_le.mp hfirst) hhi⟩

theorem cell_concat (q : RangeQuery) (samples : List (Int × F)) (time : Int) (val : F) (j : Nat) :
    q.cell (samples ++ [(time, val)]) j =
      if q.inBucket j time then later (q.cell samples j) (some (time, val))
      else q.cell samples j := by
  unfold cell
  by_cases h : q.inBucket j time = true
  · rw [if_pos h, List.filter_append, latest_append]
    simp [h, latest_cons]
  · rw [if_neg h, List.filter_append]
    simp [h]

private theorem ofSamples_congr (q : RangeQuery) {samples samples' : List (Int × F)}
    (h : ∀ j, j < q.numBuckets → q.cell samples j = q.cell samples' j) :
    q.ofSamples samples = q.ofSamples samples' := by
  simp only [ofSamples, VectorSelector.mk.injEq, true_and]
  exact List.map_congr_left fun j hj => h j (List.mem_range.mp hj)

/-- Step lemma: inserting an accepted sample appends it to the samples seen. -/
theorem insert_ofSamples (q : RangeQuery) (samples : List (Int × F)) {time : Int} (val : F)
    (h : q.Accepts time) :
    (q.ofSamples samples).insert time val = .ok (q.ofSamples (samples ++ [(time, val)])) := by
  have h1 : ¬ time > (q.ofSamples samples).endTime := not_lt.mpr h.2
  unfold VectorSelector.insert
  rw [if_neg h1]
  by_cases hlast : time > q.bucketTime (q.numBuckets - 1)
  · -- past the last bucket: no bucket takes the sample, and the code drops it
    have h2 : time > (q.ofSamples samples).lastBucketMaxTime := hlast
    rw [if_pos h2]
    congr 1
    apply q.ofSamples_congr
    intro j hj
    have hout : ¬ q.inBucket j time = true := by
      have := q.bucketTime_mono (show j ≤ q.numBuckets - 1 by omega)
      simp only [inBucket, decide_eq_true_eq]
      omega
    rw [cell_concat, if_neg hout]
  · have h2 : ¬ time > (q.ofSamples samples).lastBucketMaxTime := hlast
    obtain ⟨b, hb, hbn, hin⟩ := q.getBucket_spec samples h.1 (not_lt.mp hlast)
    have hget : (q.ofSamples samples).elements[b]? = some (q.cell samples b) := by
      simp [ofSamples, hbn]
    have hset : ∀ c : Option (Int × F), c = q.cell (samples ++ [(time, val)]) b →
        (q.ofSamples samples).elements.set b c = (q.ofSamples (samples ++ [(time, val)])).elements := by
      intro c hc
      apply List.ext_getElem
      · simp [ofSamples]
      · intro j hj _
        simp only [List.length_set, ofSamples, List.length_map, List.length_range] at hj
        simp only [ofSamples, List.getElem_set, List.getElem_map, List.getElem_range]
        by_cases hjb : b = j
        · subst hjb
          rw [if_pos rfl, hc]
        · have hout : ¬ q.inBucket j time = true := fun h => hjb (q.inBucket_unique hin h)
          rw [if_neg hjb, cell_concat, if_neg hout]
    have hcell := q.cell_concat samples time val b
    rw [if_pos hin] at hcell
    rw [if_neg h2, hb]
    dsimp only
    rw [hget]
    cases hc : q.cell samples b with
    | none =>
      rw [hc, later_none_left] at hcell
      dsimp only
      rw [hset _ hcell.symm]
      rfl
    | some existing =>
      rw [hc] at hcell
      dsimp only
      by_cases hlt : existing.1 < time
      · rw [if_pos hlt, hset _ (by rw [hcell]; simp [later, hlt])]
        rfl
      · rw [if_neg hlt]
        congr 1
        apply q.ofSamples_congr
        intro j _
        by_cases hjb : b = j
        · subst hjb
          rw [hc, hcell]
          simp [later, hlt]
        · have hout : ¬ q.inBucket j time = true := fun h => hjb (q.inBucket_unique hin h)
          rw [cell_concat, if_neg hout]

/-- Run lemma: a selector fed accepted samples has seen exactly these. -/
theorem insertAll_ofSamples (q : RangeQuery) (samples more : List (Int × F))
    (h : ∀ s ∈ more, q.Accepts s.1) :
    (q.ofSamples samples).insertAll more = .ok (q.ofSamples (samples ++ more)) := by
  induction more generalizing samples with
  | nil => simp [VectorSelector.insertAll]
  | cons s rest ih =>
    have hs := q.insert_ofSamples samples s.2 (h s (by simp))
    have hrest := ih (samples ++ [s]) (fun r hr => h r (by simp [hr]))
    simp only [VectorSelector.insertAll, hs, hrest, List.append_assoc, List.cons_append,
      List.nil_append]

/-- All samples up to bucket time `i`, of whatever bucket. -/
def upTo (q : RangeQuery) (samples : List (Int × F)) (i : Nat) : Option (Int × F) :=
  latest (samples.filter fun s => decide (s.1 ≤ q.bucketTime i))

/-- The first bucket starts at the beginning of time. -/
theorem cell_zero (q : RangeQuery) (samples : List (Int × F)) :
    q.cell samples 0 = q.upTo samples 0 := by
  simp [cell, upTo, inBucket]

/-- Carrying the last sample over an empty bucket yields the latest sample so far;
a sample of the bucket itself is later than all of those. -/
theorem cell_or_upTo (q : RangeQuery) (samples : List (Int × F)) (i : Nat) :
    (q.cell samples (i + 1)).or (q.upTo samples i) = q.upTo samples (i + 1) := by
  have hcell : q.cell samples (i + 1) =
      (q.upTo samples (i + 1)).filter fun s => decide (q.bucketTime i < s.1) := by
    unfold cell upTo
    rw [← latest_filter_upward _ (fun t => decide (q.bucketTime i < t))
      (fun a b hab ha => by simp only [decide_eq_true_eq] at ha ⊢; omega), List.filter_filter]
    congr 1
    apply List.filter_congr
    intro s _
    rw [Bool.eq_iff_iff]
    simp [inBucket, and_comm]
  have hstep : q.bucketTime i ≤ q.bucketTime (i + 1) := q.bucketTime_mono (Nat.le_succ i)
  cases hL : q.upTo samples (i + 1) with
  | none =>
    have hnil : samples.filter (fun s => decide (s.1 ≤ q.bucketTime i)) = [] := by
      have := latest_eq_none_iff.mp hL
      rw [List.filter_eq_nil_iff] at this ⊢
      intro s hs
      have := this s hs
      simp only [decide_eq_true_eq] at this ⊢
      omega
    rw [hcell, hL, upTo, hnil]
    rfl
  | some s =>
    by_cases hs : q.bucketTime i < s.1
    · rw [hcell, hL]
      simp [Option.filter, hs]
    · -- nothing fell into the bucket, so both prefixes hold the same samples
      have hmax := (latest_spec hL).2
      have hsame : q.upTo samples i = q.upTo samples (i + 1) := by
        unfold upTo
        congr 1
        apply List.filter_congr
        intro r hr
        rw [Bool.eq_iff_iff]
        simp only [decide_eq_true_eq]
        refine ⟨fun h => h.trans hstep, fun h => ?_⟩
        have := hmax r (by simp [hr, h])
        omega
      rw [hcell, hsame, hL]
      simp [Option.filter, hs]

section Results
variable [ToBits F]

/-- The value a sample stands for at time `ts`: none when it is older than the
lookback, or the stale marker. -/
def visible (q : RangeQuery) (ts : Int) : Option (Int × F) → Option F
  | none => none
  | some (t, v) =>
    if t ≥ ts - q.lookback * USECS_PER_MS ∧ ToBits.toBits v ≠ STALE_NAN then some v else none

theorem bucketResult_eq (q : RangeQuery) (last content : Option (Int × F)) (ts : Int) :
    VectorSelector.bucketResult q.lookback last ts content = q.visible ts (content.or last) := by
  cases content with
  | some c => rfl
  | none =>
    cases last with
    | none => rfl
    | some l => rfl

/-- The loop of `results` from bucket `j` on, with `last` the latest sample of the
buckets before it. -/
theorem resultsFrom_cells (q : RangeQuery) (samples : List (Int × F)) (m j : Nat)
    (last : Option (Int × F))
    (hlast : (q.cell samples j).or last = q.upTo samples j) :
    VectorSelector.resultsFrom q.bucketWidth q.lookback last (q.bucketTime j)
        ((List.range' j m).map (q.cell samples)) =
      (List.range' j m).map fun i => q.visible (q.bucketTime i) (q.upTo samples i) := by
  induction m generalizing j last with
  | zero => rfl
  | succ m ih =>
    have hcarry : VectorSelector.lastAfter last (q.cell samples j) = q.upTo samples j := by
      rw [← hlast]
      cases q.cell samples j <;> rfl
    rw [List.range'_succ, List.map_cons, List.map_cons]
    simp only [VectorSelector.resultsFrom, bucketResult_eq, hlast, hcarry]
    congr 1
    have := ih (j + 1) (q.upTo samples j) (q.cell_or_upTo samples j)
    rwa [q.bucketTime_succ] at this

/-- `results` in closed form. -/
theorem results_ofSamples (q : RangeQuery) (samples : List (Int × F)) :
    (q.ofSamples samples).results =
      (List.range q.numBuckets).map fun i => q.visible (q.bucketTime i) (q.upTo samples i) := by
  have hzero : q.bucketTime 0 = q.startTime := by simp [bucketTime]
  have h := q.resultsFrom_cells samples q.numBuckets 0 none (by rw [Option.or_none, cell_zero])
  rw [hzero, ← List.range_eq_range'] at h
  exact h

end Results

end RangeQuery

/-- `s` is the most recent of `samples` in the closed window `[lo, hi]`. -/
def IsMostRecent (samples : List (Int × F)) (lo hi : Int) (s : Int × F) : Prop :=
  s ∈ samples ∧ lo ≤ s.1 ∧ s.1 ≤ hi ∧ ∀ r ∈ samples, lo ≤ r.1 → r.1 ≤ hi → r.1 ≤ s.1

namespace RangeQuery
variable [ToBits F]

/-- The entry for `t_i` is decided by the most recent sample of the lookback window. -/
theorem visible_upTo (q : RangeQuery) (samples : List (Int × F))
    (hdistinct : (samples.map Prod.fst).Nodup) (i : Nat) :
    (∀ s, IsMostRecent samples (q.bucketTime i - q.lookback * USECS_PER_MS) (q.bucketTime i) s →
      q.visible (q.bucketTime i) (q.upTo samples i) =
        if ToBits.toBits s.2 = STALE_NAN then none else some s.2) ∧
    ((∀ s ∈ samples, ¬ (q.bucketTime i - q.lookback * USECS_PER_MS ≤ s.1 ∧
        s.1 ≤ q.bucketTime i)) →
      q.visible (q.bucketTime i) (q.upTo samples i) = none) := by
  constructor
  · rintro s ⟨hmem, hlo, hhi, hmax⟩
    have hlatest : q.upTo samples i = some s := by
      unfold upTo
      rw [latest_eq_some_iff (hdistinct.sublist (List.filter_sublist.map _))]
      refine ⟨by simp [hmem, hhi], ?_⟩
      intro r hr
      simp only [List.mem_filter, decide_eq_true_eq] at hr
      by_cases hrlo : q.bucketTime i - q.lookback * USECS_PER_MS ≤ r.1
      · exact hmax r hr.1 hrlo hr.2
      · omega
    rw [hlatest]
    by_cases hstale : ToBits.toBits s.2 = STALE_NAN
    · simp [visible, hstale]
    · simp [visible, hstale, hlo]
  · intro hnone
    cases hL : q.upTo samples i with
    | none => rfl
    | some s =>
      have hs := (latest_spec hL).1
      simp only [List.mem_filter, decide_eq_true_eq] at hs
      have hold : ¬ s.1 ≥ q.bucketTime i - q.lookback * USECS_PER_MS :=
        fun h => hnone s hs.1 ⟨h, hs.2⟩
      simp [visible, hold]

end RangeQuery

/-- Folding `insert` over `new` and reading `results` answers the range query: one
entry for each bucket time, the most recent sample of its lookback window unless
there is none or it is the stale marker. -/
theorem vectorSelector_answers_rangeQuery [ToBits F] (q : RangeQuery) (samples : List (Int × F))
    (hdistinct : (samples.map Prod.fst).Nodup) (haccepts : ∀ s ∈ samples, q.Accepts s.1) :
    ∃ vs, (VectorSelector.new q.startTime q.endTime q.bucketWidth q.lookback).insertAll samples =
        .ok vs ∧
      (vs.results.length : Int) =
        (q.endTime - q.startTime) / (q.bucketWidth * USECS_PER_MS) + 1 ∧
      ∀ (i : Nat) (hi : i < vs.results.length),
        let t := q.startTime + i * (q.bucketWidth * USECS_PER_MS)
        let lo := t - q.lookback * USECS_PER_MS
        (∀ s, IsMostRecent samples lo t s →
          vs.results[i] = if ToBits.toBits s.2 = STALE_NAN then none else some s.2) ∧
        ((∀ s ∈ samples, ¬ (lo ≤ s.1 ∧ s.1 ≤ t)) → vs.results[i] = none) := by
  have hrun := q.insertAll_ofSamples [] samples haccepts
  rw [← q.selector_eq_ofSamples, List.nil_append] at hrun
  refine ⟨q.ofSamples samples, hrun, ?_, ?_⟩
  · rw [q.results_ofSamples, List.length_map, List.length_range]
    exact q.numBuckets_cast
  · intro i hi t lo
    have hentry : (q.ofSamples samples).results[i] =
        q.visible (q.bucketTime i) (q.upTo samples i) := by
      simp [q.results_ofSamples]
    rw [hentry]
    exact q.visible_upTo samples hdistinct i

/-- Three bucket times one second apart, looking back a second and a half. -/
def threeSeconds : RangeQuery where
  startTime := 0
  endTime := 2500000
  bucketWidth := 1000
  lookback := 1500
  start_le_end := by decide
  bucketWidth_pos := by decide
  lookback_nonneg := by decide
  startTime_i64 := isI64_zero
  endTime_i64 := by decide
  bucketWidth_i64 := by decide
  lookback_i64 := by decide

/-- An unordered run with a stale marker between the first and the second bucket time. -/
def threeSecondsSamples : List (Int × UInt64) :=
  [(1200000, 7), (-300000, 5), (400000, STALE_NAN)]

theorem vectorSelector_answers_threeSeconds :
    ∃ vs, (VectorSelector.new threeSeconds.startTime threeSeconds.endTime threeSeconds.bucketWidth
        threeSeconds.lookback).insertAll threeSecondsSamples = .ok vs ∧
      (vs.results.length : Int) = (threeSeconds.endTime - threeSeconds.startTime) /
        (threeSeconds.bucketWidth * USECS_PER_MS) + 1 ∧
      ∀ (i : Nat) (hi : i < vs.results.length),
        let t := threeSeconds.startTime + i * (threeSeconds.bucketWidth * USECS_PER_MS)
        let lo := t - threeSeconds.lookback * USECS_PER_MS
        (∀ s, IsMostRecent threeSecondsSamples lo t s →
          vs.results[i] = if ToBits.toBits s.2 = STALE_NAN then none else some s.2) ∧
        ((∀ s ∈ threeSecondsSamples, ¬ (lo ≤ s.1 ∧ s.1 ≤ t)) → vs.results[i] = none) :=
  vectorSelector_answers_rangeQuery threeSeconds threeSecondsSamples (by decide) (by decide)

example : ((VectorSelector.new 0 2500000 1000 1500).insertAll threeSecondsSamples).map
    VectorSelector.results = .ok [some 5, none, some 7] := by decide

end Promscale.Aggregates
