import Promscale.Aggregates.RangeQuery
import Promscale.Aggregates.SelectorCodec

/-!
# Parallel plans of the vector selector

A parallel plan spreads the samples over partial aggregates, serialises partial
states between processes and merges them pairwise in some shape. Each partial
state is the abstract selector of the samples below it, so the shape is
immaterial; what a plan can run into is the size limit of a serialised state.
-/
namespace Promscale.Aggregates

open Promscale.Lib Promscale.TypeBuilder

variable {F : Type}

/-- One partial aggregate: the transition function over its samples, in order. -/
def runTransitions (q : RangeQuery) (state : Option (VectorSelector F)) :
    List (Int × F) → Except Raise (Option (VectorSelector F))
  | [] => .ok state
  | (time, value) :: rest =>
    match vectorSelectorTransition state q.startTime q.endTime q.bucketWidth q.lookback
        time value with
    | .error e => .error e
    | .ok next => runTransitions q next rest

/-- `vector_selector_serialize` then `vector_selector_deserialize`; both are strict,
so NULL stays NULL. -/
def sendState (codec : Bincode (VectorSelector F)) :
    Option (VectorSelector F) → Except Raise (Option (VectorSelector F))
  | none => .ok none
  | some vs =>
    match doSerialize codec vs with
    | .error e => .error e
    | .ok bytes => (doDeserialize codec bytes).map some

/-- The shapes a plan can give the evaluation of one aggregate. -/
inductive Plan (F : Type) where
  /-- A partial aggregate over its own samples, from the NULL state. -/
  | part (samples : List (Int × F))
  /-- `vector_selector_combine` of two partial states. -/
  | combine (left right : Plan F)
  /-- A partial state handed to another process. -/
  | send (plan : Plan F)

namespace Plan

/-- All samples of a plan. -/
def samples : Plan F → List (Int × F)
  | part samples => samples
  | combine left right => left.samples ++ right.samples
  | send plan => plan.samples

def eval (q : RangeQuery) (codec : Bincode (VectorSelector F)) :
    Plan F → Except Raise (Option (VectorSelector F))
  | part samples => runTransitions q none samples
  | combine left right =>
    match left.eval q codec with
    | .error e => .error e
    | .ok state1 =>
      match right.eval q codec with
      | .error e => .error e
      | .ok state2 => vectorSelectorCombine state1 state2
  | send plan =>
    match plan.eval q codec with
    | .error e => .error e
    | .ok state => sendState codec state

/-- Every state the plan serialises fits a varlena. -/
def StatesFit (q : RangeQuery) (codec : Bincode (VectorSelector F)) : Plan F → Prop
  | part _ => True
  | combine left right => left.StatesFit q codec ∧ right.StatesFit q codec
  | send plan => plan.StatesFit q codec ∧
      ∀ vs, plan.eval q codec = .ok (some vs) → allocatedSize codec vs ≤ maxVarlena

end Plan

namespace RangeQuery

/-- The state after `samples`; NULL until the first one arrives. -/
def stateOf (q : RangeQuery) (samples : List (Int × F)) : Option (VectorSelector F) :=
  if samples.isEmpty then none else some (q.ofSamples samples)

theorem stateOf_getD (q : RangeQuery) (samples : List (Int × F)) :
    (q.stateOf samples).getD
      (VectorSelector.new q.startTime q.endTime q.bucketWidth q.lookback) =
      q.ofSamples samples := by
  cases samples with
  | nil => exact q.selector_eq_ofSamples
  | cons s rest => rfl

theorem runTransitions_stateOf (q : RangeQuery) (samples more : List (Int × F))
    (h : ∀ s ∈ more, q.Accepts s.1) :
    runTransitions q (q.stateOf samples) more = .ok (q.stateOf (samples ++ more)) := by
  induction more generalizing samples with
  | nil => simp [runTransitions]
  | cons s rest ih =>
    have hins := q.insert_ofSamples samples s.2 (h s (by simp))
    have hnext : vectorSelectorTransition (q.stateOf samples) q.startTime q.endTime
        q.bucketWidth q.lookback s.1 s.2 = .ok (q.stateOf (samples ++ [s])) := by
      simp only [vectorSelectorTransition, stateOf_getD, hins]
      simp [stateOf, Except.map]
    have hrest := ih (samples ++ [s]) (fun r hr => h r (by simp [hr]))
    simp only [runTransitions, hnext, hrest, List.append_assoc, List.cons_append, List.nil_append]

theorem combineBucket_eq_later (a b : Option (Int × F)) :
    VectorSelector.combineBucket a b = later a b := by
  cases a <;> cases b <;> rfl

/-- `combine` of two selectors of one query is the selector of both lists of samples. -/
theorem combine_ofSamples (q : RangeQuery) (l₁ l₂ : List (Int × F)) :
    (q.ofSamples l₁).combine (q.ofSamples l₂) = .ok (q.ofSamples (l₁ ++ l₂)) := by
  have hcells : List.zipWith VectorSelector.combineBucket (q.ofSamples l₁).elements
      (q.ofSamples l₂).elements = (q.ofSamples (l₁ ++ l₂)).elements := by
    simp only [ofSamples, List.zipWith_map, List.zipWith_self]
    apply List.map_congr_left
    intro j _
    rw [combineBucket_eq_later, cell, cell, cell, List.filter_append, latest_append]
  unfold VectorSelector.combine
  rw [if_neg (by simp [ofSamples]), hcells]
  rfl

theorem vectorSelectorCombine_stateOf (q : RangeQuery) (l₁ l₂ : List (Int × F)) :
    vectorSelectorCombine (q.stateOf l₁) (q.stateOf l₂) = .ok (q.stateOf (l₁ ++ l₂)) := by
  rcases l₁ with _ | ⟨s₁, l₁⟩ <;> rcases l₂ with _ | ⟨s₂, l₂⟩
  · rfl
  · rfl
  · simp [stateOf, vectorSelectorCombine]
  · have h := q.combine_ofSamples (s₁ :: l₁) (s₂ :: l₂)
    simp [stateOf, vectorSelectorCombine, h, Except.map]

/-- The state of accepted `i64` samples is made of `i64` numbers. -/
theorem ofSamples_allI64 (q : RangeQuery) (samples : List (Int × F))
    (hi64 : ∀ s ∈ samples, IsI64 s.1) : (q.ofSamples samples).AllI64 := by
  have hlast : IsI64 (q.bucketTime (q.numBuckets - 1)) := by
    have hstart := q.bucketTime_mono (Nat.zero_le (q.numBuckets - 1))
    have hend := q.bucketTime_last
    have hmod := Int.emod_nonneg (q.endTime - q.startTime) q.width_pos.ne'
    have hzero : q.bucketTime 0 = q.startTime := by simp [bucketTime]
    exact ⟨by have := q.startTime_i64.1; omega, by have := q.endTime_i64.2; omega⟩
  refine ⟨q.startTime_i64, hlast, q.endTime_i64, q.bucketWidth_i64, q.lookback_i64, ?_⟩
  intro s hs
  simp only [ofSamples, List.mem_map, List.mem_range] at hs
  obtain ⟨j, _, hj⟩ := hs
  exact hi64 s (List.mem_of_mem_filter (latest_spec hj).1)

theorem ofSamples_length (q : RangeQuery) (samples : List (Int × F)) :
    (q.ofSamples samples).elements.length < 2 ^ 64 := by
  have := q.numBuckets_lt
  simp only [ofSamples, List.length_map, List.length_range]
  omega

/-- On distinct times the abstract selector does not depend on the order. -/
theorem ofSamples_perm (q : RangeQuery) {l₁ l₂ : List (Int × F)} (hperm : l₁.Perm l₂)
    (hdistinct : (l₁.map Prod.fst).Nodup) : q.ofSamples l₁ = q.ofSamples l₂ := by
  simp only [ofSamples, VectorSelector.mk.injEq, true_and]
  apply List.map_congr_left
  intro j _
  exact latest_perm (hperm.filter _) (hdistinct.sublist (List.filter_sublist.map _))

theorem stateOf_perm (q : RangeQuery) {l₁ l₂ : List (Int × F)} (hperm : l₁.Perm l₂)
    (hdistinct : (l₁.map Prod.fst).Nodup) : q.stateOf l₁ = q.stateOf l₂ := by
  unfold stateOf
  rw [q.ofSamples_perm hperm hdistinct]
  congr 1
  simp [hperm.isEmpty_eq]

end RangeQuery

namespace Plan

/-- A plan evaluates to the selector of its samples, whatever its shape, or stops at
the first state that does not fit a varlena. -/
theorem eval_stateOf (q : RangeQuery) (codec : Bincode (VectorSelector F))
    (hcodec : RoundTrips codec) (plan : Plan F)
    (haccepts : ∀ s ∈ plan.samples, q.Accepts s.1) (hi64 : ∀ s ∈ plan.samples, IsI64 s.1) :
    (plan.StatesFit q codec → plan.eval q codec = .ok (q.stateOf plan.samples)) ∧
    (¬ plan.StatesFit q codec → ∃ size, maxVarlena < size ∧
      plan.eval q codec = .error (tooLarge size)) := by
  induction plan with
  | part samples =>
    have h := q.runTransitions_stateOf [] samples haccepts
    exact ⟨fun _ => h, fun hn => absurd trivial hn⟩
  | combine left right ihl ihr =>
    have hl := ihl (fun s hs => haccepts s (by simp [samples, hs]))
      (fun s hs => hi64 s (by simp [samples, hs]))
    have hr := ihr (fun s hs => haccepts s (by simp [samples, hs]))
      (fun s hs => hi64 s (by simp [samples, hs]))
    by_cases hfl : left.StatesFit q codec
    · by_cases hfr : right.StatesFit q codec
      · refine ⟨fun _ => ?_, fun hn => absurd ⟨hfl, hfr⟩ hn⟩
        simp only [eval, hl.1 hfl, hr.1 hfr]
        exact q.vectorSelectorCombine_stateOf _ _
      · obtain ⟨size, hsize, hval⟩ := hr.2 hfr
        refine ⟨fun h => absurd h.2 hfr, fun _ => ⟨size, hsize, ?_⟩⟩
        simp only [eval, hl.1 hfl, hval]
    · obtain ⟨size, hsize, hval⟩ := hl.2 hfl
      refine ⟨fun h => absurd h.1 hfl, fun _ => ⟨size, hsize, ?_⟩⟩
      simp only [eval, hval]
  | send plan ih =>
    obtain ⟨hfit, hunfit⟩ := ih haccepts hi64
    by_cases hf : plan.StatesFit q codec
    · have hval := hfit hf
      cases hstate : q.stateOf plan.samples with
      | none =>
        refine ⟨fun _ => ?_, fun hn => absurd ⟨hf, ?_⟩ hn⟩
        · simp only [eval, hval, samples, hstate, sendState]
        · intro vs hvs
          rw [hval, hstate] at hvs
          cases hvs
      | some vs =>
        have hvs : vs = q.ofSamples plan.samples := by
          unfold RangeQuery.stateOf at hstate
          split at hstate
          · cases hstate
          · exact (Option.some.inj hstate).symm
        have hround := hcodec vs (hvs ▸ q.ofSamples_allI64 plan.samples hi64)
          (hvs ▸ q.ofSamples_length plan.samples)
        by_cases hsize : allocatedSize codec vs ≤ maxVarlena
        · obtain ⟨bytes, hs, hd⟩ := doDeserialize_doSerialize codec vs hround hsize
          refine ⟨fun _ => ?_, fun hn => absurd ⟨hf, ?_⟩ hn⟩
          · simp only [eval, hval, samples, hstate, sendState, hs, hd, Except.map]
          · intro vs' hvs'
            rw [hval, hstate] at hvs'
            cases hvs'
            exact hsize
        · refine ⟨fun h => absurd (h.2 vs (by rw [hval, hstate])) hsize, fun _ => ?_⟩
          refine ⟨allocatedSize codec vs, Nat.lt_of_not_le hsize, ?_⟩
          simp only [eval, hval, hstate, sendState,
            doSerialize_tooLarge codec vs (Nat.lt_of_not_le hsize)]
    · obtain ⟨size, hsize, hval⟩ := hunfit hf
      refine ⟨fun h => absurd h.1 hf, fun _ => ⟨size, hsize, ?_⟩⟩
      simp only [eval, hval]

end Plan

/-- Every plan whose serialised states fit a varlena returns what inserting its samples
one after the other into one state does, in any order; any other plan raises the size
error. No plan raises the error about incompatible selectors. -/
theorem plan_agrees_with_sequential [ToBits F] (q : RangeQuery)
    (codec : Bincode (VectorSelector F)) (hcodec : RoundTrips codec) (plan : Plan F)
    (hdistinct : (plan.samples.map Prod.fst).Nodup)
    (haccepts : ∀ s ∈ plan.samples, q.Accepts s.1) (hi64 : ∀ s ∈ plan.samples, IsI64 s.1) :
    (plan.StatesFit q codec → ∀ sequence, sequence.Perm plan.samples →
      ∃ state one, plan.eval q codec = .ok state ∧ runTransitions q none sequence = .ok one ∧
        vectorSelectorFinal state = vectorSelectorFinal one) ∧
    (¬ plan.StatesFit q codec → ∃ size, maxVarlena < size ∧
      plan.eval q codec = .error (tooLarge size)) := by
  obtain ⟨hfit, hunfit⟩ := plan.eval_stateOf q codec hcodec haccepts hi64
  refine ⟨?_, hunfit⟩
  intro hf sequence hperm
  have hseq := q.runTransitions_stateOf [] sequence (fun s hs => haccepts s (hperm.mem_iff.mp hs))
  refine ⟨_, _, hfit hf, hseq, ?_⟩
  rw [List.nil_append, q.stateOf_perm hperm.symm hdistinct]

theorem plan_agrees_with_sequential_threeSeconds :
    let plan := Plan.combine (.send (.part [(1200000, 7), (-300000, 5)]))
      (.combine (.part []) (.send (.part [(400000, STALE_NAN)])))
    (plan.StatesFit threeSeconds selectorCodec → ∀ sequence, sequence.Perm plan.samples →
      ∃ state one, plan.eval threeSeconds selectorCodec = .ok state ∧
        runTransitions threeSeconds none sequence = .ok one ∧
        vectorSelectorFinal state = vectorSelectorFinal one) ∧
    (¬ plan.StatesFit threeSeconds selectorCodec → ∃ size, maxVarlena < size ∧
      plan.eval threeSeconds selectorCodec = .error (tooLarge size)) :=
  plan_agrees_with_sequential threeSeconds selectorCodec selectorCodec_roundTrips _
    (by decide) (by decide) (by decide)

/-- One bucket a millisecond and a sample at every bucket time. -/
def everyMillisecond (n : Nat) (hn : n ≤ 2 ^ 40) : RangeQuery where
  startTime := 0
  endTime := n * 1000
  bucketWidth := 1
  lookback := 0
  start_le_end := by omega
  bucketWidth_pos := by decide
  lookback_nonneg := by decide
  startTime_i64 := isI64_zero
  endTime_i64 := by unfold IsI64; omega
  bucketWidth_i64 := by decide
  lookback_i64 := isI64_zero

def everyMillisecondSamples (n : Nat) : List (Int × UInt64) :=
  (List.range (n + 1)).map fun (i : Nat) => ((i : Int) * 1000, 0)

/-- No bucket of the dense query stays empty, so its state takes seventeen octets
for each of them. -/
theorem everyMillisecond_size (n : Nat) (hn : n ≤ 2 ^ 40) :
    allocatedSize selectorCodec
      ((everyMillisecond n hn).ofSamples (everyMillisecondSamples n)) = 54 + 17 * (n + 1) := by
  have hbuckets : (everyMillisecond n hn).numBuckets = n + 1 := by
    simp [RangeQuery.numBuckets, RangeQuery.width, everyMillisecond, USECS_PER_MS]
  have hfull : ∀ j, j < n + 1 →
      ((everyMillisecond n hn).cell (everyMillisecondSamples n) j).isSome = true := by
    intro j hj
    rw [Option.isSome_iff_ne_none, Ne, RangeQuery.cell, latest_eq_none_iff,
      List.filter_eq_nil_iff]
    intro h
    have hmem : ((j : Int) * 1000, (0 : UInt64)) ∈ everyMillisecondSamples n := by
      simp only [everyMillisecondSamples, List.mem_map, List.mem_range]
      exact ⟨j, hj, rfl⟩
    have hin : (everyMillisecond n hn).inBucket j ((j : Int) * 1000) = true := by
      rw [RangeQuery.inBucket, decide_eq_true_eq]
      simp only [RangeQuery.bucketTime, RangeQuery.width, everyMillisecond, USECS_PER_MS]
      omega
    exact h _ hmem hin
  have hsum : ((List.range (n + 1)).map fun j => (SelectorCodec.elementBytes
      ((everyMillisecond n hn).cell (everyMillisecondSamples n) j)).length) =
      List.replicate (n + 1) 17 := by
    rw [List.eq_replicate_iff]
    refine ⟨by simp, ?_⟩
    intro b hb
    simp only [List.mem_map, List.mem_range] at hb
    obtain ⟨j, hj, rfl⟩ := hb
    rw [SelectorCodec.elementBytes_length, if_pos (hfull j hj)]
  simp only [allocatedSize, selectorCodec, SelectorCodec.serialize_length, RangeQuery.ofSamples,
    hbuckets, List.map_map]
  rw [show ((fun c => (SelectorCodec.elementBytes c).length) ∘
    (everyMillisecond n hn).cell (everyMillisecondSamples n)) = fun j =>
      (SelectorCodec.elementBytes
        ((everyMillisecond n hn).cell (everyMillisecondSamples n) j)).length from rfl, hsum,
    List.sum_replicate_nat]
  omega

theorem everyMillisecond_accepts (n : Nat) (hn : n ≤ 2 ^ 40) :
    ∀ s ∈ everyMillisecondSamples n, (everyMillisecond n hn).Accepts s.1 ∧ IsI64 s.1 := by
  intro s hs
  simp only [everyMillisecondSamples, List.mem_map, List.mem_range] at hs
  obtain ⟨i, hi, rfl⟩ := hs
  simp only [RangeQuery.Accepts, everyMillisecond, USECS_PER_MS, IsI64]
  omega

theorem everyMillisecond_distinct (n : Nat) :
    ((everyMillisecondSamples n).map Prod.fst).Nodup := by
  simp only [everyMillisecondSamples, List.map_map]
  apply List.Nodup.map _ List.nodup_range
  intro i j hij
  simp only [Function.comp_apply] at hij
  omega

theorem everyMillisecond_send (n : Nat) (hn : n ≤ 2 ^ 40) (hsize : maxVarlena < 54 + 17 * (n + 1)) :
    (∃ one, runTransitions (everyMillisecond n hn) none (everyMillisecondSamples n) = .ok one) ∧
    (Plan.send (.part (everyMillisecondSamples n))).eval (everyMillisecond n hn) selectorCodec =
      .error (tooLarge (54 + 17 * (n + 1))) := by
  have hrun := (everyMillisecond n hn).runTransitions_stateOf [] (everyMillisecondSamples n)
    (fun s hs => (everyMillisecond_accepts n hn s hs).1)
  have hstate : (everyMillisecond n hn).stateOf (everyMillisecondSamples n) =
      some ((everyMillisecond n hn).ofSamples (everyMillisecondSamples n)) := by
    simp [RangeQuery.stateOf, everyMillisecondSamples]
  refine ⟨⟨_, hrun⟩, ?_⟩
  have htoo := doSerialize_tooLarge selectorCodec
    ((everyMillisecond n hn).ofSamples (everyMillisecondSamples n))
    (by rw [everyMillisecond_size]; exact hsize)
  rw [List.nil_append, hstate] at hrun
  have hrun' : runTransitions (everyMillisecond n hn) none (everyMillisecondSamples n) =
      .ok (some ((everyMillisecond n hn).ofSamples (everyMillisecondSamples n))) := hrun
  simp only [Plan.eval, hrun', sendState, htoo, everyMillisecond_size]

/-- Sixty-four mebi-samples, one for each millisecond: sequentially they aggregate,
but the partial state that holds them cannot be sent to another process. -/
theorem send_of_dense_state_raises :
    ∃ (q : RangeQuery) (samples : List (Int × UInt64)),
      (samples.map Prod.fst).Nodup ∧ (∀ s ∈ samples, q.Accepts s.1 ∧ IsI64 s.1) ∧
      (∃ one, runTransitions q none samples = .ok one) ∧
      (Plan.send (.part samples)).eval q selectorCodec = .error (tooLarge 1140850742) :=
  ⟨everyMillisecond 67108863 (by decide), everyMillisecondSamples 67108863,
    everyMillisecond_distinct _, everyMillisecond_accepts _ _,
    everyMillisecond_send _ _ (by decide)⟩

end Promscale.Aggregates
