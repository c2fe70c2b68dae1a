import Promscale.Aggregates.Arrivals
import Promscale.Lib.Fallible

/-!
# Termination of the loops

Both loops of the sliding window advance it by the step, whose sign nothing checks. A step of
zero divides by zero in `new`, and most negative ones ask for too large a `Vec`; what `new`
accepts of the others moves the window down, away from what the loops wait for.
-/
namespace Promscale.Aggregates

open Promscale.Lib SlidingQuery

variable {F : Type} [F64 F]

namespace GapfillDeltaTransition

theorem flush_currentWindowMax (self : GapfillDeltaTransition F) :
    self.flushCurrentWindow.currentWindowMax = self.currentWindowMax + self.stepSize := rfl

/-- Windows that do not move up never end later. -/
theorem flush_iterate_le {self : GapfillDeltaTransition F} (hstep : self.stepSize ≤ 0) (n : Nat) :
    (flushCurrentWindow^[n] self).currentWindowMax ≤ self.currentWindowMax ∧
      (flushCurrentWindow^[n] self).greatestTime = self.greatestTime := by
  induction n generalizing self with
  | zero => exact ⟨le_refl _, rfl⟩
  | succ n ih =>
    obtain ⟨hmax, htime⟩ := @ih self.flushCurrentWindow hstep
    rw [Function.iterate_succ_apply]
    refine ⟨hmax.trans ?_, htime⟩
    rw [flush_currentWindowMax]
    omega

/-- Such windows never reach a sample after the current one. -/
theorem outsideWindow_forever {self : GapfillDeltaTransition F} (hstep : self.stepSize ≤ 0)
    {time : Int} (h : self.currentWindowMax < time) (fuel : Nat) :
    whileFuel (outsideWindow time) flushCurrentWindow fuel self = none := by
  refine whileFuel_eq_none (fun n => ?_) fuel
  have hmax := (flush_iterate_le hstep n).1
  simp only [outsideWindow, inCurrentWindow, Bool.not_eq_true', decide_eq_false_iff_not]
  omega

/-- Nor do they pass the end of the time range. -/
theorem windowDue_forever {self : GapfillDeltaTransition F} (hstep : self.stepSize ≤ 0)
    (h : self.currentWindowMax ≤ self.greatestTime) (fuel : Nat) : self.asVec fuel = none := by
  have hloop : whileFuel windowDue flushCurrentWindow fuel self = none := by
    refine whileFuel_eq_none (fun n => ?_) fuel
    obtain ⟨hmax, htime⟩ := flush_iterate_le hstep n
    simp only [windowDue, htime, decide_eq_true_eq]
    omega
  rw [asVec, hloop, Option.map_none]

theorem asVec_of_not_due {self : GapfillDeltaTransition F}
    (h : self.greatestTime < self.currentWindowMax) {fuel : Nat} (hfuel : 0 < fuel) :
    self.asVec fuel = some self.deltas := by
  have hstop : self.windowDue = false := by
    simp only [windowDue, decide_eq_false_iff_not]
    omega
  have hloop : whileFuel windowDue flushCurrentWindow fuel self = some self :=
    whileFuel_eq_iterate (fun i hi => absurd hi (Nat.not_lt_zero i)) hstop hfuel
  rw [asVec, hloop, Option.map_some]

/-- A live sample of the current window is refused when the deque ends later, else added. -/
theorem addDataPoint_inside {self : GapfillDeltaTransition F} {s : Int × F}
    (hlive : live s = true) (hmin : self.currentWindowMin ≤ s.1)
    (hmax : s.1 ≤ self.currentWindowMax) {fuel : Nat} (hfuel : 0 < fuel) :
    self.addDataPoint fuel s.1 s.2 =
      if self.window.getLast?.all (fun last => decide (last.1 ≤ s.1)) then
        some (.ok { self with window := self.window ++ [s] })
      else some (.error orderError) := by
  have hstale : ¬ ToBits.toBits s.2 = STALE_NAN := by simpa [live] using hlive
  have hinside : self.outsideWindow s.1 = false := by
    simp [outsideWindow, inCurrentWindow, hmax]
  have hloop : whileFuel (outsideWindow s.1) flushCurrentWindow fuel self = some self :=
    whileFuel_eq_iterate (fun i hi => absurd hi (Nat.not_lt_zero i)) hinside hfuel
  rw [addDataPoint, if_neg hstale, hloop]
  cases hlast : self.window.getLast? with
  | none => simp [hlast, hmin]
  | some last =>
    by_cases hle : last.1 ≤ s.1
    · simp [hlast, hle, hmin]
    · simp [hlast, hle, not_le.mp hle, orderError]

/-- How a run ends that never leaves its first window. -/
inductive Stays (self : GapfillDeltaTransition F) (samples : List (Int × F)) : Prop where
  | refused (disorder : ¬ (self.window ++ (samples.filter live).takeWhile fun s =>
        decide (s.1 ≤ self.currentWindowMax)).Pairwise fun r s => r.1 ≤ s.1)
      (raised : ∀ fuel, 0 < fuel → self.addAll fuel samples = some (.error orderError))
  | added (order : (self.window ++ samples.filter live).Pairwise fun r s => r.1 ≤ s.1)
      (inside : ∀ s ∈ samples, live s = true → s.1 ≤ self.currentWindowMax)
      (added : ∀ fuel, 0 < fuel → self.addAll fuel samples =
        some (.ok { self with window := self.window ++ samples.filter live }))
  | stuck (order : (self.window ++ (samples.filter live).takeWhile fun s =>
        decide (s.1 ≤ self.currentWindowMax)).Pairwise fun r s => r.1 ≤ s.1)
      (beyond : ∃ s ∈ samples, self.currentWindowMax < s.1)
      (stuck : ∀ fuel, self.addAll fuel samples = none)

/-- Without fuel no live sample is added. -/
theorem addAll_zero {self : GapfillDeltaTransition F} {s : Int × F} {rest : List (Int × F)}
    (hlive : live s = true) : self.addAll 0 (s :: rest) = none := by
  have hstale : ¬ ToBits.toBits s.2 = STALE_NAN := by simpa [live] using hlive
  rw [addAll, addDataPoint, if_neg hstale, whileFuel]

/-- Run lemma: without a window above the current one. -/
theorem addAll_stays {self : GapfillDeltaTransition F} {samples : List (Int × F)}
    (hstep : self.stepSize ≤ 0) (hmin : ∀ s ∈ samples, self.currentWindowMin ≤ s.1)
    (horder : self.window.Pairwise fun r s => r.1 ≤ s.1) : self.Stays samples := by
  induction samples generalizing self with
  | nil =>
    refine .added (by simpa using horder) (by simp) fun fuel _ => ?_
    simp [addAll]
  | cons s rest ih =>
    obtain ⟨hs, hrest⟩ := List.forall_mem_cons.mp hmin
    cases hlive : live s with
    | false =>
      have hadd : ∀ fuel, self.addAll fuel (s :: rest) = self.addAll fuel rest := fun fuel => by
        rw [addAll, addDataPoint_stale hlive]
      have hfilter : (s :: rest).filter live = rest.filter live := by simp [hlive]
      cases ih hstep hrest horder with
      | refused disorder raised =>
        exact .refused (by rwa [hfilter]) fun fuel hfuel => (hadd fuel).trans (raised fuel hfuel)
      | added order inside added =>
        refine .added (by rwa [hfilter]) (List.forall_mem_cons.mpr ⟨?_, inside⟩) fun fuel hfuel => ?_
        · intro h
          cases hlive.symm.trans h
        · rw [hadd, hfilter, added fuel hfuel]
      | stuck order beyond stuck =>
        obtain ⟨r, hr, hlt⟩ := beyond
        exact .stuck (by rwa [hfilter]) ⟨r, List.mem_cons_of_mem _ hr, hlt⟩
          fun fuel => (hadd fuel).trans (stuck fuel)
    | true =>
      have hfilter : (s :: rest).filter live = s :: rest.filter live := by simp [hlive]
      by_cases hmax : s.1 ≤ self.currentWindowMax
      · have htake : ((s :: rest).filter live).takeWhile (fun r => decide
            (r.1 ≤ self.currentWindowMax)) = s :: (rest.filter live).takeWhile fun r => decide
            (r.1 ≤ self.currentWindowMax) := by
          rw [hfilter]
          exact List.takeWhile_cons_of_pos (decide_eq_true hmax)
        by_cases hlast : ∀ last, self.window.getLast? = some last → last.1 ≤ s.1
        · have hnext := sorted_concat horder hlast
          have hadd : ∀ fuel, 0 < fuel → self.addAll fuel (s :: rest) =
              ({ self with window := self.window ++ [s] } : GapfillDeltaTransition F).addAll
                fuel rest := fun fuel hfuel => by
            have hall : self.window.getLast?.all (fun last => decide (last.1 ≤ s.1)) = true := by
              cases h : self.window.getLast? with
              | none => rfl
              | some last => exact decide_eq_true (hlast last h)
            rw [addAll, addDataPoint_inside hlive hs hmax hfuel, if_pos hall]
          have hassoc : ∀ l, self.window ++ [s] ++ l = self.window ++ s :: l := by simp
          have hih := @ih { self with window := self.window ++ [s] } hstep hrest hnext
          cases hih with
          | refused disorder raised =>
            refine .refused ?_ fun fuel hfuel => (hadd fuel hfuel).trans (raised fuel hfuel)
            rwa [htake, ← hassoc]
          | added order inside added =>
            refine .added ?_ (List.forall_mem_cons.mpr ⟨fun _ => hmax, inside⟩)
              fun fuel hfuel => ?_
            · rwa [hfilter, ← hassoc]
            · rw [hadd fuel hfuel, added fuel hfuel, hfilter, hassoc]
          | stuck order beyond stuck =>
            obtain ⟨r, hr, hlt⟩ := beyond
            refine .stuck ?_ ⟨r, List.mem_cons_of_mem _ hr, hlt⟩ fun fuel => ?_
            · rwa [htake, ← hassoc]
            · cases fuel with
              | zero => exact addAll_zero hlive
              | succ fuel => exact (hadd _ (Nat.succ_pos fuel)).trans (stuck _)
        · simp only [not_forall, not_le] at hlast
          obtain ⟨last, hsome, hlt⟩ := hlast
          refine .refused ?_ fun fuel hfuel => ?_
          · rw [htake]
            intro hpairwise
            exact absurd ((List.pairwise_append.mp hpairwise).2.2 last
              (List.mem_of_getLast? hsome) s (by simp)) (not_le.mpr hlt)
          · have hany : ¬ self.window.getLast?.all (fun last => decide (last.1 ≤ s.1)) = true := by
              simp [hsome, hlt]
            rw [addAll, addDataPoint_inside hlive hs hmax hfuel, if_neg hany]
      · refine .stuck ?_ ⟨s, by simp, not_le.mp hmax⟩ fun fuel => ?_
        · rw [hfilter, List.takeWhile_cons_of_neg (by simpa using hmax), List.append_nil]
          exact horder
        · have hstale : ¬ ToBits.toBits s.2 = STALE_NAN := by simpa [live] using hlive
          rw [addAll, addDataPoint, if_neg hstale, outsideWindow_forever hstep (not_le.mp hmax)]

end GapfillDeltaTransition

namespace PromFunction

/-- The live samples before the first one that lies beyond the first window. -/
def firstWindow (a : PromArgs) (samples : List (Int × F)) : List (Int × F) :=
  (samples.filter live).takeWhile fun s =>
    decide (s.1 ≤ a.lowestTime + a.range * USECS_PER_MS)

/-- The state that `new` returns. -/
def fresh (f : PromFunction) (a : PromArgs) : GapfillDeltaTransition F where
  window := []
  deltas := []
  currentWindowMax := a.lowestTime + a.range * USECS_PER_MS
  currentWindowMin := a.lowestTime
  stepSize := a.stepSize * USECS_PER_MS
  range := a.range * USECS_PER_MS
  greatestTime := a.greatestTime
  isCounter := f.isCounter
  isRate := f.isRate

omit [F64 F] in
theorem of_start {f : PromFunction} {a : PromArgs} {state : GapfillDeltaTransition F}
    (h : f.start a = .ok state) : a.stepSize ≠ 0 ∧ state = f.fresh a := by
  obtain ⟨hstep, h⟩ := of_guard_ok h
  obtain ⟨-, h⟩ := of_guard_ok h
  refine ⟨fun hzero => hstep (by rw [hzero]; rfl), ?_⟩
  cases h
  rfl

omit [F64 F] in
/-- Whether `new` returns depends on the arguments only. -/
theorem start_ok {f : PromFunction} {a : PromArgs} {state : GapfillDeltaTransition F}
    (h : f.start a = .ok state) (f' : PromFunction) :
    f'.start a = .ok (f'.fresh a : GapfillDeltaTransition F) := by
  unfold start GapfillDeltaTransition.new at h ⊢
  obtain ⟨hstep, h⟩ := of_guard_ok h
  obtain ⟨hcapacity, -⟩ := of_guard_ok h
  rw [if_neg hstep]
  exact if_neg hcapacity

/-- How an aggregate ends that does not move its windows up. -/
inductive Stays (f : PromFunction) (a : PromArgs) (samples : List (Int × F)) : Prop where
  | refused (disorder : ¬ (firstWindow a samples).Pairwise fun r s => r.1 ≤ s.1)
      (raised : Yields (f.aggregate a samples) (.error orderError))
  | returned (order : (firstWindow a samples).Pairwise fun r s => r.1 ≤ s.1)
      (short : a.greatestTime < a.lowestTime + a.range * USECS_PER_MS)
      (returned : Yields (f.aggregate a samples) (.ok (some [])))
  | stuck (order : (firstWindow a samples).Pairwise fun r s => r.1 ≤ s.1)
      (long : a.lowestTime + a.range * USECS_PER_MS ≤ a.greatestTime)
      (stuck : ¬ Halts (f.aggregate a samples))

theorem aggregate_stays {f : PromFunction} {a : PromArgs} (hstep : ¬ 0 < a.stepSize)
    {start : GapfillDeltaTransition F} (hstart : f.start a = .ok start)
    {samples : List (Int × F)} (hrange : InRange a samples) (hne : samples ≠ []) :
    f.Stays a samples := by
  have heq := aggregate_of_ne_nil hrange hne hstart
  obtain ⟨-, rfl⟩ := of_start hstart
  have hdown : a.stepSize * USECS_PER_MS ≤ 0 := by
    unfold USECS_PER_MS
    omega
  cases @GapfillDeltaTransition.addAll_stays F _ (f.fresh a) samples hdown
      (fun s hs => (hrange s hs).1) List.Pairwise.nil with
  | refused disorder raised =>
    refine .refused disorder ⟨0, fun fuel hfuel => ?_⟩
    rw [heq, raised fuel hfuel]
  | added order inside added =>
    have horder : (firstWindow a samples).Pairwise fun r s => r.1 ≤ s.1 :=
      order.sublist (List.takeWhile_sublist _)
    by_cases hshort : a.greatestTime < a.lowestTime + a.range * USECS_PER_MS
    · refine .returned horder hshort ⟨0, fun fuel hfuel => ?_⟩
      rw [heq, added fuel hfuel]
      exact congrArg (Option.map _) (GapfillDeltaTransition.asVec_of_not_due hshort hfuel)
    · refine .stuck horder (not_lt.mp hshort) ?_
      rintro ⟨r, n, hn⟩
      have hsome := hn (n + 1) (Nat.lt_succ_self n)
      rw [heq, added _ (Nat.succ_pos n)] at hsome
      have hnone := @GapfillDeltaTransition.windowDue_forever F _
        { f.fresh a with window := (f.fresh a).window ++ samples.filter live } hdown
        (not_lt.mp hshort) (n + 1)
      simp only [hnone, Option.map_none, reduceCtorEq] at hsome
  | stuck order beyond stuck =>
    obtain ⟨s, hs, hlt⟩ := beyond
    refine .stuck order (hlt.le.trans (hrange s hs).2) (not_halts_of_none fun fuel => ?_)
    rw [heq, stuck fuel]

/-- An aggregate that starts comes to an end if and only if its windows move up, the time range
ends before the first window does, there are no samples, or the order of the samples is refused
before one lies beyond the first window. -/
theorem halts_iff (f : PromFunction) (a : PromArgs) (hle : a.lowestTime ≤ a.greatestTime)
    {start : GapfillDeltaTransition F} (hstart : f.start a = .ok start)
    (samples : List (Int × F)) (hrange : InRange a samples) :
    Halts (f.aggregate a samples) ↔
      0 < a.stepSize ∨ a.greatestTime < a.lowestTime + a.range * USECS_PER_MS ∨ samples = [] ∨
        ¬ (firstWindow a samples).Pairwise fun r s => r.1 ≤ s.1 := by
  by_cases hne : samples = []
  · subst hne
    exact iff_of_true ⟨_, Yields.const _⟩ (.inr (.inr (.inl rfl)))
  by_cases hstep : 0 < a.stepSize
  · refine iff_of_true ?_ (.inl hstep)
    cases f.aggregate_ended a hstep hrange hne hle with
    | detected late raised => exact ⟨_, raised⟩
    | returned count notLate due returned => exact ⟨_, returned⟩
  · cases aggregate_stays hstep hstart hrange hne with
    | refused disorder raised => exact iff_of_true ⟨_, raised⟩ (.inr (.inr (.inr disorder)))
    | returned order short returned => exact iff_of_true ⟨_, returned⟩ (.inr (.inl short))
    | stuck order long stuck =>
      refine iff_of_false stuck ?_
      rintro (h | h | h | h)
      · exact hstep h
      · omega
      · exact hne h
      · exact h order

end PromFunction

/-- A window of one millisecond, to be followed by one two milliseconds before it. -/
def backwards : PromArgs where
  lowestTime := 0
  greatestTime := 1200
  stepSize := -2
  range := 1
  lowestTime_i64 := isI64_zero
  greatestTime_i64 := by decide

theorem start_backwards (f : PromFunction) :
    f.start backwards = .ok (f.fresh backwards : GapfillDeltaTransition Exact) := by
  unfold PromFunction.start GapfillDeltaTransition.new
  rfl

theorem halts_iff_refused : Halts (PromFunction.increase.aggregate backwards
    [((500, .value 1) : Int × Exact), (0, .value 2)]) := by
  refine (PromFunction.halts_iff .increase backwards (by decide)
    (start_backwards .increase) _ ?_).mpr
      (.inr (.inr (.inr (by decide))))
  unfold PromFunction.InRange
  decide

/-- The windows move away from the end of the time range. -/
theorem halts_fails_backwards :
    PromFunction.increase.start backwards = .ok (PromFunction.increase.fresh backwards :
        GapfillDeltaTransition Exact) ∧
      PromFunction.InRange backwards [((500, .value 1) : Int × Exact)] ∧
      ¬ Halts (PromFunction.increase.aggregate backwards [((500, .value 1) : Int × Exact)]) := by
  have hrange : PromFunction.InRange backwards [((500, .value 1) : Int × Exact)] := by
    unfold PromFunction.InRange
    decide
  refine ⟨start_backwards _, hrange, ?_⟩
  cases PromFunction.aggregate_stays (by decide) (start_backwards _) hrange (by simp) with
  | refused disorder raised => exact absurd (by decide) disorder
  | returned order short returned => exact absurd short (by decide)
  | stuck order long stuck => exact stuck

end Promscale.Aggregates
