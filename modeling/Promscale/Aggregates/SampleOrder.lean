import Mathlib.Data.List.Sort
import Promscale.Aggregates.Arrivals

/-!
# The order of the samples

The aggregates are to be called with their rows in the order of time, and the transition
function refuses a sample that is earlier than the last one in the deque. The deque forgets the
latest sample when that lies between two windows: a late sample is then neither refused nor
added.
-/
namespace Promscale.Aggregates

open Promscale.Lib SlidingQuery

variable {F : Type}

/-- The samples in the order of time, samples of one time as they arrive. -/
def sortByTime (samples : List (Int × F)) : List (Int × F) :=
  samples.insertionSort fun r s => r.1 ≤ s.1

theorem sortByTime_sorted (samples : List (Int × F)) :
    (sortByTime samples).Pairwise fun r s => r.1 ≤ s.1 := by
  have : Std.Total fun r s : Int × F => r.1 ≤ s.1 := ⟨fun r s => le_total r.1 s.1⟩
  have : IsTrans (Int × F) fun r s => r.1 ≤ s.1 := ⟨fun _ _ _ => le_trans⟩
  exact List.pairwise_insertionSort _ samples

theorem perm_sortByTime (samples : List (Int × F)) : (sortByTime samples).Perm samples :=
  List.perm_insertionSort _ samples

/-- Sorting does not reorder what is in order. -/
theorem filter_sortByTime {samples : List (Int × F)} {p : Int × F → Bool}
    (h : (samples.filter p).Pairwise fun r s => r.1 ≤ s.1) :
    (sortByTime samples).filter p = samples.filter p := by
  have : Std.Total fun r s : Int × F => r.1 ≤ s.1 := ⟨fun r s => le_total r.1 s.1⟩
  have : IsTrans (Int × F) fun r s => r.1 ≤ s.1 := ⟨fun _ _ _ => le_trans⟩
  have hsublist : (samples.filter p).Sublist ((sortByTime samples).filter p) := by
    have hsub := (List.sublist_insertionSort h List.filter_sublist).filter p
    simp only [List.filter_filter, Bool.and_self] at hsub
    exact hsub
  exact (hsublist.eq_of_length ((perm_sortByTime samples).filter p).length_eq.symm).symm

section Late
variable [ToBits F]

theorem not_arrives_of_sorted {samples : List (Int × F)}
    (hsorted : samples.Pairwise fun r s => r.1 ≤ s.1) (p : List (Int × F) → Int × F → Prop) :
    ¬ Arrives (fun seen s => Late seen s ∧ p seen s) samples := by
  rintro ⟨seen, s, rest, rfl, ⟨-, r, hr, -, hlt⟩, -⟩
  exact absurd ((List.pairwise_append.mp hsorted).2.2 r hr s (by simp)) (not_le.mpr hlt)

/-- When no late sample lies in a window, all live samples of a window lead. -/
theorem windowSamples_leading {q : SlidingQuery} {samples : List (Int × F)}
    (h : ¬ LateInWindow q.Covered samples) (k : Nat) :
    q.windowSamples (leading samples) k = q.windowSamples samples k := by
  induction samples using List.reverseRecOn with
  | nil => rfl
  | append_singleton seen s ih =>
    have hleads := leads_leading seen
    have hseen := ih fun hlate => h (arrives_concat.mpr (.inl hlate))
    rw [leading_concat]
    rcases hleads.cases s with hdead | ⟨hlive, hle⟩ | ⟨hlive, last, hlast, hlt⟩
    · rw [lead_of_not_live hdead, hseen]
      simp [windowSamples, hdead]
    · rw [lead_of_le hlive hle]
      simp only [windowSamples, List.filter_append] at hseen ⊢
      rw [hseen]
    · have hout : ¬ (q.windowMin k ≤ s.1 ∧ s.1 ≤ q.windowMax k) := fun hin =>
        h (arrives_concat.mpr (.inr ⟨hleads.late_iff.mpr ⟨hlive, last, hlast, hlt⟩, k, hin⟩))
      rw [lead_of_lt hlast hlt, hseen]
      simp [windowSamples, hout]

/-- Without late samples in the windows sorting changes no window. -/
theorem windowSamples_sortByTime {q : SlidingQuery} {samples : List (Int × F)}
    (h : ¬ LateInWindow q.Covered samples) (k : Nat) :
    q.windowSamples (leading (sortByTime samples)) k = q.windowSamples (leading samples) k := by
  have hsorted : (q.windowSamples samples k).Pairwise fun r s => r.1 ≤ s.1 := by
    rw [← windowSamples_leading h k]
    exact (leads_leading samples).sorted.sublist List.filter_sublist
  rw [windowSamples_leading (not_arrives_of_sorted (sortByTime_sorted samples) _) k,
    windowSamples_leading h k]
  exact filter_sortByTime hsorted

end Late

namespace PromFunction

variable [F64 F]

/-- Every live sample of a window is the last of the deque once it has arrived. -/
def AddsAll (f : PromFunction) (a : PromArgs) (samples : List (Int × F)) : Prop :=
  ∀ seen s rest, samples = seen ++ s :: rest → live s = true → a.Covered s.1 →
    ∃ state, Yields (fun fuel => f.transitions a fuel none (seen ++ [s])) (.ok (some state)) ∧
      state.window.getLast? = some s

/-- The aggregate refuses the order of the samples, or it adds all that lie in a window and
returns what it returns for the sorted samples. -/
def KeepsOrder (f : PromFunction) (a : PromArgs) (samples : List (Int × F)) : Prop :=
  Yields (f.aggregate a samples) (.error orderError) ∨
    f.AddsAll a samples ∧ ∃ result, Yields (f.aggregate a samples) (.ok result) ∧
      Yields (f.aggregate a (sortByTime samples)) (.ok result)

theorem transitions_arrival (f : PromFunction) (a : PromArgs) {seen : List (Int × F)}
    {s : Int × F} (hstep : 0 < a.stepSize) (hrange : InRange a (seen ++ [s]))
    (hdetected : ¬ Detected a.Covered (seen ++ [s])) (hlive : live s = true)
    (hcovered : a.Covered s.1) :
    ∃ state, Yields (fun fuel => f.transitions a fuel none (seen ++ [s])) (.ok (some state)) ∧
      (state.window.getLast? = some s ↔ ¬ Late seen s) := by
  have hne : seen ++ [s] ≠ [] := by simp
  have hle := lowest_le_greatest hrange hne
  obtain ⟨state, hadded, hlast⟩ :=
    (a.query f hle hstep).addAll_arrival hdetected hlive hcovered
  refine ⟨state, hadded.of_eq fun fuel hadded => ?_, hlast⟩
  rw [transitions_none hrange hne (f.start_eq a hle hstep), hadded]

/-- What the aggregate returns for the sorted samples, when no late one lies in a window. -/
theorem aggregate_sortByTime (f : PromFunction) (a : PromArgs) {samples : List (Int × F)}
    (hstep : 0 < a.stepSize) (hrange : InRange a samples) (hne : samples ≠ [])
    (hle : a.lowestTime ≤ a.greatestTime) (hnone : ¬ LateInWindow a.Covered samples) {count : Nat}
    (hdue : ∀ j, j < count ↔ (a.query f hle hstep).windowMax j ≤ a.greatestTime) :
    Yields (f.aggregate a (sortByTime samples)) (.ok (some
      ((List.range count).map ((a.query f hle hstep).delta (leading samples))))) := by
  have hperm := perm_sortByTime samples
  have hsorted : InRange a (sortByTime samples) := fun s hs => hrange s (hperm.mem_iff.mp hs)
  have hne' : sortByTime samples ≠ [] := fun h => hne (hperm.symm.trans (h ▸ .refl _)).eq_nil
  cases f.aggregate_ended a hstep hsorted hne' hle with
  | detected late raised =>
    exact absurd late (not_arrives_of_sorted (sortByTime_sorted samples) _)
  | returned count' notLate due returned =>
    have hcount : count' = count := count_unique due hdue
    have hdelta : (a.query f hle hstep).delta (leading (sortByTime samples)) =
        (a.query f hle hstep).delta (leading samples) := by
      have hsame := @windowSamples_sortByTime F _ (a.query f hle hstep) samples hnone
      funext k
      rw [SlidingQuery.delta, SlidingQuery.delta, hsame k]
    rwa [hcount, hdelta] at returned

/-- An aggregate keeps the order of the samples if and only if a late sample arrives while the
latest one is in a window, or none arrives that lies in a window itself. -/
theorem keepsOrder_iff (f : PromFunction) (a : PromArgs) (hstep : 0 < a.stepSize)
    (samples : List (Int × F)) (hrange : InRange a samples) :
    f.KeepsOrder a samples ↔
      Detected a.Covered samples ∨ ¬ LateInWindow a.Covered samples := by
  by_cases hne : samples = []
  · subst hne
    refine iff_of_true (.inr ⟨?_, none, Yields.const _, Yields.const _⟩) (.inr (not_arrives_nil _))
    rintro seen s rest h
    exact absurd h.symm (by simp)
  have hle := lowest_le_greatest hrange hne
  cases f.aggregate_ended a hstep hrange hne hle with
  | detected late raised => exact iff_of_true (.inl raised) (.inl late)
  | returned count notLate due returned =>
    constructor
    · rintro (raised | ⟨hadds, -⟩)
      · cases raised.unique returned
      · refine .inr ?_
        rintro ⟨seen, s, rest, rfl, hlate, hcovered⟩
        have hassoc : seen ++ s :: rest = seen ++ [s] ++ rest := by simp
        obtain ⟨state, hstate, hlast⟩ := hadds seen s rest rfl hlate.1 hcovered
        rw [hassoc] at hrange notLate
        obtain ⟨state', hstate', hiff⟩ := f.transitions_arrival a hstep
          (fun r hr => hrange r (List.mem_append_left _ hr))
          (fun h => notLate (arrives_append h rest)) hlate.1 hcovered
        cases hstate.unique hstate'
        exact hiff.mp hlast hlate
    · rintro (late | hnone)
      · exact absurd late notLate
      · refine .inr ⟨?_, _, returned, ?_⟩
        · rintro seen s rest rfl hlive hcovered
          have hassoc : seen ++ s :: rest = seen ++ [s] ++ rest := by simp
          have hnotLate : ¬ Late seen s := fun hlate =>
            hnone ⟨seen, s, rest, rfl, hlate, hcovered⟩
          rw [hassoc] at hrange notLate
          obtain ⟨state, hstate, hiff⟩ := f.transitions_arrival a hstep
            (fun r hr => hrange r (List.mem_append_left _ hr))
            (fun h => notLate (arrives_append h rest)) hlive hcovered
          exact ⟨state, hstate, hiff.mpr hnotLate⟩
        · exact f.aggregate_sortByTime a hstep hrange hne hle hnone due

end PromFunction

/-- Windows of five milliseconds, ten apart. -/
def apart : PromArgs where
  lowestTime := 0
  greatestTime := 20000
  stepSize := 10
  range := 5
  lowestTime_i64 := isI64_zero
  greatestTime_i64 := by decide

theorem keepsOrder_refused : PromFunction.rate.KeepsOrder apart
    [((4000, .value 2) : Int × Exact), (3000, .value 1)] := by
  refine (PromFunction.keepsOrder_iff .rate apart (by decide) _ ?_).mpr (.inl ?_)
  · unfold PromFunction.InRange
    decide
  · refine ⟨[(4000, .value 2)], (3000, .value 1), [], rfl,
      ⟨by decide, (4000, .value 2), by simp, by decide, by decide⟩, (4000, .value 2), ?_, 0, by decide⟩
    exact ⟨by simp, by decide, by simp⟩

/-- The first sample lies between the windows, the others in the window before it. -/
def lateSamples : List (Int × Exact) := [(8000, .value 7), (3000, .value 1), (4000, .value 2)]

theorem keepsOrder_fails_apart :
    0 < apart.stepSize ∧ PromFunction.InRange apart lateSamples ∧
      ¬ PromFunction.delta.KeepsOrder apart lateSamples := by
  refine ⟨by decide, by unfold PromFunction.InRange; decide, ?_⟩
  have hlost : Yields (PromFunction.delta.aggregate apart lateSamples)
      (.ok (some [none, none])) := PromFunction.yields_aggregate 3 (by decide +kernel)
  have hsorted : Yields (PromFunction.delta.aggregate apart (sortByTime lateSamples))
      (.ok (some [some (.value (5 / 2)), none])) :=
    PromFunction.yields_aggregate 3 (by decide +kernel)
  rintro (hraised | ⟨-, result, hresult, hresult'⟩)
  · cases hraised.unique hlost
  · cases hresult.unique hlost
    cases hresult'.unique hsorted

end Promscale.Aggregates
