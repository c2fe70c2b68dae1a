import Mathlib.Data.List.Induction
import Promscale.Aggregates.PromAggregates
import Promscale.Aggregates.SlidingWindows

/-!
# Samples in any order

Nothing sorts the samples of an aggregate. A live sample that is not earlier than any live one
before it is leading, and slides the window as an ordered run does. One that is earlier meets
the window of the latest sample: an order error when that sample is in the window, and else no
effect at all, since a sample between two windows left the deque empty.
-/
namespace Promscale.Aggregates

open Promscale.Lib

variable {F : Type}

namespace GapfillDeltaTransition
variable [F64 F]

theorem addAll_singleton (fuel : Nat) (self : GapfillDeltaTransition F) (s : Int × F) :
    self.addAll fuel [s] = self.addDataPoint fuel s.1 s.2 := by
  rw [addAll]
  cases self.addDataPoint fuel s.1 s.2 with
  | none => rfl
  | some added => cases added <;> rfl

theorem addAll_append (fuel : Nat) (self : GapfillDeltaTransition F) (l m : List (Int × F)) :
    self.addAll fuel (l ++ m) =
      match self.addAll fuel l with
      | none => none
      | some (.error e) => some (.error e)
      | some (.ok next) => next.addAll fuel m := by
  induction l generalizing self with
  | nil => rfl
  | cons s rest ih =>
    rw [List.cons_append, addAll, addAll]
    cases self.addDataPoint fuel s.1 s.2 with
    | none => rfl
    | some added =>
      cases added with
      | error e => rfl
      | ok next => exact ih next

end GapfillDeltaTransition

namespace SlidingQuery

/-! ## Leading samples -/

/-- The last of an ordered list is its greatest. -/
theorem le_last {l : List (Int × F)} (hsorted : l.Pairwise fun a b => a.1 ≤ b.1)
    {last : Int × F} (hlast : l.getLast? = some last) : ∀ s ∈ l, s.1 ≤ last.1 := by
  obtain ⟨init, rfl⟩ := List.getLast?_eq_some_iff.mp hlast
  intro s hs
  rcases List.mem_append.mp hs with hs | hs
  · exact (List.pairwise_append.mp hsorted).2.2 s hs last (by simp)
  · rw [List.mem_singleton.mp hs]

theorem sorted_concat {l : List (Int × F)} (hsorted : l.Pairwise fun a b => a.1 ≤ b.1)
    {s : Int × F} (hs : ∀ last, l.getLast? = some last → last.1 ≤ s.1) :
    (l ++ [s]).Pairwise fun a b => a.1 ≤ b.1 := by
  refine List.pairwise_append.mpr ⟨hsorted, List.pairwise_singleton _ _, fun r hr b hb => ?_⟩
  rw [List.mem_singleton.mp hb]
  have hne := List.ne_nil_of_mem hr
  have hlast := List.getLast?_eq_some_getLast hne
  exact (le_last hsorted hlast r hr).trans (hs _ hlast)

section Leading
variable [ToBits F]

/-- A live sample leads when it is not earlier than the last one that does. -/
def lead (leading : List (Int × F)) (s : Int × F) : List (Int × F) :=
  if live s && leading.getLast?.all (fun last => decide (last.1 ≤ s.1)) then leading ++ [s]
  else leading

/-- The live samples that no live one before them is later than. -/
def leading (samples : List (Int × F)) : List (Int × F) :=
  samples.foldl lead []

theorem leading_concat (seen : List (Int × F)) (s : Int × F) :
    leading (seen ++ [s]) = lead (leading seen) s := by
  rw [leading, List.foldl_append]
  rfl

theorem lead_of_not_live {s : Int × F} (h : live s = false) (l : List (Int × F)) :
    lead l s = l := by
  simp [lead, h]

theorem lead_of_le {s : Int × F} (h : live s = true) {l : List (Int × F)}
    (hle : ∀ r ∈ l, r.1 ≤ s.1) : lead l s = l ++ [s] := by
  unfold lead
  cases hlast : l.getLast? with
  | none => simp [h]
  | some last => simp [h, hle last (List.mem_of_getLast? hlast)]

theorem lead_of_lt {s last : Int × F} {l : List (Int × F)} (hlast : l.getLast? = some last)
    (h : s.1 < last.1) : lead l s = l := by
  simp [lead, hlast, h]

/-- What `leading` collects, and how it stands to the samples. -/
structure Leads (samples leading : List (Int × F)) : Prop where
  sorted : leading.Pairwise fun a b => a.1 ≤ b.1
  subset : ∀ s ∈ leading, s ∈ samples ∧ live s = true
  latest : ∀ s ∈ samples, live s = true → ∃ last, leading.getLast? = some last ∧ s.1 ≤ last.1

/-- A sample that does not lead is covered by the last one that does. -/
theorem Leads.concat {seen leading : List (Int × F)} (h : Leads seen leading) {s : Int × F}
    (hs : live s = true → ∃ last, leading.getLast? = some last ∧ s.1 ≤ last.1) :
    Leads (seen ++ [s]) leading := by
  refine ⟨h.sorted, fun r hr => ⟨by simp [(h.subset r hr).1], (h.subset r hr).2⟩, ?_⟩
  intro r hr hl
  rcases List.mem_append.mp hr with hr | hr
  · exact h.latest r hr hl
  · rw [List.mem_singleton.mp hr] at hl ⊢
    exact hs hl

theorem Leads.lead {seen leading : List (Int × F)} (h : Leads seen leading) {s : Int × F}
    (hlive : live s = true) (hle : ∀ r ∈ leading, r.1 ≤ s.1) :
    Leads (seen ++ [s]) (leading ++ [s]) := by
  refine ⟨List.pairwise_append.mpr ⟨h.sorted, List.pairwise_singleton _ _,
    fun r hr b hb => (List.mem_singleton.mp hb) ▸ hle r hr⟩, ?_, ?_⟩
  · intro r hr
    rcases List.mem_append.mp hr with hr | hr
    · exact ⟨by simp [(h.subset r hr).1], (h.subset r hr).2⟩
    · rw [List.mem_singleton.mp hr]
      exact ⟨by simp, hlive⟩
  · intro r hr hl
    refine ⟨s, by simp, ?_⟩
    rcases List.mem_append.mp hr with hr | hr
    · obtain ⟨last, hlast, hrlast⟩ := h.latest r hr hl
      exact hrlast.trans (hle last (List.mem_of_getLast? hlast))
    · rw [List.mem_singleton.mp hr]

/-- A sample leads, or is not live, or is earlier than the last one that leads. -/
theorem Leads.cases {seen leading : List (Int × F)} (h : Leads seen leading) (s : Int × F) :
    live s = false ∨ (live s = true ∧ ∀ r ∈ leading, r.1 ≤ s.1) ∨
      (live s = true ∧ ∃ last, leading.getLast? = some last ∧ s.1 < last.1) := by
  cases hlive : live s with
  | false => exact .inl rfl
  | true =>
    by_cases hle : ∀ r ∈ leading, r.1 ≤ s.1
    · exact .inr (.inl ⟨rfl, hle⟩)
    · simp only [not_forall, not_le] at hle
      obtain ⟨r, hr, hlt⟩ := hle
      obtain ⟨last, hlast, -⟩ := h.latest r (h.subset r hr).1 (h.subset r hr).2
      exact .inr (.inr ⟨rfl, last, hlast, hlt.trans_le (le_last h.sorted hlast r hr)⟩)

theorem leads_leading (samples : List (Int × F)) : Leads samples (leading samples) := by
  induction samples using List.reverseRecOn with
  | nil => exact ⟨List.Pairwise.nil, by simp [leading], by simp⟩
  | append_singleton seen s ih =>
    rw [leading_concat]
    rcases ih.cases s with hdead | ⟨hlive, hle⟩ | ⟨hlive, last, hlast, hlt⟩
    · rw [lead_of_not_live hdead]
      exact ih.concat fun hlive => absurd hlive (by simp [hdead])
    · rw [lead_of_le hlive hle]
      exact ih.lead hlive hle
    · rw [lead_of_lt hlast hlt]
      exact ih.concat fun _ => ⟨last, hlast, hlt.le⟩

/-! ## Late samples -/

/-- A live sample that comes after a live one of a later time. -/
def Late (seen : List (Int × F)) (s : Int × F) : Prop :=
  live s = true ∧ ∃ r ∈ seen, live r = true ∧ s.1 < r.1

/-- Some sample arrives after the samples before it in the given way. -/
def Arrives (p : List (Int × F) → Int × F → Prop) (samples : List (Int × F)) : Prop :=
  ∃ seen s rest, samples = seen ++ s :: rest ∧ p seen s

omit [ToBits F] in
theorem not_arrives_nil (p : List (Int × F) → Int × F → Prop) : ¬ Arrives p [] := by
  rintro ⟨seen, s, rest, h, -⟩
  exact absurd h.symm (by simp)

omit [ToBits F] in
theorem arrives_concat {p : List (Int × F) → Int × F → Prop} {seen : List (Int × F)}
    {s : Int × F} : Arrives p (seen ++ [s]) ↔ Arrives p seen ∨ p seen s := by
  constructor
  · rintro ⟨before, r, rest, heq, hr⟩
    rcases List.eq_nil_or_concat rest with rfl | ⟨rest, b, rfl⟩
    · obtain ⟨rfl, hs⟩ := List.append_inj' heq rfl
      cases hs
      exact .inr hr
    · rw [List.concat_eq_append, ← List.cons_append, ← List.append_assoc] at heq
      obtain ⟨rfl, -⟩ := List.append_inj' heq rfl
      exact .inl ⟨before, r, rest, rfl, hr⟩
  · rintro (⟨before, r, rest, rfl, hr⟩ | hs)
    · exact ⟨before, r, rest ++ [s], by simp, hr⟩
    · exact ⟨seen, s, [], rfl, hs⟩

omit [ToBits F] in
theorem arrives_append {p : List (Int × F) → Int × F → Prop} {samples : List (Int × F)}
    (h : Arrives p samples) (more : List (Int × F)) : Arrives p (samples ++ more) := by
  obtain ⟨seen, s, rest, rfl, hs⟩ := h
  exact ⟨seen, s, rest ++ more, by simp, hs⟩

/-- A live sample that none of the live ones is later than. -/
def Latest (samples : List (Int × F)) (m : Int × F) : Prop :=
  m ∈ samples ∧ live m = true ∧ ∀ r ∈ samples, live r = true → r.1 ≤ m.1

/-- A late sample arrives while the latest one lies in a window. -/
def Detected (covered : Int → Prop) (samples : List (Int × F)) : Prop :=
  Arrives (fun seen s => Late seen s ∧ ∃ m, Latest seen m ∧ covered m.1) samples

/-- A late sample arrives that lies in a window itself. -/
def LateInWindow (covered : Int → Prop) (samples : List (Int × F)) : Prop :=
  Arrives (fun seen s => Late seen s ∧ covered s.1) samples

theorem Leads.latest_last {samples leading : List (Int × F)} (h : Leads samples leading)
    {last : Int × F} (hlast : leading.getLast? = some last) : Latest samples last := by
  have hmem := List.mem_of_getLast? hlast
  refine ⟨(h.subset last hmem).1, (h.subset last hmem).2, fun r hr hl => ?_⟩
  obtain ⟨last', hlast', hle⟩ := h.latest r hr hl
  rw [hlast] at hlast'
  cases hlast'
  exact hle

/-- A sample is late when it is earlier than the last one that leads. -/
theorem Leads.late_iff {seen leading : List (Int × F)} (h : Leads seen leading) {s : Int × F} :
    Late seen s ↔ live s = true ∧ ∃ last, leading.getLast? = some last ∧ s.1 < last.1 := by
  constructor
  · rintro ⟨hlive, r, hr, hl, hlt⟩
    obtain ⟨last, hlast, hle⟩ := h.latest r hr hl
    exact ⟨hlive, last, hlast, hlt.trans_le hle⟩
  · rintro ⟨hlive, last, hlast, hlt⟩
    have hmem := List.mem_of_getLast? hlast
    exact ⟨hlive, last, (h.subset last hmem).1, (h.subset last hmem).2, hlt⟩

theorem Leads.not_late {seen leading : List (Int × F)} (h : Leads seen leading) {s : Int × F}
    (hle : ∀ r ∈ leading, r.1 ≤ s.1) : ¬ Late seen s := by
  rw [h.late_iff]
  rintro ⟨-, last, hlast, hlt⟩
  exact absurd (hle last (List.mem_of_getLast? hlast)) (not_le.mpr hlt)

end Leading

/-! ## Steps and runs -/

/-- The times that lie in a window. -/
def Covered (q : SlidingQuery) (t : Int) : Prop :=
  ∃ k, q.windowMin k ≤ t ∧ t ≤ q.windowMax k

theorem windowMin_mono (q : SlidingQuery) {j k : Nat} (h : j ≤ k) :
    q.windowMin j ≤ q.windowMin k := by
  have := q.windowMax_mono h
  unfold windowMax at this
  unfold windowMin
  omega

variable [F64 F]

/-- Where the machine stands only the current window is left to lie in. -/
theorem Reached.covered_iff {q : SlidingQuery} {l : List (Int × F)} {k : Nat}
    (h : q.Reached l k) {t : Int} (hmax : t ≤ q.windowMax k) (hlatest : ∀ r ∈ l, r.1 ≤ t) :
    q.Covered t ↔ q.windowMin k ≤ t := by
  refine ⟨?_, fun hmin => ⟨k, hmin, hmax⟩⟩
  rintro ⟨j, hmin, hj⟩
  have hkj : k ≤ j := by
    by_contra hjk
    obtain ⟨r, hr, hlt⟩ := h.flushed j (not_le.mp hjk)
    exact absurd (hlatest r hr) (by omega)
  exact (q.windowMin_mono hkj).trans hmin

/-- The error for a sample that is earlier than the last one in the deque. -/
def orderError : Raise := .error "inputs must be in ascending time order"

/-- The latest sample is in the deque when it lies in a window, and else the deque is empty. -/
theorem getLast?_window (q : SlidingQuery) {samples l : List (Int × F)} {k : Nat}
    (hleads : Leads samples l) (hreached : q.Reached l k) {last : Int × F}
    (hlast : l.getLast? = some last) :
    (q.Covered last.1 → (q.stateAt l k).window.getLast? = some last) ∧
      (¬ q.Covered last.1 → (q.stateAt l k).window = []) := by
  have hmem := List.mem_of_getLast? hlast
  have hlive := (hleads.subset last hmem).2
  have hle := le_last hleads.sorted hlast
  rw [hreached.covered_iff (hreached.before last hmem hlive) hle]
  constructor
  · intro hmin
    obtain ⟨init, rfl⟩ := List.getLast?_eq_some_iff.mp hlast
    simp [stateAt, hlive, hmin]
  · intro hmin
    refine List.filter_eq_nil_iff.mpr fun r hr => ?_
    have hr := hle r hr
    simp only [Bool.and_eq_true, decide_eq_true_eq, not_and]
    omega

theorem addDataPoint_stale {s : Int × F} (h : live s = false) (fuel : Nat)
    (self : GapfillDeltaTransition F) : self.addDataPoint fuel s.1 s.2 = some (.ok self) := by
  have hstale : ToBits.toBits s.2 = STALE_NAN := by simpa [live] using h
  rw [GapfillDeltaTransition.addDataPoint, if_pos hstale]

/-- Step lemma of a late sample: an error when the latest sample is in a window, else nothing. -/
theorem addDataPoint_late (q : SlidingQuery) {seen l : List (Int × F)} {k : Nat}
    (hleads : Leads seen l) (hreached : q.Reached l k) {s last : Int × F} (hlive : live s = true)
    (hlast : l.getLast? = some last) (hlt : s.1 < last.1) :
    (q.Covered last.1 → Yields (fun fuel => (q.stateAt l k).addDataPoint fuel s.1 s.2)
      (.error orderError)) ∧
    (¬ q.Covered last.1 → Yields (fun fuel => (q.stateAt l k).addDataPoint fuel s.1 s.2)
      (.ok (q.stateAt l k))) := by
  have hmem := List.mem_of_getLast? hlast
  have hmax := hreached.before last hmem (hleads.subset last hmem).2
  have hstale : ¬ ToBits.toBits s.2 = STALE_NAN := by simpa [live] using hlive
  have hinside : (q.stateAt l k).outsideWindow s.1 = false := by
    rw [outsideWindow_stateAt, decide_eq_false_iff_not]
    omega
  have hloop : ∀ fuel, 0 < fuel → whileFuel (GapfillDeltaTransition.outsideWindow s.1)
      GapfillDeltaTransition.flushCurrentWindow fuel (q.stateAt l k) = some (q.stateAt l k) :=
    fun fuel hfuel => whileFuel_eq_iterate (fun i hi => absurd hi (Nat.not_lt_zero i)) hinside hfuel
  obtain ⟨hin, hout⟩ := q.getLast?_window hleads hreached hlast
  constructor
  · intro hcovered
    refine ⟨0, fun fuel hfuel => ?_⟩
    simp [GapfillDeltaTransition.addDataPoint, if_neg hstale, hloop fuel hfuel, hin hcovered, hlt,
      orderError]
  · intro hcovered
    have hempty := hout hcovered
    have hle := le_last hleads.sorted hlast
    rw [hreached.covered_iff hmax hle] at hcovered
    have hbefore : ¬ s.1 ≥ (q.stateAt l k).currentWindowMin := by
      have : (q.stateAt l k).currentWindowMin = q.windowMin k := rfl
      omega
    refine ⟨0, fun fuel hfuel => ?_⟩
    simp only [GapfillDeltaTransition.addDataPoint, if_neg hstale, hloop fuel hfuel, hempty,
      List.getLast?_nil, Option.map_none, Option.getD_none, Bool.false_eq_true, if_false,
      if_neg hbefore]

/-- How a step ends in which a sample is added to those that lead. -/
inductive StepEnded (q : SlidingQuery) (seen : List (Int × F)) (s : Int × F) (k : Nat) : Prop where
  | detected (late : Late seen s ∧ ∃ m, Latest seen m ∧ q.Covered m.1)
      (raised : Yields (fun fuel => (q.stateAt (leading seen) k).addDataPoint fuel s.1 s.2)
        (.error orderError))
  | added (k' : Nat) (notLate : ¬ (Late seen s ∧ ∃ m, Latest seen m ∧ q.Covered m.1))
      (reached : q.Reached (leading (seen ++ [s])) k')
      (added : Yields (fun fuel => (q.stateAt (leading seen) k).addDataPoint fuel s.1 s.2)
        (.ok (q.stateAt (leading (seen ++ [s])) k')))

theorem addDataPoint_ended (q : SlidingQuery) {seen : List (Int × F)} {k : Nat}
    (reached : q.Reached (leading seen) k) (s : Int × F) : q.StepEnded seen s k := by
  have hleads := leads_leading seen
  rcases hleads.cases s with hdead | ⟨hlive, hle⟩ | ⟨hlive, last, hlast, hlt⟩
  · refine .added k (fun h => absurd h.1.1 (by simp [hdead])) ?_ ?_
    · rwa [leading_concat, lead_of_not_live hdead]
    · rw [leading_concat, lead_of_not_live hdead]
      exact ⟨0, fun fuel _ => addDataPoint_stale hdead fuel _⟩
  · obtain ⟨n, k', hreached, hrun⟩ :=
      q.addDataPoint_stateAt (leading seen) k s.1 s.2 hleads.sorted hle reached
    refine .added k' (fun h => hleads.not_late hle h.1) ?_ ?_
    · rwa [leading_concat, lead_of_le hlive hle]
    · rw [leading_concat, lead_of_le hlive hle]
      exact ⟨n, hrun⟩
  · have hlate : Late seen s := hleads.late_iff.mpr ⟨hlive, last, hlast, hlt⟩
    have hlatest := hleads.latest_last hlast
    obtain ⟨hcovered, hbetween⟩ := q.addDataPoint_late hleads reached hlive hlast hlt
    by_cases hin : q.Covered last.1
    · exact .detected ⟨hlate, last, hlatest, hin⟩ (hcovered hin)
    · refine .added k ?_ ?_ ?_
      · rintro ⟨-, m, hm, hmin⟩
        have heq : m.1 = last.1 := le_antisymm (hlatest.2.2 m hm.1 hm.2.1)
          (hm.2.2 last hlatest.1 hlatest.2.1)
        exact hin (heq ▸ hmin)
      · rwa [leading_concat, lead_of_lt hlast hlt]
      · rw [leading_concat, lead_of_lt hlast hlt]
        exact hbetween hin

/-- How a run over some samples ends. -/
inductive Ended (q : SlidingQuery) (samples : List (Int × F)) : Prop where
  | detected (late : Detected q.Covered samples)
      (raised : Yields (fun fuel => (q.stateAt [] 0).addAll fuel samples) (.error orderError))
  | added (k : Nat) (notLate : ¬ Detected q.Covered samples)
      (reached : q.Reached (leading samples) k)
      (added : Yields (fun fuel => (q.stateAt [] 0).addAll fuel samples)
        (.ok (q.stateAt (leading samples) k)))

/-- No sample has come before the first window. -/
theorem reached_nil (q : SlidingQuery) : q.Reached (leading ([] : List (Int × F))) 0 :=
  ⟨by simp [leading], by simp⟩

/-- Run lemma: the samples that lead are added in order, until a late one is detected. -/
theorem addAll_ended (q : SlidingQuery) (samples : List (Int × F)) : q.Ended samples := by
  induction samples using List.reverseRecOn with
  | nil => exact .added 0 (not_arrives_nil _) q.reached_nil (Yields.const _)
  | append_singleton seen s ih =>
    cases ih with
    | detected late raised =>
      refine .detected (arrives_concat.mpr (.inl late)) (raised.of_eq fun fuel hraised => ?_)
      rw [GapfillDeltaTransition.addAll_append, hraised]
    | added k notLate reached added =>
      have hadd : ∀ r,
          Yields (fun fuel => (q.stateAt (leading seen) k).addDataPoint fuel s.1 s.2) r →
            Yields (fun fuel => (q.stateAt [] 0).addAll fuel (seen ++ [s])) r := by
        intro r hrun
        refine added.of_eq_of_eq hrun fun fuel hadded hpoint => ?_
        rw [GapfillDeltaTransition.addAll_append, hadded]
        exact (GapfillDeltaTransition.addAll_singleton fuel _ s).trans hpoint
      cases q.addDataPoint_ended reached s with
      | detected late raised =>
        exact .detected (arrives_concat.mpr (.inr late)) (hadd _ raised)
      | added k' notLate' reached' added' =>
        refine .added k' ?_ reached' (hadd _ added')
        exact fun hdetected => (arrives_concat.mp hdetected).elim notLate notLate'

/-- After a live sample of a window the deque ends with it, unless it was late. -/
theorem addAll_arrival (q : SlidingQuery) {seen : List (Int × F)} {s : Int × F}
    (hdetected : ¬ Detected q.Covered (seen ++ [s])) (hlive : live s = true)
    (hcovered : q.Covered s.1) :
    ∃ state, Yields (fun fuel => (q.stateAt [] 0).addAll fuel (seen ++ [s])) (.ok state) ∧
      (state.window.getLast? = some s ↔ ¬ Late seen s) := by
  have hleads := leads_leading seen
  have hleads' := leads_leading (seen ++ [s])
  cases q.addAll_ended (seen ++ [s]) with
  | detected late raised => exact absurd late hdetected
  | added k notLate reached added =>
    refine ⟨_, added, ?_⟩
    rcases hleads.cases s with hdead | ⟨-, hle⟩ | ⟨-, last, hlast, hlt⟩
    · rw [hlive] at hdead
      cases hdead
    · have hlast : (leading (seen ++ [s])).getLast? = some s := by
        rw [leading_concat, lead_of_le hlive hle, List.getLast?_concat]
      exact iff_of_true ((q.getLast?_window hleads' reached hlast).1 hcovered)
        (hleads.not_late hle)
    · have hlate : Late seen s := hleads.late_iff.mpr ⟨hlive, last, hlast, hlt⟩
      have hout : ¬ q.Covered last.1 := fun hin =>
        hdetected (arrives_concat.mpr (.inr ⟨hlate, last, hleads.latest_last hlast, hin⟩))
      have hlast' : (leading (seen ++ [s])).getLast? = some last := by
        rw [leading_concat, lead_of_lt hlast hlt, hlast]
      rw [(q.getLast?_window hleads' reached hlast').2 hout]
      exact iff_of_false (by simp) (not_not.mpr hlate)

end SlidingQuery

/-! ## The aggregates -/

namespace PromArgs

/-- The times that lie in a window. -/
def Covered (a : PromArgs) (t : Int) : Prop :=
  ∃ k : Nat, a.lowestTime + k * (a.stepSize * USECS_PER_MS) ≤ t ∧
    t ≤ a.lowestTime + a.range * USECS_PER_MS + k * (a.stepSize * USECS_PER_MS)

def query (a : PromArgs) (f : PromFunction) (hle : a.lowestTime ≤ a.greatestTime)
    (hstep : 0 < a.stepSize) : SlidingQuery where
  lowestTime := a.lowestTime
  greatestTime := a.greatestTime
  range := a.range
  stepSize := a.stepSize
  isCounter := f.isCounter
  isRate := f.isRate
  lowest_le_greatest := hle
  stepSize_pos := hstep
  lowestTime_i64 := a.lowestTime_i64
  greatestTime_i64 := a.greatestTime_i64

end PromArgs

namespace PromFunction

open SlidingQuery

variable [F64 F]

/-- Two counts of the same windows are equal. -/
theorem count_unique {p : Nat → Prop} {count count' : Nat} (h : ∀ j, j < count ↔ p j)
    (h' : ∀ j, j < count' ↔ p j) : count = count' := by
  refine le_antisymm (not_lt.mp fun hlt => ?_) (not_lt.mp fun hlt => ?_)
  · exact lt_irrefl _ ((h' count').mpr ((h count').mp hlt))
  · exact lt_irrefl _ ((h count).mpr ((h' count).mp hlt))

/-- How an aggregate over some samples of the time range ends. -/
inductive Ended (f : PromFunction) (a : PromArgs) (samples : List (Int × F))
    (q : SlidingQuery) : Prop where
  | detected (late : Detected a.Covered samples)
      (raised : Yields (f.aggregate a samples) (.error orderError))
  | returned (count : Nat) (notLate : ¬ Detected a.Covered samples)
      (due : ∀ j, j < count ↔ q.windowMax j ≤ a.greatestTime)
      (returned : Yields (f.aggregate a samples)
        (.ok (some ((List.range count).map (q.delta (leading samples))))))

theorem start_eq (f : PromFunction) (a : PromArgs) (hle : a.lowestTime ≤ a.greatestTime)
    (hstep : 0 < a.stepSize) :
    f.start a = .ok ((a.query f hle hstep).stateAt ([] : List (Int × F)) 0) :=
  (a.query f hle hstep).new_eq_stateAt

theorem aggregate_ended (f : PromFunction) (a : PromArgs) {samples : List (Int × F)}
    (hstep : 0 < a.stepSize) (hrange : InRange a samples) (hne : samples ≠ [])
    (hle : a.lowestTime ≤ a.greatestTime) : f.Ended a samples (a.query f hle hstep) := by
  have heq := aggregate_of_ne_nil hrange hne (f.start_eq a hle hstep)
  cases (a.query f hle hstep).addAll_ended samples with
  | detected late raised =>
    refine .detected late (raised.of_eq fun fuel hraised => ?_)
    rw [heq, hraised]
  | added k notLate reached added =>
    have hleads := leads_leading samples
    obtain ⟨m, count, hdue, hm⟩ := (a.query f hle hstep).asVec_stateAt (leading samples) k
      hleads.sorted reached fun s hs => (hrange s (hleads.subset s hs).1).2
    have hdeltas : Yields ((a.query f hle hstep).stateAt (leading samples) k).asVec _ := ⟨m, hm⟩
    refine .returned count notLate hdue (added.of_eq_of_eq hdeltas fun fuel hadded hvec => ?_)
    rw [heq, hadded]
    exact congrArg (Option.map _) hvec

omit [F64 F] in
theorem lowest_le_greatest {a : PromArgs} {samples : List (Int × F)} (hrange : InRange a samples)
    (hne : samples ≠ []) : a.lowestTime ≤ a.greatestTime := by
  obtain ⟨s, hs⟩ := List.exists_mem_of_ne_nil samples hne
  exact (hrange s hs).1.trans (hrange s hs).2

end PromFunction

end Promscale.Aggregates
