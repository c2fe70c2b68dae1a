import Promscale.Lib.Binary64
import Promscale.Aggregates.RateOfIncrease

/-!
# Deltas of doubles

What `add_delta_for_current_window` stores is a finite double when the samples are, span some time
and no operation on their values overflows: the durations are bounded, since times are, and so is
what the rise is multiplied by.
-/
namespace Promscale.Aggregates

open Promscale.Lib F64 Binary64

instance : F64 Binary64 where
  toBits := Binary64.toBits
  add := Binary64.add
  sub := Binary64.sub
  mul := Binary64.mul
  div := Binary64.div
  ofInt n := .ofRat n
  onePointOne := .ofRat (11 / 10)
  lt := Binary64.lt
  le := Binary64.le

/-! ## Sums -/

/-- The values that a counter falls from. -/
def fallsFrom {F : Type} [F64 F] (last : F) : List (Int × F) → List F
  | [] => []
  | s :: rest => if lt s.2 last then last :: fallsFrom s.2 rest else fallsFrom s.2 rest

theorem counterCorrection_eq {F : Type} [F64 F] (window : List (Int × F)) :
    GapfillDeltaTransition.counterCorrection window =
      (fallsFrom (ofInt 0) window).foldl (· + ·) (ofInt 0) := by
  have hfold : ∀ sum last : F, (window.foldl (fun (acc : F × F) sample =>
      (if lt sample.2 acc.2 then acc.1 + acc.2 else acc.1, sample.2)) (sum, last)).1 =
        (fallsFrom last window).foldl (· + ·) sum := by
    induction window with
    | nil => exact fun _ _ => rfl
    | cons s rest ih =>
      intro sum last
      rw [List.foldl_cons, ih, fallsFrom]
      split
      · rfl
      · rfl
  exact hfold _ _

theorem mem_fallsFrom {F : Type} [F64 F] {window : List (Int × F)} {last v : F}
    (h : v ∈ fallsFrom last window) : v = last ∨ ∃ s ∈ window, s.2 = v := by
  induction window generalizing last with
  | nil => cases h
  | cons s rest ih =>
    have hrest : v ∈ fallsFrom s.2 rest → ∃ s' ∈ s :: rest, s'.2 = v := by
      intro h
      rcases ih h with rfl | ⟨s', hs', hv⟩
      · exact ⟨s, List.mem_cons_self, rfl⟩
      · exact ⟨s', List.mem_cons_of_mem _ hs', hv⟩
    unfold fallsFrom at h
    split at h
    · rcases List.mem_cons.mp h with hv | h
      · exact .inl hv
      · exact .inr (hrest h)
    · exact .inr (hrest h)

/-- Added one after the other to a sum, none of the values overflows it. -/
def SumsInRange (sum : Binary64) : List Binary64 → Prop
  | [] => True
  | v :: rest => |sum.toRat + v.toRat| < limit ∧ SumsInRange (sum + v) rest

theorem isFinite_foldl {values : List Binary64} {sum : Binary64}
    (h : (values.foldl (· + ·) sum).IsFinite) : sum.IsFinite := by
  induction values generalizing sum with
  | nil => exact h
  | cons v rest ih => exact (isFinite_of_add (ih h)).1

theorem isFinite_foldl_iff {values : List Binary64} (hvalues : ∀ v ∈ values, v.IsFinite)
    {sum : Binary64} (hsum : sum.IsFinite) :
    (values.foldl (· + ·) sum).IsFinite ↔ SumsInRange sum values := by
  induction values generalizing sum with
  | nil => exact iff_of_true hsum trivial
  | cons v rest ih =>
    obtain ⟨hv, hrest⟩ := List.forall_mem_cons.mp hvalues
    have hnext := (add_rounds hsum hv).isFinite_iff
    constructor
    · intro h
      have hadded := @isFinite_foldl rest _ h
      exact ⟨hnext.mp hadded, (ih hrest hadded).mp h⟩
    · rintro ⟨hlimit, h⟩
      exact (ih hrest (hnext.mpr hlimit)).mpr h

theorem isFinite_ofInt_zero : (ofInt 0 : Binary64).IsFinite :=
  (ofRat_rounds _).isFinite_iff.mpr (by
    rw [Int.cast_zero, abs_zero, limit_eq]
    positivity)

/-! ## Durations -/

section Durations
variable {micros : Int}

theorem microsPerSecond : (ofRat USECS_PER_SEC).IsFinite ∧
    2 ^ (19 : Int) ≤ (ofRat USECS_PER_SEC).toRat ∧
      (ofRat USECS_PER_SEC).toRat ≤ 2 ^ (20 : Int) := by
  have hbound : ((USECS_PER_SEC : Int) : Rat) = 1000000 := rfl
  have hrounds := ofRat_rounds USECS_PER_SEC
  have hupTo : UpTo 20 (ofRat USECS_PER_SEC) :=
    hrounds.upTo (by norm_num) (by norm_num) (by norm_num [hbound])
  exact ⟨hupTo.finite, hrounds.le (by norm_num) (by norm_num [hbound]) hupTo.finite,
    (le_abs_self _).trans hupTo.le⟩

theorem upTo_ofInt (h : |micros| ≤ 2 ^ 64) : UpTo 64 (ofInt micros : Binary64) := by
  refine (ofRat_rounds micros).upTo (by norm_num) (by norm_num) ?_
  exact_mod_cast h

theorem upTo_seconds (h : |micros| ≤ 2 ^ 64) : UpTo 45 (seconds micros : Binary64) :=
  (upTo_ofInt h).div microsPerSecond.1 microsPerSecond.2.1 (by norm_num) (by norm_num)

theorem le_seconds (hlo : 1 ≤ micros) (hhi : |micros| ≤ 2 ^ 64) :
    2 ^ (-20 : Int) ≤ (seconds micros : Binary64).toRat := by
  have hmicros : UpTo 64 (ofInt micros : Binary64) := upTo_ofInt hhi
  have hone : (2 : Rat) ^ (0 : Int) ≤ (ofInt micros : Binary64).toRat := by
    refine (ofRat_rounds micros).le (by norm_num) ?_ hmicros.finite
    rw [zpow_zero]
    exact_mod_cast hlo
  obtain ⟨hfinite, hleast, hmost⟩ := microsPerSecond
  have hpos : 0 < (ofRat USECS_PER_SEC).toRat := (by positivity : (0 : Rat) < _).trans_le hleast
  refine (div_rounds hmicros.finite hfinite hpos.ne').le (by norm_num) ?_
    (upTo_seconds hhi).finite
  rw [le_div_iff₀ hpos]
  calc (2 : Rat) ^ (-20 : Int) * (ofRat USECS_PER_SEC).toRat ≤ 2 ^ (-20 : Int) * 2 ^ (20 : Int) :=
        mul_le_mul_of_nonneg_left hmost (by positivity)
    _ = 2 ^ (0 : Int) := by norm_num
    _ ≤ _ := hone

theorem seconds_zero : (seconds 0 : Binary64).toRat = 0 := by
  decide +kernel

end Durations

/-- What is added at one end is bounded as the durations are. -/
theorem upTo_extension {k : Int} {avg duration : Binary64} (havg : UpTo k avg)
    (hduration : UpTo k duration) (hlo : -1074 ≤ k) (hhi : k ≤ 1023) :
    UpTo k (extension avg duration) := by
  unfold extension
  split
  · exact hduration
  · exact havg.div_int (by norm_num) hlo hhi

/-- The duration to the zero point of a counter replaces no shorter one. -/
theorem upTo_durationToStart {k : Int} (isCounter : Bool)
    {rise earliestVal sampledInterval toStart : Binary64} (hrise : rise.IsFinite)
    (hearliest : earliestVal.IsFinite) (hsampled : sampledInterval.IsFinite)
    (hpos : 0 < sampledInterval.toRat) (hstart : UpTo k toStart) :
    UpTo k (durationToStart isCounter rise earliestVal sampledInterval toStart) := by
  unfold durationToStart
  split
  · rename_i hclamps
    simp only [Bool.and_eq_true] at hclamps
    obtain ⟨⟨⟨-, hrises⟩, hvalue⟩, hshorter⟩ := hclamps
    have hzero : (ofInt 0 : Binary64).toRat = 0 := by decide +kernel
    have hrisePos := (lt_iff isFinite_ofInt_zero hrise).mp hrises
    have hvalueNonneg := (le_iff isFinite_ofInt_zero hearliest).mp hvalue
    rw [hzero] at hrisePos hvalueNonneg
    have hratio := (div_rounds hearliest hrise hrisePos.ne').nonNegative
      (div_nonneg hvalueNonneg hrisePos.le)
    exact .of_lt (hratio.mul hsampled hpos) hstart hshorter
  · exact hstart

/-! ## Windows -/

/-- None of the operations on the values of a window overflows: the sums of what a counter falls
from, the rise of the values, and its product with what it is extrapolated by. -/
structure NoOverflow (isCounter : Bool) (windowMin windowMax : Int)
    (window : List (Int × Binary64)) (earliest latest : Int × Binary64) : Prop where
  correction : isCounter = true → SumsInRange (ofInt 0) (fallsFrom (ofInt 0) window)
  difference : |latest.2.toRat - earliest.2.toRat| < limit
  rise : |(latest.2 - earliest.2).toRat + (if isCounter then
    GapfillDeltaTransition.counterCorrection window else ofInt 0 : Binary64).toRat| < limit
  extrapolated :
    let e := extrapolation isCounter windowMin windowMax window earliest latest
    |e.rise.toRat * (e.interval / e.sampledInterval).toRat| < limit

theorem abs_sub_le_of_isI64 {a b : Int} (ha : IsI64 a) (hb : IsI64 b) : |a - b| ≤ 2 ^ 64 := by
  unfold IsI64 at ha hb
  rw [abs_le]
  omega

section Windows
variable {isCounter : Bool} {lo hi windowMin windowMax : Int} {window : List (Int × Binary64)}
variable {earliest latest : Int × Binary64}

theorem Spans.isI64 (h : Spans lo hi window earliest latest) (hlo : IsI64 lo) (hhi : IsI64 hi) :
    IsI64 earliest.1 ∧ IsI64 latest.1 := by
  have hstart := h.start
  have hearlier := h.earlier
  have hfin := h.fin
  unfold IsI64 at hlo hhi ⊢
  omega

theorem Spans.le_sampledInterval (h : Spans lo hi window earliest latest) (hlo : IsI64 lo)
    (hhi : IsI64 hi) : 2 ^ (-20 : Int) ≤ (seconds (latest.1 - earliest.1) : Binary64).toRat := by
  have hearlier := h.earlier
  obtain ⟨hearliest, hlatest⟩ := h.isI64 hlo hhi
  exact le_seconds (by omega) (abs_sub_le_of_isI64 hlatest hearliest)

/-- What the rise is multiplied by is finite, whatever the values are. -/
theorem Spans.isFinite_stretch (h : Spans lo hi window earliest latest) (hlo : IsI64 lo)
    (hhi : IsI64 hi) (hmin : IsI64 windowMin) (hmax : IsI64 windowMax)
    (hvalue : earliest.2.IsFinite)
    (hrise : (extrapolation isCounter windowMin windowMax window earliest latest).rise.IsFinite) :
    let e := extrapolation isCounter windowMin windowMax window earliest latest
    (e.interval / e.sampledInterval).IsFinite := by
  intro e
  have hlength := h.length
  obtain ⟨hearliest, hlatest⟩ := h.isI64 hlo hhi
  have hsampled : UpTo 45 e.sampledInterval := upTo_seconds (abs_sub_le_of_isI64 hlatest hearliest)
  have hleast : 2 ^ (-20 : Int) ≤ e.sampledInterval.toRat := h.le_sampledInterval hlo hhi
  have hpos : 0 < e.sampledInterval.toRat := (by positivity : (0 : Rat) < _).trans_le hleast
  have havg : UpTo 45 (e.sampledInterval / ofInt ((window.length : Int) - 1)) :=
    hsampled.div_int (by omega) (by norm_num) (by norm_num)
  have hatStart : UpTo 45 e.atStart :=
    upTo_extension havg (upTo_durationToStart isCounter hrise hvalue hsampled.finite hpos
      (upTo_seconds (abs_sub_le_of_isI64 hearliest hmin))) (by norm_num) (by norm_num)
  have hatEnd : UpTo 45 e.atEnd :=
    upTo_extension havg (upTo_seconds (abs_sub_le_of_isI64 hmax hlatest)) (by norm_num)
      (by norm_num)
  have hinterval : UpTo 47 e.interval :=
    (hsampled.add hatStart (by norm_num) (by norm_num)).add (hatEnd.mono (by norm_num))
      (by norm_num) (by norm_num)
  exact (hinterval.div hsampled.finite hleast (by norm_num) (by norm_num)).finite

/-- The rise is finite when neither its parts overflow nor their sum. -/
theorem isFinite_rise_iff (hvalues : ∀ s ∈ window, s.2.IsFinite) (hearliest : earliest.2.IsFinite)
    (hlatest : latest.2.IsFinite) :
    (extrapolation isCounter windowMin windowMax window earliest latest).rise.IsFinite ↔
      (isCounter = true → SumsInRange (ofInt 0) (fallsFrom (ofInt 0) window)) ∧
        |latest.2.toRat - earliest.2.toRat| < limit ∧
        |(latest.2 - earliest.2).toRat + (if isCounter then
          GapfillDeltaTransition.counterCorrection window else ofInt 0 : Binary64).toRat| <
            limit := by
  have hcorrection : (if isCounter then GapfillDeltaTransition.counterCorrection window
      else ofInt 0 : Binary64).IsFinite ↔
        (isCounter = true → SumsInRange (ofInt 0) (fallsFrom (ofInt 0) window)) := by
    cases isCounter with
    | false => exact iff_of_true isFinite_ofInt_zero (by simp)
    | true =>
      have hfalls : ∀ v ∈ fallsFrom (ofInt 0) window, v.IsFinite := by
        intro v hv
        rcases mem_fallsFrom hv with rfl | ⟨s, hs, rfl⟩
        · exact isFinite_ofInt_zero
        · exact hvalues s hs
      rw [if_pos rfl, counterCorrection_eq, isFinite_foldl_iff hfalls isFinite_ofInt_zero]
      simp
  have hdifference := (sub_rounds hlatest hearliest).isFinite_iff
  constructor
  · intro h
    obtain ⟨hdiff, hcorr⟩ := isFinite_of_add h
    exact ⟨hcorrection.mp hcorr, hdifference.mp hdiff, (add_rounds hdiff hcorr).isFinite_iff.mp h⟩
  · rintro ⟨hcorr, hdiff, hsum⟩
    exact (add_rounds (hdifference.mpr hdiff) (hcorrection.mpr hcorr)).isFinite_iff.mpr hsum

/-- The delta of finite samples that span some time is finite when nothing overflows. -/
theorem Spans.isFinite_delta_iff (h : Spans lo hi window earliest latest) (hlo : IsI64 lo)
    (hhi : IsI64 hi) (hmin : IsI64 windowMin) (hmax : IsI64 windowMax)
    (hvalues : ∀ s ∈ window, s.2.IsFinite) :
    let e := extrapolation isCounter windowMin windowMax window earliest latest
    (e.rise * (e.interval / e.sampledInterval)).IsFinite ↔
      NoOverflow isCounter windowMin windowMax window earliest latest := by
  intro e
  have hearliest := hvalues _ (List.mem_of_mem_head? h.head)
  have hlatest := hvalues _ (List.mem_of_getLast? h.last)
  have hrise := @isFinite_rise_iff isCounter windowMin windowMax window earliest latest hvalues
    hearliest hlatest
  constructor
  · intro hdelta
    obtain ⟨hfinite, hstretch⟩ := isFinite_of_mul hdelta
    obtain ⟨hcorrection, hdifference, hsum⟩ := hrise.mp hfinite
    exact ⟨hcorrection, hdifference, hsum, (mul_rounds hfinite hstretch).isFinite_iff.mp hdelta⟩
  · intro hno
    have hfinite := hrise.mpr ⟨hno.correction, hno.difference, hno.rise⟩
    have hstretch := h.isFinite_stretch hlo hhi hmin hmax hearliest hfinite
    exact (mul_rounds hfinite hstretch).isFinite_iff.mpr hno.extrapolated

end Windows

end Promscale.Aggregates
