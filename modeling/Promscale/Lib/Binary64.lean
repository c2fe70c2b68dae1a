import Mathlib.Algebra.Order.Field.Power
import Mathlib.Data.Int.Log
import Mathlib.Data.Rat.Floor
import Mathlib.Tactic.FieldSimp
import Mathlib.Tactic.Linarith
import Mathlib.Tactic.NormNum
import Mathlib.Tactic.Positivity
import Mathlib.Tactic.Ring

/-!
# Doubles

The numbers of the format binary64, given by their bits, and the operations on them: the exact
result of finite numbers is rounded to the nearest double, of two to the even one, and to an
infinity from a limit on. Each operation has one lemma that says what it rounds.
-/
namespace Promscale.Lib

/-- The nearest integer, of two the even one. -/
def roundHalfEven (q : ℚ) : ℤ :=
  if q - ⌊q⌋ < 1 / 2 ∨ (q - ⌊q⌋ = 1 / 2 ∧ ⌊q⌋ % 2 = 0) then ⌊q⌋ else ⌊q⌋ + 1

theorem le_roundHalfEven {n : ℤ} {q : ℚ} (h : n ≤ q) : n ≤ roundHalfEven q := by
  have hfloor := Int.le_floor.mpr h
  unfold roundHalfEven
  split
  · exact hfloor
  · omega

theorem roundHalfEven_le {n : ℤ} {q : ℚ} (h : q ≤ n) : roundHalfEven q ≤ n := by
  have hfloor : ⌊q⌋ ≤ n := by exact_mod_cast (Int.floor_le q).trans h
  unfold roundHalfEven
  split
  · exact hfloor
  · rename_i hup
    by_contra hlt
    have heq : ⌊q⌋ = n := by omega
    refine hup (.inl ?_)
    rw [heq]
    linarith

theorem roundHalfEven_nonneg {q : ℚ} (h : 0 ≤ q) : 0 ≤ roundHalfEven q :=
  le_roundHalfEven (by simpa using h)

/-- What is rounded up to an even number. -/
theorem le_roundHalfEven_iff {n : ℤ} {q : ℚ} (heven : n % 2 = 0) :
    n ≤ roundHalfEven q ↔ n - 1 / 2 ≤ q := by
  have hlo := Int.floor_le q
  have hhi := Int.lt_floor_add_one q
  unfold roundHalfEven
  constructor
  · intro h
    split at h
    · have hcast : (n : ℚ) ≤ ⌊q⌋ := by exact_mod_cast h
      linarith
    · rename_i hup
      have hcast : (n : ℚ) ≤ ⌊q⌋ + 1 := by exact_mod_cast h
      have hhalf := not_lt.mp (not_or.mp hup).1
      linarith
  · intro h
    split
    · rename_i hdown
      by_contra hlt
      have hcast : (⌊q⌋ : ℚ) + 1 ≤ n := by exact_mod_cast (by omega : ⌊q⌋ + 1 ≤ n)
      rcases hdown with hdown | ⟨hhalf, hfloor⟩
      · linarith
      · have heq : n = ⌊q⌋ + 1 := by
          have : (n : ℚ) ≤ ⌊q⌋ + 1 := by linarith
          have : n ≤ ⌊q⌋ + 1 := by exact_mod_cast this
          omega
        omega
    · by_contra hlt
      have hcast : (⌊q⌋ : ℚ) + 2 ≤ n := by exact_mod_cast (by omega : ⌊q⌋ + 2 ≤ n)
      linarith

/-- A number of the format: the sign, and the bits of the exponent and the fraction. -/
structure Binary64 where
  negative : Bool
  magnitude : Fin (2 ^ 63)
  deriving DecidableEq

namespace Binary64

/-- The magnitude of the infinities; those above it are of what is no number. -/
def infinite : ℕ := 2047 * 2 ^ 52

def IsFinite (x : Binary64) : Prop := x.magnitude < infinite

def IsNaN (x : Binary64) : Prop := infinite < x.magnitude

instance (x : Binary64) : Decidable x.IsFinite := inferInstanceAs (Decidable (_ < _))

instance (x : Binary64) : Decidable x.IsNaN := inferInstanceAs (Decidable (_ < _))

/-- What a finite magnitude stands for. -/
def magnitudeValue (m : ℕ) : ℚ :=
  if m < 2 ^ 52 then m * 2 ^ (-1074 : ℤ)
  else (2 ^ 52 + m % 2 ^ 52 : ℕ) * 2 ^ ((m / 2 ^ 52 : ℕ) - 1075 : ℤ)

def toRat (x : Binary64) : ℚ :=
  if x.negative then -magnitudeValue x.magnitude else magnitudeValue x.magnitude

def infinity (negative : Bool) : Binary64 := ⟨negative, ⟨infinite, by decide⟩⟩

def zero (negative : Bool) : Binary64 := ⟨negative, 0⟩

def nan : Binary64 := ⟨false, ⟨infinite + 2 ^ 51, by decide⟩⟩

def toBits (x : Binary64) : UInt64 :=
  .ofNat ((if x.negative then 2 ^ 63 else 0) + x.magnitude)

/-! ## Rounding -/

/-- The place of the last digit of the doubles around a number, counted from the smallest one. -/
def place (q : ℚ) : ℕ := (Int.log 2 q + 1022).toNat

def ulp (q : ℚ) : ℚ := 2 ^ ((place q : ℤ) - 1074)

/-- The nearest of the numbers around, where there is no limit. -/
def nearest (q : ℚ) : ℚ := roundHalfEven (q / ulp q) * ulp q

def roundMagnitude (q : ℚ) : ℕ :=
  if q = 0 then 0 else min (place q * 2 ^ 52 + (roundHalfEven (q / ulp q)).toNat) infinite

theorem roundMagnitude_lt (q : ℚ) : roundMagnitude q < 2 ^ 63 := by
  unfold roundMagnitude
  split
  · decide
  · exact lt_of_le_of_lt (min_le_right _ _) (by decide)

def round (negative : Bool) (q : ℚ) : Binary64 :=
  ⟨negative, ⟨roundMagnitude |q|, roundMagnitude_lt _⟩⟩

/-- Where the infinities begin: half a place above the largest double. -/
def limit : ℚ := 2 ^ 1024 - 2 ^ 970

/-! ## Operations -/

def neg (x : Binary64) : Binary64 := { x with negative := !x.negative }

def add (x y : Binary64) : Binary64 :=
  if x.IsNaN ∨ y.IsNaN then nan
  else if x.IsFinite ∧ y.IsFinite then
    round (if x.toRat + y.toRat = 0 then x.negative && y.negative
      else decide (x.toRat + y.toRat < 0)) (x.toRat + y.toRat)
  else if x.IsFinite then y
  else if y.IsFinite ∨ x = y then x
  else nan

def sub (x y : Binary64) : Binary64 := add x y.neg

def mul (x y : Binary64) : Binary64 :=
  if x.IsNaN ∨ y.IsNaN then nan
  else if x.IsFinite ∧ y.IsFinite then round (x.negative ^^ y.negative) (x.toRat * y.toRat)
  else if x.magnitude = 0 ∨ y.magnitude = 0 then nan
  else infinity (x.negative ^^ y.negative)

def div (x y : Binary64) : Binary64 :=
  if x.IsNaN ∨ y.IsNaN then nan
  else if ¬ x.IsFinite then
    if y.IsFinite then infinity (x.negative ^^ y.negative) else nan
  else if ¬ y.IsFinite then zero (x.negative ^^ y.negative)
  else if y.magnitude = 0 then
    if x.magnitude = 0 then nan else infinity (x.negative ^^ y.negative)
  else round (x.negative ^^ y.negative) (x.toRat / y.toRat)

def ofRat (q : ℚ) : Binary64 := round (q < 0) q

/-- False on what is no number. -/
def lt (x y : Binary64) : Bool :=
  if x.IsNaN ∨ y.IsNaN then false
  else if x.IsFinite ∧ y.IsFinite then x.toRat < y.toRat
  else x ≠ y && (x = infinity true || y = infinity false)

def le (x y : Binary64) : Bool :=
  if x.IsNaN ∨ y.IsNaN then false
  else if x.IsFinite ∧ y.IsFinite then x.toRat ≤ y.toRat
  else x = infinity true || y = infinity false

/-! ## What is rounded -/

section Rounding
variable {q : ℚ}

theorem ulp_pos (q : ℚ) : 0 < ulp q := zpow_pos (by norm_num) _

theorem lt_ulp (q : ℚ) : q < 2 ^ 53 * ulp q := by
  have hlog := Int.lt_zpow_succ_log_self (by norm_num : 1 < 2) q
  refine hlog.trans_le ?_
  rw [ulp, ← zpow_natCast, ← zpow_add₀ (by norm_num)]
  refine zpow_le_zpow_right₀ (by norm_num) ?_
  unfold place
  push_cast
  omega

theorem ulp_le (hq : 0 < q) (hplace : 0 < place q) : 2 ^ 52 * ulp q ≤ q := by
  have hlog := Int.zpow_log_le_self (by norm_num : 1 < 2) hq
  refine le_trans ?_ hlog
  rw [ulp, ← zpow_natCast, ← zpow_add₀ (by norm_num)]
  refine zpow_le_zpow_right₀ (by norm_num) ?_
  unfold place at hplace ⊢
  push_cast
  omega

theorem digits_le (q : ℚ) : roundHalfEven (q / ulp q) ≤ 2 ^ 53 := by
  refine roundHalfEven_le ?_
  rw [div_le_iff₀ (ulp_pos q)]
  exact_mod_cast (lt_ulp q).le

theorem le_digits (hq : 0 < q) (hplace : 0 < place q) : 2 ^ 52 ≤ roundHalfEven (q / ulp q) := by
  refine le_roundHalfEven ?_
  rw [le_div_iff₀ (ulp_pos q)]
  exact_mod_cast ulp_le hq hplace

/-- The bits of some digits at a place; the implicit bit is carried into the exponent. -/
theorem magnitudeValue_digits {p n : ℕ} (hn : n ≤ 2 ^ 53) (h : 0 < p → 2 ^ 52 ≤ n) :
    magnitudeValue (p * 2 ^ 52 + n) = n * 2 ^ ((p : ℤ) - 1074) := by
  unfold magnitudeValue
  split
  · rename_i hlt
    have hp : p = 0 := by
      by_contra hp
      have := h (Nat.pos_of_ne_zero hp)
      omega
    simp [hp]
  · rename_i hge
    by_cases hcarry : n = 2 ^ 53
    · have hdiv : (p * 2 ^ 52 + n) / 2 ^ 52 = p + 2 := by omega
      have hmod : (p * 2 ^ 52 + n) % 2 ^ 52 = 0 := by omega
      rw [hdiv, hmod, hcarry]
      push_cast
      rw [show (p : ℤ) + 2 - 1075 = p - 1074 + 1 by ring, zpow_add_one₀ (by norm_num)]
      ring
    · have hdigits : 2 ^ 52 ≤ n := by
        rcases Nat.eq_zero_or_pos p with hp | hp
        · omega
        · exact h hp
      have hdiv : (p * 2 ^ 52 + n) / 2 ^ 52 = p + 1 := by omega
      have hmod : 2 ^ 52 + (p * 2 ^ 52 + n) % 2 ^ 52 = n := by omega
      rw [hdiv, hmod]
      push_cast
      rw [show (p : ℤ) + 1 - 1075 = p - 1074 by ring]

theorem magnitudeValue_round (hq : 0 ≤ q) (h : roundMagnitude q < infinite) :
    magnitudeValue (roundMagnitude q) = nearest q := by
  unfold roundMagnitude at h ⊢
  unfold nearest
  split
  · rename_i hzero
    simp [hzero, magnitudeValue, roundHalfEven]
  · rename_i hne
    rw [if_neg hne] at h
    have hpos := lt_of_le_of_ne hq (Ne.symm hne)
    have hdigits := roundHalfEven_nonneg (div_nonneg hq (ulp_pos q).le)
    have hle := digits_le q
    rw [min_eq_left (by omega), magnitudeValue_digits (by omega)]
    · rw [← Int.cast_natCast, Int.toNat_of_nonneg hdigits, ulp]
    · intro hplace
      have := le_digits hpos hplace
      omega

/-- A number with its last digit at a place is between powers of two. -/
theorem lt_of_place_le {p : ℕ} (h : place q ≤ p) : q < 2 ^ ((p : ℤ) - 1021) := by
  refine (lt_ulp q).trans_le ?_
  rw [ulp, ← zpow_natCast, ← zpow_add₀ (by norm_num)]
  refine zpow_le_zpow_right₀ (by norm_num) ?_
  push_cast
  omega

theorem le_of_le_place (hq : 0 < q) {p : ℕ} (hp : 0 < p) (h : p ≤ place q) :
    2 ^ ((p : ℤ) - 1022) ≤ q := by
  refine le_trans ?_ (ulp_le hq (by omega))
  rw [ulp, ← zpow_natCast, ← zpow_add₀ (by norm_num)]
  refine zpow_le_zpow_right₀ (by norm_num) ?_
  push_cast
  omega

theorem limit_eq : limit = (2 ^ 54 - 1) * 2 ^ 970 := by
  rw [limit, sub_mul, ← pow_add, one_mul]

theorem roundMagnitude_lt_iff (hq : 0 ≤ q) : roundMagnitude q < infinite ↔ q < limit := by
  unfold roundMagnitude
  split
  · rename_i hzero
    rw [hzero]
    exact iff_of_true (by decide) (by rw [limit_eq]; positivity)
  · rename_i hne
    have hpos := lt_of_le_of_ne hq (Ne.symm hne)
    have hle := digits_le q
    have hnonneg := roundHalfEven_nonneg (div_nonneg hq (ulp_pos q).le)
    rw [min_lt_iff, or_iff_left (lt_irrefl _)]
    unfold infinite
    rcases lt_trichotomy (place q) 2045 with hplace | hplace | hplace
    · refine iff_of_true (by omega) ((lt_of_place_le (by omega : place q ≤ 2044)).trans ?_)
      have hpower : (2 : ℚ) ^ (((2044 : ℕ) : ℤ) - 1021) = 2 ^ 53 * 2 ^ 970 := by
        rw [← pow_add, show ((2044 : ℕ) : ℤ) - 1021 = (53 + 970 : ℕ) by norm_num, zpow_natCast]
      rw [hpower, limit_eq]
      exact mul_lt_mul_of_pos_right (by norm_num) (by positivity)
    · have hulp : ulp q = 2 ^ 971 := by
        rw [ulp, hplace]
        norm_num
      have hround := not_congr (@le_roundHalfEven_iff (2 ^ 53) (q / ulp q) (by decide))
      rw [not_le, not_le, hulp, div_lt_iff₀ (by positivity)] at hround
      rw [hplace, hulp]
      rw [hulp] at hnonneg
      have hlimit : ((2 ^ 53 : ℤ) - 1 / 2 : ℚ) * 2 ^ 971 = limit := by
        rw [limit_eq, pow_succ' (2 : ℚ) 970]
        generalize (2 : ℚ) ^ 970 = unit
        push_cast
        ring
      rw [hlimit] at hround
      rw [← hround]
      omega
    · have hdigits := le_digits hpos (by omega)
      refine iff_of_false (by omega) (not_lt.mpr ?_)
      have hge := le_of_le_place hpos (by decide) (Nat.succ_le_of_lt hplace)
      have hpower : (2 : ℚ) ^ (((2046 : ℕ) : ℤ) - 1022) = 2 ^ 1024 := by
        rw [show ((2046 : ℕ) : ℤ) - 1022 = (1024 : ℕ) by norm_num, zpow_natCast]
      refine le_trans ?_ (hpower ▸ hge)
      exact sub_le_self _ (by positivity)

/-- Rounding stays on one side of a power of two. -/
theorem le_nearest {k : ℤ} (hk : -1074 ≤ k) (h : 2 ^ k ≤ q) : 2 ^ k ≤ nearest q := by
  have hpos : 0 < q := (zpow_pos (by norm_num) k).trans_le h
  unfold nearest
  rcases le_or_gt (place q : ℤ) (k + 1074) with hplace | hplace
  · have hpower : (2 : ℚ) ^ k = (2 ^ (k + 1074 - place q).toNat : ℤ) * ulp q := by
      rw [ulp]
      push_cast
      rw [← zpow_natCast, ← zpow_add₀ (by norm_num), Int.toNat_of_nonneg (by omega)]
      congr 1
      ring
    rw [hpower] at h ⊢
    rw [← le_div_iff₀ (ulp_pos q)] at h
    exact mul_le_mul_of_nonneg_right (by exact_mod_cast le_roundHalfEven h) (ulp_pos q).le
  · have hdigits : (2 ^ 52 : ℚ) ≤ roundHalfEven (q / ulp q) := by
      exact_mod_cast le_digits hpos (by omega)
    refine le_trans ?_ (mul_le_mul_of_nonneg_right hdigits (ulp_pos q).le)
    rw [ulp, ← zpow_natCast, ← zpow_add₀ (by norm_num)]
    exact zpow_le_zpow_right₀ (by norm_num) (by push_cast; omega)

theorem nearest_le {k : ℤ} (hk : -1074 ≤ k) (hq : 0 ≤ q) (h : q ≤ 2 ^ k) : nearest q ≤ 2 ^ k := by
  unfold nearest
  rcases eq_or_lt_of_le hq with rfl | hpos
  · simp only [zero_div, roundHalfEven]
    norm_num
    positivity
  · have hlog : Int.log 2 q ≤ k := by
      have hmono := Int.log_mono_right (b := 2) hpos h
      have hpower := Int.log_zpow (R := ℚ) (by norm_num : 1 < 2) k
      push_cast at hpower
      rwa [hpower] at hmono
    have hpower : (2 : ℚ) ^ k = (2 ^ (k + 1074 - place q).toNat : ℤ) * ulp q := by
      rw [ulp]
      push_cast
      rw [← zpow_natCast, ← zpow_add₀ (by norm_num), Int.toNat_of_nonneg (by unfold place; omega)]
      congr 1
      ring
    rw [hpower] at h ⊢
    rw [← div_le_iff₀ (ulp_pos q)] at h
    exact mul_le_mul_of_nonneg_right (by exact_mod_cast roundHalfEven_le h) (ulp_pos q).le

theorem magnitudeValue_nonneg (m : ℕ) : 0 ≤ magnitudeValue m := by
  unfold magnitudeValue
  split
  · positivity
  · positivity

@[simp] theorem magnitudeValue_zero : magnitudeValue 0 = 0 := by
  simp [magnitudeValue]

theorem magnitudeValue_eq_zero_iff {m : ℕ} : magnitudeValue m = 0 ↔ m = 0 := by
  constructor
  · intro h
    unfold magnitudeValue at h
    split at h
    · have hpower : (2 : ℚ) ^ (-1074 : ℤ) ≠ 0 := by positivity
      exact_mod_cast (mul_eq_zero.mp h).resolve_right hpower
    · exact absurd h (by positivity)
  · rintro rfl
    exact magnitudeValue_zero

theorem magnitudeValue_lt_limit {m : ℕ} (h : m < infinite) : magnitudeValue m < limit := by
  unfold infinite at h
  unfold magnitudeValue
  rw [limit_eq]
  split
  · rename_i hlt
    have hdigits : (m : ℚ) ≤ 2 ^ 52 := by exact_mod_cast hlt.le
    calc (m : ℚ) * 2 ^ (-1074 : ℤ) ≤ 2 ^ 52 * 1 :=
          mul_le_mul hdigits (zpow_le_one_of_nonpos₀ (by norm_num) (by norm_num)) (by positivity)
            (by positivity)
      _ < (2 ^ 54 - 1) * 2 ^ 970 :=
          mul_lt_mul (by norm_num) (one_le_pow₀ (by norm_num)) (by norm_num) (by norm_num)
  · have hdigits : ((2 ^ 52 + m % 2 ^ 52 : ℕ) : ℚ) ≤ 2 ^ 53 - 1 := by
      have hlt : 2 ^ 52 + m % 2 ^ 52 + 1 ≤ 2 ^ 53 := by omega
      rw [le_sub_iff_add_le]
      exact_mod_cast hlt
    have hexponent : (2 : ℚ) ^ ((m / 2 ^ 52 : ℕ) - 1075 : ℤ) ≤ 2 * 2 ^ 970 := by
      rw [← pow_succ', ← zpow_natCast]
      exact zpow_le_zpow_right₀ (by norm_num) (by push_cast; omega)
    calc ((2 ^ 52 + m % 2 ^ 52 : ℕ) : ℚ) * 2 ^ ((m / 2 ^ 52 : ℕ) - 1075 : ℤ) ≤
          (2 ^ 53 - 1) * (2 * 2 ^ 970) :=
          mul_le_mul hdigits hexponent (by positivity) (by norm_num)
      _ = (2 ^ 54 - 2) * 2 ^ 970 := by
          generalize (2 : ℚ) ^ 970 = unit
          ring
      _ < (2 ^ 54 - 1) * 2 ^ 970 := mul_lt_mul_of_pos_right (by norm_num) (by positivity)

end Rounding

/-! ## What the operations return -/

section Operations
variable {q : ℚ} {x y z : Binary64}

theorem IsFinite.not_isNaN (h : x.IsFinite) : ¬ x.IsNaN := (lt_of_lt_of_le h (le_refl _)).not_gt

theorem negative_of_toRat_neg (h : x.toRat < 0) : x.negative = true := by
  have hnonneg := magnitudeValue_nonneg x.magnitude
  unfold toRat at h
  split at h
  · assumption
  · linarith

theorem negative_of_toRat_pos (h : 0 < x.toRat) : x.negative = false := by
  have hnonneg := magnitudeValue_nonneg x.magnitude
  unfold toRat at h
  split at h
  · linarith
  · rename_i hnegative
    simpa using hnegative

theorem abs_toRat (x : Binary64) : |x.toRat| = magnitudeValue x.magnitude := by
  have hnonneg := magnitudeValue_nonneg x.magnitude
  unfold toRat
  split
  · rw [abs_neg, abs_of_nonneg hnonneg]
  · rw [abs_of_nonneg hnonneg]

theorem IsFinite.abs_toRat_lt (h : x.IsFinite) : |x.toRat| < limit := by
  rw [abs_toRat]
  exact magnitudeValue_lt_limit h

theorem magnitude_eq_zero_iff : x.magnitude = 0 ↔ x.toRat = 0 := by
  have hzero : x.toRat = 0 ↔ |x.toRat| = 0 := abs_eq_zero.symm
  rw [hzero, abs_toRat, magnitudeValue_eq_zero_iff, Fin.ext_iff, Fin.val_zero]

/-- The number has been rounded to the double. -/
structure Rounds (q : ℚ) (x : Binary64) : Prop where
  negative : q < 0 → x.negative = true
  positive : 0 < q → x.negative = false
  magnitude : (x.magnitude : ℕ) = roundMagnitude |q|

theorem Rounds.isFinite_iff (h : Rounds q x) : x.IsFinite ↔ |q| < limit := by
  unfold IsFinite
  rw [h.magnitude, roundMagnitude_lt_iff (abs_nonneg q)]

theorem Rounds.abs_toRat_eq (h : Rounds q x) (hx : x.IsFinite) : |x.toRat| = nearest |q| := by
  rw [abs_toRat, h.magnitude]
  unfold IsFinite at hx
  rw [h.magnitude] at hx
  exact magnitudeValue_round (abs_nonneg q) hx

theorem Rounds.toRat_nonneg (h : Rounds q x) (hq : 0 ≤ q) (hx : x.IsFinite) : 0 ≤ x.toRat := by
  by_contra hneg
  have hnegative := negative_of_toRat_neg (not_le.mp hneg)
  rcases eq_or_lt_of_le hq with rfl | hpos
  · have habs := h.abs_toRat_eq hx
    simp only [abs_zero, nearest, zero_div, roundHalfEven] at habs
    norm_num at habs
    exact hneg habs.ge
  · rw [h.positive hpos] at hnegative
    cases hnegative

/-- What is not negative and too large for a double is rounded to infinity. -/
theorem Rounds.eq_infinity (h : Rounds q x) (hq : 0 ≤ q) (hx : ¬ x.IsFinite) :
    x = infinity false := by
  have hpos : 0 < q := by
    rcases eq_or_lt_of_le hq with rfl | hpos
    · exact absurd (h.isFinite_iff.mpr (by rw [abs_zero, limit_eq]; positivity)) hx
    · exact hpos
  have hmagnitude := h.magnitude
  have hnegative := h.positive hpos
  unfold IsFinite at hx
  have hle : roundMagnitude |q| ≤ infinite := by
    unfold roundMagnitude
    split
    · decide
    · exact min_le_right _ _
  obtain ⟨negative, magnitude⟩ := x
  cases hnegative
  unfold infinity
  congr 1
  exact Fin.ext (by simp only at *; omega)

theorem rounds_round {negative : Bool} (hneg : q < 0 → negative = true)
    (hpos : 0 < q → negative = false) : Rounds q (round negative q) :=
  ⟨hneg, hpos, rfl⟩

theorem ofRat_rounds (q : ℚ) : Rounds q (ofRat q) :=
  rounds_round (by simp) (by simpa using le_of_lt)

theorem add_rounds (hx : x.IsFinite) (hy : y.IsFinite) : Rounds (x.toRat + y.toRat) (add x y) := by
  unfold add
  rw [if_neg (not_or.mpr ⟨hx.not_isNaN, hy.not_isNaN⟩), if_pos ⟨hx, hy⟩]
  refine rounds_round (fun h => ?_) fun h => ?_
  · rw [if_neg h.ne, decide_eq_true h]
  · rw [if_neg h.ne', decide_eq_false h.not_gt]

theorem neg_isFinite_iff : x.neg.IsFinite ↔ x.IsFinite := Iff.rfl

theorem toRat_neg (x : Binary64) : x.neg.toRat = -x.toRat := by
  unfold toRat neg
  cases x.negative with
  | true => simp
  | false => simp

theorem sub_rounds (hx : x.IsFinite) (hy : y.IsFinite) : Rounds (x.toRat - y.toRat) (sub x y) := by
  rw [sub_eq_add_neg, ← toRat_neg]
  exact add_rounds hx (neg_isFinite_iff.mpr hy)

/-- The sign of a product or a quotient. -/
theorem rounds_xor {r : ℚ} (hneg : r < 0 ↔ x.toRat < 0 ∧ 0 < y.toRat ∨ 0 < x.toRat ∧ y.toRat < 0)
    (hpos : 0 < r ↔ x.toRat < 0 ∧ y.toRat < 0 ∨ 0 < x.toRat ∧ 0 < y.toRat) :
    Rounds r (round (x.negative ^^ y.negative) r) := by
  refine rounds_round (fun h => ?_) fun h => ?_
  · rcases hneg.mp h with ⟨hx, hy⟩ | ⟨hx, hy⟩
    · simp [negative_of_toRat_neg hx, negative_of_toRat_pos hy]
    · simp [negative_of_toRat_pos hx, negative_of_toRat_neg hy]
  · rcases hpos.mp h with ⟨hx, hy⟩ | ⟨hx, hy⟩
    · simp [negative_of_toRat_neg hx, negative_of_toRat_neg hy]
    · simp [negative_of_toRat_pos hx, negative_of_toRat_pos hy]

theorem mul_rounds (hx : x.IsFinite) (hy : y.IsFinite) : Rounds (x.toRat * y.toRat) (mul x y) := by
  unfold mul
  rw [if_neg (not_or.mpr ⟨hx.not_isNaN, hy.not_isNaN⟩), if_pos ⟨hx, hy⟩]
  refine rounds_xor ?_ ?_
  · rw [mul_neg_iff, or_comm]
  · rw [mul_pos_iff, or_comm]

theorem div_rounds (hx : x.IsFinite) (hy : y.IsFinite) (hzero : y.toRat ≠ 0) :
    Rounds (x.toRat / y.toRat) (div x y) := by
  unfold div
  rw [if_neg (not_or.mpr ⟨hx.not_isNaN, hy.not_isNaN⟩), if_neg (not_not.mpr hx),
    if_neg (not_not.mpr hy), if_neg (mt magnitude_eq_zero_iff.mp hzero)]
  refine rounds_xor ?_ ?_
  · rw [div_neg_iff, or_comm]
  · rw [div_pos_iff, or_comm]

theorem lt_iff (hx : x.IsFinite) (hy : y.IsFinite) : lt x y = true ↔ x.toRat < y.toRat := by
  unfold lt
  rw [if_neg (not_or.mpr ⟨hx.not_isNaN, hy.not_isNaN⟩), if_pos ⟨hx, hy⟩, decide_eq_true_eq]

theorem le_iff (hx : x.IsFinite) (hy : y.IsFinite) : le x y = true ↔ x.toRat ≤ y.toRat := by
  unfold le
  rw [if_neg (not_or.mpr ⟨hx.not_isNaN, hy.not_isNaN⟩), if_pos ⟨hx, hy⟩, decide_eq_true_eq]

/-! ### Infinities and what is no number are passed on -/

theorem not_isFinite_infinity (negative : Bool) : ¬ (infinity negative).IsFinite := lt_irrefl _

theorem not_isNaN_infinity (negative : Bool) : ¬ (infinity negative).IsNaN := lt_irrefl _

theorem not_isFinite_nan : ¬ nan.IsFinite := by decide

theorem isFinite_of_add (h : (add x y).IsFinite) : x.IsFinite ∧ y.IsFinite := by
  unfold add at h
  split at h
  · exact absurd h not_isFinite_nan
  · split at h
    · assumption
    · rename_i hboth
      split at h
      · rename_i hx
        exact ⟨hx, h⟩
      · rename_i hx
        split at h
        · exact absurd h hx
        · exact absurd h not_isFinite_nan

theorem isFinite_of_mul (h : (mul x y).IsFinite) : x.IsFinite ∧ y.IsFinite := by
  unfold mul at h
  split at h
  · exact absurd h not_isFinite_nan
  · split at h
    · assumption
    · split at h
      · exact absurd h not_isFinite_nan
      · exact absurd h (not_isFinite_infinity _)

theorem isFinite_of_div (h : (div x y).IsFinite) : x.IsFinite := by
  unfold div at h
  split at h
  · exact absurd h not_isFinite_nan
  · split at h
    · split at h
      · exact absurd h (not_isFinite_infinity _)
      · exact absurd h not_isFinite_nan
    · rename_i hx
      exact not_not.mp hx

/-! ### Bounds by powers of two -/

theorem Rounds.le {k : ℤ} (h : Rounds q x) (hk : -1074 ≤ k) (hq : 2 ^ k ≤ q) (hx : x.IsFinite) :
    2 ^ k ≤ x.toRat := by
  have hpos := (zpow_pos (by norm_num) k).trans_le hq
  rw [← abs_of_nonneg (h.toRat_nonneg hpos.le hx), h.abs_toRat_eq hx, abs_of_pos hpos]
  exact le_nearest hk hq

/-- A finite number of at most a power of two, with either sign. -/
structure UpTo (k : ℤ) (x : Binary64) : Prop where
  finite : x.IsFinite
  le : |x.toRat| ≤ 2 ^ k

theorem zpow_lt_limit {k : ℤ} (hk : k ≤ 1023) : (2 : ℚ) ^ k < limit := by
  refine (zpow_le_zpow_right₀ (by norm_num) hk).trans_lt ?_
  have hpower : (2 : ℚ) ^ (1023 : ℤ) = 2 ^ 53 * 2 ^ 970 := by
    rw [← pow_add, show (1023 : ℤ) = (53 + 970 : ℕ) by norm_num, zpow_natCast]
  rw [hpower, limit_eq]
  exact mul_lt_mul_of_pos_right (by norm_num) (by positivity)

theorem Rounds.upTo {k : ℤ} (h : Rounds q x) (hlo : -1074 ≤ k) (hhi : k ≤ 1023)
    (hle : |q| ≤ 2 ^ k) : UpTo k x := by
  have hfinite := h.isFinite_iff.mpr (hle.trans_lt (zpow_lt_limit hhi))
  refine ⟨hfinite, ?_⟩
  rw [h.abs_toRat_eq hfinite]
  exact nearest_le hlo (abs_nonneg q) hle

theorem UpTo.mono {k l : ℤ} (h : UpTo k x) (hkl : k ≤ l) : UpTo l x :=
  ⟨h.finite, h.le.trans (zpow_le_zpow_right₀ (by norm_num) hkl)⟩

theorem UpTo.add {k : ℤ} (hx : UpTo k x) (hy : UpTo k y) (hlo : -1075 ≤ k) (hhi : k ≤ 1022) :
    UpTo (k + 1) (add x y) := by
  refine (add_rounds hx.finite hy.finite).upTo (by omega) (by omega) ?_
  calc |x.toRat + y.toRat| ≤ |x.toRat| + |y.toRat| := abs_add_le _ _
    _ ≤ 2 ^ k + 2 ^ k := add_le_add hx.le hy.le
    _ = 2 ^ (k + 1) := by
      rw [zpow_add_one₀ (by norm_num)]
      ring

theorem UpTo.div {k l : ℤ} (hx : UpTo k x) (hy : y.IsFinite) (hle : 2 ^ l ≤ y.toRat)
    (hlo : -1074 ≤ k - l) (hhi : k - l ≤ 1023) : UpTo (k - l) (div x y) := by
  have hpos : 0 < y.toRat := (zpow_pos (by norm_num) l).trans_le hle
  refine (div_rounds hx.finite hy hpos.ne').upTo hlo hhi ?_
  rw [abs_div, abs_of_pos hpos, zpow_sub₀ (by norm_num)]
  exact div_le_div₀ (by positivity) hx.le (by positivity) hle

/-- Not negative, but perhaps infinite. -/
def NonNegative (x : Binary64) : Prop := x.IsFinite ∧ 0 ≤ x.toRat ∨ x = infinity false

theorem Rounds.nonNegative (h : Rounds q x) (hq : 0 ≤ q) : NonNegative x := by
  by_cases hx : x.IsFinite
  · exact .inl ⟨hx, h.toRat_nonneg hq hx⟩
  · exact .inr (h.eq_infinity hq hx)

theorem NonNegative.mul (hx : x.IsFinite) (hpos : 0 < x.toRat) (hy : NonNegative y) :
    NonNegative (mul x y) := by
  rcases hy with ⟨hfinite, hnonneg⟩ | rfl
  · exact (mul_rounds hx hfinite).nonNegative (mul_nonneg hpos.le hnonneg)
  · refine .inr ?_
    unfold Binary64.mul
    rw [if_neg (not_or.mpr ⟨hx.not_isNaN, not_isNaN_infinity _⟩),
      if_neg fun h => not_isFinite_infinity _ h.2, if_neg, negative_of_toRat_pos hpos]
    · rfl
    · exact not_or.mpr ⟨mt magnitude_eq_zero_iff.mp hpos.ne', by decide⟩

/-- What is less than a bounded number, but not negative, is bounded. -/
theorem UpTo.of_lt {k : ℤ} (hx : NonNegative x) (hy : UpTo k y) (h : lt x y = true) :
    UpTo k x := by
  have hne : y ≠ infinity false := fun h => not_isFinite_infinity false (h ▸ hy.finite)
  rcases hx with ⟨hfinite, hnonneg⟩ | rfl
  · refine ⟨hfinite, ?_⟩
    rw [abs_of_nonneg hnonneg]
    exact ((lt_iff hfinite hy.finite).mp h).le.trans ((le_abs_self _).trans hy.le)
  · unfold lt at h
    rw [if_neg (not_or.mpr ⟨not_isNaN_infinity _, hy.finite.not_isNaN⟩),
      if_neg fun h => not_isFinite_infinity _ h.1] at h
    have hsign : infinity false ≠ infinity true := by decide
    simp [hne, hsign] at h

/-! ### Dividing by an integer -/

theorem ofRat_int {n : ℤ} (hn : 1 ≤ n) :
    (ofRat n).IsFinite ∧ 1 ≤ (ofRat n).toRat ∨ ofRat n = infinity false := by
  have hone : (2 : ℚ) ^ (0 : ℤ) ≤ n := by
    rw [zpow_zero]
    exact_mod_cast hn
  by_cases hfinite : (ofRat n).IsFinite
  · have hle := (ofRat_rounds n).le (by norm_num) hone hfinite
    rw [zpow_zero] at hle
    exact .inl ⟨hfinite, hle⟩
  · exact .inr ((ofRat_rounds n).eq_infinity (le_trans (by positivity) hone) hfinite)

theorem div_infinity (hx : x.IsFinite) (negative : Bool) :
    div x (infinity negative) = zero (x.negative ^^ negative) := by
  unfold div
  rw [if_neg (not_or.mpr ⟨hx.not_isNaN, not_isNaN_infinity _⟩), if_neg (not_not.mpr hx),
    if_pos (not_isFinite_infinity _)]
  rfl

theorem isFinite_zero (negative : Bool) : (zero negative).IsFinite := by
  change 0 < infinite
  decide

theorem upTo_zero (k : ℤ) (negative : Bool) : UpTo k (zero negative) := by
  have hvalue : (zero negative).toRat = 0 := magnitude_eq_zero_iff.mp rfl
  refine ⟨isFinite_zero negative, ?_⟩
  rw [hvalue, abs_zero]
  positivity

theorem UpTo.div_int {k : ℤ} (hx : UpTo k x) {n : ℤ} (hn : 1 ≤ n) (hlo : -1074 ≤ k)
    (hhi : k ≤ 1023) : UpTo k (Binary64.div x (ofRat n)) := by
  rcases ofRat_int hn with ⟨hfinite, hone⟩ | hinfinite
  · have h := @UpTo.div _ _ k 0 hx hfinite (by rwa [zpow_zero]) (by omega) (by omega)
    rwa [Int.sub_zero] at h
  · rw [hinfinite, div_infinity hx.finite]
    exact upTo_zero k _

theorem isFinite_div_int {n : ℤ} (hn : 1 ≤ n) : (div x (ofRat n)).IsFinite ↔ x.IsFinite := by
  refine ⟨isFinite_of_div, fun hx => ?_⟩
  rcases ofRat_int hn with ⟨hfinite, hone⟩ | hinfinite
  · refine (div_rounds hx hfinite (by positivity)).isFinite_iff.mpr
      (lt_of_le_of_lt ?_ hx.abs_toRat_lt)
    rw [abs_div]
    exact div_le_self (abs_nonneg _) (hone.trans (le_abs_self _))
  · rw [hinfinite, div_infinity hx]
    exact (upTo_zero 0 _).finite

end Operations

end Binary64

end Promscale.Lib
